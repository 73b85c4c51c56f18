import Fluxion.Proofs.Derivation.Extension

/-!
# Presentation

Two options are a matter of presentation: the style of exponents, and whether the derivatives are
explained. They have no influence on what is computed, nor on which fault is reported. The result is
the text of the last derivative, and the last step states it.

The explanation is written down after the derivatives are taken. That each derivative could as well
be explained while it is taken is said by `compute_eq_narrated`.
-/

namespace Fluxion

/-- The options with another presentation. -/
def Options.presented (options : Options) (style : ExponentStyle) (steps : Bool) : Options :=
  { options with exponentStyle := style, steps := steps }

namespace Explainer

variable {α : Type} [Scalar α] [Numeral α] (x : Explainer)

/-- An explanation ends with the derivative of the highest order. -/
theorem exists_all_concat (order : Nat) (t : Term α) (ds : List (Term α)) (d : Term α) :
    ∃ lines, x.all order t (ds ++ [d]) = lines ++ [x.finish (order + ds.length) d] := by
  refine ⟨x.all order t ds ++ x.begin (order + ds.length) (ds.getLast?.getD t), ?_⟩
  rw [all_append, List.append_assoc]
  rfl

end Explainer

/-- The text of the step that states a result. -/
def resultStep (number order : Nat) (label expr : String) : String :=
  s!"{number}. Result of the {ordinal order} derivative: {label} = {expr}"

theorem Entry.text_numbered_result {α : Type} (number order : Nat) (label expr : String) :
    (Entry.numbered number (.result order label expr : Line α)).text =
      resultStep number order label expr := by
  have hjoint : (". " ++ "Result of the " : String) = ". Result of the " := rfl
  unfold resultStep
  rw [← hjoint]
  change toString number ++ ". " ++ ("Result of the " ++ ordinal order ++ " derivative: " ++ label ++
    " = " ++ expr) = _
  simp only [String.append_assoc]
  rfl

/-- A result that is stated last is the last step. -/
theorem Line.getLast?_outline_result {α : Type} (lines : List (Line α)) (order : Nat)
    (label expr : String) :
    ∃ number, (Line.outline (lines ++ [.result order label expr])).getLast? =
      some (resultStep number order label expr) := by
  have hplaced (s : Outline.State) :
      Outline.arrangeFrom s [(.result order label expr : Line α)] =
        [.numbered (s.step + 1) (.result order label expr)] := rfl
  refine ⟨(Outline.State.initial.after lines).step + 1, ?_⟩
  unfold Line.outline Outline.arrange
  rw [Outline.arrangeFrom_append, hplaced, List.map_append, List.map_singleton,
    List.getLast?_concat, Entry.text_numbered_result]

namespace Derivation

variable {α : Type} [Scalar α] [Numeral α]

/-- The derivation is presented as the options ask for: its result is the text of the last
derivative, and there are steps if they are asked for, the last of which states the result. -/
structure Shows (options : Options) (var : String) (d : Derivation α) : Prop where
  result : ∃ last, d.orders.getLast? = some last ∧ d.result = last.text options.exponentStyle
  steps_eq_nil_iff : d.steps = [] ↔ options.steps = false
  last_step : options.steps = true → ∃ number, d.steps.getLast? =
    some (resultStep number d.orders.length (derivativeLabel var d.orders.length) d.result)

theorem shows_present (options : Options) (var : String) (t : Term α) (ds : List (Term α))
    (d : Term α) : (present options var t (ds ++ [d])).Shows options var := by
  have hlast : (ds ++ [d]).getLast? = some d := List.getLast?_concat
  have hlength : 1 + ds.length = (ds ++ [d]).length := by
    rw [List.length_append, List.length_singleton, Nat.add_comm]
  have hstep (hsteps : options.steps = true) : ∃ number,
      (present options var t (ds ++ [d])).steps.getLast? =
        some (resultStep number (ds ++ [d]).length (derivativeLabel var (ds ++ [d]).length)
          (d.text options.exponentStyle)) := by
    obtain ⟨lines, hlines⟩ :=
      (Explainer.mk var options.exponentStyle).exists_all_concat 1 t ds d
    unfold present
    dsimp only
    rw [if_pos hsteps, hlines, hlength]
    exact Line.getLast?_outline_result lines _ _ _
  have hresult : (present options var t (ds ++ [d])).result = d.text options.exponentStyle := by
    unfold present
    dsimp only
    rw [hlast]
    rfl
  refine ⟨⟨d, hlast, hresult⟩, ?_, ?_⟩
  · cases hsteps : options.steps with
    | false => simp [present, hsteps]
    | true =>
      obtain ⟨number, hnumber⟩ := hstep hsteps
      refine iff_of_false (fun hnil => ?_) (by decide)
      rw [hnil] at hnumber
      cases hnumber
  · intro hsteps
    rw [hresult]
    exact hstep hsteps

/-- What is computed of a request before anything is presented: the variable, the term that is read,
and its derivatives. -/
def solve (request : Request) (options : Options) :
    Except Failure (String × Term α × List (Term α)) := do
  let (var, order) ← request.validate options
  let t ← readTerm options request.expression
  let orders ← take options var t 1 order
  .ok (var, t, orders)

/-- Presentation comes last. -/
theorem compute_eq_solve (request : Request) (options : Options) :
    (compute request options : Except Failure (Derivation α)) =
      (solve request options).map fun p => present options p.1 p.2.1 p.2.2 := by
  unfold compute solve
  cases request.validate options with
  | error failure => rfl
  | ok p =>
    change (readTerm options request.expression >>= _) = Except.map _ (readTerm options _ >>= _)
    cases (readTerm options request.expression : Except Failure (Term α)) with
    | error failure => rfl
    | ok t =>
      change (take options p.1 t 1 p.2 >>= _) = Except.map _ (take options p.1 t 1 p.2 >>= _)
      cases take options p.1 t 1 p.2 with
      | error failure => rfl
      | ok orders => rfl

omit [Numeral α] in
theorem take_presented (options : Options) (style : ExponentStyle) (steps : Bool) (var : String)
    (t : Term α) (order count : Nat) :
    take (options.presented style steps) var t order count = take options var t order count := by
  induction count generalizing t order with
  | zero => rfl
  | succ count ih =>
    have hnext : next (options.presented style steps) var t = next options var t := rfl
    rw [take, take, hnext, ih]
    rfl

/-- What is computed does not depend on the presentation. -/
theorem solve_presented (request : Request) (options : Options) (style : ExponentStyle)
    (steps : Bool) :
    (solve request (options.presented style steps) :
      Except Failure (String × Term α × List (Term α))) = solve request options := by
  have hvalidate : request.validate (options.presented style steps) = request.validate options := rfl
  have hread : (readTerm (options.presented style steps) request.expression :
      Except Failure (Term α)) = readTerm options request.expression := rfl
  unfold solve
  simp only [hvalidate, hread, take_presented]

theorem solve_eq_ok {request : Request} {options : Options} {var : String} {t : Term α}
    {orders : List (Term α)} (h : solve request options = .ok (var, t, orders)) :
    var = request.trimmedVariable ∧ orders ≠ [] := by
  obtain ⟨⟨name, order⟩, hvalid, h⟩ := bind_eq_ok.1 h
  obtain ⟨u, -, h⟩ := bind_eq_ok.1 h
  obtain ⟨ds, hds, h⟩ := bind_eq_ok.1 h
  cases h
  obtain ⟨hname, -, horder⟩ := validate_spec hvalid
  refine ⟨hname, ?_⟩
  rintro rfl
  exact horder (length_take hds).symm

/-- Takes derivatives as `take` does. If steps are asked for, each derivative is announced before it
is taken, and stated after its checks; `lines` are those that were written before. -/
def narrate (options : Options) (x : Explainer) (t : Term α) (order : Nat) (lines : List (Line α)) :
    (count : Nat) → Except Failure (List (Term α) × List (Line α))
  | 0 => .ok ([], lines)
  | count + 1 =>
    let announced := if options.steps then lines ++ x.begin order t else lines
    let d := next options x.var t
    if d.dividesByZero then
      .error (.underivable .divisionByZero [])
    else if options.maxNodes < d.size then
      .error (.underivable (.resultTooLarge order options.maxNodes) [])
    else do
      let stated := if options.steps then announced ++ [x.finish order d] else announced
      let (rest, all) ← narrate options x d (order + 1) stated count
      .ok (d :: rest, all)

/-- Explaining a derivative while it is taken comes to explaining it afterwards. -/
theorem narrate_eq (options : Options) (x : Explainer) (t : Term α) (order : Nat)
    (lines : List (Line α)) (count : Nat) :
    narrate options x t order lines count =
      (take options x.var t order count).map fun orders =>
        (orders, if options.steps then lines ++ x.all order t orders else lines) := by
  induction count generalizing t order lines with
  | zero => simp [narrate, take, Except.map, Explainer.all]
  | succ count ih =>
    rw [narrate, take]
    split
    · rfl
    · split
      · rfl
      · dsimp only
        rw [ih]
        cases take options x.var (next options x.var t) (order + 1) count with
        | error failure => rfl
        | ok rest =>
          cases hsteps : options.steps with
          | false => rfl
          | true =>
            simp [bind, Except.bind, Except.map, Explainer.all]

/-- A request may be answered in one pass, in which every derivative is explained while it is taken. -/
theorem compute_eq_narrated (request : Request) (options : Options) :
    (compute request options : Except Failure (Derivation α)) = (do
      let (var, order) ← request.validate options
      let t ← readTerm options request.expression
      let (orders, lines) ← narrate options ⟨var, options.exponentStyle⟩ t 1 [] order
      .ok ⟨(orders.getLast?.getD t).text options.exponentStyle, t, orders, Line.outline lines⟩) := by
  unfold compute
  refine bind_congr fun p => bind_congr fun t => ?_
  rw [narrate_eq]
  cases take options p.1 t 1 p.2 with
  | error failure => rfl
  | ok orders =>
    cases hsteps : options.steps with
    | false => simp [present, hsteps, bind, Except.bind, Except.map, Line.outline, Outline.arrange,
        Outline.arrangeFrom]
    | true => simp [present, hsteps, bind, Except.bind, Except.map]

/-- Presentation has no influence on what is computed. Whether another style is chosen, or steps are
asked for, the request fails in the same way, or it is answered with the same term and the same
derivatives, each time presented as it was asked for. -/
theorem compute_presented (request : Request) (options : Options) (style : ExponentStyle)
    (steps : Bool) :
    (∃ failure : Failure,
      (compute request options : Except Failure (Derivation α)) = .error failure ∧
      (compute request (options.presented style steps) : Except Failure (Derivation α)) =
        .error failure) ∨
    ∃ d d' : Derivation α, compute request options = .ok d ∧
      compute request (options.presented style steps) = .ok d' ∧
      d'.term = d.term ∧ d'.orders = d.orders ∧
      d.Shows options request.trimmedVariable ∧
      d'.Shows (options.presented style steps) request.trimmedVariable := by
  rw [compute_eq_solve, compute_eq_solve, solve_presented]
  cases hsolve : (solve request options : Except Failure (String × Term α × List (Term α))) with
  | error failure => exact .inl ⟨failure, rfl, rfl⟩
  | ok p =>
    obtain ⟨var, t, orders⟩ := p
    obtain ⟨rfl, horders⟩ := solve_eq_ok hsolve
    obtain ⟨ds, d, rfl⟩ := List.eq_nil_or_concat' orders |>.resolve_left horders
    exact .inr ⟨_, _, rfl, rfl, rfl, rfl, shows_present options _ t ds d,
      shows_present (options.presented style steps) _ t ds d⟩

end Derivation

end Fluxion
