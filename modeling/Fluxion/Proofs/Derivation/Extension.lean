import Fluxion.Proofs.Derivation.Orders
import Fluxion.Proofs.Explanation.Condensing
import Fluxion.Scalar.Binary64

/-!
# Further derivatives

Derivatives are taken, and explained, one after the other. What is done for an order depends on the
orders before it and on none that come after it. Whoever asks for a higher order is therefore given
the same derivatives first, with the same numbered steps, and meets the same fault.

The lines of an explanation may be placed with a look at the line that follows, which may belong to
a later order. That the look decides nothing is said by `arrangeAhead_eq`.
-/

namespace Fluxion

namespace Explainer

variable {α : Type} [Scalar α] [Numeral α] (x : Explainer)

/-- An explanation goes on from the last derivative that was explained. -/
theorem all_append (order : Nat) (t : Term α) (ds es : List (Term α)) :
    x.all order t (ds ++ es) =
      x.all order t ds ++ x.all (order + ds.length) (ds.getLast?.getD t) es := by
  induction ds generalizing order t with
  | nil => rfl
  | cons d ds ih =>
    have hlength : order + 1 + ds.length = order + (d :: ds).length := by
      rw [List.length_cons]
      omega
    rw [List.cons_append, all, ih, all, List.getLast?_cons, Option.getD_some, hlength,
      List.append_assoc, List.cons_append]

end Explainer

namespace Outline

variable {α : Type}

/-- Whether the line is the rule for the whole term, where it is due. -/
def State.takesNote (s : State) : Line α → Bool
  | .rule _ _ depth => depth == 0 && s.expectsRule
  | _ => false

/-- Whether the line is a note about the whole term. -/
def isTopNote : Line α → Bool
  | .note _ depth => depth == 0
  | _ => false

/-- Places lines with a look at the line that follows: the rule for the whole term takes the note
along that states its outcome. -/
def arrangeAhead (s : State) : List (Line α) → List (Entry α)
  | [] => []
  | [l] => ((s.meeting l).place l).2
  | l :: l' :: rest =>
    let (s₁, entries) := (s.meeting l).place l
    if s.takesNote l && isTopNote l' then
      let (s₂, noted) := s₁.indent 1 l'
      entries ++ noted ++ arrangeAhead s₂ rest
    else
      entries ++ arrangeAhead s₁ (l' :: rest)

theorem arrangeFrom_cons {s s' : State} {l : Line α} {entries : List (Entry α)}
    (h : (s.meeting l).place l = (s', entries)) (rest : List (Line α)) :
    arrangeFrom s (l :: rest) = entries ++ arrangeFrom s' rest := by
  rw [arrangeFrom, h]

theorem clear_of_takesNote {s : State} {l : Line α} (h : s.takesNote l = true) :
    Clear ((s.meeting l).place l).1 := by
  cases l with
  | rule name formula depth =>
    obtain ⟨hdepth, hdue⟩ := Bool.and_eq_true_iff.1 h
    obtain rfl : depth = 0 := eq_of_beq hdepth
    rw [State.place, if_pos ⟨rfl, hdue⟩]
    split <;> rfl
  | _ => cases h

/-- A note about the whole term comes below the step, whether or not the rule takes it along. -/
theorem place_of_isTopNote {s : State} {l : Line α} (hclear : Clear s) (h : isTopNote l = true) :
    (s.meeting l).place l = s.indent 1 l := by
  obtain ⟨context, skipped, step, afterStep⟩ := s
  cases hclear
  cases l with
  | note text depth =>
    obtain rfl : depth = 0 := eq_of_beq h
    rfl
  | _ => cases h

/-- What follows a line has no influence on where the line comes to stand. -/
theorem arrangeAhead_eq (s : State) (lines : List (Line α)) :
    arrangeAhead s lines = arrangeFrom s lines := by
  fun_induction arrangeAhead s lines with
  | case1 s => rfl
  | case2 s l => exact (List.append_nil _).symm
  | case3 s l l' rest s₁ entries hplace htakes s₂ noted hnoted ih =>
    obtain ⟨hrule, hnote⟩ := Bool.and_eq_true_iff.1 htakes
    have hclear := clear_of_takesNote hrule
    rw [hplace] at hclear
    have hbelow := (place_of_isTopNote hclear hnote).trans hnoted
    rw [ih, arrangeFrom_cons hplace, arrangeFrom_cons hbelow, List.append_assoc]
  | case4 s l l' rest s₁ entries hplace htakes ih => rw [ih, arrangeFrom_cons hplace]

end Outline

/-- Lines are numbered without regard to those that follow them. -/
theorem Line.outline_prefix {α : Type} (lines later : List (Line α)) :
    Line.outline lines <+: Line.outline (lines ++ later) := by
  unfold Line.outline Outline.arrange
  rw [Outline.arrangeFrom_append, List.map_append]
  exact List.prefix_append _ _

/-- The second outcome goes on from the first. If it is a success, so is the first, and the two are
related; and a failure of the first is a failure of both. -/
structure Extends {ε β γ : Type} (related : β → γ → Prop) (x : Except ε β) (y : Except ε γ) :
    Prop where
  success : ∀ c, y = .ok c → ∃ b, x = .ok b ∧ related b c
  failure : ∀ e, x = .error e → y = .error e

namespace Extends

variable {ε β γ δ : Type} {related : β → γ → Prop}

theorem failed (e : ε) : Extends related (.error e) (.error e) where
  success _ h := by cases h
  failure _ h := by
    cases h
    rfl

/-- Both go on from the same stage. -/
theorem bind {s : Except ε δ} {f : δ → Except ε β} {g : δ → Except ε γ}
    (h : ∀ a, s = .ok a → Extends related (f a) (g a)) : Extends related (s >>= f) (s >>= g) := by
  cases s with
  | error e => exact .failed e
  | ok a => exact h a rfl

/-- The first is finished, whatever the second goes on with. -/
theorem finished {s : Except ε δ} {b : β} {g : δ → γ} (h : ∀ a, s = .ok a → related b (g a)) :
    Extends related (.ok b) (s >>= fun a => .ok (g a)) where
  success c hc := by
    cases s with
    | error e => cases hc
    | ok a =>
      cases hc
      exact ⟨b, rfl, h a rfl⟩
  failure e he := by cases he

end Extends

namespace Derivation

variable {α : Type} [Scalar α] {options : Options} {var : String}

/-- Further derivatives are taken from the last one before them. -/
theorem take_append (t : Term α) (order count more : Nat) :
    take options var t order (count + more) =
      take options var t order count >>= fun first =>
        take options var (first.getLast?.getD t) (order + count) more >>= fun rest =>
          .ok (first ++ rest) := by
  induction count generalizing t order with
  | zero =>
    rw [Nat.zero_add]
    change _ = take options var t order more >>= pure
    exact (bind_pure _).symm
  | succ count ih =>
    rw [Nat.succ_add, take, take]
    split
    · rfl
    · split
      · rfl
      · have horder : order + 1 + count = order + (count + 1) := by omega
        rw [ih, horder, bind_assoc, bind_assoc]
        refine bind_congr fun rest => ?_
        change _ = take options var (((next options var t) :: rest).getLast?.getD t) _ more >>= _
        rw [List.getLast?_cons, bind_assoc]
        rfl

/-- As many derivatives are taken as are asked for. -/
theorem length_take {t : Term α} {order count : Nat} {orders : List (Term α)}
    (h : take options var t order count = .ok orders) : orders.length = count := by
  induction count generalizing t order orders with
  | zero =>
    cases h
    rfl
  | succ count ih =>
    obtain ⟨-, -, rest, hrest, rfl⟩ := take_succ_eq_ok.1 h
    rw [List.length_cons, ih hrest]

/-- The order that is asked for decides about nothing but the order, if it is one that may be asked
for. -/
theorem validate_of_le {expression var : String} {n m : Int} (hn : 1 ≤ n) (hle : n ≤ m)
    (hm : m ≤ options.maxOrder) :
    Request.validate ⟨expression, var, n⟩ options =
      (Request.validate ⟨expression, var, m⟩ options).map fun p => (p.1, n.toNat) := by
  have hpositive : ¬ n < 1 ∧ ¬ m < 1 := by omega
  have hallowed : ¬ (options.maxOrder : Int) < n ∧ ¬ (options.maxOrder : Int) < m := by omega
  unfold Request.validate
  dsimp only [Request.trimmedVariable]
  rw [if_neg hpositive.1, if_neg hpositive.2, if_neg hallowed.1, if_neg hallowed.2]
  split
  · rfl
  · split
    · rfl
    · split <;> rfl

variable [Numeral α]

/-- The steps of the first derivatives come first. -/
theorem steps_present_prefix (options : Options) (var : String) (t : Term α)
    (first rest : List (Term α)) :
    (present options var t first).steps <+: (present options var t (first ++ rest)).steps := by
  unfold present
  dsimp only
  split
  · rw [Explainer.all_append]
    exact Line.outline_prefix _ _
  · exact List.prefix_refl _

/-- A higher order only extends the answer. If it is computed, so is every lower order, with the same
term, the derivatives up to that order, and the steps that come first; and if a lower order cannot be
computed, the higher one fails in the same way. -/
theorem compute_extends {expression var : String} {n m : Int} (hn : 1 ≤ n) (hle : n ≤ m)
    (hm : m ≤ options.maxOrder) :
    (∀ d : Derivation α, compute ⟨expression, var, m⟩ options = .ok d →
      ∃ d' : Derivation α, compute ⟨expression, var, n⟩ options = .ok d' ∧
        d'.term = d.term ∧ (d'.orders.length : Int) = n ∧
        d'.orders = d.orders.take n.toNat ∧ d'.steps <+: d.steps) ∧
    (∀ failure : Failure,
      (compute ⟨expression, var, n⟩ options : Except Failure (Derivation α)) = .error failure →
      (compute ⟨expression, var, m⟩ options : Except Failure (Derivation α)) = .error failure) := by
  suffices h : Extends
      (fun d' d : Derivation α => d'.term = d.term ∧ (d'.orders.length : Int) = n ∧
        d'.orders = d.orders.take n.toNat ∧ d'.steps <+: d.steps)
      (compute ⟨expression, var, n⟩ options) (compute ⟨expression, var, m⟩ options) from
    ⟨h.success, h.failure⟩
  unfold compute
  rw [validate_of_le hn hle hm]
  cases hvalid : Request.validate ⟨expression, var, m⟩ options with
  | error failure => exact .failed failure
  | ok p =>
    obtain ⟨name, order⟩ := p
    obtain ⟨-, horder, -⟩ := validate_spec hvalid
    have hmore : order = n.toNat + (m - n).toNat := by
      change (order : Int) = m at horder
      omega
    change Extends _ (readTerm options expression >>= _) (readTerm options expression >>= _)
    refine .bind fun t _ => ?_
    rw [hmore]
    dsimp only
    rw [take_append, bind_assoc]
    refine .bind fun first hfirst => ?_
    rw [bind_assoc]
    refine .finished fun rest _ => ?_
    have hlength := length_take hfirst
    refine ⟨rfl, ?_, ?_, steps_present_prefix options name t first rest⟩
    · change (first.length : Int) = n
      omega
    · change first = (first ++ rest).take n.toNat
      rw [← hlength, List.take_left']
      rfl

/-- The first derivative of `x^4` is explained in the same steps, whether or not the second one is
asked for, and `1/0` is refused at either order. -/
theorem compute_extends_power :
    (∃ d d' : Derivation Float, compute ⟨"x^4", "x", 2⟩ {} = .ok d ∧
      compute ⟨"x^4", "x", 1⟩ {} = .ok d' ∧ d'.orders = d.orders.take 1 ∧ d'.steps <+: d.steps) ∧
    ∃ failure, (compute ⟨"1/0", "x", 1⟩ {} : Except Failure (Derivation Float)) = .error failure ∧
      (compute ⟨"1/0", "x", 2⟩ {} : Except Failure (Derivation Float)) = .error failure := by
  have hle : (1 : Int) ≤ 2 := by decide
  have hallowed : (2 : Int) ≤ ({} : Options).maxOrder := by decide
  constructor
  · have hok : (compute ⟨"x^4", "x", 2⟩ {} :
        Except Failure (Derivation Float)).toOption.isSome = true := by decide +kernel
    cases hd : (compute ⟨"x^4", "x", 2⟩ {} : Except Failure (Derivation Float)) with
    | error failure =>
      rw [hd] at hok
      cases hok
    | ok d =>
      obtain ⟨d', hd', -, -, horders, hsteps⟩ :=
        (compute_extends (Int.le_refl 1) hle hallowed).1 d hd
      exact ⟨d, d', rfl, hd', horders, hsteps⟩
  · have hrefused : (compute ⟨"1/0", "x", 1⟩ {} :
        Except Failure (Derivation Float)).toOption.isSome = false := by decide +kernel
    cases hd : (compute ⟨"1/0", "x", 1⟩ {} : Except Failure (Derivation Float)) with
    | error failure =>
      exact ⟨failure, rfl, (compute_extends (Int.le_refl 1) hle hallowed).2 failure hd⟩
    | ok d =>
      rw [hd] at hrefused
      cases hrefused

end Derivation

end Fluxion
