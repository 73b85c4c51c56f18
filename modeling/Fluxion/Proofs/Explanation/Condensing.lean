import Fluxion.Explanation
import Fluxion.Explanation.Outline
import Mathlib.Data.List.Forall2

/-!
# What an outline keeps of an explanation

Lines are arranged in one pass, from top to bottom, but what is dropped is a matter of the term that
is explained: the explanation of every operand that is a monomial is condensed, and everything else is
kept. Each derivative has its own numbered steps.
-/

namespace Fluxion

variable {α : Type}

/-- Whether the line starts a step. -/
def Entry.isNumbered : Entry α → Bool
  | numbered _ _ => true
  | indented _ _ | bare _ => false

namespace Line

/-- Whether the line is kept of the explanation of a monomial at a depth: lines that name operands,
and the derivative of the monomial. -/
def isEssential (depth : Nat) : Line α → Bool
  | operands _ _ _ => true
  | note _ d => d == depth
  | _ => false

/-- The line belongs to the explanation of a term at a depth, and announces none that is not deeper. -/
def Within (depth : Nat) : Line α → Prop
  | rule _ _ d | operands _ _ d | separately _ d | note _ d => depth ≤ d
  | header _ _ _ _ d => depth < d
  | computing _ _ | given _ _ | result _ _ _ | separator => False

end Line

theorem Line.Within.mono {l : Line α} {m n : Nat} (h : l.Within n) (hle : m ≤ n) : l.Within m := by
  cases l <;> simp only [Line.Within] at * <;> omega

namespace Explainer

variable [Scalar α] [Numeral α]

/-- What is kept of the explanation of an operand, if `lines` are kept in case it is no monomial. -/
def condense (x : Explainer) (t : Term α) (depth : Nat) (lines : List (Line α)) : List (Line α) :=
  if t.isMonomial then (x.explain t depth).filter (Line.isEssential depth) else lines

/-- The explanation of a term, with the explanations of operands that are monomials condensed. -/
def digest (x : Explainer) (t : Term α) (depth : Nat) : List (Line α) :=
  x.ruleLines t depth ++
    match t with
    | .sum l r | .difference l r | .product l r | .quotient l r =>
      x.both l r depth (x.condense l (depth + 1) (x.digest l (depth + 1)))
        (x.condense r (depth + 1) (x.digest r (depth + 1)))
    | .power base _ =>
      if Rule.of x.var t == .generalPower then
        x.inner base depth (x.condense base (depth + 1) (x.digest base (depth + 1)))
      else
        []
    | .call _ arg => x.inner arg depth (x.condense arg (depth + 1) (x.digest arg (depth + 1)))
    | .const _ | .symbol _ => []

/-- The lines about one order: the derivative `d` is taken from `t`. -/
def wholeOrder (x : Explainer) (order : Nat) (t d : Term α) : List (Line α) :=
  x.begin order t ++ [x.finish order d]

/-- What is kept of the lines about one order. -/
def digestOrder (x : Explainer) (order : Nat) (t d : Term α) : List (Line α) :=
  (if 1 < order then [.separator] else [])
    ++ .computing order x.var :: .given (derivativeLabel x.var (order - 1)) (t.text x.style)
    :: x.digest t 0 ++ [x.finish order d]

/-- The announcement of the derivatives of both operands of the whole term. -/
def separation (x : Explainer) : Term α → List (Line α)
  | .sum _ _ | .difference _ _ | .product _ _ | .quotient _ _ => [.separately x.var 0]
  | .const _ | .symbol _ | .power _ _ | .call _ _ => []

/-- The lines of one order that start steps. -/
def stepLines (x : Explainer) (order : Nat) (t d : Term α) : List (Line α) :=
  .computing order x.var :: .rule (Rule.of x.var t).name ((Rule.of x.var t).formula x.var) 0
    :: x.separation t ++ [x.finish order d]

/-- The lines about successive orders, from the first on. Each order has the term it is taken from and
its derivative. -/
def orders (x : Explainer) (terms : List (Term α × Term α)) : List (Line α) :=
  (terms.zipIdx 1).flatMap fun p => x.wholeOrder p.2 p.1.1 p.1.2

end Explainer

namespace Outline

/-- The state after some lines. -/
def State.after (s : State) (lines : List (Line α)) : State :=
  lines.foldl (fun s l => ((s.meeting l).place l).1) s

/-- From a state, `kept` is kept of some lines and `steps` starts steps, and the state after them
satisfies `P`. -/
structure Arranges (s : State) (lines kept steps : List (Line α)) (P : State → Prop) : Prop where
  kept_eq : (arrangeFrom s lines).map Entry.line = kept
  steps_eq : ((arrangeFrom s lines).filter Entry.isNumbered).map Entry.line = steps
  after : P (s.after lines)

/-- Nothing is being dropped. -/
def Clear (s : State) : Prop := s.skipped = none

/-- Nothing is being dropped that is less deep than given. -/
def Open (depth : Nat) (s : State) : Prop := ∀ d, s.skipped = some d → depth ≤ d

theorem Clear.toOpen {s : State} (h : Clear s) (depth : Nat) : Open depth s := by
  intro d hd
  rw [h] at hd
  cases hd

theorem Open.mono {s : State} {m n : Nat} (h : Open n s) (hle : m ≤ n) : Open m s :=
  fun d hd => Nat.le_trans hle (h d hd)

theorem arrangeFrom_append (s : State) (a b : List (Line α)) :
    arrangeFrom s (a ++ b) = arrangeFrom s a ++ arrangeFrom (s.after a) b := by
  induction a generalizing s with
  | nil => rfl
  | cons l a ih => simp [arrangeFrom, ih, State.after]

namespace Arranges

variable {s : State} {lines kept steps : List (Line α)} {P Q : State → Prop}

theorem mono (h : Arranges s lines kept steps P) (hP : ∀ s, P s → Q s) :
    Arranges s lines kept steps Q :=
  ⟨h.kept_eq, h.steps_eq, hP _ h.after⟩

theorem nil (h : P s) : Arranges s ([] : List (Line α)) [] [] P := ⟨rfl, rfl, h⟩

/-- Lines are arranged one part after the other. -/
theorem append {lines' kept' steps' : List (Line α)} (h : Arranges s lines kept steps P)
    (h' : ∀ s', P s' → Arranges s' lines' kept' steps' Q) :
    Arranges s (lines ++ lines') (kept ++ kept') (steps ++ steps') Q := by
  obtain ⟨hkept, hsteps, hafter⟩ := h' _ h.after
  refine ⟨?_, ?_, ?_⟩
  · rw [arrangeFrom_append, List.map_append, h.kept_eq, hkept]
  · rw [arrangeFrom_append, List.filter_append, List.map_append, h.steps_eq, hsteps]
  · rw [State.after, List.foldl_append]
    exact hafter

/-- A line that is kept comes before further lines. -/
theorem cons {l : Line α} {steps₁ : List (Line α)} (h : Arranges s [l] [l] steps₁ P)
    (h' : ∀ s', P s' → Arranges s' lines kept steps Q) :
    Arranges s (l :: lines) (l :: kept) (steps₁ ++ steps) Q :=
  h.append h'

/-- One line is arranged as it is placed. -/
theorem single {s' : State} {l : Line α} {entries : List (Entry α)}
    (h : (s.meeting l).place l = (s', entries)) (hP : P s') :
    Arranges s [l] (entries.map Entry.line) ((entries.filter Entry.isNumbered).map Entry.line)
      P := by
  have harrange : arrangeFrom s [l] = entries := by simp [arrangeFrom, h]
  refine ⟨?_, ?_, ?_⟩
  · rw [harrange]
  · rw [harrange]
  · simpa [State.after, h] using hP

theorem number {s₁ : State} {l : Line α} (h : (s.meeting l).place l = s₁.number l)
    (hP : P (s₁.number l).1) : Arranges s [l] [l] [l] P :=
  single h hP

theorem indent {s₁ : State} {levels : Nat} {l : Line α}
    (h : (s.meeting l).place l = s₁.indent levels l) (hP : P (s₁.indent levels l).1) :
    Arranges s [l] [l] [] P :=
  single h hP

theorem drop {s₁ : State} {l : Line α} (h : (s.meeting l).place l = (s₁.drop : _ × List (Entry α)))
    (hP : P s₁) : Arranges s [l] [] [] P :=
  single h hP

theorem keep {s₁ : State} {l : Line α} (h : (s.meeting l).place l = s₁.keep l) :
    Arranges s [l] (if s₁.drops l then [] else [l]) [] fun s' => s'.skipped = s₁.skipped := by
  unfold State.keep at h
  split at h
  · next hdrops =>
    rw [if_pos hdrops]
    exact .drop h rfl
  · next hdrops =>
    rw [if_neg hdrops]
    exact .indent h rfl

end Arranges

/-! ## Single lines -/

section Lines

variable {s : State} {depth : Nat}

theorem meeting_of_pos {l : Line α} (h : 0 < l.depth) : s.meeting l = s :=
  if_neg (Nat.ne_of_gt h)

theorem clear_meeting {l : Line α} (h : Clear s) : Clear (s.meeting l) := by
  unfold State.meeting
  split
  · rfl
  · exact h

theorem drops_of_clear {l : Line α} (h : Clear s) : s.drops l = false := by
  unfold State.drops
  rw [h]
  cases l <;> rfl

/-- Of the explanation of a monomial, all is dropped that is not essential. -/
theorem drops_of_within {l : Line α} (h : s.skipped = some depth) (hl : l.Within depth) :
    s.drops l = !l.isEssential depth := by
  unfold State.drops
  rw [h]
  cases l with
  | computing _ _ | given _ _ | result _ _ _ | separator => exact hl.elim
  | operands _ _ _ => rfl
  | note _ d =>
    have hle : depth ≤ d := hl
    rw [Bool.eq_iff_iff]
    simp only [Line.isEssential, decide_eq_true_eq, Bool.not_eq_true', beq_eq_false_iff_ne]
    omega
  | rule _ _ _ | separately _ _ => exact decide_eq_true hl
  | header _ _ _ _ d => exact decide_eq_true (Nat.le_of_lt hl)

theorem place_rule_of_pos {name formula : String} (hdepth : 0 < depth) :
    s.place (.rule name formula depth : Line α) =
      { s with context := .rule }.keep (.rule name formula depth) :=
  if_neg fun h => Nat.ne_of_gt hdepth h.1

theorem place_separately_of_pos {var : String} (hdepth : 0 < depth) :
    s.place (.separately var depth : Line α) =
      { s with context := .operands }.keep (.separately var depth) :=
  if_neg (Nat.ne_of_gt hdepth)

/-- A line that is neither a header nor at the top is kept where nothing is dropped. -/
theorem arranges_of_clear {s₁ : State} {l : Line α} (h : (s.meeting l).place l = s₁.keep l)
    (hclear : Clear s₁) : Arranges s [l] [l] [] Clear := by
  have hkeep := Arranges.keep h
  rw [drops_of_clear hclear] at hkeep
  exact hkeep.mono fun s' hs' => hs'.trans hclear

theorem arranges_operands {var : String} {named : List (Char × String)} (h : Clear s) :
    Arranges s [.operands var named depth] [(.operands var named depth : Line α)] [] Clear :=
  arranges_of_clear rfl (clear_meeting h)

theorem arranges_note {text : String} (h : Clear s) :
    Arranges s [.note text depth] [(.note text depth : Line α)] [] Clear :=
  arranges_of_clear rfl (clear_meeting h)

theorem arranges_rule {name formula : String} (h : Clear s) (hdepth : 0 < depth) :
    Arranges s [.rule name formula depth] [(.rule name formula depth : Line α)] [] Clear :=
  arranges_of_clear (place_rule_of_pos hdepth) (clear_meeting h)

/-- The rule for the whole term starts a step. -/
theorem arranges_wholeRule {name formula : String} (hcontext : s.context = .wholeTerm)
    (hstep : s.afterStep = false) :
    Arranges s [.rule name formula 0] [.rule name formula 0] [(.rule name formula 0 : Line α)]
      Clear := by
  have hplace : (s.meeting (.rule name formula 0 : Line α)).place (.rule name formula 0) =
      ({ s with skipped := none } : State).number (.rule name formula 0 : Line α) := by
    simp only [State.meeting, Line.depth, State.place, State.expectsRule, hcontext, hstep]
    rfl
  exact .number hplace rfl

theorem arranges_separately {var : String} (h : Clear s) :
    Arranges s [.separately var depth] [(.separately var depth : Line α)]
      (if depth = 0 then [.separately var 0] else []) Clear := by
  have hmeeting : Clear (s.meeting (.separately var depth : Line α)) := clear_meeting h
  rcases Nat.eq_zero_or_pos depth with rfl | hdepth
  · exact .number rfl hmeeting
  · rw [if_neg (Nat.ne_of_gt hdepth)]
    exact arranges_of_clear (place_separately_of_pos hdepth) hmeeting

/-- An operand that is announced where nothing above it is dropped is kept, and drops what follows if
it is a monomial. -/
theorem arranges_header {name : Char} {var expr : String} {t : Term α} (h : Open depth s)
    (hdepth : 0 < depth) :
    Arranges s [.header name var t expr depth] [.header name var t expr depth] []
      fun s' => s'.skipped = if t.isMonomial then some depth else none := by
  have hshown : s.skipped.any (· < depth) = false := by
    cases hskipped : s.skipped with
    | none => rfl
    | some d => simpa using h d hskipped
  have hplace : s.place (.header name var t expr depth) =
      { s with skipped := if t.isMonomial then some depth else none }.indent depth
        (.header name var t expr depth) := by
    simp only [State.place, hshown]
    rfl
  rw [← meeting_of_pos (s := s) (l := .header name var t expr depth) hdepth] at hplace
  exact .indent hplace rfl

/-- A line of the explanation of a monomial is kept if and only if it is essential. -/
theorem arranges_within {l : Line α} (hdepth : 0 < depth) (h : s.skipped = some depth)
    (hl : l.Within depth) :
    Arranges s [l] ([l].filter (Line.isEssential depth)) [] fun s' => s'.skipped = some depth := by
  have hpos : 0 < l.depth := by cases l <;> simp only [Line.Within, Line.depth] at * <;> omega
  have hkeep : ∀ s₁ : State, (s.meeting l).place l = s₁.keep l → s₁.skipped = some depth →
      Arranges s [l] ([l].filter (Line.isEssential depth)) [] fun s' => s'.skipped = some depth := by
    intro s₁ hplace hs₁
    have harranges := Arranges.keep hplace
    rw [drops_of_within hs₁ hl, hs₁] at harranges
    cases hessential : l.isEssential depth <;> simpa [hessential] using harranges
  rw [meeting_of_pos hpos] at hkeep
  cases l with
  | computing _ _ | given _ _ | result _ _ _ | separator => exact hl.elim
  | operands _ _ _ | note _ _ => exact hkeep s rfl h
  | rule _ _ d => exact hkeep _ (place_rule_of_pos hpos) h
  | separately _ d => exact hkeep _ (place_separately_of_pos hpos) h
  | header _ _ _ _ d =>
    have hskipped : s.skipped.any (· < d) = true := by
      rw [h]
      exact decide_eq_true hl
    refine .drop ?_ h
    rw [meeting_of_pos hpos]
    exact if_pos hskipped

end Lines

/-! ## Parts of an explanation -/

section Parts

variable {s : State} {depth : Nat}

/-- Of what belongs to a monomial, only essential lines are kept. -/
theorem arranges_condensed {lines : List (Line α)} (hdepth : 0 < depth)
    (h : s.skipped = some depth) (hlines : ∀ l ∈ lines, l.Within depth) :
    Arranges s lines (lines.filter (Line.isEssential depth)) [] fun s' => s'.skipped = some depth := by
  induction lines generalizing s with
  | nil => exact .nil h
  | cons l lines ih =>
    obtain ⟨hl, hrest⟩ := List.forall_mem_cons.1 hlines
    have hstep := arranges_within hdepth h hl
    have happend := hstep.append fun s' hs' => ih hs' hrest
    rwa [← List.filter_append] at happend

end Parts

end Outline

namespace Explainer

open Outline

variable [Scalar α] [Numeral α] (x : Explainer)

theorem within_ruleLines (t : Term α) (depth : Nat) :
    ∀ l ∈ x.ruleLines t depth, l.Within depth := by
  intro l hl
  rcases List.mem_cons.1 hl with rfl | hl
  · exact Nat.le_refl depth
  · split at hl
    · rw [List.mem_singleton.1 hl]
      exact Nat.le_refl depth
    · cases hl

theorem within_both {l r : Term α} {depth : Nat} {left right : List (Line α)}
    (hleft : ∀ k ∈ left, k.Within (depth + 1)) (hright : ∀ k ∈ right, k.Within (depth + 1)) :
    ∀ k ∈ x.both l r depth left right, k.Within depth := by
  intro k hk
  simp only [both, List.mem_cons, List.mem_append] at hk
  rcases hk with (rfl | rfl | rfl | hk) | rfl | hk
  · exact Nat.le_refl depth
  · exact Nat.le_refl depth
  · exact Nat.lt_succ_self depth
  · exact (hleft k hk).mono (Nat.le_succ depth)
  · exact Nat.lt_succ_self depth
  · exact (hright k hk).mono (Nat.le_succ depth)

theorem within_inner {u : Term α} {depth : Nat} {lines : List (Line α)}
    (hlines : ∀ k ∈ lines, k.Within (depth + 1)) : ∀ k ∈ x.inner u depth lines, k.Within depth := by
  intro k hk
  rcases List.mem_cons.1 hk with rfl | hk
  · exact Nat.le_refl depth
  · rcases List.mem_cons.1 hk with rfl | hk
    · exact Nat.lt_succ_self depth
    · exact (hlines k hk).mono (Nat.le_succ depth)

/-- Everything in the explanation of a term is about its depth or a greater one. -/
theorem within_explain (t : Term α) (depth : Nat) : ∀ l ∈ x.explain t depth, l.Within depth := by
  induction t generalizing depth with
  | const _ | symbol _ =>
    intro l hl
    rw [explain, List.append_nil] at hl
    exact x.within_ruleLines _ depth l hl
  | sum l r ihl ihr | difference l r ihl ihr | product l r ihl ihr | quotient l r ihl ihr =>
    exact List.forall_mem_append.2 ⟨x.within_ruleLines _ depth,
      x.within_both (ihl (depth + 1)) (ihr (depth + 1))⟩
  | power base e ih =>
    refine List.forall_mem_append.2 ⟨x.within_ruleLines _ depth, ?_⟩
    split
    · exact x.within_inner (ih (depth + 1))
    · intro l hl
      cases hl
  | call f arg ih =>
    exact List.forall_mem_append.2 ⟨x.within_ruleLines _ depth, x.within_inner (ih (depth + 1))⟩

theorem sublist_condense (t : Term α) {depth : Nat} {lines : List (Line α)}
    (h : lines.Sublist (x.explain t depth)) :
    (x.condense t depth lines).Sublist (x.explain t depth) := by
  unfold condense
  split
  · exact List.filter_sublist
  · exact h

theorem sublist_both {l r : Term α} {depth : Nat} {left left' right right' : List (Line α)}
    (hleft : left.Sublist left') (hright : right.Sublist right') :
    (x.both l r depth left right).Sublist (x.both l r depth left' right') :=
  .append (.cons_cons _ (.cons_cons _ (.cons_cons _ hleft))) (.cons_cons _ hright)

/-- The digest of an explanation has some of its lines, in their order. -/
theorem sublist_digest (t : Term α) (depth : Nat) :
    (x.digest t depth).Sublist (x.explain t depth) := by
  induction t generalizing depth with
  | const _ | symbol _ => exact .refl _
  | sum l r ihl ihr | difference l r ihl ihr | product l r ihl ihr | quotient l r ihl ihr =>
    exact .append (.refl _) (x.sublist_both (x.sublist_condense l (ihl (depth + 1)))
      (x.sublist_condense r (ihr (depth + 1))))
  | power base e ih =>
    refine .append (.refl _) ?_
    split
    · exact .cons_cons _ (.cons_cons _ (x.sublist_condense base (ih (depth + 1))))
    · exact .refl _
  | call f arg ih =>
    exact .append (.refl _) (.cons_cons _ (.cons_cons _ (x.sublist_condense arg (ih (depth + 1)))))

theorem sublist_digestOrder (order : Nat) (t d : Term α) :
    (x.digestOrder order t d).Sublist (x.wholeOrder order t d) :=
  .append (.append (.refl _) (.cons_cons _ (.cons_cons _ (x.sublist_digest t 0)))) (.refl _)

/-! ## The explanation of a term -/

variable {s : State} {depth : Nat}

/-- The explanation of a term is arranged as its digest, whatever steps its rule starts. -/
def Digests (t : Term α) : Prop :=
  ∀ (s : State) (depth : Nat) (steps : List (Line α)),
    Arranges s (x.ruleLines t depth) (x.ruleLines t depth) steps Clear →
      Arranges s (x.explain t depth) (x.digest t depth)
        (steps ++ if depth = 0 then x.separation t else []) (Open (depth + 1))

/-- The rule for a term is followed by its derivative at most. -/
theorem arranges_ruleLines (t : Term α) {steps : List (Line α)}
    (hrule : Arranges s [.rule (Rule.of x.var t).name ((Rule.of x.var t).formula x.var) depth]
      [.rule (Rule.of x.var t).name ((Rule.of x.var t).formula x.var) depth] steps Clear) :
    Arranges s (x.ruleLines t depth) (x.ruleLines t depth) steps Clear := by
  rw [← List.append_nil steps]
  refine hrule.cons fun s' hs' => ?_
  cases t.isMonomial
  · exact .nil hs'
  · exact arranges_note hs'

/-- An operand is arranged from any state in which nothing above it is dropped: its header is kept,
and its explanation is condensed if it is a monomial. -/
theorem arranges_operand {t : Term α} (name : Char) (ht : x.Digests t) (h : Open (depth + 1) s) :
    Arranges s (x.header name t (depth + 1) :: x.explain t (depth + 1))
      (x.header name t (depth + 1) :: x.condense t (depth + 1) (x.digest t (depth + 1))) []
      (Open (depth + 1)) := by
  have hpos : 0 < depth + 1 := Nat.succ_pos depth
  refine (arranges_header h hpos).cons ?_
  intro s' hs'
  unfold condense
  split
  · next hmonomial =>
    rw [if_pos hmonomial] at hs'
    refine (arranges_condensed hpos hs' (x.within_explain t _)).mono ?_
    intro s'' hs'' d hd
    rw [hs''] at hd
    cases hd
    exact Nat.le_refl _
  · next hmonomial =>
    rw [if_neg hmonomial] at hs'
    refine (ht s' (depth + 1) [] (x.arranges_ruleLines t (arranges_rule hs' hpos))).mono ?_
    intro s'' hs''
    exact hs''.mono (Nat.le_succ _)

/-- The announcement of two operands starts a step at the top only. -/
theorem arranges_both {l r : Term α} (hl : x.Digests l) (hr : x.Digests r) (h : Clear s) :
    Arranges s
      (x.both l r depth (x.explain l (depth + 1)) (x.explain r (depth + 1)))
      (x.both l r depth (x.condense l (depth + 1) (x.digest l (depth + 1)))
        (x.condense r (depth + 1) (x.digest r (depth + 1))))
      (if depth = 0 then [.separately x.var 0] else []) (Open (depth + 1)) := by
  have hsteps : (if depth = 0 then [.separately x.var 0] else [] : List (Line α)) =
      ([] ++ ((if depth = 0 then [.separately x.var 0] else []) ++ [])) ++ [] := by simp
  rw [hsteps]
  refine .append (P := Open (depth + 1)) (.cons (arranges_operands h) fun s₁ h₁ => ?_) ?_
  · exact (arranges_separately h₁).cons fun s₂ h₂ => x.arranges_operand 'f' hl (h₂.toOpen _)
  · exact fun _ hs' => x.arranges_operand 'g' hr hs'

theorem arranges_inner {u : Term α} (hu : x.Digests u) (h : Clear s) :
    Arranges s (x.inner u depth (x.explain u (depth + 1)))
      (x.inner u depth (x.condense u (depth + 1) (x.digest u (depth + 1)))) []
      (Open (depth + 1)) :=
  (arranges_operands h).cons fun _ hs' => x.arranges_operand 'u' hu (hs'.toOpen (depth + 1))

theorem digests (t : Term α) : x.Digests t := by
  induction t with
  | const _ | symbol _ =>
    intro s depth steps hrule
    refine hrule.append fun _ hs' => ?_
    rw [separation, ite_self]
    exact .nil (hs'.toOpen (depth + 1))
  | sum l r ihl ihr | difference l r ihl ihr | product l r ihl ihr | quotient l r ihl ihr =>
    intro s depth steps hrule
    exact hrule.append fun _ hs' => x.arranges_both ihl ihr hs'
  | power base e ih =>
    intro s depth steps hrule
    refine hrule.append fun _ hs' => ?_
    rw [separation, ite_self]
    split
    · exact x.arranges_inner ih hs'
    · exact .nil (hs'.toOpen (depth + 1))
  | call f arg ih =>
    intro s depth steps hrule
    refine hrule.append fun _ hs' => ?_
    rw [separation, ite_self]
    exact x.arranges_inner ih hs'

/-! ## Orders -/

theorem arranges_begin (order : Nat) (t : Term α) (s : State) :
    Arranges s (x.begin order t)
      ((if 1 < order then [.separator] else [])
        ++ .computing order x.var :: .given (derivativeLabel x.var (order - 1)) (t.text x.style)
        :: x.digest t 0)
      (.computing order x.var :: .rule (Rule.of x.var t).name ((Rule.of x.var t).formula x.var) 0
        :: x.separation t)
      (Open 1) := by
  have hseparator : Arranges s (if 1 < order then [.separator] else [])
      (if 1 < order then [.separator] else []) ([] : List (Line α)) fun _ => True := by
    split
    · exact .single rfl trivial
    · exact .nil trivial
  have hcomputing (s : State) : Arranges s [.computing order x.var] [.computing order x.var]
      [(.computing order x.var : Line α)] fun s => s.context = .wholeTerm :=
    .number rfl rfl
  have hgiven (l e : String) (s : State) (hs : s.context = .wholeTerm) :
      Arranges s [.given l e] [.given l e] ([] : List (Line α))
        fun s => s.context = .wholeTerm ∧ s.afterStep = false :=
    .indent rfl ⟨hs, rfl⟩
  refine hseparator.append fun s₁ _ => (hcomputing s₁).cons fun s₂ h₂ => ?_
  refine (hgiven _ _ s₂ h₂).cons fun s₃ h₃ => ?_
  exact x.digests t s₃ 0 _ (x.arranges_ruleLines t (arranges_wholeRule h₃.1 h₃.2))

/-- An order is arranged as its digest, from any state. -/
theorem arranges_wholeOrder (order : Nat) (t d : Term α) (s : State) :
    Arranges s (x.wholeOrder order t d) (x.digestOrder order t d) (x.stepLines order t d)
      fun _ => True :=
  (x.arranges_begin order t s).append fun _ _ => .number rfl trivial

/-- What the program explains are orders each of which starts with the derivative of the one
before. -/
theorem all_eq (order : Nat) (t : Term α) (ds : List (Term α)) :
    x.all order t ds =
      (((t :: ds).zip ds).zipIdx order).flatMap fun p => x.wholeOrder p.2 p.1.1 p.1.2 := by
  induction ds generalizing order t with
  | nil => rfl
  | cons d rest ih =>
    rw [all, ih, List.zip_cons_cons, List.zipIdx_cons, List.flatMap_cons, wholeOrder,
      List.append_assoc, List.singleton_append]

/-- The lines on successive orders are arranged one order after the other. The lines of an order are
kept in their order, except for those in which operands that are monomials are explained and that are
not essential. The steps of an order are its announcement, the rule for the whole term, the
announcement of two operands, and its result. -/
theorem arrange_orders (terms : List (Term α × Term α)) :
    ∃ parts : List (List (Entry α)), arrange (x.orders terms) = parts.flatten ∧
      List.Forall₂
        (fun part p =>
          part.map Entry.line = x.digestOrder p.2 p.1.1 p.1.2 ∧
            (part.map Entry.line).Sublist (x.wholeOrder p.2 p.1.1 p.1.2) ∧
            (part.filter Entry.isNumbered).map Entry.line = x.stepLines p.2 p.1.1 p.1.2)
        parts (terms.zipIdx 1) := by
  unfold arrange orders
  generalize State.initial = s
  induction terms.zipIdx 1 generalizing s with
  | nil => exact ⟨[], rfl, .nil⟩
  | cons p rest ih =>
    have hfirst := x.arranges_wholeOrder p.2 p.1.1 p.1.2 s
    obtain ⟨parts, hparts, hall⟩ := ih (s.after (x.wholeOrder p.2 p.1.1 p.1.2))
    refine ⟨arrangeFrom s (x.wholeOrder p.2 p.1.1 p.1.2) :: parts, ?_, .cons ⟨?_, ?_, ?_⟩ hall⟩
    · rw [List.flatMap_cons, arrangeFrom_append, hparts, List.flatten_cons]
    · exact hfirst.kept_eq
    · rw [hfirst.kept_eq]
      exact x.sublist_digestOrder p.2 p.1.1 p.1.2
    · exact hfirst.steps_eq

end Explainer

end Fluxion
