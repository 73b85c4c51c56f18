import Fluxion.Proofs.Derivation.Variables

/-!
# The checks of a request

A request is checked before its expression is read: its expression and its variable may not be
blank, the variable has to be a name, and the order one that may be asked for. The first check that
fails decides what is reported. White space is more than what separates tokens, so that an
expression that passes always has tokens.
-/

namespace Fluxion

/-! ## Texts without content -/

namespace Text

/-- The text is white space from one end to the other. -/
def Blank (cs : List Char) : Prop := ∀ c ∈ cs, isBlank c = true

instance (cs : List Char) : Decidable (Blank cs) :=
  decidable_of_iff (cs.all isBlank = true) List.all_eq_true

/-- Trimming takes a text away as a whole if and only if it is blank. -/
theorem trim_eq_nil_iff {cs : List Char} : trim cs = [] ↔ Blank cs := by
  unfold trim trimEnd trimStart
  rw [List.reverse_eq_nil_iff, List.dropWhile_eq_nil_iff]
  constructor
  · intro h
    apply List.dropWhile_eq_nil_iff.1
    -- what is left at the start would begin with a character that is not blank
    cases hstart : cs.dropWhile isBlank with
    | nil => rfl
    | cons c rest =>
      have hblank : isBlank c = true := h c (by simp [hstart])
      have hne : cs.dropWhile isBlank ≠ [] := by simp [hstart]
      have hhead := List.head_dropWhile_not isBlank hne
      simp [hstart, hblank] at hhead
  · intro h
    rw [List.dropWhile_eq_nil_iff.2 h]
    intro c hc
    cases hc

end Text

/-- A text without significant tokens is blank. -/
theorem Expr.blank_of_meaningful {text : String} (h : meaningful text = []) :
    Text.Blank text.toList := by
  intro c hc
  rw [← Token.characters_scanFrom 0 text.toList] at hc
  obtain ⟨t, ht, hc⟩ := List.mem_flatMap.1 hc
  have hspace : t.isSpace = true := by
    simpa [Token.isSignificant] using List.filter_eq_nil_iff.1 h t ht
  have hall : ∀ d ∈ [' ', '\t', '\n', '\r'], d.isWhitespace = true := by
    simp [Char.isWhitespace]
  exact Text.isBlank_of_isWhitespace (hall c (Token.mem_of_isSpace ht hspace c hc))

/-! ## Checks -/

/-- Of the checks, each of which has to hold and reports a cause if it does not, the first one that
fails reports the cause. -/
def FirstFailing (checks : List (Prop × Cause)) (cause : Cause) : Prop :=
  ∃ before holds after, checks = before ++ (holds, cause) :: after ∧
    (∀ check ∈ before, check.1) ∧ ¬ holds

theorem firstFailing_nil {cause : Cause} : ¬ FirstFailing [] cause := by
  rintro ⟨before, holds, after, h, -⟩
  simp at h

/-- A check that fails is the first one to fail, and after one that holds the others decide. -/
theorem firstFailing_cons {holds : Prop} {reported cause : Cause} {rest : List (Prop × Cause)} :
    FirstFailing ((holds, reported) :: rest) cause ↔
      (¬ holds ∧ reported = cause) ∨ (holds ∧ FirstFailing rest cause) := by
  constructor
  · rintro ⟨before, fails, after, h, hbefore, hfails⟩
    cases before with
    | nil =>
      cases h
      exact .inl ⟨hfails, rfl⟩
    | cons check before =>
      cases h
      obtain ⟨hholds, hbefore⟩ := List.forall_mem_cons.1 hbefore
      exact .inr ⟨hholds, before, fails, after, rfl, hbefore, hfails⟩
  · rintro (⟨hfails, rfl⟩ | ⟨hholds, before, fails, after, rfl, hbefore, hfails⟩)
    · exact ⟨[], holds, rest, rfl, by simp, hfails⟩
    · exact ⟨(holds, reported) :: before, fails, after, rfl,
        List.forall_mem_cons.2 ⟨hholds, hbefore⟩, hfails⟩

/-- No more than one cause is reported. -/
theorem FirstFailing.unique {checks : List (Prop × Cause)} {cause other : Cause}
    (h : FirstFailing checks cause) (h' : FirstFailing checks other) : cause = other := by
  induction checks with
  | nil => exact absurd h firstFailing_nil
  | cons check rest ih =>
    rcases firstFailing_cons.1 h with ⟨hfails, rfl⟩ | ⟨hholds, h⟩
    · rcases firstFailing_cons.1 h' with ⟨-, rfl⟩ | ⟨hholds, -⟩
      · rfl
      · exact absurd hholds hfails
    · rcases firstFailing_cons.1 h' with ⟨hfails, -⟩ | ⟨-, h'⟩
      · exact absurd hholds hfails
      · exact ih h h'

theorem FirstFailing.mem {checks : List (Prop × Cause)} {cause : Cause}
    (h : FirstFailing checks cause) : ∃ holds, (holds, cause) ∈ checks := by
  obtain ⟨before, holds, after, rfl, -, -⟩ := h
  exact ⟨holds, by simp⟩

theorem FirstFailing.not_all {checks : List (Prop × Cause)} {cause : Cause}
    (h : FirstFailing checks cause) : ¬ ∀ check ∈ checks, check.1 := by
  obtain ⟨before, holds, after, rfl, -, hfails⟩ := h
  intro hall
  exact hfails (hall (holds, cause) (by simp))

namespace Request

/-- What is demanded of a request, the most urgent first, and what is reported otherwise. -/
def checks (request : Request) (options : Options) : List (Prop × Cause) :=
  [(¬ Text.Blank request.expression.toList, .missingExpression),
    (¬ Text.Blank request.var.toList, .missingVariable),
    (∃ t, Token.scan request.trimmedVariable = [t] ∧ t.kind = .name ∧
      Func.ofName? request.trimmedVariable = none, .invalidVariable request.trimmedVariable),
    (1 ≤ request.order, .invalidOrder (toString request.order)),
    (request.order ≤ options.maxOrder, .orderTooLarge request.order options.maxOrder)]

variable {request : Request} {options : Options}

theorem isEmpty_trim_iff {text : String} :
    (Text.trim text.toList).isEmpty = true ↔ Text.Blank text.toList := by
  rw [List.isEmpty_iff, Text.trim_eq_nil_iff]

theorem isEmpty_trimmedVariable_iff :
    request.trimmedVariable.isEmpty = true ↔ Text.Blank request.var.toList := by
  rw [← isEmpty_trim_iff, String.isEmpty_iff, trimmedVariable, List.isEmpty_iff,
    ← String.toList_eq_nil_iff, String.toList_ofList]

/-- A request is refused for the first check that fails, and passes if none does. -/
theorem validate_cases (request : Request) (options : Options) :
    (∃ cause, FirstFailing (request.checks options) cause ∧
      request.validate options = .error (.invalid cause)) ∨
    ((∀ check ∈ request.checks options, check.1) ∧
      request.validate options = .ok (request.trimmedVariable, request.order.toNat)) := by
  unfold validate checks
  simp only [firstFailing_cons, List.forall_mem_cons, ← isVariable_eq_true_iff]
  by_cases hexpression : Text.Blank request.expression.toList
  · refine .inl ⟨_, .inl ⟨not_not.2 hexpression, rfl⟩, ?_⟩
    rw [if_pos (isEmpty_trim_iff.2 hexpression)]
  rw [if_neg (isEmpty_trim_iff.not.2 hexpression)]
  by_cases hvar : Text.Blank request.var.toList
  · refine .inl ⟨_, .inr ⟨hexpression, .inl ⟨not_not.2 hvar, rfl⟩⟩, ?_⟩
    rw [if_pos (isEmpty_trimmedVariable_iff.2 hvar)]
  rw [if_neg (isEmpty_trimmedVariable_iff.not.2 hvar)]
  by_cases hname : isVariable request.trimmedVariable = true
  · by_cases horder : request.order < 1
    · refine .inl ⟨_, .inr ⟨hexpression, .inr ⟨hvar, .inr ⟨hname, .inl ⟨?_, rfl⟩⟩⟩⟩, ?_⟩
      · exact Int.not_le.2 horder
      · simp [hname, horder]
    · have hpositive : 1 ≤ request.order := Int.not_lt.1 horder
      by_cases hmost : (options.maxOrder : Int) < request.order
      · refine .inl ⟨_, .inr ⟨hexpression, .inr ⟨hvar, .inr ⟨hname, .inr ⟨hpositive,
          .inl ⟨Int.not_le.2 hmost, rfl⟩⟩⟩⟩⟩, ?_⟩
        simp [hname, horder, hmost]
      · refine .inr ⟨⟨hexpression, hvar, hname, hpositive, Int.not_lt.1 hmost, ?_⟩, ?_⟩
        · simp
        · simp [hname, horder, hmost]
  · refine .inl ⟨_, .inr ⟨hexpression, .inr ⟨hvar, .inl ⟨hname, rfl⟩⟩⟩, ?_⟩
    simp [hname]

theorem validate_eq_error_iff {request : Request} {options : Options} {failure : Failure} :
    request.validate options = .error failure ↔
      ∃ cause, FirstFailing (request.checks options) cause ∧ failure = .invalid cause := by
  rcases validate_cases request options with ⟨cause, hfirst, hvalid⟩ | ⟨hall, hvalid⟩
  · rw [hvalid]
    constructor
    · intro h
      cases h
      exact ⟨cause, hfirst, rfl⟩
    · rintro ⟨other, hother, rfl⟩
      rw [hfirst.unique hother]
  · rw [hvalid]
    refine iff_of_false (by simp) ?_
    rintro ⟨cause, hfirst, -⟩
    exact hfirst.not_all hall

theorem validate_eq_ok_iff {request : Request} {options : Options} {p : String × Nat} :
    request.validate options = .ok p ↔ (∀ check ∈ request.checks options, check.1) ∧
      p = (request.trimmedVariable, request.order.toNat) := by
  rcases validate_cases request options with ⟨cause, hfirst, hvalid⟩ | ⟨hall, hvalid⟩
  · rw [hvalid]
    refine iff_of_false (by simp) ?_
    rintro ⟨hall, -⟩
    exact hfirst.not_all hall
  · rw [hvalid]
    constructor
    · intro h
      cases h
      exact ⟨hall, rfl⟩
    · rintro ⟨-, rfl⟩
      rfl

/-- No check reports that the expression is empty, or a fault of the reader. -/
theorem reportable_of_firstFailing {request : Request} {options : Options} {cause : Cause}
    (h : FirstFailing (request.checks options) cause) :
    cause ≠ .emptyExpression ∧ cause ≠ .mismatch := by
  obtain ⟨holds, hmem⟩ := h.mem
  simp only [checks, List.mem_cons, Prod.mk.injEq, List.not_mem_nil, or_false] at hmem
  rcases hmem with ⟨-, rfl⟩ | ⟨-, rfl⟩ | ⟨-, rfl⟩ | ⟨-, rfl⟩ | ⟨-, rfl⟩ <;> simp

end Request

end Fluxion
