import Fluxion.Proofs.Term.ExponentStyles

/-!
# Minus signs at the front

Whether the text of a term starts with a minus sign is told from the term, without its text: the sign
is that of the number at the very left. It can be taken away, which leaves the term with the opposite
value, and it becomes that of the plus or minus before the term. A symbol may have a name that starts
with a minus sign, though none that is read does. Such a sign belongs to the name, and stays.
-/

namespace Fluxion.Term

variable {α : Type}

/-- Whether the text of the term starts with the name of a symbol, and this with a minus sign. -/
def hasSignedName : Term α → Bool
  | symbol name => startsWithMinus name.toList
  | product left _ | quotient left _ => left.hasSignedName
  | _ => false

/-! ## Texts -/

section Texts

theorem startsWithMinus_append_of_ne_nil {cs : List Char} (rest : List Char) (h : cs ≠ []) :
    startsWithMinus (cs ++ rest) = startsWithMinus cs := by
  obtain ⟨c, cs, rfl⟩ := List.exists_cons_of_ne_nil h
  rfl

/-- What follows a text decides nothing, unless it starts with a minus sign itself. -/
theorem startsWithMinus_append_left (cs : List Char) {rest : List Char}
    (h : startsWithMinus rest = false) : startsWithMinus (cs ++ rest) = startsWithMinus cs := by
  cases cs with
  | nil => exact h
  | cons c cs => rfl

variable [Scalar α]

theorem startsWithMinus_leftText (t : Term α) (cs : List Char) :
    startsWithMinus (leftText .product t cs) = (!t.isAdditive && startsWithMinus cs) := by
  unfold leftText
  rw [Written.rank_lt_product]
  cases t.isAdditive <;> rfl

theorem startsWithMinus_rightText (most : Level) (t : Term α) (cs : List Char) :
    startsWithMinus (rightText most t cs) = false :=
  startsWithMinus_wrapIf _ cs

variable [Numeral α]

/-- No exponent is written with a minus sign in front, for a raised one is another character. -/
theorem startsWithMinus_exponentText (style : ExponentStyle) (e : α) :
    startsWithMinus (exponentText style e) = false := by
  cases style with
  | caret => rfl
  | raised =>
    cases hraised : raisedExponent? e with
    | none =>
      rw [exponentText_raised_of_none hraised]
      rfl
    | some run =>
      rw [exponentText, hraised, Option.getD_some]
      unfold raisedExponent? at hraised
      split at hraised
      · obtain ⟨-, hrun⟩ := lowerChar?_of_mapM_raiseChar? hraised
        cases run with
        | nil => rfl
        | cons c run => exact (neutral_of_isRaised (hrun c List.mem_cons_self)).1
      · cases hraised

theorem startsWithMinus_name (f : Func) (rest : List Char) :
    startsWithMinus (f.name.toList ++ rest) = false := by
  cases f <;> rfl

variable [SignedNumeral α] [NegativeUnit α]

/-- A coefficient shows its sign, whether or not its digits are written. -/
theorem startsWithMinus_coefficientText {c : α} (hfinite : Scalar.isFinite c = true)
    (factor : List Char) : startsWithMinus (coefficientText c factor) = Scalar.isNegative c := by
  obtain ⟨hne, -, hminus⟩ := text_plain hfinite
  unfold coefficientText
  split
  · rw [startsWithMinus_append_of_ne_nil _ hne, hminus]
  · split
    · next hone => exact (NegativeUnit.isNegative_of_beq hone).symm
    · rw [startsWithMinus_append_of_ne_nil _ hne, hminus]

end Texts

/-! ## Terms -/

section Terms

/-- No name that can be read starts with a minus sign. -/
theorem startsWithMinus_of_isVariable {name : String} (h : isVariable name = true) :
    startsWithMinus name.toList = false := by
  obtain ⟨t, hscan, hkind, -⟩ := isVariable_eq_true_iff.1 h
  obtain ⟨⟨c, rest, hname, hstart, -⟩, -⟩ := Token.isName_of_scan hscan hkind
  rw [hname, startsWithMinus_eq]
  refine beq_eq_false_iff_ne.2 ?_
  rintro rfl
  cases hstart

theorem hasSignedName_of_named {t : Term α} (h : t.Named) : t.hasSignedName = false := by
  induction t with
  | const _ | sum _ _ _ _ | difference _ _ _ _ | power _ _ _ | call _ _ _ => rfl
  | symbol name => exact startsWithMinus_of_isVariable h
  | product l r ihl _ | quotient l r ihl _ => exact ihl h.1

variable [Scalar α]

theorem hasMinus_const (v : α) : (const v).hasMinus = Scalar.isNegative v := by
  rw [hasMinus, withoutMinus?]
  cases Scalar.isNegative v <;> rfl

theorem hasMinus_quotient (l r : Term α) : (quotient l r).hasMinus = l.hasMinus := by
  rw [hasMinus, withoutMinus?, Option.isSome_map]
  rfl

/-- A sum or a difference has no minus sign of its own. -/
theorem front_of_isAdditive {t : Term α} (h : t.isAdditive = true) :
    t.hasMinus = false ∧ t.hasSignedName = false := by
  cases t with
  | sum _ _ | difference _ _ => exact ⟨rfl, rfl⟩
  | const _ | symbol _ | product _ _ | quotient _ _ | power _ _ | call _ _ => cases h

/-- What stands at the left of a product or a quotient is in parentheses, or starts it. -/
theorem startsWithMinus_leftText_append [Numeral α] {l : Term α} {style : ExponentStyle}
    {op : Char} (rest : List Char) (hop : (op == '-') = false)
    (h : l.isAdditive = false →
      startsWithMinus (l.chars style) = (l.hasMinus || l.hasSignedName)) :
    startsWithMinus (leftText .product l (l.chars style) ++ op :: rest) =
      (l.hasMinus || l.hasSignedName) := by
  have hrest : startsWithMinus (op :: rest) = false := by rwa [startsWithMinus_eq]
  rw [startsWithMinus_append_left _ hrest, startsWithMinus_leftText]
  cases hadditive : l.isAdditive with
  | true =>
    obtain ⟨hminus, hname⟩ := front_of_isAdditive hadditive
    rw [hminus, hname]
    rfl
  | false => exact h hadditive

variable [NegativeUnit α]

/-- The minus sign of a product is that of its left factor. -/
theorem hasMinus_product (l r : Term α) : (product l r).hasMinus = l.hasMinus := by
  rw [hasMinus, withoutMinus?]
  split
  · next hone =>
    cases l with
    | const c =>
      rw [hasMinus_const, NegativeUnit.isNegative_of_beq hone]
      rfl
    | symbol _ | sum _ _ | difference _ _ | product _ _ | quotient _ _ | power _ _ | call _ _ =>
      cases hone
  · rw [Option.isSome_map]
    rfl

/-- The minus sign of a term is not one of a name. -/
theorem hasSignedName_of_hasMinus {t : Term α} (h : t.hasMinus = true) :
    t.hasSignedName = false := by
  induction t with
  | const _ | sum _ _ _ _ | difference _ _ _ _ | power _ _ _ | call _ _ _ => rfl
  | symbol _ => cases h
  | product l r ihl _ =>
    rw [hasMinus_product] at h
    exact ihl h
  | quotient l r ihl _ =>
    rw [hasMinus_quotient] at h
    exact ihl h

variable [Numeral α] [SignedNumeral α]

/-- The text of a term that is no sum and no difference starts with a minus sign if and only if the
term has one, or the name that the text starts with. The induction goes down at the left. -/
theorem startsWithMinus_chars {t : Term α} (ht : t.Proper) (hadditive : t.isAdditive = false)
    (style : ExponentStyle) :
    startsWithMinus (t.chars style) = (t.hasMinus || t.hasSignedName) := by
  induction t with
  | const v =>
    rw [chars, hasMinus_const, (text_plain ht).2.2]
    exact (Bool.or_false _).symm
  | symbol name =>
    rw [chars]
    exact (Bool.false_or _).symm
  | sum _ _ _ _ | difference _ _ _ _ => cases hadditive
  | product l r ihl _ =>
    cases hconst : l.isConst with
    | true =>
      cases l with
      | const c =>
        rw [chars, startsWithMinus_coefficientText ht.1, hasMinus_product, hasMinus_const]
        exact (Bool.or_false _).symm
      | symbol _ | sum _ _ | difference _ _ | product _ _ | quotient _ _ | power _ _ | call _ _ =>
        cases hconst
    | false =>
      rw [chars, hasMinus_product]
      · exact startsWithMinus_leftText_append _ rfl (ihl ht.1)
      · rintro c rfl
        cases hconst
  | quotient l r ihl _ =>
    rw [chars, hasMinus_quotient]
    exact startsWithMinus_leftText_append _ rfl (ihl ht.1)
  | power b e _ =>
    rw [chars, startsWithMinus_append_left _ (startsWithMinus_exponentText style e),
      startsWithMinus_rightText]
    rfl
  | call f a _ =>
    rw [chars, startsWithMinus_name]
    rfl

end Terms

/-! ## Values and operators -/

section Operators

variable [Scalar α]

/-- Without its minus sign a term has the opposite value. -/
theorem eval?_of_withoutMinus? [SignedScalar α] {t s : Term α} (h : t.withoutMinus? = some s)
    {K : Type} [Field K] {m : Interpretation α K} (hm : m.Signed) (env : String → K) :
    s.eval? m env = (t.eval? m env).map (- ·) := by
  have hone := eval?_negOne hm env
  rw [sameValue_of_withoutMinus? h K m hm env]
  simp only [eval?] at hone ⊢
  rw [hone]
  cases s.eval? m env with
  | none => rfl
  | some x => exact congrArg some (by ring : x = -(-1 * x))

variable [Numeral α]

/-- `text` is what stands for the term after a plus or a minus: the text of the term, or this in
parentheses, and in any case no minus sign at the front. -/
structure FollowsSign (style : ExponentStyle) (t : Term α) (text : String) : Prop where
  eq_text : text = t.text style ∨ text = "(" ++ t.text style ++ ")"
  noMinus : startsWithMinus text.toList = false

theorem followsSign_operandText (style : ExponentStyle) (t : Term α) :
    FollowsSign style t (String.ofList (operandText t (t.chars style))) where
  eq_text := by
    unfold operandText wrapIf
    split
    · refine .inr ?_
      rw [wrap, text, ← List.singleton_append, String.ofList_append, String.ofList_append]
    · exact .inl rfl
  noMinus := by
    rw [String.toList_ofList]
    exact startsWithMinus_operandText t _

/-- The minus sign of a right operand is merged into the operator, and what is left follows. -/
theorem text_signed (style : ExponentStyle) (left right : Term α) :
    ∃ rest, FollowsSign style right.unsigned rest ∧
      (sum left right).text style =
        left.text style ++ String.ofList (signText right.hasMinus) ++ rest ∧
      (difference left right).text style =
        left.text style ++ String.ofList (signText (!right.hasMinus)) ++ rest := by
  refine ⟨_, followsSign_operandText style right.unsigned, ?_, ?_⟩
  · rw [text, chars, String.ofList_append, String.ofList_append]
    rfl
  · rw [text, chars, String.ofList_append, String.ofList_append]
    rfl

variable [SignedNumeral α] [NegativeUnit α]

/-- A term that is no sum and no difference has a minus sign that can be taken away if and only if its
text starts with one that does not belong to a name, as none does if the names can be read. Without
it the term has the opposite value, and is written after the opposite operator; a term that has none
is written after the operator that it has. What is written after an operator starts with no minus
sign. -/
theorem withoutMinus?_iff_text {t : Term α} (ht : t.Proper) (hadditive : t.isAdditive = false)
    (style : ExponentStyle) :
    (t.withoutMinus?.isSome = true ↔
      startsWithMinus (t.text style).toList = true ∧ t.hasSignedName = false) ∧
    (t.Named → t.hasSignedName = false) ∧
    (∀ s, t.withoutMinus? = some s →
      (∀ (K : Type) [Field K] (m : Interpretation α K), m.Signed → ∀ env : String → K,
        s.eval? m env = (t.eval? m env).map (- ·)) ∧
      ∀ left : Term α, ∃ rest, FollowsSign style s rest ∧
        (sum left t).text style = left.text style ++ " - " ++ rest ∧
        (difference left t).text style = left.text style ++ " + " ++ rest) ∧
    (t.withoutMinus? = none → ∀ left : Term α, ∃ rest, FollowsSign style t rest ∧
      (sum left t).text style = left.text style ++ " + " ++ rest ∧
      (difference left t).text style = left.text style ++ " - " ++ rest) := by
  refine ⟨?_, hasSignedName_of_named, ?_, ?_⟩
  · rw [text, String.toList_ofList, startsWithMinus_chars ht hadditive style]
    change t.hasMinus = true ↔ _
    cases hminus : t.hasMinus with
    | true => simp [hasSignedName_of_hasMinus hminus]
    | false => simp
  · intro s hs
    refine ⟨fun K _ m hm env => eval?_of_withoutMinus? hs hm env, fun left => ?_⟩
    have htext := text_signed style left t
    rwa [hasMinus, unsigned, hs] at htext
  · intro hnone left
    have htext := text_signed style left t
    rwa [hasMinus, unsigned, hnone] at htext

/-- The minus sign of a coefficient is at the front of a quotient, and is merged into a plus. -/
theorem withoutMinus?_iff_text_quotient :
    let t : Term Float := .quotient (.product (.const (-1)) (.power (.symbol "x") 2)) (.const 3)
    let s : Term Float := .quotient (.power (.symbol "x") 2) (.const 3)
    t.Proper ∧ t.isAdditive = false ∧ t.text .caret = "-x^2/3" ∧ t.withoutMinus? = some s ∧
      t.hasSignedName = false ∧ ∃ rest, FollowsSign .caret s rest ∧
        (sum (.symbol "y") t).text .caret =
          (symbol "y" : Term Float).text .caret ++ " - " ++ rest := by
  intro t s
  have hcoefficient : Scalar.isFinite (-1 : Float) = true := by decide
  have hexponent : Scalar.isFinite (2 : Float) = true := by decide
  have hdivisor : Scalar.isFinite (3 : Float) = true := by decide
  have ht : t.Proper := ⟨⟨hcoefficient, trivial, hexponent⟩, hdivisor⟩
  have htext : t.text .caret = "-x^2/3" := by
    simp only [t, text, chars]
    decide +kernel
  have hsome : t.withoutMinus? = some s := by
    simp only [t, s, withoutMinus?]
    rw [if_pos (by decide +kernel)]
    rfl
  obtain ⟨hiff, -, hopposite, -⟩ := withoutMinus?_iff_text ht rfl .caret
  obtain ⟨rest, hrest, hsum, -⟩ := (hopposite s hsome).2 (.symbol "y")
  exact ⟨ht, rfl, htext, hsome, (hiff.1 (by rw [hsome]; rfl)).2, rest, hrest, hsum⟩

/-- A symbol whose name starts with a minus sign has no opposite, and a plus before it stays. -/
theorem signed_name_not_merged :
    let t : Term Float := .symbol "-x"
    t.Proper ∧ t.isAdditive = false ∧
      ¬ (t.withoutMinus?.isSome = true ↔ startsWithMinus (t.text .caret).toList = true) ∧
      (sum (.symbol "y") t).text .caret = "y + (-x)" := by
  intro t
  refine ⟨trivial, rfl, ?_, ?_⟩
  · simp only [t, text, chars]
    decide
  · simp only [t, text, chars]
    decide +kernel

end Operators

end Fluxion.Term
