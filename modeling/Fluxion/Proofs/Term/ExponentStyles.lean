import Fluxion.Proofs.Expr.Value
import Fluxion.Proofs.Scalar.SignedNumerals
import Fluxion.Proofs.Term.RaisedRuns
import Fluxion.Proofs.Term.RoundTrip

/-!
# The two ways to write exponents

The text of a term in raised digits is that with carets, once every run of raised characters is
written after a caret. There are two exceptions. A name with raised characters in it is taken for an
exponent, and an exponent that is negative and not raised stands without the parentheses that it has
in the style with carets. Whatever else is decided about parentheses and asterisks is decided in the
same way, for a run and a caret are alike to what looks at the start of a text.
-/

namespace Fluxion.Term

open Token (IsNumber)

variable {α : Type}

/-- The names of the symbols in a term, from left to right. -/
def names : Term α → List String
  | const _ => []
  | symbol name => [name]
  | sum l r | difference l r | product l r | quotient l r => l.names ++ r.names
  | power b _ => b.names
  | call _ a => a.names

variable [Scalar α] [Numeral α]

/-- Whether an exponent is negative and not written in raised digits. -/
def isBare (e : α) : Bool := Scalar.isNegative e && (raisedExponent? e).isNone

/-- The text `ds` is `cs` with its runs after carets, except that `n` pairs of parentheses are
missing there, none of them at the start. -/
structure Lowers (cs ds : List Char) (n : Nat) : Prop where
  head?_eq : ds.head? = (lowered cs).head?
  length_eq : ds.length = (lowered cs).length + 2 * n
  eq_of_zero : n = 0 → lowered cs = ds

/-- A text that a run can stand after without going on. -/
def EndsPlain (cs : List Char) : Prop := ∀ c ∈ cs.getLast?, isRaised c = false

theorem endsPlain_of_plain {cs : List Char} (h : ∀ c ∈ cs, isRaised c = false) : EndsPlain cs :=
  fun c hc => h c (List.mem_of_getLast? hc)

namespace Lowers

variable {cs ds cs' ds' : List Char} {n n' : Nat}

theorem of_plain (h : ∀ c ∈ cs, isRaised c = false) : Lowers cs cs 0 where
  head?_eq := by rw [lowered_eq_self h]
  length_eq := by rw [lowered_eq_self h]; rfl
  eq_of_zero _ := lowered_eq_self h

theorem append (h : Lowers cs ds n) (h' : Lowers cs' ds' n')
    (hends : EndsPlain cs ∨ ∀ c ∈ cs'.head?, isRaised c = false) :
    Lowers (cs ++ cs') (ds ++ ds') (n + n') := by
  have happend : lowered (cs ++ cs') = lowered cs ++ lowered cs' := by
    refine lowered_append fun c hc d hd => ?_
    rcases hends with hends | hends
    · rw [hends c hc]; rfl
    · rw [hends d hd, Bool.and_false]
  refine ⟨?_, ?_, ?_⟩
  · rw [happend, List.head?_append, List.head?_append, h.head?_eq, h'.head?_eq]
  · rw [happend, List.length_append, List.length_append, h.length_eq, h'.length_eq]
    omega
  · intro hzero
    rw [happend, h.eq_of_zero (by omega), h'.eq_of_zero (by omega)]

theorem cons {c : Char} (hc : isRaised c = false) (h : Lowers cs ds n) :
    Lowers (c :: cs) (c :: ds) n := by
  have hlowered := lowered_cons hc cs
  refine ⟨by rw [hlowered]; rfl, ?_, ?_⟩
  · rw [hlowered, List.length_cons, List.length_cons, h.length_eq]
    omega
  · intro hzero
    rw [hlowered, h.eq_of_zero hzero]

theorem prefixed {pre : List Char} (hpre : ∀ c ∈ pre, isRaised c = false) (h : Lowers cs ds n) :
    Lowers (pre ++ cs) (pre ++ ds) n := by
  induction pre with
  | nil => exact h
  | cons c pre ih =>
    obtain ⟨hc, hpre⟩ := List.forall_mem_cons.1 hpre
    exact (ih hpre).cons hc

theorem joined {c : Char} (hc : isRaised c = false) (h : Lowers cs ds n) (h' : Lowers cs' ds' n') :
    Lowers (cs ++ c :: cs') (ds ++ c :: ds') (n + n') := by
  refine h.append (h'.cons hc) (.inr ?_)
  rintro _ ⟨⟩
  exact hc

theorem wrap (h : Lowers cs ds n) : Lowers (wrap cs) (wrap ds) n :=
  (h.joined rfl (of_plain (by simp))).cons rfl

theorem wrapIf (h : Lowers cs ds n) (asked : Bool) :
    Lowers (wrapIf asked cs) (wrapIf asked ds) n := by
  cases asked with
  | false => exact h
  | true => exact h.wrap

theorem startsWithMinus_eq (h : Lowers cs ds n) : startsWithMinus ds = startsWithMinus cs := by
  rw [← startsWithMinus_lowered cs, startsWithMinus, startsWithMinus, h.head?_eq]

theorem takesCoefficient_eq (h : Lowers cs ds n) : takesCoefficient ds = takesCoefficient cs := by
  rw [← takesCoefficient_lowered cs, Term.takesCoefficient_eq, Term.takesCoefficient_eq,
    h.head?_eq]

omit [Numeral α]

omit [Scalar α] in
theorem operandText (t : Term α) (h : Lowers cs ds n) :
    Lowers (operandText t cs) (operandText t ds) n := by
  rw [Term.operandText, Term.operandText, h.startsWithMinus_eq]
  exact h.wrapIf _

/-- Between two operands stands the same sign. -/
theorem signed (minus : Bool) (h : Lowers cs ds n) (h' : Lowers cs' ds' n') :
    Lowers (cs ++ signText minus ++ cs') (ds ++ signText minus ++ ds') (n + n') := by
  rw [List.append_assoc, List.append_assoc]
  cases minus with
  | false | true => exact h.joined rfl ((h'.cons rfl).cons rfl)

theorem leftText (least : Level) (t : Term α) (h : Lowers cs ds n) :
    Lowers (leftText least t cs) (leftText least t ds) n :=
  h.wrapIf _

theorem rightText (most : Level) (t : Term α) (h : Lowers cs ds n) :
    Lowers (rightText most t cs) (rightText most t ds) n := by
  rw [Term.rightText, Term.rightText, h.startsWithMinus_eq]
  exact h.wrapIf _

end Lowers

/-! ## Numbers -/

section

variable {v e : α}

/-- An exponent that cannot be raised stands after a caret. -/
theorem exponentText_raised_of_none (h : raisedExponent? e = none) :
    exponentText .raised e = '^' :: Numeral.text e := by
  rw [exponentText, h]
  rfl

/-- An exponent that is not raised is written as in caret style exactly if it needs no parentheses
there. -/
theorem exponentText_eq_iff (h : raisedExponent? e = none) :
    exponentText .raised e = exponentText .caret e ↔ Scalar.isNegative e = false := by
  rw [exponentText_raised_of_none h, exponentText, List.cons_inj_right]
  cases Scalar.isNegative e with
  | false => exact iff_of_true rfl rfl
  | true =>
    refine iff_of_false (fun heq => ?_) Bool.true_eq_false_eq_False
    have hlength : _ = (wrap (Numeral.text e)).length := congrArg List.length heq
    rw [wrap, List.length_append, List.length_cons] at hlength
    omega

variable [SignedNumeral α]

theorem isRaised_of_isDigit {c : Char} (h : c.isDigit = true) : isRaised c = false := by
  rw [Bool.eq_false_iff]
  intro hraised
  rw [isDigit_of_isRaised hraised] at h
  cases h

theorem isRaised_of_isNumber {cs : List Char} (h : IsNumber cs) :
    ∀ c ∈ cs, isRaised c = false := by
  obtain ⟨whole, places, -, hwhole, hplaces, rfl | ⟨-, rfl⟩⟩ := h
  · exact fun c hc => isRaised_of_isDigit (hwhole c hc)
  · intro c hc
    rcases List.mem_append.1 hc with hc | hc
    · exact isRaised_of_isDigit (hwhole c hc)
    rcases List.mem_cons.1 hc with rfl | hc
    · rfl
    · exact isRaised_of_isDigit (hplaces c hc)

/-- A number without a sign starts with a digit. -/
theorem exists_digit_of_isNumber {cs : List Char} (h : IsNumber cs) :
    ∃ d rest, cs = d :: rest ∧ d.isDigit = true := by
  obtain ⟨whole, places, hne, hwhole, -, hcs⟩ := h
  obtain ⟨d, whole, rfl⟩ := List.exists_cons_of_ne_nil hne
  rcases hcs with rfl | ⟨-, rfl⟩
  · exact ⟨d, _, rfl, hwhole d List.mem_cons_self⟩
  · exact ⟨d, _, rfl, hwhole d List.mem_cons_self⟩

/-- The text of a number is not empty, has no raised characters, and shows the sign. -/
theorem text_plain (hfinite : Scalar.isFinite v = true) :
    Numeral.text v ≠ [] ∧ (∀ c ∈ Numeral.text v, isRaised c = false) ∧
      startsWithMinus (Numeral.text v) = Scalar.isNegative v := by
  obtain ⟨cs, hcs, htext⟩ := SignedNumeral.exists_text_eq hfinite
  rw [htext]
  cases Scalar.isNegative v with
  | false =>
    obtain ⟨d, rest, hstart, hd⟩ := exists_digit_of_isNumber hcs
    refine ⟨hstart ▸ List.cons_ne_nil _ _, isRaised_of_isNumber hcs, ?_⟩
    rw [if_neg Bool.false_ne_true, hstart, Term.startsWithMinus_eq]
    refine beq_eq_false_iff_ne.2 ?_
    rintro rfl
    cases hd
  | true =>
    refine ⟨List.cons_ne_nil _ _, ?_, rfl⟩
    exact List.forall_mem_cons.2 ⟨rfl, isRaised_of_isNumber hcs⟩

/-- The raised digits of an exponent are a run that denotes it. -/
theorem lowered_raisedExponent {run : List Char} (hfinite : Scalar.isFinite e = true)
    (h : raisedExponent? e = some run) :
    lowered run = exponentText .caret e := by
  obtain ⟨hne, -, hminus⟩ := text_plain hfinite
  unfold raisedExponent? at h
  split at h
  · obtain ⟨hnumber, hraised⟩ := lowerChar?_of_mapM_raiseChar? h
    have hrun : run ≠ [] := by
      rintro rfl
      exact hne hnumber.symm
    rw [lowered_of_raised hrun hraised, loweredRun, hnumber, hminus]
    rfl
  · cases h

/-- An exponent in raised style is that in caret style, parentheses apart. -/
theorem Lowers.exponentText (hfinite : Scalar.isFinite e = true) :
    Lowers (exponentText .raised e) (exponentText .caret e) (if isBare e then 1 else 0) := by
  cases hraised : raisedExponent? e with
  | some run =>
    have hrun : Term.exponentText .raised e = run := by rw [Term.exponentText, hraised]; rfl
    have hbare : isBare e = false := by rw [isBare, hraised]; simp
    have heq := lowered_raisedExponent hfinite hraised
    rw [hrun, hbare]
    exact ⟨by rw [heq], by rw [heq]; rfl, fun _ => heq⟩
  | none =>
    have hbare : isBare e = Scalar.isNegative e := by rw [isBare, hraised]; simp
    have heq : lowered ('^' :: Numeral.text e) = '^' :: Numeral.text e :=
      lowered_eq_self (List.forall_mem_cons.2 ⟨rfl, (text_plain hfinite).2.1⟩)
    rw [exponentText_raised_of_none hraised, hbare, Term.exponentText]
    cases hsign : Scalar.isNegative e with
    | false => exact ⟨by rw [heq]; rfl, by rw [heq]; rfl, fun _ => heq⟩
    | true =>
      refine ⟨by rw [heq]; rfl, ?_, fun hzero => absurd hzero Nat.one_ne_zero⟩
      rw [heq]
      simp [Term.wrapIf, Term.wrap]

/-- A coefficient is written before its factor in the same way. -/
theorem Lowers.coefficientText {cs ds : List Char} {n : Nat} (hfinite : Scalar.isFinite v = true)
    (h : Lowers cs ds n) : Lowers (coefficientText v cs) (coefficientText v ds) n := by
  have hnumber := (text_plain hfinite).2.1
  rw [Term.coefficientText, Term.coefficientText, h.takesCoefficient_eq]
  split
  · exact (h.cons rfl).prefixed hnumber
  · split
    · exact h.cons rfl
    · exact h.prefixed hnumber

end

/-! ## Terms -/

omit [Numeral α] in
/-- A term has the same exponents and names without its minus sign. -/
theorem parts_of_withoutMinus? {t s : Term α} (h : t.withoutMinus? = some s) :
    s.exponents = t.exponents ∧ s.names = t.names := by
  fun_induction withoutMinus? t generalizing s with
  | case1 => cases h; exact ⟨rfl, rfl⟩
  | case2 | case6 => cases h
  | case3 left right hleft =>
    cases h
    cases left with
    | const v => exact ⟨rfl, rfl⟩
    | _ => cases hleft
  | case4 left right _ ih | case5 left right ih =>
    obtain ⟨l, hl, rfl⟩ := Option.map_eq_some_iff.1 h
    obtain ⟨hexponents, hnames⟩ := ih hl
    exact ⟨congrArg (· ++ right.exponents) hexponents, congrArg (· ++ right.names) hnames⟩

omit [Numeral α] in
theorem parts_unsigned (t : Term α) :
    t.unsigned.exponents = t.exponents ∧ t.unsigned.names = t.names := by
  rw [unsigned]
  cases h : t.withoutMinus? with
  | none => exact ⟨rfl, rfl⟩
  | some s => exact parts_of_withoutMinus? h

omit [Scalar α] [Numeral α] in
theorem mem_wrapIf {asked : Bool} {cs : List Char} {c : Char} (h : c ∈ cs) :
    c ∈ wrapIf asked cs := by
  cases asked with
  | false => exact h
  | true => exact List.mem_append_left _ (List.mem_cons_of_mem _ h)

theorem mem_coefficientText {v : α} {cs : List Char} {c : Char} (h : c ∈ cs) :
    c ∈ coefficientText v cs := by
  unfold coefficientText
  split
  · exact List.mem_append_right _ (List.mem_cons_of_mem _ h)
  · split
    · exact List.mem_cons_of_mem _ h
    · exact List.mem_append_right _ h

/-- The characters of every name are written. -/
theorem mem_chars_of_mem_names {style : ExponentStyle} {t : Term α} {name : String} {c : Char}
    (hname : name ∈ t.names) (hc : c ∈ name.toList) : c ∈ t.chars style := by
  fun_induction chars style t with
  | case1 v => cases hname
  | case2 symbol => rwa [← List.mem_singleton.1 hname]
  | case3 left right ihl ihr | case4 left right ihl ihr =>
    rcases List.mem_append.1 hname with hname | hname
    · exact List.mem_append_left _ (List.mem_append_left _ (ihl hname))
    · rw [← (parts_unsigned right).2] at hname
      exact List.mem_append_right _ (mem_wrapIf (ihr hname))
  | case5 v right ih => exact mem_coefficientText (mem_wrapIf (ih hname))
  | case6 left right _ ihl ihr | case7 left right ihl ihr =>
    rcases List.mem_append.1 hname with hname | hname
    · exact List.mem_append_left _ (mem_wrapIf (ihl hname))
    · exact List.mem_append_right _ (List.mem_cons_of_mem _ (mem_wrapIf (ihr hname)))
  | case8 base e ih => exact List.mem_append_left _ (mem_wrapIf (ih hname))
  | case9 f arg ih =>
    exact List.mem_append_right _ (List.mem_append_left _ (List.mem_cons_of_mem _ (ih hname)))

/-- The names have no raised characters. -/
def PlainNames (t : Term α) : Prop :=
  ∀ name ∈ t.names, ∀ c ∈ name.toList, isRaised c = false

variable [SignedNumeral α]

theorem endsPlain_wrap (cs : List Char) : EndsPlain (wrap cs) := by
  intro c hc
  rw [wrap, List.getLast?_concat] at hc
  cases hc
  rfl

theorem isRaised_of_mem_name (f : Func) : ∀ c ∈ f.name.toList, isRaised c = false := by
  have hall : f.name.toList.all (fun c => !isRaised c) = true := by cases f <;> rfl
  simpa using hall

/-- The text of the base of a power does not end in a run. -/
theorem endsPlain_base {t : Term α} (ht : t.Proper) (hnames : t.PlainNames) :
    EndsPlain (rightText .power t (t.chars .raised)) := by
  rw [rightText, wrapIf]
  split
  · exact endsPlain_wrap _
  · next hatom =>
    have hlevel : decide (t.level.rank ≤ Level.power.rank) = false := by
      rw [Bool.or_eq_true, not_or] at hatom
      exact Bool.eq_false_iff.2 hatom.1
    cases t with
    | const v =>
      rw [chars]
      exact endsPlain_of_plain (text_plain ht).2.1
    | symbol name =>
      rw [chars]
      exact endsPlain_of_plain (hnames name List.mem_cons_self)
    | call f a =>
      rw [chars]
      intro c hc
      rw [List.getLast?_append_of_ne_nil _ (by simp [wrap])] at hc
      exact endsPlain_wrap _ c hc
    | sum _ _ | difference _ _ | product _ _ | quotient _ _ | power _ _ => cases hlevel

/-- The texts of a term in the two styles differ as its exponents do. -/
theorem lowers_chars {t : Term α} (ht : t.Proper) (hnames : t.PlainNames) :
    Lowers (t.chars .raised) (t.chars .caret) (t.exponents.countP isBare) := by
  fun_induction chars .raised t with
  | case1 v =>
    rw [chars]
    exact .of_plain (text_plain ht).2.1
  | case2 name =>
    rw [chars]
    exact .of_plain (hnames name List.mem_cons_self)
  | case3 left right ihl ihr | case4 left right ihl ihr =>
    obtain ⟨hl, hr⟩ := List.forall_mem_append.1 hnames
    obtain ⟨hexponents, hnames'⟩ := parts_unsigned right
    have hleft := ihl ht.1 hl
    have hright := ihr (unsigned_of proper_of_withoutMinus? ht.2) (by rwa [PlainNames, hnames'])
    rw [chars, exponents, List.countP_append, ← hexponents]
    exact hleft.signed _ (hright.operandText _)
  | case5 c right ih =>
    have hright := ih ht.2 hnames
    rw [chars]
    exact (hright.operandText right).coefficientText ht.1
  | case6 left right hconst ihl ihr =>
    obtain ⟨hl, hr⟩ := List.forall_mem_append.1 hnames
    have hleft := (ihl ht.1 hl).leftText .product left
    have hright := (ihr ht.2 hr).rightText .product right
    rw [chars, exponents, List.countP_append]
    · exact hleft.joined rfl hright
    · exact hconst
  | case7 left right ihl ihr =>
    obtain ⟨hl, hr⟩ := List.forall_mem_append.1 hnames
    have hleft := (ihl ht.1 hl).leftText .product left
    have hright := (ihr ht.2 hr).rightText .product right
    rw [chars, exponents, List.countP_append]
    exact hleft.joined rfl hright
  | case8 base e ih =>
    have hb := ih ht.1 hnames
    rw [chars, exponents, List.countP_append, List.countP_singleton]
    exact (hb.rightText .power base).append (.exponentText ht.2) (.inl (endsPlain_base ht.1 hnames))
  | case9 f arg ih =>
    rw [chars]
    exact (ih ht hnames).wrap.prefixed (isRaised_of_mem_name f)

/-- Written after carets, the exponents of a text in raised digits are those of the text with carets
if and only if no name has a raised character in it, and every negative exponent is raised. An
exponent that is not raised is written as after a caret if and only if it is not negative. -/
theorem lowered_text_iff {t : Term α} (ht : t.Proper) :
    (lowered (t.text .raised).toList = (t.text .caret).toList ↔ t.PlainNames ∧
      ∀ e ∈ t.exponents, Scalar.isNegative e = true → (raisedExponent? e).isSome = true) ∧
      ∀ e ∈ t.exponents, raisedExponent? e = none →
        (exponentText .raised e = exponentText .caret e ↔ Scalar.isNegative e = false) := by
  rw [text, text, String.toList_ofList, String.toList_ofList]
  have hbare : t.exponents.countP isBare = 0 ↔
      ∀ e ∈ t.exponents, Scalar.isNegative e = true → (raisedExponent? e).isSome = true := by
    simp [List.countP_eq_zero, isBare, Option.isSome_iff_ne_none]
  constructor
  · constructor
    · intro heq
      have hnames : t.PlainNames := fun name hname c hc =>
        isRaised_of_mem_lowered (heq ▸ mem_chars_of_mem_names hname hc)
      have hlength := (lowers_chars ht hnames).length_eq
      rw [heq] at hlength
      exact ⟨hnames, hbare.1 (by omega)⟩
    · rintro ⟨hnames, hraised⟩
      exact (lowers_chars ht hnames).eq_of_zero (hbare.2 hraised)
  · exact fun e _ => exponentText_eq_iff

/-- An integer is raised, a negative one as well, unless it is too large. -/
theorem lowered_text_iff_quotient :
    let t : Term ℤ := .quotient (.product (.const 2) (.power (.call .sin (.symbol "x")) (-12)))
      (.power (.symbol "y") (10 ^ 16))
    t.Proper ∧ t.text .raised = "2sin(x)⁻¹²/y^10000000000000000" ∧
      lowered (t.text .raised).toList = (t.text .caret).toList := by
  intro t
  have ht : t.Proper := ⟨⟨rfl, trivial, rfl⟩, trivial, rfl⟩
  have htext : t.text .raised = "2sin(x)⁻¹²/y^10000000000000000" := by
    simp only [t, text, chars]
    decide +kernel
  have hnames : t.PlainNames := by
    have hall : t.names.all (fun name => name.toList.all fun c => !isRaised c) = true := by
      decide +kernel
    simpa [PlainNames] using hall
  have hraised : ∀ e ∈ t.exponents, Scalar.isNegative e = true →
      (raisedExponent? e).isSome = true := by
    decide +kernel
  exact ⟨ht, htext, (lowered_text_iff ht).1.2 ⟨hnames, hraised⟩⟩

/-- A negative fraction loses its parentheses in the raised style. -/
theorem lowered_text_ne_caret :
    let t : Term Float := .power (.symbol "x") (-0.5)
    t.Proper ∧ t.text .raised = "x^-0.5" ∧ t.text .caret = "x^(-0.5)" ∧
      lowered (t.text .raised).toList ≠ (t.text .caret).toList := by
  intro t
  have hnone : raisedExponent? (-0.5 : Float) = none := by
    unfold raisedExponent?
    split
    · decide +kernel
    · rfl
  have hraised : t.text .raised = "x^-0.5" := by
    simp only [t, text, chars, exponentText, hnone]
    decide +kernel
  have hcaret : t.text .caret = "x^(-0.5)" := by
    simp only [t, text, chars]
    decide +kernel
  refine ⟨⟨trivial, by decide⟩, hraised, hcaret, ?_⟩
  rw [hraised, hcaret]
  simp only [lowered]
  decide +kernel

end Fluxion.Term
