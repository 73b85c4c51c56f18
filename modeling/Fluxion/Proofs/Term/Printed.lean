import Fluxion.Derivation
import Fluxion.Proofs.Expr.Joining
import Fluxion.Proofs.Expr.Lowering
import Fluxion.Proofs.Token.Scanning

/-!
# What the text of a term is read as

The text of a term is put together from the texts of its operands, and so is its derivation. The
grammar does not group products as the term does: a coefficient or a sign in front of a chain of
factors takes only the first of them. Therefore a chain is looked at after anything that it may
continue, with what is made of its first factor there.
-/

namespace Fluxion

open Token (significantFrom EndsWord EndsNumber IsNumber IsName)

/-- The laws of numerals that are assumed: a proper number that is not negative is written as
digits, with a point at most, and read back as an equal number; a negative one has a minus sign in
front of the text of its opposite. -/
class LawfulNumeral (α : Type) [Scalar α] [Numeral α] : Prop extends SignedScalar α where
  isNegative_neg {v : α} : Scalar.isFinite v = true → Scalar.isNegative v = true →
    Scalar.isNegative (-v) = false
  text_neg {v : α} : Scalar.isFinite v = true → Scalar.isNegative v = true →
    Numeral.text v = '-' :: Numeral.text (-v)
  isNumber_text {v : α} : Scalar.isFinite v = true → Scalar.isNegative v = false →
    IsNumber (Numeral.text v)
  ofChars_text {v : α} : Scalar.isFinite v = true → Scalar.isNegative v = false →
    (Numeral.ofChars (Numeral.text v) == v) = true
  neg_beq {v w : α} : Scalar.isFinite v = true → (w == -v) = true → (-w == v) = true

/-- A variable is a name and nothing else, and no function is known by it. -/
theorem isVariable_eq_true_iff {name : String} :
    isVariable name = true ↔
      ∃ t, Token.scan name = [t] ∧ t.kind = .name ∧ Func.ofName? name = none := by
  unfold isVariable
  split
  · next t hscan =>
    rw [Bool.and_eq_true, beq_iff_eq, Option.isNone_iff_eq_none]
    constructor
    · intro h
      exact ⟨t, hscan, h⟩
    · rintro ⟨u, hu, h⟩
      rw [hscan] at hu
      cases hu
      exact h
  · next hmore =>
    refine iff_of_false Bool.false_ne_true ?_
    rintro ⟨t, hscan, -⟩
    exact hmore t hscan

namespace Term

/-- Whether every symbol of the term is a name that can be read as a symbol. -/
def Named {α : Type} : Term α → Prop
  | const _ => True
  | symbol name => isVariable name = true
  | sum l r | difference l r | product l r | quotient l r => l.Named ∧ r.Named
  | power b _ => b.Named
  | call _ a => a.Named

/-- A text that can follow the text of any term: no word goes on with it, and no parenthesis that
would turn a name into a call comes next. -/
structure Separated (rest : List Char) : Prop where
  endsWord : EndsWord rest
  notOpening : ∀ offset, ∀ u ∈ (significantFrom offset rest).head?, u.kind ≠ .opening

theorem separated_nil : Separated [] where
  endsWord := by
    intro c hc
    cases hc
  notOpening := by
    intro offset u hu
    rw [significantFrom, Token.scanFrom_nil] at hu
    cases hu

theorem separated_symbol {c : Char} (h : Token.isSymbol c = true) (hc : c ≠ '(')
    (rest : List Char) : Separated (c :: rest) where
  endsWord := by
    intro d hd
    cases hd
    simp only [Token.isSymbol, Bool.or_eq_true, beq_iff_eq] at h
    rcases h with (((((rfl | rfl) | rfl) | rfl) | rfl) | rfl) | rfl <;> decide
  notOpening := by
    intro offset u hu
    obtain ⟨t, offset', hkind, hscan⟩ := Token.significantFrom_symbol h rest offset
    rw [hscan] at hu
    cases hu
    rw [hkind]
    simp only [Token.isSymbol, Bool.or_eq_true, beq_iff_eq] at h
    rcases h with (((((rfl | rfl) | rfl) | rfl) | rfl) | rfl) | rfl
    · exact absurd rfl hc
    · decide
    · decide
    · decide
    · decide
    · decide
    · decide

/-- Before and after a sign stand spaces, which do not matter. -/
theorem significantFrom_signText (minus : Bool) (rest : List Char) (offset : Nat) :
    ∃ t offset', BinaryOp.ofToken? t.kind = some (if minus then .minus else .plus) ∧
      significantFrom offset (signText minus ++ rest) = t :: significantFrom offset' rest := by
  cases minus with
  | false =>
    obtain ⟨t, offset', hkind, hscan⟩ :=
      Token.significantFrom_symbol (c := '+') rfl (' ' :: rest) (offset + 1)
    refine ⟨t, offset' + 1, by rw [hkind]; rfl, ?_⟩
    change significantFrom offset (' ' :: '+' :: ' ' :: rest) = _
    rw [Token.significantFrom_space, hscan, Token.significantFrom_space]
  | true =>
    obtain ⟨t, offset', hkind, hscan⟩ :=
      Token.significantFrom_symbol (c := '-') rfl (' ' :: rest) (offset + 1)
    refine ⟨t, offset' + 1, by rw [hkind]; rfl, ?_⟩
    change significantFrom offset (' ' :: '-' :: ' ' :: rest) = _
    rw [Token.significantFrom_space, hscan, Token.significantFrom_space]

theorem separated_signText (minus : Bool) (rest : List Char) :
    Separated (signText minus ++ rest) where
  endsWord := by
    intro d hd
    cases minus <;> cases hd <;> decide
  notOpening := by
    intro offset u hu hkind
    obtain ⟨t, offset', hop, hscan⟩ := significantFrom_signText minus rest offset
    rw [hscan] at hu
    cases hu
    rw [hkind] at hop
    cases hop

variable {α : Type} [Scalar α] [Numeral α]

open Fluxion.Expr (Derives Category Spells meaningful negate)

omit [Scalar α] in
/-- An expression that is derived from all of the characters is spelled by them. -/
theorem spells_of_derives {cs : List Char} {e : Expr α} {passed : List Token} {offset : Nat}
    (h : Derives .sum ⟨[], significantFrom 0 (cs ++ [])⟩ e ⟨passed, significantFrom offset []⟩) :
    Spells (String.ofList cs) e := by
  have hmeaningful : significantFrom 0 cs = meaningful (String.ofList cs) := by
    rw [meaningful, Token.scan, String.toList_ofList]
    rfl
  have hnone : significantFrom offset [] = [] := by
    rw [significantFrom, Token.scanFrom_nil]
    rfl
  rw [List.append_nil, hmeaningful, hnone] at h
  exact h.spells

/-- Wherever the text stands, as long as a separated text follows, the grammar derives an operand of
the category from it that becomes the term. -/
def Forms (cat : Category) (cs : List Char) (t : Term α) : Prop :=
  ∀ (passed : List Token) (offset : Nat) (rest : List Char), Separated rest →
    ∃ (e : Expr α) (passed' : List Token) (offset' : Nat),
      Derives cat ⟨passed, significantFrom offset (cs ++ rest)⟩ e
        ⟨passed', significantFrom offset' rest⟩ ∧ e.Becomes t

theorem Forms.loosen {cat cat' : Category} {cs : List Char} {t : Term α} (h : Forms cat cs t)
    (hrank : cat'.rank ≤ cat.rank) : Forms cat' cs t := by
  intro passed offset rest hrest
  obtain ⟨e, passed', offset', hderives, hbecomes⟩ := h passed offset rest hrest
  exact ⟨e, passed', offset', hderives.loosen hrank, hbecomes⟩

/-! ## Operands in parentheses, symbols and calls -/

theorem Forms.wrap {cs : List Char} {t : Term α} (h : Forms .sum cs t) :
    Forms .atom (wrap cs) t := by
  intro passed offset rest _
  obtain ⟨opening, offset₁, hopening, hscan₁⟩ :=
    Token.significantFrom_symbol (c := '(') rfl (cs ++ ')' :: rest) offset
  obtain ⟨e, passed', offset₂, hderives, hbecomes⟩ :=
    h (opening :: passed) offset₁ (')' :: rest) (separated_symbol rfl (by decide) rest)
  obtain ⟨closing, offset₃, hclosing, hscan₃⟩ :=
    Token.significantFrom_symbol (c := ')') rfl rest offset₂
  refine ⟨.paren e (opening.span.cover closing.span), closing :: passed', offset₃, ?_,
    hbecomes.paren _⟩
  have htext : Term.wrap cs ++ rest = '(' :: (cs ++ ')' :: rest) := by simp [Term.wrap]
  rw [htext, hscan₁]
  rw [hscan₃] at hderives
  exact .paren hopening hclosing hderives

theorem forms_symbol {name : String} (h : isVariable name = true) :
    Forms .atom name.toList (symbol name : Term α) := by
  intro passed offset rest hrest
  obtain ⟨t, hscan, hkind, hfunc⟩ := isVariable_eq_true_iff.1 h
  obtain ⟨hname, -⟩ := Token.isName_of_scan hscan hkind
  obtain ⟨u, offset', hukind, hulexeme, huscan⟩ :=
    Token.significantFrom_name hname hrest.endsWord offset
  rw [String.ofList_toList] at hulexeme
  refine ⟨.symbol name u.span, u :: passed, offset', ?_, .symbol name u.span⟩
  rw [huscan, ← hulexeme]
  refine .symbol hukind ?_ (hrest.notOpening offset')
  rw [hulexeme]
  exact hfunc

omit [Scalar α] [Numeral α] in
/-- The text of a call starts with the name of the function and an opening parenthesis. -/
theorem significantFrom_call (f : Func) (cs rest : List Char) (offset : Nat) :
    ∃ u opening offset', u.kind = .name ∧ u.lexeme = f.name ∧ opening.kind = .opening ∧
      significantFrom offset (f.name.toList ++ Term.wrap cs ++ rest) =
        u :: opening :: significantFrom offset' (cs ++ ')' :: rest) := by
  have hends : EndsWord ('(' :: (cs ++ ')' :: rest)) := by
    intro c hc
    cases hc
    decide
  obtain ⟨u, offset₀, hkind, hlexeme, hscan₀⟩ :=
    Token.significantFrom_name (Token.isName_func f) hends offset
  obtain ⟨opening, offset₁, hopening, hscan₁⟩ :=
    Token.significantFrom_symbol (c := '(') rfl (cs ++ ')' :: rest) offset₀
  rw [String.ofList_toList] at hlexeme
  have htext : f.name.toList ++ Term.wrap cs ++ rest =
      f.name.toList ++ '(' :: (cs ++ ')' :: rest) := by simp [Term.wrap]
  exact ⟨u, opening, offset₁, hkind, hlexeme, hopening, by rw [htext, hscan₀, hscan₁]⟩

theorem Forms.call {cs : List Char} {t : Term α} (h : Forms .sum cs t) (f : Func) :
    Forms .atom (f.name.toList ++ Term.wrap cs) (call f t) := by
  intro passed offset rest _
  obtain ⟨u, opening, offset₁, hkind, hlexeme, hopening, hscan₁⟩ :=
    significantFrom_call f cs rest offset
  obtain ⟨e, passed', offset₂, hderives, hbecomes⟩ := h (opening :: u :: passed) offset₁
    (')' :: rest) (separated_symbol rfl (by decide) rest)
  obtain ⟨closing, offset₃, hclosing, hscan₃⟩ :=
    Token.significantFrom_symbol (c := ')') rfl rest offset₂
  refine ⟨.call f u.lexeme u.span e (opening.span.cover closing.span), closing :: passed', offset₃,
    ?_, hbecomes.call f u.lexeme u.span _⟩
  rw [hscan₁]
  rw [hscan₃] at hderives
  refine .call hkind ?_ hopening hclosing hderives
  rw [hlexeme, Func.ofName?_name]

/-! ## Products -/

/-- An operand at `c` continues a product that starts at `c₀`: whatever power it is, the product goes
on to its end, and becomes what `first` makes of it. -/
def Continues (first : Term α → Term α) (c₀ c : Cursor) : Prop :=
  ∀ (e : Expr α) (c' : Cursor) (t : Term α), Derives .power c e c' → e.Becomes t →
    ∃ l : Expr α, Derives .product c₀ l c' ∧ l.Becomes (first t)

/-- An operand continues the product that starts with it. -/
theorem continues_id (c : Cursor) : Continues (id : Term α → Term α) c c :=
  fun e _ _ hderives hbecomes => ⟨e, hderives.loosen (by decide), hbecomes⟩

/-- The text is that of a chain of factors: whatever product it continues, that product goes on to its
end, and what it becomes is read from what is made of the first factor. Only a product that starts
with the text can start with a minus sign. -/
def FormsChain (cs : List Char) (read : (Term α → Term α) → Term α) : Prop :=
  ∀ (first : Term α → Term α) (c₀ : Cursor) (passed : List Token) (offset : Nat)
    (rest : List Char), Separated rest →
    (startsWithMinus cs = true →
      first = id ∧ c₀ = ⟨passed, significantFrom offset (cs ++ rest)⟩) →
    Continues first c₀ ⟨passed, significantFrom offset (cs ++ rest)⟩ →
    ∃ (e : Expr α) (passed' : List Token) (offset' : Nat),
      Derives .product c₀ e ⟨passed', significantFrom offset' rest⟩ ∧ e.Becomes (read first)

theorem FormsChain.forms {cs : List Char} {read : (Term α → Term α) → Term α}
    (h : FormsChain cs read) : Forms .product cs (read id) := by
  intro passed offset rest hrest
  exact h id _ passed offset rest hrest (fun _ => ⟨rfl, rfl⟩) (continues_id _)

/-- A power is a chain of one factor. -/
theorem Forms.chain {cs : List Char} {t : Term α} (h : Forms .power cs t) :
    FormsChain cs fun first => first t := by
  intro first c₀ passed offset rest hrest _ hbefore
  obtain ⟨e, passed', offset', hderives, hbecomes⟩ := h passed offset rest hrest
  obtain ⟨l, hl, hlbecomes⟩ := hbefore e _ t hderives hbecomes
  exact ⟨l, passed', offset', hl, hlbecomes⟩

omit [Scalar α] [Numeral α] in
theorem startsWithMinus_append {left : List Char} (right : List Char)
    (h : startsWithMinus left = true) : startsWithMinus (left ++ right) = true := by
  cases left with
  | nil => cases h
  | cons c left => exact h

omit [Scalar α] [Numeral α] in
/-- In parentheses, if it has to be, a text starts with no minus sign. -/
theorem startsWithMinus_wrapIf (asked : Bool) (cs : List Char) :
    startsWithMinus (wrapIf (asked || startsWithMinus cs) cs) = false := by
  unfold wrapIf
  split
  · rfl
  · next h =>
    rw [Bool.or_eq_true, not_or, Bool.not_eq_true, Bool.not_eq_true] at h
    exact h.2

omit [Scalar α] [Numeral α] in
theorem startsWithMinus_operandText (t : Term α) (cs : List Char) :
    startsWithMinus (operandText t cs) = false :=
  startsWithMinus_wrapIf _ cs

/-- A chain goes on with one more factor, which is a power. -/
theorem FormsChain.times {left right : List Char} {read : (Term α → Term α) → Term α} {r : Term α}
    (hl : FormsChain left read) (hr : Forms .power right r) :
    FormsChain (left ++ '*' :: right) fun first => product (read first) r := by
  intro first c₀ passed offset rest hrest hminus hbefore
  rw [List.append_assoc, List.cons_append] at hminus hbefore
  obtain ⟨e, passed₁, offset₁, hderives, hbecomes⟩ := hl first c₀ passed offset
    ('*' :: (right ++ rest)) (separated_symbol rfl (by decide) _)
    (fun hstarts => hminus (startsWithMinus_append _ hstarts)) hbefore
  obtain ⟨t, offset₂, hkind, hscan⟩ :=
    Token.significantFrom_symbol (c := '*') rfl (right ++ rest) offset₁
  obtain ⟨e', passed', offset', hderives', hbecomes'⟩ := hr (t :: passed₁) offset₂ rest hrest
  rw [hscan] at hderives
  refine ⟨Expr.join (.written .times) t.span e e', passed', offset', ?_, ?_⟩
  · exact .product hderives (congrArg BinaryOp.ofToken? hkind) (.inl rfl)
      (hderives'.loosen (by decide))
  · exact hbecomes.join hbecomes' rfl (fun _ _ hs hs' => hs.product hs') t.span

/-- A chain goes on with one more divisor, which is a power. -/
theorem FormsChain.divide {left right : List Char} {read : (Term α → Term α) → Term α} {r : Term α}
    (hl : FormsChain left read) (hr : Forms .power right r) :
    FormsChain (left ++ '/' :: right) fun first => quotient (read first) r := by
  intro first c₀ passed offset rest hrest hminus hbefore
  rw [List.append_assoc, List.cons_append] at hminus hbefore
  obtain ⟨e, passed₁, offset₁, hderives, hbecomes⟩ := hl first c₀ passed offset
    ('/' :: (right ++ rest)) (separated_symbol rfl (by decide) _)
    (fun hstarts => hminus (startsWithMinus_append _ hstarts)) hbefore
  obtain ⟨t, offset₂, hkind, hscan⟩ :=
    Token.significantFrom_symbol (c := '/') rfl (right ++ rest) offset₁
  obtain ⟨e', passed', offset', hderives', hbecomes'⟩ := hr (t :: passed₁) offset₂ rest hrest
  rw [hscan] at hderives
  refine ⟨Expr.join (.written .divide) t.span e e', passed', offset', ?_, ?_⟩
  · exact .product hderives (congrArg BinaryOp.ofToken? hkind) (.inr rfl)
      (hderives'.loosen (by decide))
  · exact hbecomes.join hbecomes' rfl (fun _ _ hs hs' => hs.quotient hs') t.span

/-! ## Numbers and coefficients -/

theorem endsNumber_of_takesCoefficient {cs : List Char} (h : takesCoefficient cs = true)
    (rest : List Char) : EndsNumber (cs ++ rest) := by
  cases cs with
  | nil => cases h
  | cons c cs =>
    intro d hd
    cases hd
    exact Token.not_number_of_isAlphabetic h

/-- A coefficient may be written right before a chain that starts with a name or a parenthesis. -/
theorem Continues.juxtaposed {c₀ : Cursor} {l : Expr α} {a : Term α} {t : Token}
    {passed : List Token} {offset : Nat} {cs : List Char}
    (hkind : t.kind = .int ∨ t.kind = .decimal) (hcs : takesCoefficient cs = true)
    (hderives : Derives .product c₀ l ⟨t :: passed, significantFrom offset cs⟩)
    (hbecomes : l.Becomes a) :
    Continues (product a) c₀ ⟨t :: passed, significantFrom offset cs⟩ := by
  intro e c' u hpower hu
  obtain ⟨next, ahead, hahead, hstart⟩ := hpower.start_operand (.inl rfl)
  have hafter : next.kind = .name ∨ next.kind = .opening := by
    cases cs with
    | nil => cases hcs
    | cons c cs =>
      obtain ⟨hnumber, hspace⟩ := Token.first_of_isAlphabetic hcs cs
      obtain ⟨t', ts, hscan, hkind'⟩ := Token.significantFrom_first hspace offset
      rw [hscan] at hahead
      cases hahead
      rw [← hkind'] at hnumber
      simp only [Expr.operandStart, List.mem_cons, List.not_mem_nil, or_false] at hstart
      rcases hstart with hstart | hstart | hstart | hstart
      · rw [hstart] at hnumber
        cases hnumber
      · rw [hstart] at hnumber
        cases hnumber
      · exact .inl hstart
      · exact .inr hstart
  dsimp only at hahead
  rw [hahead] at hderives hpower
  refine ⟨Expr.join .juxtaposed default l e, ?_, ?_⟩
  · refine .juxtaposed hderives ?_ hafter hpower
    rcases hkind with hkind | hkind
    · exact .inl hkind
    · exact .inr (.inl hkind)
  · exact hbecomes.join hu rfl (fun _ _ hs hs' => hs.product hs') default

section Numerals

variable [LawfulNumeral α]

/-- A number without a sign is read as an equal number. -/
theorem number_derives {v : α} (hfinite : Scalar.isFinite v = true)
    (hsign : Scalar.isNegative v = false) (passed : List Token) (offset : Nat) {rest : List Char}
    (hrest : EndsNumber rest) :
    ∃ (w : α) (t : Token) (offset' : Nat), (t.kind = .int ∨ t.kind = .decimal) ∧
      Scalar.isFinite w = true ∧ (w == v) = true ∧
      Derives .atom ⟨passed, significantFrom offset (Numeral.text v ++ rest)⟩ (.number w t.span)
        ⟨t :: passed, significantFrom offset' rest⟩ := by
  obtain ⟨t, offset', hkind, hlexeme, hscan⟩ := Token.significantFrom_number
    (LawfulNumeral.isNumber_text hfinite hsign) hrest offset
  have hvalue := LawfulNumeral.ofChars_text hfinite hsign
  have hchars : t.lexeme.toList = Numeral.text v := by rw [hlexeme, String.toList_ofList]
  refine ⟨Numeral.ofChars t.lexeme.toList, t, offset', hkind, ?_, ?_, ?_⟩
  · rw [hchars, SignedScalar.isFinite_congr hvalue]
    exact hfinite
  · rw [hchars]
    exact hvalue
  · rw [hscan]
    exact .number hkind

theorem startsWithMinus_text {v : α} (hfinite : Scalar.isFinite v = true)
    (hsign : Scalar.isNegative v = true) : startsWithMinus (Numeral.text v) = true := by
  rw [LawfulNumeral.text_neg hfinite hsign]
  rfl

/-- A number, with its sign if it has one, is the last factor so far of the product that it
continues. -/
theorem number_continues {v : α} (hfinite : Scalar.isFinite v = true) {first : Term α → Term α}
    {c₀ : Cursor} {passed : List Token} {offset : Nat} {rest : List Char} (hrest : EndsNumber rest)
    (hminus : startsWithMinus (Numeral.text v) = true →
      first = id ∧ c₀ = ⟨passed, significantFrom offset (Numeral.text v ++ rest)⟩)
    (hbefore : Continues first c₀ ⟨passed, significantFrom offset (Numeral.text v ++ rest)⟩) :
    ∃ (l : Expr α) (t : Token) (passed' : List Token) (offset' : Nat),
      (t.kind = .int ∨ t.kind = .decimal) ∧
      Derives .product c₀ l ⟨t :: passed', significantFrom offset' rest⟩ ∧
      l.Becomes (first (const v)) := by
  cases hsign : Scalar.isNegative v with
  | false =>
    obtain ⟨w, t, offset', hkind, hw, hvalue, hderives⟩ :=
      number_derives hfinite hsign passed offset hrest
    obtain ⟨l, hl, hlbecomes⟩ := hbefore _ _ _ (.atom hderives) (.number hw hvalue t.span)
    exact ⟨l, t, passed, offset', hkind, hl, hlbecomes⟩
  | true =>
    -- a sign is no power, so the number has to be the first factor
    obtain ⟨rfl, rfl⟩ := hminus (startsWithMinus_text hfinite hsign)
    have hneg : Scalar.isFinite (-v) = true := by rwa [SignedScalar.isFinite_neg]
    rw [LawfulNumeral.text_neg hfinite hsign, List.cons_append]
    obtain ⟨sign, offset₁, hsignKind, hscan⟩ :=
      Token.significantFrom_symbol (c := '-') rfl (Numeral.text (-v) ++ rest) offset
    obtain ⟨w, t, offset', hkind, hw, hvalue, hderives⟩ := number_derives hneg
      (LawfulNumeral.isNegative_neg hfinite hsign) (sign :: passed) offset₁ hrest
    refine ⟨.negation sign.span (.number w t.span) (sign.span.cover t.span), t, sign :: passed,
      offset', hkind, ?_, ?_⟩
    · rw [hscan]
      exact .factor (.negation hsignKind (hderives.loosen (by decide)))
    · exact .negative hw (LawfulNumeral.neg_beq hfinite hvalue) _ _ _

theorem chain_const {v : α} (hfinite : Scalar.isFinite v = true) :
    FormsChain (Numeral.text v) fun first => first (const v) := by
  intro first c₀ passed offset rest hrest hminus hbefore
  obtain ⟨l, t, passed', offset', -, hderives, hbecomes⟩ :=
    number_continues hfinite hrest.endsWord.endsNumber hminus hbefore
  exact ⟨l, t :: passed', offset', hderives, hbecomes⟩

/-- A coefficient before a multiplication sign is multiplied by the first factor of the chain after
it. -/
theorem FormsChain.coefficient_times {v : α} {cs : List Char} {read : (Term α → Term α) → Term α}
    (hfinite : Scalar.isFinite v = true) (h : FormsChain cs read)
    (hcs : startsWithMinus cs = false) :
    FormsChain (Numeral.text v ++ '*' :: cs) fun first => read (product (first (const v))) := by
  intro first c₀ passed offset rest hrest hminus hbefore
  rw [List.append_assoc, List.cons_append] at hminus hbefore
  have hends : EndsNumber ('*' :: (cs ++ rest)) := by
    intro c hc
    cases hc
    decide
  obtain ⟨l, n, passed₁, offset₁, -, hderives, hbecomes⟩ := number_continues hfinite hends
    (fun hstarts => hminus (startsWithMinus_append _ hstarts)) hbefore
  obtain ⟨op, offset₂, hkind, hscan⟩ :=
    Token.significantFrom_symbol (c := '*') rfl (cs ++ rest) offset₁
  rw [hscan] at hderives
  have hnext : Continues (product (first (const v))) c₀
      ⟨op :: n :: passed₁, significantFrom offset₂ (cs ++ rest)⟩ := by
    intro e c' u hpower hu
    refine ⟨Expr.join (.written .times) op.span l e, ?_, ?_⟩
    · exact .product hderives (congrArg BinaryOp.ofToken? hkind) (.inl rfl)
        (hpower.loosen (by decide))
    · exact hbecomes.join hu rfl (fun _ _ hs hs' => hs.product hs') op.span
  exact h _ c₀ _ offset₂ rest hrest (fun hstarts => absurd hstarts (Bool.eq_false_iff.1 hcs)) hnext

omit [LawfulNumeral α] in
/-- A minus sign before a chain is that of its first factor. -/
theorem FormsChain.negated {cs : List Char} {read : (Term α → Term α) → Term α}
    (h : FormsChain cs read) (hcs : startsWithMinus cs = false) :
    FormsChain ('-' :: cs) fun first => read fun t => first (negate t) := by
  intro first c₀ passed offset rest hrest hminus hbefore
  obtain ⟨rfl, rfl⟩ := hminus rfl
  rw [List.cons_append]
  obtain ⟨sign, offset₁, hkind, hscan⟩ :=
    Token.significantFrom_symbol (c := '-') rfl (cs ++ rest) offset
  have hnext : Continues (fun t : Term α => id (negate t))
      ⟨passed, significantFrom offset ('-' :: (cs ++ rest))⟩
      ⟨sign :: passed, significantFrom offset₁ (cs ++ rest)⟩ := by
    intro e c' u hpower hu
    refine ⟨.negation sign.span e (sign.span.cover e.span), ?_, hu.negation _ _⟩
    rw [hscan]
    exact .factor (.negation hkind (hpower.loosen (by decide)))
  exact h _ _ _ offset₁ rest hrest (fun hstarts => absurd hstarts (Bool.eq_false_iff.1 hcs)) hnext

/-- A coefficient right before a chain is multiplied by its first factor. -/
theorem FormsChain.coefficient_juxtaposed {v : α} {cs : List Char}
    {read : (Term α → Term α) → Term α} (hfinite : Scalar.isFinite v = true)
    (h : FormsChain cs read) (htakes : takesCoefficient cs = true)
    (hcs : startsWithMinus cs = false) :
    FormsChain (Numeral.text v ++ cs) fun first => read (product (first (const v))) := by
  intro first c₀ passed offset rest hrest hminus hbefore
  rw [List.append_assoc] at hminus hbefore
  have hends := endsNumber_of_takesCoefficient htakes rest
  obtain ⟨l, n, passed₁, offset₁, hkind, hderives, hbecomes⟩ := number_continues hfinite hends
    (fun hstarts => hminus (startsWithMinus_append _ hstarts)) hbefore
  have hnext : Continues (product (first (const v))) c₀
      ⟨n :: passed₁, significantFrom offset₁ (cs ++ rest)⟩ := by
    refine Continues.juxtaposed hkind ?_ hderives hbecomes
    cases cs with
    | nil => cases htakes
    | cons c cs => exact htakes
  exact h _ c₀ _ offset₁ rest hrest (fun hstarts => absurd hstarts (Bool.eq_false_iff.1 hcs)) hnext

/-- A coefficient takes the first factor of the chain after it, however it is written. -/
theorem FormsChain.coefficient {v : α} {cs : List Char} {read : (Term α → Term α) → Term α}
    (hfinite : Scalar.isFinite v = true) (h : FormsChain cs read)
    (hcs : startsWithMinus cs = false) :
    FormsChain (coefficientText v cs) fun first => read (afterCoefficient v cs first) := by
  unfold coefficientText
  cases htakes : takesCoefficient cs with
  | false =>
    simp only [afterCoefficient_of_number (.inl htakes)]
    exact h.coefficient_times hfinite hcs
  | true =>
    cases hone : v == -1 with
    | true =>
      simp only [afterCoefficient_of_sign htakes hone]
      exact h.negated hcs
    | false =>
      simp only [afterCoefficient_of_number (.inr hone)]
      exact h.coefficient_juxtaposed hfinite htakes hcs

/-! ## Powers and sums -/

/-- The text of an exponent, in parentheses if it is negative, is read as an equal exponent. -/
theorem exponent_derives {v : α} (hfinite : Scalar.isFinite v = true) (passed : List Token)
    (offset : Nat) {rest : List Char} (hrest : Separated rest) :
    ∃ (e : Expr α) (passed' : List Token) (offset' : Nat),
      Derives .atom ⟨passed, significantFrom offset
        (wrapIf (Scalar.isNegative v) (Numeral.text v) ++ rest)⟩ e
        ⟨passed', significantFrom offset' rest⟩ ∧ e.IsExponent v := by
  cases hsign : Scalar.isNegative v with
  | false =>
    obtain ⟨w, t, offset', -, hw, hvalue, hderives⟩ :=
      number_derives hfinite hsign passed offset hrest.endsWord.endsNumber
    exact ⟨_, _, offset', hderives, .number hw hvalue t.span⟩
  | true =>
    have hneg : Scalar.isFinite (-v) = true := by rwa [SignedScalar.isFinite_neg]
    have hends : EndsNumber (')' :: rest) := by
      intro c hc
      cases hc
      decide
    obtain ⟨opening, offset₁, hopening, hscan₁⟩ := Token.significantFrom_symbol (c := '(') rfl
      ('-' :: (Numeral.text (-v) ++ ')' :: rest)) offset
    obtain ⟨sign, offset₂, hminus, hscan₂⟩ := Token.significantFrom_symbol (c := '-') rfl
      (Numeral.text (-v) ++ ')' :: rest) offset₁
    obtain ⟨w, t, offset₃, -, hw, hvalue, hderives⟩ := number_derives hneg
      (LawfulNumeral.isNegative_neg hfinite hsign) (sign :: opening :: passed) offset₂ hends
    obtain ⟨closing, offset₄, hclosing, hscan₄⟩ :=
      Token.significantFrom_symbol (c := ')') rfl rest offset₃
    have htext : wrapIf true (Numeral.text v) ++ rest =
        '(' :: '-' :: (Numeral.text (-v) ++ ')' :: rest) := by
      rw [LawfulNumeral.text_neg hfinite hsign]
      simp [wrapIf, Term.wrap]
    have hparen : Derives .atom
        ⟨passed, significantFrom offset (wrapIf true (Numeral.text v) ++ rest)⟩
        (.paren (.negation sign.span (.number w t.span) (sign.span.cover t.span))
          (opening.span.cover closing.span))
        ⟨closing :: t :: sign :: opening :: passed, significantFrom offset₄ rest⟩ := by
      rw [htext, hscan₁, hscan₂]
      rw [hscan₄] at hderives
      refine .paren hopening hclosing ?_
      have hsigned : Derives .signed _ _ _ := .negation hminus (hderives.loosen (by decide))
      exact hsigned.loosen (by decide)
    exact ⟨_, _, offset₄, hparen, .negative hw (LawfulNumeral.neg_beq hfinite hvalue) _ _ _ _⟩

theorem Forms.power {cs : List Char} {t : Term α} {v : α} (h : Forms .atom cs t)
    (hfinite : Scalar.isFinite v = true) :
    Forms .power (cs ++ exponentText .caret v) (power t v) := by
  intro passed offset rest hrest
  rw [exponentText, List.append_assoc, List.cons_append]
  obtain ⟨e, passed₁, offset₁, hderives, hbecomes⟩ := h passed offset
    ('^' :: (wrapIf (Scalar.isNegative v) (Numeral.text v) ++ rest))
    (separated_symbol rfl (by decide) _)
  obtain ⟨op, offset₂, hkind, hscan⟩ := Token.significantFrom_symbol (c := '^') rfl
    (wrapIf (Scalar.isNegative v) (Numeral.text v) ++ rest) offset₁
  obtain ⟨e', passed', offset', hderives', hexponent⟩ :=
    exponent_derives hfinite (op :: passed₁) offset₂ hrest
  rw [hscan] at hderives
  exact ⟨Expr.join (.written .power) op.span e e', passed', offset',
    .power hderives hkind (hderives'.loosen (by decide)), hbecomes.power hexponent op.span⟩

end Numerals

/-- A sum goes on with one more chain, added or subtracted. -/
theorem Forms.signed {left right : List Char} {l r : Term α} (hl : Forms .sum left l)
    (hr : Forms .product right r) (minus : Bool) :
    Forms .sum (left ++ signText minus ++ right) (signed minus l r) := by
  intro passed offset rest hrest
  rw [List.append_assoc, List.append_assoc]
  obtain ⟨e, passed₁, offset₁, hderives, hbecomes⟩ := hl passed offset
    (signText minus ++ (right ++ rest)) (separated_signText minus _)
  obtain ⟨op, offset₂, hkind, hscan⟩ := significantFrom_signText minus (right ++ rest) offset₁
  obtain ⟨e', passed', offset', hderives', hbecomes'⟩ := hr (op :: passed₁) offset₂ rest hrest
  rw [hscan] at hderives
  cases minus with
  | false =>
    exact ⟨Expr.join (.written .plus) op.span e e', passed', offset',
      .sum hderives hkind (.inl rfl) hderives',
      hbecomes.join hbecomes' rfl (fun _ _ hs hs' => hs.sum hs') op.span⟩
  | true =>
    exact ⟨Expr.join (.written .minus) op.span e e', passed', offset',
      .sum hderives hkind (.inr rfl) hderives',
      hbecomes.join hbecomes' rfl (fun _ _ hs hs' => hs.difference hs') op.span⟩

/-! ## Whole terms -/

/-- What the text of a term forms, as tightly as its level says. -/
structure Written (cs : List Char) (t : Term α) : Prop where
  sum : Forms .sum cs (t.asRead id)
  chain : t.isAdditive = false → FormsChain cs t.asRead
  power : Level.product.rank < t.level.rank → startsWithMinus cs = false →
    Forms .power cs (t.asRead id)
  atom : Level.power.rank < t.level.rank → startsWithMinus cs = false →
    Forms .atom cs (t.asRead id)

namespace Written

variable {cs : List Char} {t u : Term α} {read : (Term α → Term α) → Term α}

theorem of_power (h : Forms .power cs u) (hread : ∀ first, t.asRead first = first u)
    (hlevel : t.level = .power) : Written cs t where
  sum := by
    rw [hread]
    exact h.loosen (by decide)
  chain _ := by
    rw [funext hread]
    exact h.chain
  power _ _ := by
    rw [hread]
    exact h
  atom hrank := by
    rw [hlevel] at hrank
    exact absurd hrank (by decide)

theorem of_atom (h : Forms .atom cs u) (hread : ∀ first, t.asRead first = first u) :
    Written cs t where
  sum := by
    rw [hread]
    exact h.loosen (by decide)
  chain _ := by
    rw [funext hread]
    exact (h.loosen (by decide) : Forms .power cs u).chain
  power _ _ := by
    rw [hread]
    exact h.loosen (by decide)
  atom _ _ := by
    rw [hread]
    exact h

theorem of_chain (h : FormsChain cs read) (hread : ∀ first, t.asRead first = read first)
    (hlevel : t.level = .product) : Written cs t where
  sum := by
    rw [hread]
    exact h.forms.loosen (by decide)
  chain _ := by
    rw [funext hread]
    exact h
  power hrank := by
    rw [hlevel] at hrank
    exact absurd hrank (by decide)
  atom hrank := by
    rw [hlevel] at hrank
    exact absurd hrank (by decide)

theorem of_sum (h : Forms .sum cs u) (hread : t.asRead id = u) (hlevel : t.level = .sum)
    (hadditive : t.isAdditive = true) : Written cs t where
  sum := by
    rw [hread]
    exact h
  chain hnot := by
    rw [hadditive] at hnot
    cases hnot
  power hrank := by
    rw [hlevel] at hrank
    exact absurd hrank (by decide)
  atom hrank := by
    rw [hlevel] at hrank
    exact absurd hrank (by decide)

omit [Numeral α] in
/-- Only sums and differences hold together less tightly than products. -/
theorem rank_lt_product (t : Term α) :
    decide (t.level.rank < Level.product.rank) = t.isAdditive := by
  cases t with
  | const v =>
    change decide ((if Scalar.isNegative v then Level.sign else Level.atom).rank < _) = false
    split <;> rfl
  | symbol _ | sum _ _ | difference _ _ | product _ _ | quotient _ _ | power _ _ | call _ _ => rfl

/-- A text in parentheses is a chain of one factor. -/
theorem wrap (h : Written cs t) : FormsChain (Term.wrap cs) fun first => first (t.asRead id) :=
  (h.sum.wrap.loosen (by decide) : Forms .power _ _).chain

/-- A left operand of a chain is a chain, or stands in parentheses. -/
theorem leftText (h : Written cs t) : FormsChain (leftText .product t cs) t.asRead := by
  unfold Term.leftText wrapIf
  rw [rank_lt_product]
  split
  · next hadditive =>
    rw [funext (asRead_of_isAdditive hadditive)]
    exact h.wrap
  · next hadditive => exact h.chain (Bool.eq_false_iff.2 hadditive)

/-- A right operand of a chain is a power, or stands in parentheses. -/
theorem rightText (h : Written cs t) :
    Forms .power (rightText .product t cs) (t.asRead id) := by
  unfold Term.rightText wrapIf
  split
  · exact h.sum.wrap.loosen (by decide)
  · next hnot =>
    rw [Bool.or_eq_true, not_or, decide_eq_true_eq, Bool.not_eq_true] at hnot
    exact h.power (Nat.lt_of_not_le hnot.1) hnot.2

/-- The base of a power is an atom, or stands in parentheses. -/
theorem baseText (h : Written cs t) :
    Forms .atom (Term.rightText .power t cs) (t.asRead id) := by
  unfold Term.rightText wrapIf
  split
  · exact h.sum.wrap
  · next hnot =>
    rw [Bool.or_eq_true, not_or, decide_eq_true_eq, Bool.not_eq_true] at hnot
    exact h.atom (Nat.lt_of_not_le hnot.1) hnot.2

/-- An operand after a sign or a coefficient is a chain without a minus sign, or stands in
parentheses. -/
theorem operandText (h : Written cs t) :
    FormsChain (operandText t cs)
      (fun first => if startsWithMinus cs then first (t.asRead id) else t.asRead first) ∧
    startsWithMinus (Term.operandText t cs) = false := by
  refine ⟨?_, startsWithMinus_operandText t cs⟩
  unfold Term.operandText wrapIf
  cases hminus : startsWithMinus cs with
  | true =>
    rw [Bool.or_true]
    exact h.wrap
  | false =>
    simp only [Bool.or_false, Bool.false_eq_true, if_false]
    cases hadditive : t.isAdditive with
    | true =>
      rw [funext (asRead_of_isAdditive hadditive)]
      exact h.wrap
    | false => exact h.chain hadditive

theorem operandForms (h : Written cs t) : Forms .product (Term.operandText t cs) (t.asRead id) := by
  simpa using h.operandText.1.forms

end Written

end Term

end Fluxion
