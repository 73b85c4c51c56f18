import Mathlib
import Fluxion.Proofs.Token.Scanning
import Fluxion.Proofs.Token.Spans

/-!
# The longest match

What tokens of each kind look like is told by a regular language. Scanning takes at each place the
longest beginning of the rest of the text that is in any of them. Only whole numbers are the
beginning of something else, a number with a fraction, and only the last resort, a single unknown
character, has anything in common with another kind. So kind and lexeme of each token are determined
by the rest of the text.
-/

namespace Fluxion

open scoped Computability

/-- The texts of a single character with a property. -/
def oneOf (p : Char → Prop) : Language Char := {cs | ∃ c, p c ∧ cs = [c]}

theorem mem_kstar_oneOf {p : Char → Prop} {cs : List Char} : cs ∈ (oneOf p)∗ ↔ ∀ c ∈ cs, p c := by
  rw [Language.mem_kstar]
  constructor
  · rintro ⟨singles, rfl, hsingles⟩ c hc
    obtain ⟨single, hsingle, hmem⟩ := List.mem_flatten.1 hc
    obtain ⟨d, hd, rfl⟩ := hsingles single hsingle
    rwa [List.mem_singleton.1 hmem]
  · intro h
    refine ⟨cs.map ([·]), ?_, ?_⟩
    · rw [← List.flatMap_def, List.flatMap_singleton']
    · intro single hsingle
      obtain ⟨c, hc, rfl⟩ := List.mem_map.1 hsingle
      exact ⟨c, h c hc, rfl⟩

/-- A run starts with a character of one class and goes on with characters of another. -/
theorem mem_run {p q : Char → Prop} {cs : List Char} :
    cs ∈ oneOf p * (oneOf q)∗ ↔ ∃ c tail, cs = c :: tail ∧ p c ∧ ∀ d ∈ tail, q d := by
  rw [Language.mem_mul]
  constructor
  · rintro ⟨_, ⟨c, hc, rfl⟩, tail, htail, rfl⟩
    exact ⟨c, tail, rfl, hc, mem_kstar_oneOf.1 htail⟩
  · rintro ⟨c, tail, rfl, hc, htail⟩
    exact ⟨[c], ⟨c, hc, rfl⟩, tail, mem_kstar_oneOf.2 htail, rfl⟩

namespace TokenKind

/-- The letters of ASCII, and the underscore. -/
def Letter (c : Char) : Prop := ('A' ≤ c ∧ c ≤ 'Z') ∨ ('a' ≤ c ∧ c ≤ 'z') ∨ c = '_'

/-- The digits of ASCII. -/
def Digit (c : Char) : Prop := '0' ≤ c ∧ c ≤ '9'

/-- The spellings of an operator or a parenthesis. -/
def spellings : TokenKind → List Char
  | plus => ['+']
  | minus => ['-', '−']
  | times => ['*', '·', '×']
  | divide => ['/', '÷']
  | power => ['^']
  | opening => ['(']
  | closing => [')']
  | _ => []

/-- What tokens of the kind look like. -/
def rule : TokenKind → Language Char
  | lineBreak => oneOf (· ∈ ['\n', '\r']) * (oneOf (· ∈ ['\n', '\r']))∗
  | blank => oneOf (· ∈ [' ', '\t']) * (oneOf (· ∈ [' ', '\t']))∗
  | name => oneOf Letter * (oneOf fun c => Letter c ∨ Digit c)∗
  | int => oneOf Digit * (oneOf Digit)∗
  | decimal => (oneOf Digit)∗ * (oneOf (· = '.') * (oneOf Digit * (oneOf Digit)∗))
  | unknown => oneOf (· ≠ '\n')
  | k => oneOf (· ∈ k.spellings)

/-- Of all the beginnings of a text that look like a token, the lexeme is the longest, and the kind
is that of the rule for it. A character is unknown only if no other rule holds of any beginning. -/
structure Longest (kind : TokenKind) (lexeme text : List Char) : Prop where
  front : lexeme <+: text
  mem : lexeme ∈ kind.rule
  length_le {k : TokenKind} {cs : List Char} (hcs : cs ∈ k.rule) (hfront : cs <+: text) :
    cs.length ≤ lexeme.length
  only {k : TokenKind} (h : lexeme ∈ k.rule) : k = kind ∨ k = unknown
  last_resort (hkind : kind = unknown) {k : TokenKind} {cs : List Char} (hcs : cs ∈ k.rule)
    (hfront : cs <+: text) : k = unknown

end TokenKind

namespace Token

open TokenKind (Letter Digit Longest)

theorem isLineBreak_iff {c : Char} : isLineBreak c = true ↔ c ∈ ['\n', '\r'] := by
  simp [isLineBreak]

theorem isBlankSpace_iff {c : Char} : isBlankSpace c = true ↔ c ∈ [' ', '\t'] := by
  simp [isBlankSpace]

theorem isDigit_iff {c : Char} : c.isDigit = true ↔ Digit c := by
  rw [Char.isDigit, Bool.and_eq_true, decide_eq_true_eq, decide_eq_true_eq]
  exact Iff.rfl

theorem isNameStart_iff {c : Char} : isNameStart c = true ↔ Letter c := by
  simp only [isNameStart, Char.isAlpha, Char.isUpper, Char.isLower, Bool.or_eq_true,
    Bool.and_eq_true, decide_eq_true_eq, beq_iff_eq, or_assoc]
  exact Iff.rfl

theorem isNamePart_iff {c : Char} : isNamePart c = true ↔ Letter c ∨ Digit c := by
  rw [← isNameStart_iff, ← isDigit_iff, isNamePart, isNameStart, Char.isAlphanum]
  simp only [Bool.or_eq_true]
  exact or_right_comm

/-- A number with a fraction is a point between digits, and the digits before it may be left out. -/
theorem mem_rule_decimal {cs : List Char} :
    cs ∈ TokenKind.decimal.rule ↔ ∃ whole d places, cs = whole ++ '.' :: d :: places ∧
      (∀ c ∈ whole, Digit c) ∧ Digit d ∧ ∀ c ∈ places, Digit c := by
  rw [TokenKind.rule, Language.mem_mul]
  constructor
  · rintro ⟨whole, hwhole, _, ⟨_, ⟨point, rfl, rfl⟩, digits, hdigits, rfl⟩, rfl⟩
    obtain ⟨d, places, rfl, hd, hplaces⟩ := mem_run.1 hdigits
    exact ⟨whole, d, places, rfl, mem_kstar_oneOf.1 hwhole, hd, hplaces⟩
  · rintro ⟨whole, d, places, rfl, hwhole, hd, hplaces⟩
    exact ⟨whole, mem_kstar_oneOf.2 hwhole, _, ⟨['.'], ⟨'.', rfl, rfl⟩, d :: places,
      mem_run.2 ⟨d, places, rfl, hd, hplaces⟩, rfl⟩, rfl⟩

/-! ## What is taken first -/

theorem first_lineBreak {c : Char} (h : isLineBreak c = true) (rest : List Char) :
    first c rest = (.lineBreak, rest.takeWhile isLineBreak) := by
  rw [first, h]
  rfl

theorem first_name {c : Char} (h : isNameStart c = true) (rest : List Char) :
    first c rest = (.name, rest.takeWhile isNamePart) := by
  rw [first, isLineBreak_eq_false h (by decide), isBlankSpace_eq_false h (by decide), h]
  rfl

theorem first_digit {c : Char} (h : c.isDigit = true) (rest : List Char) :
    first c rest = number (rest.takeWhile Char.isDigit)
      (fraction (rest.dropWhile Char.isDigit)) := by
  rw [first, isLineBreak_eq_false h (by decide), isBlankSpace_eq_false h (by decide),
    isNameStart_eq_false_of_isDigit h, h]
  rfl

theorem first_point {d : Char} (h : d.isDigit = true) (rest : List Char) :
    first '.' (d :: rest) = (.decimal, d :: rest.takeWhile Char.isDigit) := by
  have hfraction : fraction ('.' :: d :: rest) = '.' :: d :: rest.takeWhile Char.isDigit := by
    rw [fraction, if_pos h]
  unfold first
  rw [hfraction]
  rfl

/-- An operator or a parenthesis is a token of its own. -/
theorem first_single {c : Char} (h : single c ≠ .unknown) (rest : List Char) :
    first c rest = (single c, []) := by
  unfold single at h
  split at h <;> first | rfl | exact absurd rfl h

theorem single_of_mem_spellings {k : TokenKind} {c : Char} (h : c ∈ k.spellings) :
    single c = k := by
  cases k <;> fin_cases h <;> rfl

/-- A beginning of a text that is a run of characters is not longer than the longest such run. -/
theorem length_le_of_mem_run {p q : Char → Prop} {go : Char → Bool} {c : Char} {rest cs : List Char}
    (hcs : cs ∈ oneOf p * (oneOf q)∗) (hgo : ∀ {d}, q d → go d = true) (hfront : cs <+: c :: rest) :
    p c ∧ cs.length ≤ (rest.takeWhile go).length + 1 := by
  obtain ⟨d, tail, rfl, hd, htail⟩ := mem_run.1 hcs
  obtain ⟨rfl, after, rfl⟩ := List.cons_prefix_cons.1 hfront
  rw [List.takeWhile_append_of_pos fun e he => hgo (htail e he), List.length_cons,
    List.length_append]
  exact ⟨hd, by omega⟩

/-- A number with a fraction is taken as such. -/
theorem first_of_mem_rule_decimal {c : Char} {rest cs : List Char}
    (hcs : cs ∈ TokenKind.decimal.rule) (hfront : cs <+: c :: rest) :
    (first c rest).1 = .decimal ∧ cs.length ≤ (first c rest).2.length + 1 := by
  obtain ⟨whole, d, places, rfl, hwhole, hd, hplaces⟩ := mem_rule_decimal.1 hcs
  obtain ⟨after, hafter⟩ := hfront
  have hd : d.isDigit = true := isDigit_iff.2 hd
  have hplaces : ∀ e ∈ places, e.isDigit = true := fun e he => isDigit_iff.2 (hplaces e he)
  cases whole with
  | nil =>
    obtain ⟨rfl, hrest⟩ : '.' = c ∧ d :: (places ++ after) = rest := List.cons.inj hafter
    rw [← hrest, first_point hd, List.takeWhile_append_of_pos hplaces]
    refine ⟨rfl, ?_⟩
    simp only [List.nil_append, List.length_cons, List.length_append]
    omega
  | cons e whole =>
    obtain ⟨rfl, hrest⟩ : e = c ∧ whole ++ '.' :: d :: places ++ after = rest :=
      List.cons.inj hafter
    have he : e.isDigit = true := isDigit_iff.2 (hwhole e List.mem_cons_self)
    have hwhole : ∀ d ∈ whole, d.isDigit = true :=
      fun d hd => isDigit_iff.2 (hwhole d (List.mem_cons_of_mem _ hd))
    have hpoint : ∀ d ∈ ('.' :: d :: places ++ after).head?, d.isDigit = false := by
      intro d hd
      cases hd
      rfl
    rw [List.append_assoc] at hrest
    rw [← hrest, first_digit he, takeWhile_append hwhole hpoint, dropWhile_append hwhole hpoint,
      List.cons_append, List.cons_append, fraction, if_pos hd,
      List.takeWhile_append_of_pos hplaces]
    refine ⟨rfl, ?_⟩
    simp only [number, List.length_cons, List.length_append]
    omega

/-- Whatever begins a text and looks like a token tells what kind of token is taken first, except
that digits may go on with a fraction. The token is at least as long. -/
theorem first_of_mem_rule {k : TokenKind} {c : Char} {rest cs : List Char} (hk : k ≠ .unknown)
    (hcs : cs ∈ k.rule) (hfront : cs <+: c :: rest) :
    ((first c rest).1 = k ∨ k = .int ∧ (first c rest).1 = .decimal) ∧
      cs.length ≤ (first c rest).2.length + 1 := by
  cases k with
  | lineBreak =>
    obtain ⟨hc, hlength⟩ := length_le_of_mem_run hcs isLineBreak_iff.2 hfront
    rw [first_lineBreak (isLineBreak_iff.2 hc)]
    exact ⟨.inl rfl, hlength⟩
  | blank =>
    obtain ⟨hc, hlength⟩ := length_le_of_mem_run hcs isBlankSpace_iff.2 hfront
    rw [first_blank (isBlankSpace_iff.2 hc)]
    exact ⟨.inl rfl, hlength⟩
  | name =>
    obtain ⟨hc, hlength⟩ := length_le_of_mem_run hcs isNamePart_iff.2 hfront
    rw [first_name (isNameStart_iff.2 hc)]
    exact ⟨.inl rfl, hlength⟩
  | int =>
    obtain ⟨hc, hlength⟩ := length_le_of_mem_run hcs isDigit_iff.2 hfront
    rw [first_digit (isDigit_iff.2 hc), number]
    refine ⟨?_, ?_⟩
    · dsimp only
      split
      · exact .inl rfl
      · exact .inr ⟨rfl, rfl⟩
    · rw [List.length_append]
      omega
  | decimal =>
    obtain ⟨hkind, hlength⟩ := first_of_mem_rule_decimal hcs hfront
    exact ⟨.inl hkind, hlength⟩
  | plus | minus | times | divide | power | opening | closing =>
    obtain ⟨d, hd, rfl⟩ := hcs
    obtain ⟨rfl, -⟩ := List.cons_prefix_cons.1 hfront
    have hsingle := single_of_mem_spellings hd
    rw [first_single (hsingle ▸ hk), hsingle]
    exact ⟨.inl rfl, Nat.le_refl _⟩
  | unknown => exact absurd rfl hk

/-- A fraction is a point and digits. -/
theorem fraction_cases (cs : List Char) :
    fraction cs = [] ∨ ∃ d places, fraction cs = '.' :: d :: places ∧ Digit d ∧
      ∀ c ∈ places, Digit c := by
  unfold fraction
  split
  · next d rest =>
    split
    · next hd =>
      exact .inr ⟨d, _, rfl, isDigit_iff.1 hd,
        fun c hc => isDigit_iff.1 (List.mem_takeWhile_imp hc)⟩
    · exact .inl rfl
  · exact .inl rfl

theorem mem_rule_single {c : Char} (h : c ≠ '\n') : [c] ∈ (single c).rule := by
  unfold single
  split
  -- a character that is not spelled out is unknown
  case h_12 => exact ⟨c, h, rfl⟩
  all_goals exact ⟨_, by decide, rfl⟩

/-- What is taken first looks like a token of its kind. -/
theorem mem_rule_first (c : Char) (rest : List Char) :
    c :: (first c rest).2 ∈ (first c rest).1.rule := by
  fun_cases first c rest with
  | case1 hbreak =>
    exact mem_run.2 ⟨c, _, rfl, isLineBreak_iff.1 hbreak,
      fun d hd => isLineBreak_iff.1 (List.mem_takeWhile_imp hd)⟩
  | case2 hbreak hblank =>
    exact mem_run.2 ⟨c, _, rfl, isBlankSpace_iff.1 hblank,
      fun d hd => isBlankSpace_iff.1 (List.mem_takeWhile_imp hd)⟩
  | case3 hbreak hblank hstart =>
    exact mem_run.2 ⟨c, _, rfl, isNameStart_iff.1 hstart,
      fun d hd => isNamePart_iff.1 (List.mem_takeWhile_imp hd)⟩
  | case4 hbreak hblank hstart hdigit =>
    have hc := isDigit_iff.1 hdigit
    have hwhole : ∀ d ∈ rest.takeWhile Char.isDigit, Digit d :=
      fun d hd => isDigit_iff.1 (List.mem_takeWhile_imp hd)
    rcases fraction_cases (rest.dropWhile Char.isDigit) with hnone | ⟨d, places, hsome, hd, hplaces⟩
    · rw [hnone, number, List.append_nil]
      exact mem_run.2 ⟨c, _, rfl, hc, hwhole⟩
    · rw [hsome, number]
      exact mem_rule_decimal.2 ⟨c :: rest.takeWhile Char.isDigit, d, places, rfl,
        List.forall_mem_cons.2 ⟨hc, hwhole⟩, hd, hplaces⟩
  | case5 hbreak hblank hstart hdigit hnone =>
    refine mem_rule_single ?_
    rintro rfl
    exact hbreak rfl
  | case6 hbreak hblank hstart hdigit point digits hfraction =>
    have hfront := fraction_prefix_self (c :: rest)
    rcases fraction_cases (c :: rest) with hnone | ⟨d, places, hsome, hd, hplaces⟩
    · rw [hnone] at hfraction
      cases hfraction
    · rw [hsome] at hfraction hfront
      obtain ⟨rfl, -⟩ := List.cons_prefix_cons.1 hfront
      obtain ⟨-, rfl⟩ := List.cons.inj hfraction
      exact mem_rule_decimal.2 ⟨[], d, places, rfl, by simp, hd, hplaces⟩

/-- What is taken first is the longest match. -/
theorem first_longest (c : Char) (rest : List Char) :
    (first c rest).1.Longest (c :: (first c rest).2) (c :: rest) where
  front := List.cons_prefix_cons.2 ⟨rfl, first_prefix_rest c rest⟩
  mem := mem_rule_first c rest
  length_le {k cs} hcs hfront := by
    by_cases hk : k = .unknown
    · subst hk
      obtain ⟨d, -, rfl⟩ := hcs
      exact Nat.succ_le_succ (Nat.zero_le _)
    · exact (first_of_mem_rule hk hcs hfront).2
  only {k} h := by
    by_cases hk : k = .unknown
    · exact .inr hk
    · have hfront : c :: (first c rest).2 <+: c :: rest :=
        List.cons_prefix_cons.2 ⟨rfl, first_prefix_rest c rest⟩
      rcases (first_of_mem_rule hk h hfront).1 with hkind | ⟨rfl, hkind⟩
      · exact .inl hkind.symm
      · -- a number with a fraction has a point, and a whole number has none
        have hdecimal := mem_rule_first c rest
        rw [hkind] at hdecimal
        obtain ⟨whole, d, places, heq, -, -, -⟩ := mem_rule_decimal.1 hdecimal
        obtain ⟨e, tail, hint, he, htail⟩ := mem_run.1 h
        have hdigits : ∀ x ∈ c :: (first c rest).2, Digit x := by
          rw [hint]
          exact List.forall_mem_cons.2 ⟨he, htail⟩
        have hpoint : Digit '.' := hdigits '.' (by rw [heq]; simp)
        exact absurd (isDigit_iff.2 hpoint) (by decide)
  last_resort hkind {k cs} hcs hfront := by
    by_contra hk
    rcases (first_of_mem_rule hk hcs hfront).1 with h | ⟨-, h⟩
    · exact hk (h.symm.trans hkind)
    · rw [hkind] at h
      cases h

end Token

/-- The longest match is determined by the text. -/
theorem TokenKind.Longest.unique {k k' : TokenKind} {lexeme lexeme' text : List Char}
    (h : k.Longest lexeme text) (h' : k'.Longest lexeme' text) : k = k' ∧ lexeme = lexeme' := by
  have hle := h'.length_le h.mem h.front
  have hle' := h.length_le h'.mem h'.front
  have hlexeme : lexeme = lexeme' :=
    (List.prefix_of_prefix_length_le h.front h'.front hle).eq_of_length (Nat.le_antisymm hle hle')
  subst hlexeme
  refine ⟨?_, rfl⟩
  rcases h'.only h.mem with hk | hk
  · exact hk
  · rw [hk, h.last_resort hk h'.mem h'.front]

namespace Token

/-! ## Tokens in their places -/

/-- The characters that tokens are made of. -/
def characters (ts : List Token) : List Char := ts.flatMap (·.lexeme.toList)

/-- The first token is the longest match, and the others are the tokens of what is left. -/
theorem of_scanFrom_eq_cons {offset : Nat} {cs : List Char} {t : Token} {ts : List Token}
    (h : scanFrom offset cs = t :: ts) :
    t.span = ⟨offset, offset + t.lexeme.utf8ByteSize⟩ ∧ t.kind.Longest t.lexeme.toList cs ∧
      ∃ rest, cs = t.lexeme.toList ++ rest ∧
        ts = scanFrom (offset + t.lexeme.utf8ByteSize) rest := by
  cases cs with
  | nil =>
    rw [scanFrom_nil] at h
    cases h
  | cons c rest =>
    have hlongest := first_longest c rest
    obtain ⟨after, hafter⟩ := first_prefix_rest c rest
    rw [scanFrom] at h
    generalize first c rest = taken at h hlongest hafter
    obtain ⟨kind, tail⟩ := taken
    obtain ⟨rfl, rfl⟩ := List.cons.inj h
    dsimp only at hlongest hafter ⊢
    rw [String.toList_ofList, ← hafter, List.drop_left]
    exact ⟨rfl, hafter ▸ hlongest, after, rfl, rfl⟩

/-- What comes after some tokens are the tokens of what is left. -/
theorem of_scanFrom_eq_append {offset : Nat} {cs : List Char} {front back : List Token}
    (h : scanFrom offset cs = front ++ back) :
    ∃ rest, cs = characters front ++ rest ∧
      back = scanFrom (offset + (String.ofList (characters front)).utf8ByteSize) rest := by
  induction front generalizing offset cs with
  | nil => exact ⟨cs, rfl, h.symm⟩
  | cons t front ih =>
    obtain ⟨-, -, rest, rfl, hscan⟩ := of_scanFrom_eq_cons h
    obtain ⟨rest', rfl, hback⟩ := ih hscan.symm
    have hcharacters : characters (t :: front) = t.lexeme.toList ++ characters front := rfl
    refine ⟨rest', by rw [hcharacters, List.append_assoc], ?_⟩
    rw [hback, hcharacters, String.ofList_append, String.utf8ByteSize_append, String.ofList_toList,
      Nat.add_assoc]

theorem characters_scanFrom (offset : Nat) (cs : List Char) :
    characters (scanFrom offset cs) = cs := by
  obtain ⟨rest, hcs, hrest⟩ := of_scanFrom_eq_append (List.append_nil (scanFrom offset cs)).symm
  cases rest with
  | nil => rw [List.append_nil] at hcs; exact hcs.symm
  | cons c rest =>
    rw [scanFrom] at hrest
    cases hrest

/-- Scanning loses nothing and always takes the longest match. The tokens of a text fill it without
a gap, each with at least one byte; their lexemes are what stands in their places, and put together
they are the text. A lexeme is the longest beginning of the rest of the text that looks like a
token, of its kind and no other; and an unknown character begins nothing that looks like one. -/
theorem scan_longest_match (text : String) :
    Covers 0 text.utf8ByteSize (scan text) ∧ String.join ((scan text).map lexeme) = text ∧
    ∀ t ∈ scan text, ∃ before after, text = before ++ t.lexeme ++ after ∧
      t.span.start = before.utf8ByteSize ∧ t.span.stop = t.span.start + t.lexeme.utf8ByteSize ∧
      t.kind.Longest t.lexeme.toList (t.lexeme ++ after).toList := by
  refine ⟨scan_covers text, ?_, ?_⟩
  · rw [← String.toList_inj, String.toList_join, List.flatMap_map]
    exact characters_scanFrom 0 text.toList
  · intro t ht
    obtain ⟨front, back, hscan⟩ := List.append_of_mem ht
    obtain ⟨rest, htext, hback⟩ := of_scanFrom_eq_append hscan
    obtain ⟨hspan, hlongest, after, rfl, -⟩ := of_scanFrom_eq_cons hback.symm
    refine ⟨String.ofList (characters front), String.ofList after, ?_, ?_, ?_, ?_⟩
    · rw [← String.toList_inj, htext]
      simp
    · rw [hspan, Nat.zero_add]
    · rw [hspan]
    · simpa using hlongest

/-- A point that no digit follows is no fraction: it is cut off from the number before it, and it is
unknown. -/
example : (scan "2.x−.5").map (fun t => (t.kind, t.lexeme, t.span)) =
    [(.int, "2", ⟨0, 1⟩), (.unknown, ".", ⟨1, 2⟩), (.name, "x", ⟨2, 3⟩), (.minus, "−", ⟨3, 6⟩),
      (.decimal, ".5", ⟨6, 8⟩)] := by
  decide +kernel

end Token

end Fluxion
