import Mathlib
import Fluxion.Func
import Fluxion.Text.Alphabetic
import Fluxion.Token.Scan

/-!
# Scanning written texts

Where a text that is put together from names, numbers and operators is cut into tokens. What a name
or a number is cut off by is what follows it, so the rules ask for the first character after it.
-/

namespace Fluxion.Token

/-- The significant tokens of a text that starts at an offset. -/
def significantFrom (offset : Nat) (cs : List Char) : List Token :=
  (scanFrom offset cs).filter isSignificant

/-- The characters of a number without a sign: digits, and possibly a point and more digits. -/
def IsNumber (cs : List Char) : Prop :=
  ∃ whole places : List Char, whole ≠ [] ∧ (∀ d ∈ whole, d.isDigit = true) ∧
    (∀ d ∈ places, d.isDigit = true) ∧ (cs = whole ∨ places ≠ [] ∧ cs = whole ++ '.' :: places)

/-- The characters of a name. -/
def IsName (cs : List Char) : Prop :=
  ∃ c rest, cs = c :: rest ∧ isNameStart c = true ∧ ∀ d ∈ rest, isNamePart d = true

/-- The name of a function is a name. -/
theorem isName_func (f : Func) : IsName f.name.toList := by
  cases f <;> exact ⟨_, _, rfl, rfl, List.all_eq_true.1 rfl⟩

/-- A text that neither a name nor a number goes on with. -/
def EndsWord (rest : List Char) : Prop :=
  ∀ c ∈ rest.head?, isNamePart c = false ∧ c ≠ '.'

/-- A text that a number does not go on with. -/
def EndsNumber (rest : List Char) : Prop :=
  ∀ c ∈ rest.head?, c.isDigit = false ∧ c ≠ '.'

theorem EndsWord.endsNumber {rest : List Char} (h : EndsWord rest) : EndsNumber rest := by
  intro c hc
  obtain ⟨hpart, hpoint⟩ := h c hc
  refine ⟨?_, hpoint⟩
  simp only [isNamePart, Char.isAlphanum, Bool.or_eq_false_iff] at hpart
  exact hpart.1.2

/-- If the longest token at the front of a text is known, the rest is scanned by itself. -/
theorem scanFrom_append {c : Char} {tail rest : List Char} {kind : TokenKind}
    (h : first c (tail ++ rest) = (kind, tail)) (offset : Nat) :
    ∃ t offset', t.kind = kind ∧ t.lexeme = String.ofList (c :: tail) ∧
      scanFrom offset (c :: tail ++ rest) = t :: scanFrom offset' rest := by
  refine ⟨⟨kind, String.ofList (c :: tail),
    ⟨offset, offset + (String.ofList (c :: tail)).utf8ByteSize⟩⟩,
    offset + (String.ofList (c :: tail)).utf8ByteSize, rfl, rfl, ?_⟩
  rw [List.cons_append, scanFrom, h]
  dsimp only
  rw [List.drop_left]

theorem significantFrom_append {c : Char} {tail rest : List Char} {kind : TokenKind}
    (h : first c (tail ++ rest) = (kind, tail)) (hkind : kind.isSpace = false) (offset : Nat) :
    ∃ t offset', t.kind = kind ∧ t.lexeme = String.ofList (c :: tail) ∧
      significantFrom offset (c :: tail ++ rest) = t :: significantFrom offset' rest := by
  obtain ⟨t, offset', ht, hlexeme, hscan⟩ := scanFrom_append h offset
  refine ⟨t, offset', ht, hlexeme, ?_⟩
  have hsignificant : t.isSignificant = true := by
    rw [isSignificant, isSpace, ht, hkind]
    rfl
  rw [significantFrom, hscan, List.filter_cons_of_pos hsignificant]
  rfl

theorem takeWhile_append {p : Char → Bool} {cs rest : List Char} (hcs : ∀ c ∈ cs, p c = true)
    (hrest : ∀ c ∈ rest.head?, p c = false) : (cs ++ rest).takeWhile p = cs := by
  rw [List.takeWhile_append_of_pos hcs]
  cases rest with
  | nil => simp
  | cons c rest =>
    have hc : p c = false := hrest c rfl
    rw [List.takeWhile_cons_of_neg (by rw [hc]; exact Bool.false_ne_true), List.append_nil]

theorem dropWhile_append {p : Char → Bool} {cs rest : List Char} (hcs : ∀ c ∈ cs, p c = true)
    (hrest : ∀ c ∈ rest.head?, p c = false) : (cs ++ rest).dropWhile p = rest := by
  rw [List.dropWhile_append_of_pos hcs]
  cases rest with
  | nil => rfl
  | cons c rest =>
    have hc : p c = false := hrest c rfl
    rw [List.dropWhile_cons_of_neg (by rw [hc]; exact Bool.false_ne_true)]

/-! ## Characters -/

theorem isLineBreak_eq_false {p : Char → Bool} {c : Char} (hc : p c = true)
    (hp : p '\n' = false ∧ p '\r' = false) : isLineBreak c = false := by
  rw [Bool.eq_false_iff]
  intro hbreak
  rw [isLineBreak, Bool.or_eq_true, beq_iff_eq, beq_iff_eq] at hbreak
  rcases hbreak with rfl | rfl
  · exact absurd hc (by rw [hp.1]; exact Bool.false_ne_true)
  · exact absurd hc (by rw [hp.2]; exact Bool.false_ne_true)

theorem isBlankSpace_eq_false {p : Char → Bool} {c : Char} (hc : p c = true)
    (hp : p ' ' = false ∧ p '\t' = false) : isBlankSpace c = false := by
  rw [Bool.eq_false_iff]
  intro hblank
  rw [isBlankSpace, Bool.or_eq_true, beq_iff_eq, beq_iff_eq] at hblank
  rcases hblank with rfl | rfl
  · exact absurd hc (by rw [hp.1]; exact Bool.false_ne_true)
  · exact absurd hc (by rw [hp.2]; exact Bool.false_ne_true)

/-- No letter is a digit. -/
theorem isDigit_eq_false_of_isAlpha {c : Char} (h : c.isAlpha = true) : c.isDigit = false := by
  simp only [Char.isAlpha, Char.isUpper, Char.isLower, Char.isDigit, Bool.or_eq_true,
    Bool.and_eq_true, decide_eq_true_eq, Bool.and_eq_false_iff, decide_eq_false_iff_not,
    UInt32.le_iff_toNat_le, ge_iff_le] at h ⊢
  have hnine : '9'.val.toNat = 57 := rfl
  have hA : 'A'.val.toNat = 65 := rfl
  have ha : 'a'.val.toNat = 97 := rfl
  omega

theorem isNameStart_eq_false_of_isDigit {c : Char} (h : c.isDigit = true) :
    isNameStart c = false := by
  rw [Bool.eq_false_iff]
  intro hstart
  rw [isNameStart, Bool.or_eq_true, beq_iff_eq] at hstart
  rcases hstart with halpha | rfl
  · exact absurd h (by rw [isDigit_eq_false_of_isAlpha halpha]; exact Bool.false_ne_true)
  · exact absurd h (by decide)

/-! ## Words -/

/-- A name is a token of its own, if what follows does not belong to it. -/
theorem significantFrom_name {cs rest : List Char} (hcs : IsName cs) (hrest : EndsWord rest)
    (offset : Nat) :
    ∃ t offset', t.kind = .name ∧ t.lexeme = String.ofList cs ∧
      significantFrom offset (cs ++ rest) = t :: significantFrom offset' rest := by
  obtain ⟨c, tail, rfl, hstart, htail⟩ := hcs
  have hbreak : isLineBreak c = false := isLineBreak_eq_false hstart (by decide)
  have hblank : isBlankSpace c = false := isBlankSpace_eq_false hstart (by decide)
  have hfirst : first c (tail ++ rest) = (.name, tail) := by
    rw [first, hbreak, hblank, hstart, takeWhile_append htail fun d hd => (hrest d hd).1]
    rfl
  exact significantFrom_append hfirst rfl offset

theorem fraction_eq_nil {rest : List Char} (h : EndsNumber rest) : fraction rest = [] := by
  cases rest with
  | nil => rfl
  | cons c rest =>
    have hpoint : c ≠ '.' := (h c rfl).2
    unfold fraction
    split
    · next heq =>
      cases heq
      exact absurd rfl hpoint
    · rfl

theorem fraction_append {places rest : List Char} (hne : places ≠ [])
    (hplaces : ∀ d ∈ places, d.isDigit = true) (hrest : EndsNumber rest) :
    fraction ('.' :: places ++ rest) = '.' :: places := by
  cases places with
  | nil => exact absurd rfl hne
  | cons d places =>
    have hd : d.isDigit = true := hplaces d List.mem_cons_self
    have hdigits : ∀ c ∈ places, c.isDigit = true :=
      fun c hc => hplaces c (List.mem_cons_of_mem d hc)
    simp only [List.cons_append, fraction, hd, if_true]
    rw [takeWhile_append hdigits fun c hc => (hrest c hc).1]

/-- A number is a token of its own, if what follows does not belong to it. -/
theorem significantFrom_number {cs rest : List Char} (hcs : IsNumber cs) (hrest : EndsNumber rest)
    (offset : Nat) :
    ∃ t offset', (t.kind = .int ∨ t.kind = .decimal) ∧ t.lexeme = String.ofList cs ∧
      significantFrom offset (cs ++ rest) = t :: significantFrom offset' rest := by
  obtain ⟨whole, places, hne, hwhole, hplaces, hcs⟩ := hcs
  cases whole with
  | nil => exact absurd rfl hne
  | cons c whole =>
    have hc : c.isDigit = true := hwhole c List.mem_cons_self
    have hdigits : ∀ d ∈ whole, d.isDigit = true :=
      fun d hd => hwhole d (List.mem_cons_of_mem c hd)
    have hbreak : isLineBreak c = false := isLineBreak_eq_false hc (by decide)
    have hblank : isBlankSpace c = false := isBlankSpace_eq_false hc (by decide)
    have hstart : isNameStart c = false := isNameStart_eq_false_of_isDigit hc
    rcases hcs with rfl | ⟨hplacesne, rfl⟩
    · have hend : ∀ d ∈ rest.head?, d.isDigit = false := fun d hd => (hrest d hd).1
      have hfirst : first c (whole ++ rest) = (.int, whole) := by
        rw [first, hbreak, hblank, hstart, hc, takeWhile_append hdigits hend,
          dropWhile_append hdigits hend, fraction_eq_nil hrest]
        simp [number]
      obtain ⟨t, offset', hkind, hlexeme, hscan⟩ := significantFrom_append hfirst rfl offset
      exact ⟨t, offset', .inl hkind, hlexeme, hscan⟩
    · have hend : ∀ d ∈ ('.' :: places ++ rest).head?, d.isDigit = false := by
        intro d hd
        cases hd
        rfl
      have hfirst : first c ((whole ++ '.' :: places) ++ rest) =
          (.decimal, whole ++ '.' :: places) := by
        rw [List.append_assoc, first, hbreak, hblank, hstart, hc, takeWhile_append hdigits hend,
          dropWhile_append hdigits hend, fraction_append hplacesne hplaces hrest]
        simp [number]
      obtain ⟨t, offset', hkind, hlexeme, hscan⟩ := significantFrom_append hfirst rfl offset
      exact ⟨t, offset', .inr hkind, hlexeme, hscan⟩

/-! ## Operators and spaces -/

/-- Whether a character is always a token of its own. -/
def isSymbol (c : Char) : Bool :=
  c == '(' || c == ')' || c == '+' || c == '-' || c == '*' || c == '/' || c == '^'

theorem significantFrom_symbol {c : Char} (h : isSymbol c = true) (rest : List Char)
    (offset : Nat) :
    ∃ t offset', t.kind = single c ∧ significantFrom offset (c :: rest) =
      t :: significantFrom offset' rest := by
  have hfirst : first c ([] ++ rest) = (single c, []) ∧ (single c).isSpace = false := by
    simp only [isSymbol, Bool.or_eq_true, beq_iff_eq] at h
    rcases h with (((((rfl | rfl) | rfl) | rfl) | rfl) | rfl) | rfl <;> exact ⟨rfl, rfl⟩
  obtain ⟨t, offset', hkind, -, hscan⟩ := significantFrom_append hfirst.1 hfirst.2 offset
  exact ⟨t, offset', hkind, hscan⟩

theorem first_blank {c : Char} (h : isBlankSpace c = true) (rest : List Char) :
    first c rest = (.blank, rest.takeWhile isBlankSpace) := by
  have hbreak : isLineBreak c = false := isLineBreak_eq_false h (by decide)
  rw [first, hbreak, h]
  rfl

/-- A space before a text only moves the text. -/
theorem significantFrom_space (rest : List Char) (offset : Nat) :
    significantFrom offset (' ' :: rest) = significantFrom (offset + 1) rest := by
  have hspace : isBlankSpace ' ' = true := rfl
  rw [significantFrom, scanFrom, first_blank hspace]
  dsimp only
  cases rest with
  | nil => rfl
  | cons c rest =>
    by_cases hc : isBlankSpace c = true
    · have hsize : (String.ofList (' ' :: c :: rest.takeWhile isBlankSpace)).utf8ByteSize =
          1 + (String.ofList (c :: rest.takeWhile isBlankSpace)).utf8ByteSize := by
        rw [String.ofList_cons, String.utf8ByteSize_append]
        rfl
      rw [significantFrom, scanFrom, first_blank hc]
      dsimp only
      rw [List.takeWhile_cons_of_pos hc, List.length_cons, List.drop_succ_cons, hsize,
        ← Nat.add_assoc]
      rfl
    · rw [List.takeWhile_cons_of_neg hc]
      rfl

/-! ## What a token tells of its text -/

theorem single_not_name (c : Char) : single c ≠ .name := by
  unfold single
  split <;> decide

theorem single_not_number (c : Char) :
    (single c).isNumber = false ∧ (single c).isSpace = false := by
  unfold single
  split <;> decide

/-- The only tokens that are names start like names. -/
theorem first_eq_name {c : Char} {rest : List Char} :
    (first c rest).1 = .name →
      isNameStart c = true ∧ (first c rest).2 = rest.takeWhile isNamePart := by
  fun_cases first c rest with
  | case1 => exact fun h => by cases h
  | case2 => exact fun h => by cases h
  | case3 hbreak hblank hstart => exact fun _ => ⟨hstart, rfl⟩
  | case4 =>
    intro h
    rw [number] at h
    dsimp only at h
    split at h <;> exact absurd h (by decide)
  | case5 => exact fun h => absurd h (single_not_name c)
  | case6 => exact fun h => by cases h

/-- A text that is a single token, and the token a name, is a name. -/
theorem isName_of_scan {text : String} {t : Token} (h : scan text = [t]) (hkind : t.kind = .name) :
    IsName text.toList ∧ t.lexeme = text := by
  rw [scan] at h
  cases hcs : text.toList with
  | nil =>
    rw [hcs, scanFrom_nil] at h
    cases h
  | cons c rest =>
    rw [hcs, scanFrom] at h
    cases hfirst : first c rest with
    | mk kind tail =>
      rw [hfirst] at h
      obtain ⟨ht, hrest⟩ := List.cons.inj h
      subst ht
      obtain ⟨hstart, htail⟩ := first_eq_name (by rw [hfirst]; exact hkind)
      rw [hfirst] at htail
      dsimp only at htail
      have hall : tail = rest := by
        cases hdrop : rest.drop tail.length with
        | nil =>
          have hlength := List.drop_eq_nil_iff.1 hdrop
          have hprefix : tail <+: rest := by
            rw [htail]
            exact List.takeWhile_prefix _
          exact hprefix.eq_of_length_le hlength
        | cons d ds =>
          rw [hdrop, scanFrom] at hrest
          cases hrest
      refine ⟨⟨c, rest, rfl, hstart, ?_⟩, ?_⟩
      · rw [hall] at htail
        exact List.takeWhile_eq_self_iff.1 htail.symm
      · dsimp only
        rw [hall, ← hcs, String.ofList_toList]

/-- No letter and no parenthesis belongs to a number. -/
theorem not_number_of_isAlphabetic {c : Char} (h : (Text.isAlphabetic c || c == '(') = true) :
    c.isDigit = false ∧ c ≠ '.' := by
  refine ⟨?_, ?_⟩
  · rw [Bool.eq_false_iff]
    intro hdigit
    have halpha : c.isAlpha = false := by
      rw [Bool.eq_false_iff]
      intro halpha
      rw [isDigit_eq_false_of_isAlpha halpha] at hdigit
      cases hdigit
    have hascii : ¬ 128 ≤ c.toNat := by
      simp only [Char.isDigit, Bool.and_eq_true, decide_eq_true_eq, UInt32.le_iff_toNat_le]
        at hdigit
      have hnine : '9'.val.toNat = 57 := rfl
      have hval : c.toNat = c.val.toNat := rfl
      omega
    have hopening : c ≠ '(' := by
      rintro rfl
      exact absurd hdigit (by decide)
    simp [Text.isAlphabetic, halpha, hascii, hopening] at h
  · rintro rfl
    exact absurd h (by decide +kernel)

/-- A text that starts with a letter or an opening parenthesis does not start with a number or a
space. -/
theorem first_of_isAlphabetic {c : Char} (h : (Text.isAlphabetic c || c == '(') = true)
    (rest : List Char) :
    (first c rest).1.isNumber = false ∧ (first c rest).1.isSpace = false := by
  obtain ⟨hdigit, hpoint⟩ := not_number_of_isAlphabetic h
  have hnot (d : Char) (hd : (Text.isAlphabetic d || d == '(') = false) : c ≠ d := by
    rintro rfl
    rw [hd] at h
    cases h
  fun_cases first c rest with
  | case1 hbreak =>
    rw [isLineBreak, Bool.or_eq_true, beq_iff_eq, beq_iff_eq] at hbreak
    rcases hbreak with hc | hc
    · exact absurd hc (hnot _ (by decide +kernel))
    · exact absurd hc (hnot _ (by decide +kernel))
  | case2 hbreak hblank =>
    rw [isBlankSpace, Bool.or_eq_true, beq_iff_eq, beq_iff_eq] at hblank
    rcases hblank with hc | hc
    · exact absurd hc (hnot _ (by decide +kernel))
    · exact absurd hc (hnot _ (by decide +kernel))
  | case3 => exact ⟨rfl, rfl⟩
  | case4 hbreak hblank hstart hdigit' =>
    rw [hdigit] at hdigit'
    cases hdigit'
  | case5 => exact single_not_number c
  | case6 hbreak hblank hstart hdigit' point digits hfraction =>
    have hnone : fraction (c :: rest) = [] := by
      refine fraction_eq_nil ?_
      intro d hd
      cases hd
      exact ⟨hdigit, hpoint⟩
    rw [hnone] at hfraction
    cases hfraction

/-- The first significant token of a text that does not start with a space. -/
theorem significantFrom_first {c : Char} {rest : List Char} (h : (first c rest).1.isSpace = false)
    (offset : Nat) :
    ∃ t ts, significantFrom offset (c :: rest) = t :: ts ∧ t.kind = (first c rest).1 := by
  rw [significantFrom, scanFrom, List.filter_cons_of_pos]
  · exact ⟨_, _, rfl, rfl⟩
  · rw [isSignificant, isSpace]
    dsimp only
    rw [h]
    rfl

end Fluxion.Token
