import Mathlib
import Fluxion.Text.Position

/-!
# Places and what is written of them

Different offsets in a text have different places, and different places are written differently. So
what is written of a place tells its offset, counted in characters. Counted in bytes an offset is the
same only as long as all characters before it are ASCII; after any other it is larger.
-/

namespace Fluxion.Text

/-! ## Bytes and characters -/

theorem utf8ByteSize_cons (c : Char) (cs : List Char) :
    (String.ofList (c :: cs)).utf8ByteSize = c.utf8Size + (String.ofList cs).utf8ByteSize := by
  simp [String.utf8ByteSize_ofList]

theorem utf8Size_eq_one_iff (c : Char) : c.utf8Size = 1 ↔ c.toNat < 128 := by
  rw [Char.utf8Size_eq_one_iff, UInt32.le_iff_toNat_le]
  exact Nat.lt_succ_iff.symm

/-- A text has at least as many bytes as characters, and as many only if all of them are ASCII. -/
theorem length_le_utf8ByteSize (cs : List Char) :
    cs.length ≤ (String.ofList cs).utf8ByteSize ∧
      ((String.ofList cs).utf8ByteSize = cs.length ↔ ∀ c ∈ cs, c.toNat < 128) := by
  induction cs with
  | nil => simp
  | cons c cs ih =>
    obtain ⟨hle, hiff⟩ := ih
    have hpos := c.utf8Size_pos
    rw [utf8ByteSize_cons, List.forall_mem_cons, ← hiff, ← utf8Size_eq_one_iff, List.length_cons]
    omega

namespace Position

/-! ## Different offsets -/

/-- One place is before another: on an earlier line, or in an earlier column of the same line. -/
def Before (p q : Position) : Prop :=
  p.line < q.line ∨ p.line = q.line ∧ p.column < q.column

theorem Before.trans {p q r : Position} (h : p.Before q) (h' : q.Before r) : p.Before r := by
  unfold Before at *
  omega

theorem Before.ne {p q : Position} (h : p.Before q) : p ≠ q := by
  rintro rfl
  unfold Before at h
  omega

/-- One character further on is a later place. -/
theorem before_next (p : Position) (c : Char) (rest : List Char) :
    p.Before (if lineStarts c rest then ⟨p.line + 1, 1⟩ else ⟨p.line, p.column + 1⟩) := by
  split
  · exact .inl (Nat.lt_succ_self _)
  · exact .inr ⟨rfl, Nat.lt_succ_self _⟩

theorem before_advance {p q : Position} {n : Nat} {cs : List Char}
    (h : p.advance (n + 1) cs = some q) : p.Before q := by
  induction cs generalizing p n with
  | nil => cases h
  | cons c cs ih =>
    have hnext := before_next p c cs
    rw [advance] at h
    cases n with
    | zero =>
      cases h
      exact hnext
    | succ n => exact hnext.trans (ih h)

theorem advance_inj {p q : Position} {m n : Nat} {cs : List Char} (hm : p.advance m cs = some q)
    (hn : p.advance n cs = some q) : m = n := by
  induction cs generalizing p m n with
  | nil =>
    cases m with
    | zero =>
      cases n with
      | zero => rfl
      | succ n => cases hn
    | succ m => cases hm
  | cons c cs ih =>
    cases m with
    | zero =>
      cases n with
      | zero => rfl
      | succ n =>
        cases hm
        exact absurd rfl (before_advance hn).ne
    | succ m =>
      cases n with
      | zero =>
        cases hn
        exact absurd rfl (before_advance hm).ne
      | succ n => exact congrArg (· + 1) (ih hm hn)

/-- A place belongs to one offset only. -/
theorem of?_inj {cs : List Char} {m n : Nat} {q : Position} (hm : of? cs m = some q)
    (hn : of? cs n = some q) : m = n :=
  advance_inj hm hn

/-! ## What is written of a place -/

theorem toList_text (p : Position) :
    (text (some p)).toList = (Nat.repr p.line).toList ++ ':' :: (Nat.repr p.column).toList := by
  show (Nat.repr p.line ++ ":" ++ Nat.repr p.column).toList = _
  simp [String.toList_append]

theorem isDigit_of_mem_repr {n : Nat} {c : Char} (h : c ∈ (Nat.repr n).toList) :
    c.isDigit = true := by
  rw [Nat.toList_repr] at h
  exact Nat.isDigit_of_mem_toDigits (by decide) (by decide) h

theorem text_some_ne_none (p : Position) : text (some p) ≠ text none := by
  intro heq
  have hmark : '?' ∈ (text (some p)).toList := by
    rw [heq]
    decide
  rw [toList_text, List.mem_append, List.mem_cons] at hmark
  rcases hmark with hline | heq | hcolumn
  · exact absurd (isDigit_of_mem_repr hline) (by decide)
  · exact absurd heq (by decide)
  · exact absurd (isDigit_of_mem_repr hcolumn) (by decide)

/-- What is written tells the place, and also whether there is one. -/
theorem text_inj {p q : Option Position} (h : text p = text q) : p = q := by
  cases p with
  | none =>
    cases q with
    | none => rfl
    | some q => exact absurd h.symm (text_some_ne_none q)
  | some p =>
    cases q with
    | none => exact absurd h (text_some_ne_none p)
    | some q =>
      have hcolon (n : Nat) : ':' ∉ (Nat.repr n).toList := fun hmem =>
        absurd (isDigit_of_mem_repr hmem) (by decide)
      have hlist := congrArg String.toList h
      rw [toList_text, toList_text, List.append_cons_inj_of_notMem (hcolon _) (hcolon _)] at hlist
      obtain ⟨hline, -, hcolumn⟩ := hlist
      have hsame : p = q := by
        cases p
        cases q
        rw [String.toList_inj, Nat.repr_inj] at hline hcolumn
        cases hline
        cases hcolumn
        rfl
      rw [hsame]

end Position

end Fluxion.Text
