import Mathlib
import Fluxion.Cursor

/-!
# Significant tokens around a cursor

What a cursor looks at never depends on spaces. `Cursor.significant` is the same place among the
tokens that carry meaning, and everything that is asked of a cursor is read off it.
-/

namespace Fluxion.Cursor

/-- The place of the cursor among the tokens that are not spaces. -/
def significant (c : Cursor) : Cursor :=
  ⟨c.passed.filter Token.isSignificant, c.ahead.filter Token.isSignificant⟩

theorem next?_eq (c : Cursor) : c.next? = c.significant.ahead.head? :=
  List.head?_filter.symm

theorem previous?_eq (c : Cursor) : c.previous? = c.significant.passed.head? :=
  List.head?_filter.symm

theorem nextKind?_eq (c : Cursor) : c.nextKind? = c.significant.ahead.head?.map (·.kind) := by
  rw [nextKind?, next?_eq]

theorem significant_afterSpaces (passed ahead : List Token) :
    (afterSpaces passed ahead).significant = significant ⟨passed, ahead⟩ := by
  induction ahead generalizing passed with
  | nil => rfl
  | cons t rest ih =>
    rw [afterSpaces]
    split
    · next hspace =>
      have hdrop : t.isSignificant = false := by simp [Token.isSignificant, hspace]
      rw [ih]
      simp [significant, hdrop]
    · rfl

/-- Skipping spaces does not change the place. -/
@[simp] theorem significant_skipSpaces (c : Cursor) : c.skipSpaces.significant = c.significant :=
  significant_afterSpaces c.passed c.ahead

/-- After spaces, the next token carries meaning. -/
theorem ahead_afterSpaces (passed ahead : List Token) :
    ∀ t ∈ (afterSpaces passed ahead).ahead.head?, t.isSignificant = true := by
  induction ahead generalizing passed with
  | nil => simp [afterSpaces]
  | cons t rest ih =>
    rw [afterSpaces]
    split
    · exact ih (t :: passed)
    · next hspace => simpa [Token.isSignificant] using hspace

theorem length_afterSpaces_le (passed ahead : List Token) :
    (afterSpaces passed ahead).ahead.length ≤ ahead.length := by
  induction ahead generalizing passed with
  | nil => exact Nat.le_refl _
  | cons t rest ih =>
    rw [afterSpaces]
    split
    · exact Nat.le_succ_of_le (ih (t :: passed))
    · exact Nat.le_refl _

/-- Past the spaces, either the next significant token stands right after the cursor, or nothing is
left. -/
theorem skipSpaces_cases (c : Cursor) :
    (∃ t rest, c.skipSpaces.ahead = t :: rest ∧ rest.length < c.ahead.length ∧
      c.significant.ahead = t :: (significant ⟨t :: c.skipSpaces.passed, rest⟩).ahead ∧
      significant ⟨t :: c.skipSpaces.passed, rest⟩ =
        ⟨t :: c.significant.passed, c.significant.ahead.tail⟩) ∨
    (c.skipSpaces.ahead = [] ∧ c.significant.ahead = []) := by
  have hplace := significant_skipSpaces c
  have hhead := ahead_afterSpaces c.passed c.ahead
  have hlength := length_afterSpaces_le c.passed c.ahead
  change ∀ t ∈ c.skipSpaces.ahead.head?, t.isSignificant = true at hhead
  change c.skipSpaces.ahead.length ≤ c.ahead.length at hlength
  rw [← hplace]
  cases hahead : c.skipSpaces.ahead with
  | nil => exact .inr ⟨rfl, by simp [significant, hahead]⟩
  | cons t rest =>
    rw [hahead] at hhead hlength
    have ht : t.isSignificant = true := hhead t rfl
    refine .inl ⟨t, rest, rfl, hlength, ?_, ?_⟩
    · simp [significant, hahead, ht]
    · simp [significant, hahead, ht]

end Fluxion.Cursor
