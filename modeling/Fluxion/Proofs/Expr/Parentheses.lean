import Fluxion.Proofs.Expr.Grammar

/-!
# Pairs of parentheses

Which closing parenthesis belongs to which opening one is a matter of the tokens alone: the tokens
between the two are balanced. Expressions are balanced, and counting the open parentheses finds
those that are left without a partner.
-/

namespace Fluxion.Expr

open Cursor (countOpen)

/-- Tokens in which every parenthesis has a partner. -/
inductive Balanced : List Token → Prop
  | nil : Balanced []
  | other {t : Token} {rest : List Token} (hopening : t.kind ≠ .opening) (hclosing : t.kind ≠ .closing)
      (hrest : Balanced rest) : Balanced (t :: rest)
  | pair {opening closing : Token} {inner rest : List Token} (hopening : opening.kind = .opening)
      (hclosing : closing.kind = .closing) (hinner : Balanced inner) (hrest : Balanced rest) :
      Balanced (opening :: inner ++ closing :: rest)

/-- A closing parenthesis after these tokens has no partner among them. -/
def Unopened (tokens : List Token) : Prop :=
  ∀ before opening between, tokens = before ++ opening :: between → opening.kind = .opening →
    ¬ Balanced between

/-- An opening parenthesis before these tokens has no partner among them. -/
def Unclosed (tokens : List Token) : Prop :=
  ∀ between closing after, tokens = between ++ closing :: after → closing.kind = .closing →
    ¬ Balanced between

theorem countOpen_opening {t : Token} (h : t.kind = .opening) (n : Nat) : countOpen t n = n + 1 := by
  rw [countOpen, h]

theorem countOpen_closing {t : Token} (h : t.kind = .closing) (n : Nat) : countOpen t n = n - 1 := by
  rw [countOpen, h]

theorem countOpen_other {t : Token} (hopening : t.kind ≠ .opening) (hclosing : t.kind ≠ .closing)
    (n : Nat) : countOpen t n = n := by
  unfold countOpen
  split
  · next h => exact absurd h hopening
  · next h => exact absurd h hclosing
  · rfl

namespace Balanced

variable {ts us : List Token}

theorem append (hts : Balanced ts) (hus : Balanced us) : Balanced (ts ++ us) := by
  induction hts with
  | nil => exact hus
  | other hopening hclosing _ ih => exact .other hopening hclosing ih
  | pair hopening hclosing hinner _ _ ih =>
    simpa using Balanced.pair hopening hclosing hinner ih

theorem single {t : Token} (hopening : t.kind ≠ .opening) (hclosing : t.kind ≠ .closing) :
    Balanced [t] := .other hopening hclosing .nil

/-- Balanced tokens leave as many parentheses open as there were before. -/
theorem foldl_countOpen (h : Balanced ts) (n : Nat) :
    ts.foldl (fun count t => countOpen t count) n = n := by
  induction h generalizing n with
  | nil => rfl
  | other hopening hclosing _ ih => rw [List.foldl_cons, countOpen_other hopening hclosing, ih]
  | pair hopening hclosing _ _ ihinner ihrest =>
    rw [List.cons_append, List.foldl_cons, List.foldl_append, List.foldl_cons, ihinner,
      countOpen_opening hopening, countOpen_closing hclosing, ihrest, Nat.add_sub_cancel]

/-- At no point in balanced tokens are fewer parentheses open than before. -/
theorem le_foldl_countOpen (h : Balanced ts) (hfront : us <+: ts) (n : Nat) :
    n ≤ us.foldl (fun count t => countOpen t count) n := by
  induction h generalizing us n with
  | nil =>
    rw [List.prefix_nil.1 hfront]
    exact Nat.le_refl n
  | other hopening hclosing _ ih =>
    cases us with
    | nil => exact Nat.le_refl n
    | cons u us =>
      obtain ⟨rfl, hrest⟩ := List.cons_prefix_cons.1 hfront
      rw [List.foldl_cons, countOpen_other hopening hclosing]
      exact ih hrest n
  | @pair opening closing inner rest hopening hclosing hinner _ ihinner ihrest =>
    cases us with
    | nil => exact Nat.le_refl n
    | cons u us =>
      obtain ⟨rfl, after, hafter⟩ := List.cons_prefix_cons.1 hfront
      rw [List.foldl_cons, countOpen_opening hopening]
      rcases List.append_eq_append_iff.1 hafter with ⟨last, hinside, -⟩ | ⟨first, rfl, hpast⟩
      · exact Nat.le_of_succ_le (ihinner ⟨last, hinside.symm⟩ (n + 1))
      · rw [List.foldl_append, hinner.foldl_countOpen]
        cases first with
        | nil => exact Nat.le_succ n
        | cons v first =>
          obtain ⟨rfl, hrest⟩ := List.cons.inj hpast
          rw [List.foldl_cons, countOpen_closing hclosing]
          exact ihrest ⟨after, hrest.symm⟩ n

/-- No opening parenthesis in front of balanced tokens is closed among them. -/
theorem unclosed (h : Balanced ts) : Unclosed ts := by
  rintro between closing after rfl hclosing hbetween
  have hfront : between ++ [closing] <+: between ++ closing :: after := ⟨after, by simp⟩
  have hcount := h.le_foldl_countOpen hfront 1
  rw [List.foldl_append, hbetween.foldl_countOpen, List.foldl_cons, List.foldl_nil,
    countOpen_closing hclosing] at hcount
  omega

end Balanced

/-- If no parenthesis is open, a closing one has no partner. -/
theorem unopened_of_unclosed_eq_zero {c : Cursor} (h : c.unclosed = 0) : Unopened c.passed.reverse := by
  rintro before opening between htokens hopening hbetween
  have hcount : c.passed.reverse.foldl (fun count t => countOpen t count) 0 = 0 := by
    rw [List.foldl_reverse]
    exact h
  rw [htokens, List.foldl_append, List.foldl_cons, hbetween.foldl_countOpen,
    countOpen_opening hopening] at hcount
  omega

theorem Balanced.unopened {passed : List Token} (h : Balanced passed.reverse) :
    Unopened passed.reverse := by
  have hcount : Cursor.unclosed ⟨passed, []⟩ = 0 := by
    have hfold := h.foldl_countOpen 0
    rwa [List.foldl_reverse] at hfold
  exact unopened_of_unclosed_eq_zero hcount

/-- Spaces open and close nothing. -/
theorem unclosed_significant (c : Cursor) : c.significant.unclosed = c.unclosed := by
  unfold Cursor.unclosed Cursor.significant
  induction c.passed with
  | nil => rfl
  | cons t passed ih =>
    by_cases hspace : t.isSpace = true
    · have hkind : countOpen t (passed.foldr countOpen 0) = passed.foldr countOpen 0 := by
        refine countOpen_other ?_ ?_ _ <;> intro hkind <;>
          simp [Token.isSpace, hkind, TokenKind.isSpace] at hspace
      rw [List.filter_cons_of_neg (by simp [Token.isSignificant, hspace]), List.foldr_cons, hkind, ih]
    · rw [List.filter_cons_of_pos (by simp [Token.isSignificant, hspace]), List.foldr_cons,
        List.foldr_cons, ih]

/-- The tokens of an expression are balanced. -/
theorem Derives.balanced {α : Type} [Numeral α] {cat : Category} {c c' : Cursor} {e : Expr α}
    (h : Derives cat c e c') :
    ∃ taken, c.ahead = taken ++ c'.ahead ∧ c'.passed = taken.reverse ++ c.passed ∧
      Balanced taken := by
  have hoperator : ∀ {t : Token} {op : BinaryOp}, BinaryOp.ofToken? t.kind = some op →
      ∀ {ts : List Token}, Balanced ts → Balanced (t :: ts) := by
    intro t op hkind ts hts
    refine .other ?_ ?_ hts <;> intro hparen <;> rw [hparen] at hkind <;> cases hkind
  induction h with
  | @number _ _ t hkind =>
    refine ⟨[t], rfl, rfl, .single ?_ ?_⟩ <;> rcases hkind with hkind | hkind <;> rw [hkind] <;> decide
  | @symbol _ _ t hkind _ _ =>
    refine ⟨[t], rfl, rfl, .single ?_ ?_⟩ <;> rw [hkind] <;> decide
  | @paren _ _ _ _ opening closing _ hopening hclosing _ ih =>
    obtain ⟨taken, hahead, hpassed, hbalanced⟩ := ih
    refine ⟨opening :: taken ++ [closing], ?_, ?_, .pair hopening hclosing hbalanced .nil⟩
    · simp_all
    · simp_all
  | @call _ _ _ _ name opening closing _ _ hkind _ hopening hclosing _ ih =>
    obtain ⟨taken, hahead, hpassed, hbalanced⟩ := ih
    refine ⟨name :: (opening :: taken ++ [closing]), ?_, ?_,
      .other ?_ ?_ (.pair hopening hclosing hbalanced .nil)⟩
    · simp_all
    · simp_all
    · rw [hkind]
      decide
    · rw [hkind]
      decide
  | atom _ ih | unsigned _ ih | factor _ ih | term _ ih => exact ih
  | @power _ _ _ _ sep _ _ _ hkind _ ihl ihr =>
    obtain ⟨taken, hahead, hpassed, hl⟩ := ihl
    obtain ⟨taken', hahead', hpassed', hr⟩ := ihr
    refine ⟨taken ++ sep :: taken', by simp_all, by simp_all, hl.append ?_⟩
    exact hoperator (congrArg BinaryOp.ofToken? hkind) hr
  | @negation _ _ _ sign _ hkind _ ih =>
    obtain ⟨taken, hahead, hpassed, hbalanced⟩ := ih
    exact ⟨sign :: taken, by simp_all, by simp_all,
      hoperator (congrArg BinaryOp.ofToken? hkind) hbalanced⟩
  | @product _ _ _ _ sep _ _ _ _ hkind _ _ ihl ihr | @sum _ _ _ _ sep _ _ _ _ hkind _ _ ihl ihr =>
    obtain ⟨taken, hahead, hpassed, hl⟩ := ihl
    obtain ⟨taken', hahead', hpassed', hr⟩ := ihr
    exact ⟨taken ++ sep :: taken', by simp_all, by simp_all, hl.append (hoperator hkind hr)⟩
  | juxtaposed _ _ _ _ ihl ihr =>
    obtain ⟨taken, hahead, hpassed, hl⟩ := ihl
    obtain ⟨taken', hahead', hpassed', hr⟩ := ihr
    exact ⟨taken ++ taken', by simp_all, by simp_all, hl.append hr⟩

end Fluxion.Expr
