import Fluxion.Proofs.Expr.Joining
import Fluxion.Proofs.Reader.Outcome

/-!
# What is read is derived

Every reader of expressions gives a tree that the grammar derives from the tokens it has taken, with
finite numbers only. The two loops of precedence climbing keep the same invariant: the operand read
so far has the category that the joiner ahead asks of it.
-/

namespace Fluxion.Expr

/-- The second cursor stands at the same place as the first, or further on. -/
def Onward (c c' : Cursor) : Prop :=
  c'.significant = c.significant ∨ c'.significant.ahead.length < c.significant.ahead.length

variable {α : Type} [Scalar α] [Numeral α]

/-- The tokens between two places form the expression, and its numbers are finite. -/
def Accepts (cat : Category) (c : Cursor) (e : Expr α) (c' : Cursor) : Prop :=
  Derives cat c e c' ∧ e.Proper

theorem Accepts.loosen {cat cat' : Category} {c c' : Cursor} {e : Expr α} (h : Accepts cat c e c')
    (hrank : cat'.rank ≤ cat.rank) : Accepts cat' c e c' :=
  ⟨h.1.loosen hrank, h.2⟩

/-- What is left where operands were read: everything that is joined there and binds at least as
tightly as `least` finds the category it asks for before it. -/
def Joinable (least : Precedence) (s : Cursor) (e : Expr α) (c : Cursor) : Prop :=
  ∀ j, c.joiner? = some j → ¬ j.precedence < least →
    Accepts (.before j.precedence) s e c.significant

/-- What climbing from `c` ends with: an expression that is joined as tightly as `least`, and no
joiner after it that binds that tightly. -/
def Climbed (least : Precedence) (s c : Cursor) (e : Expr α) (c' : Cursor) : Prop :=
  Accepts (.joined least) s e c'.significant ∧
    (∀ j, c'.joiner? = some j → j.precedence < least) ∧ Onward c c'

theorem Climbed.of_earlier {least : Precedence} {s c m c' : Cursor} {e : Expr α}
    (h : Climbed least s m e c')
    (hlength : m.significant.ahead.length < c.significant.ahead.length) :
    Climbed least s c e c' := by
  obtain ⟨he, hbelow, honward⟩ := h
  refine ⟨he, hbelow, .inr ?_⟩
  rcases honward with hplace | hless
  · rw [hplace]
    exact hlength
  · exact Nat.lt_trans hless hlength

/-- A signed operand that any joiner may follow. -/
def Operand (s : Cursor) (e : Expr α) (c : Cursor) : Prop :=
  Accepts .signed s e c.significant ∧ Joinable .any s e c

/-! ## Operands -/

/-- Whether the tokens ahead are not those of a call: if they start with a name, it can only be read
as a symbol. -/
def NoCall (c : Cursor) : Prop :=
  ∀ t rest, c.significant.ahead = t :: rest → t.kind = .name →
    Func.ofName? t.lexeme = none ∧ ∀ u ∈ rest.head?, u.kind ≠ .opening

theorem readNumber_sound (c : Cursor) :
    (readNumber : Reader (Expr α)).Ends c (fun e c' => Accepts .atom c.significant e c'.significant)
      (fun _ => True) := by
  rw [readNumber, Reader.ends_bind]
  refine Reader.ends_accepting ?_ (fun _ _ _ => trivial)
  intro t rest b hahead haccept c' hplace
  by_cases hkind : t.kind.isNumber = true
  · rw [if_pos hkind] at haccept
    cases haccept
    dsimp only
    split
    · next hfinite =>
      have hnumber : t.kind = .int ∨ t.kind = .decimal := by
        cases hk : t.kind <;> simp [hk, TokenKind.isNumber] at hkind ⊢
      refine ⟨?_, hfinite⟩
      have hstart : c.significant = ⟨c.significant.passed, t :: rest⟩ := by rw [← hahead]
      rw [hplace, hstart]
      exact .number hnumber
    · exact trivial
  · rw [if_neg hkind] at haccept
    cases haccept

theorem readSymbol_sound {c : Cursor} (hcall : NoCall c) :
    (readSymbol : Reader (Expr α)).Ends c (fun e c' => Accepts .atom c.significant e c'.significant)
      (fun _ => True) := by
  rw [readSymbol, Reader.ends_bind]
  refine Reader.ends_token ?_ (fun _ _ _ => trivial)
  intro t rest hahead hkind c' hplace
  obtain ⟨hname, hnext⟩ := hcall t rest hahead hkind
  refine ⟨?_, trivial⟩
  have hstart : c.significant = ⟨c.significant.passed, t :: rest⟩ := by rw [← hahead]
  rw [hplace, hstart]
  exact .symbol hkind hname hnext

omit [Scalar α] [Numeral α] in
/-- Inside of parentheses, the closing one follows what is read, and every fault is fatal. -/
theorem readDelimited_sound {read : Reader (Expr α)} {c : Cursor} {opening : Token}
    {ok : Expr α → Cursor → Prop} (hread : read.Ends c ok (fun _ => True)) :
    (readDelimited read opening).Ends c
      (fun p c' => p.2.kind = .closing ∧ ∃ m : Cursor, ok p.1 m ∧ ∃ rest,
        m.significant.ahead = p.2 :: rest ∧ c'.significant = ⟨p.2 :: m.significant.passed, rest⟩)
      (fun f => f.fatal = true) := by
  rw [readDelimited, Reader.ends_bind, Reader.ends_get]
  split
  · simp only [Reader.ends_bind, Reader.ends_get, Reader.ends_fail]
    rfl
  · rw [Reader.ends_bind, Reader.ends_hardened, Reader.ends_attempt]
    refine hread.mono ?_ (fun _ _ => rfl)
    intro e m hok
    rw [Reader.ends_bind, Reader.ends_get]
    split
    · next hclosing =>
      rw [Reader.ends_bind, Reader.ends_attempt]
      refine Reader.ends_token ?_ ?_
      · intro t rest hahead hkind c' hplace
        exact ⟨hkind, m, hok, rest, hahead, hplace⟩
      · intro hnone
        rw [Cursor.nextKind?_eq, Option.map_eq_some_iff] at hclosing
        obtain ⟨t, hhead, hkind⟩ := hclosing
        obtain ⟨rest, hahead⟩ := List.head?_eq_some_iff.1 hhead
        exact absurd hkind (hnone t rest hahead)
    · rfl
    · rfl

theorem checkOperand_sound (c : Cursor) :
    checkOperand.Ends c (fun _ c' => c' = c) (fun _ => True) := by
  rw [checkOperand, Reader.ends_bind, Reader.ends_get]
  split
  · exact trivial
  · split
    · rfl
    · split
      · exact trivial
      · split
        · rw [Reader.ends_bind]
          exact Reader.ends_next (fun _ _ _ _ _ => trivial) (fun _ _ _ => trivial)
        · exact trivial

/-- What is read one level further in is derived, and climbing keeps what has been read. -/
structure Inner.Sound (level : Inner α) : Prop where
  expr (c : Cursor) : level.expr.Ends c
    (fun e c' => Accepts .sum c.significant e c'.significant) (fun _ => True)
  signed (c : Cursor) : level.signed.Ends c (fun e c' => Operand c.significant e c') (fun _ => True)
  climb (s c : Cursor) (e : Expr α) (least : Precedence)
      (he : Accepts (.joined least) s e c.significant) (hjoinable : Joinable least s e c) :
    (level.climb e least).Ends c (fun e' c' => Climbed least s c e' c') (fun _ => True)

/-- A level is entered, or there is none left and the fault is fatal. -/
theorem nested_sound {β : Type} {inner : Option (Inner α)} {read : Inner α → Reader β} {c : Cursor}
    {ok : β → Cursor → Prop} {err : Fault → Prop} (hinner : ∀ level ∈ inner, level.Sound)
    (hread : ∀ level : Inner α, level.Sound → (read level).Ends c ok err)
    (herr : ∀ f : Fault, f.fatal = true → err f) : (nested inner read).Ends c ok err := by
  cases inner with
  | none => exact herr _ rfl
  | some level => exact hread level (hinner level rfl)

section Level

variable {inner : Option (Inner α)} (hinner : ∀ level ∈ inner, level.Sound)

include hinner

theorem readExpr_sound (c : Cursor) :
    (readExpr inner).Ends c
      (fun e c' => Accepts .sum c.significant e c'.significant) (fun _ => True) := by
  refine nested_sound hinner ?_ (fun _ _ => trivial)
  intro level hlevel
  rw [Reader.ends_bind]
  refine (hlevel.signed c).mono ?_ (fun _ _ => trivial)
  intro first m hfirst
  refine (hlevel.climb _ m first .any (hfirst.1.loosen (by decide)) hfirst.2).mono ?_
    (fun _ _ => trivial)
  intro e c' he
  exact he.1

theorem readParen_sound (c : Cursor) :
    (readParen inner).Ends c
      (fun e c' => Accepts .atom c.significant e c'.significant) (fun _ => True) := by
  rw [readParen, Reader.ends_bind, Reader.ends_attempt]
  refine Reader.ends_token ?_ (fun _ _ _ => trivial)
  intro opening rest hahead hopening m hm
  rw [Reader.ends_bind]
  refine (readDelimited_sound (readExpr_sound hinner m)).mono ?_ (fun _ _ => trivial)
  rintro ⟨e, closing⟩ c' ⟨hclosing, m', he, rest', hahead', hplace⟩
  have hstart : c.significant = ⟨c.significant.passed, opening :: rest⟩ := by rw [← hahead]
  have hstop : m'.significant = ⟨m'.significant.passed, closing :: rest'⟩ := by rw [← hahead']
  refine ⟨?_, he.2⟩
  rw [hstart, hplace]
  refine .paren hopening hclosing ?_
  rw [← hm, ← hstop]
  exact he.1

/-- A call that cannot be read leaves room for a symbol only where none can be meant. -/
theorem readCall_sound (c : Cursor) :
    (readCall inner).Ends c (fun e c' => Accepts .atom c.significant e c'.significant)
      (fun f => f.fatal = false → NoCall c) := by
  rw [readCall, Reader.ends_bind, Reader.ends_attempt]
  refine Reader.ends_token ?_ ?_
  · intro name rest hahead hkind m hm
    have hstart : c.significant = ⟨c.significant.passed, name :: rest⟩ := by rw [← hahead]
    rw [Reader.ends_bind, Reader.ends_optional]
    refine Reader.ends_token ?_ ?_
    · intro opening rest' hahead' hopening m' hm'
      cases hname : Func.ofName? name.lexeme with
      | none =>
        intro hfatal
        cases hfatal
      | some func =>
        dsimp only
        rw [Reader.ends_bind]
        refine nested_sound hinner ?_ ?_
        · intro level hlevel
          refine (readDelimited_sound (hlevel.expr m')).mono ?_ ?_
          · rintro ⟨e, closing⟩ c' ⟨hclosing, m'', he, rest'', hahead'', hplace⟩
            have hstop : m''.significant = ⟨m''.significant.passed, closing :: rest''⟩ := by
              rw [← hahead'']
            rw [hm] at hahead' hm'
            cases hahead'
            refine ⟨?_, he.2⟩
            rw [hstart, hplace]
            refine .call hkind hname hopening hclosing ?_
            rw [← hm', ← hstop]
            exact he.1
          · intro f hfatal hsoft
            rw [hfatal] at hsoft
            cases hsoft
        · intro f hfatal hsoft
          rw [hfatal] at hsoft
          cases hsoft
    · intro hnone _ _
      cases hname : Func.ofName? name.lexeme with
      | some func =>
        intro hfatal
        cases hfatal
      | none =>
        intro _ t rest' hahead' _
        rw [hahead] at hahead'
        cases hahead'
        refine ⟨hname, ?_⟩
        intro u hu
        obtain ⟨after, hrest⟩ := List.head?_eq_some_iff.1 hu
        exact hnone u after (by rw [hm, hrest])
  · intro hnone f _ _ t rest hahead hkind
    exact absurd hkind (hnone t rest hahead)

theorem readOperand_sound (c : Cursor) :
    (readOperand inner).Ends c
      (fun e c' => Accepts .atom c.significant e c'.significant) (fun _ => True) := by
  rw [readOperand, Reader.ends_bind]
  refine (checkOperand_sound c).mono ?_ (fun _ _ => trivial)
  rintro - c rfl
  rw [Reader.ends_orElse]
  refine (readCall_sound hinner c).mono (fun _ _ he => he) ?_
  intro f hcall
  split
  · exact trivial
  · next hsoft =>
    rw [Reader.ends_orElse, readLiteral, Reader.ends_orElse]
    refine (readNumber_sound c).mono (fun _ _ he => he) ?_
    intro _ _
    split
    · exact trivial
    · rw [Reader.ends_attempt]
      refine (readSymbol_sound (hcall (by simpa using hsoft))).mono (fun _ _ he => he) ?_
      intro _ _
      split
      · exact trivial
      · exact (Reader.ends_attempt _).2 (readParen_sound hinner c)

/-- The operand of a sign takes the powers after it, so that no power is left for the negation. -/
theorem readNegation_sound (c : Cursor) :
    (readNegation inner).Ends c (fun e c' => Operand c.significant e c') (fun _ => True) := by
  refine nested_sound hinner ?_ (fun _ _ => trivial)
  intro level hlevel
  rw [Reader.ends_bind, Reader.ends_attempt, readSign]
  refine Reader.ends_accepting ?_ (fun _ _ _ => trivial)
  intro t rest sign hahead haccept m hm
  obtain ⟨op, hop, rfl⟩ := Option.map_eq_some_iff.1 haccept
  have hkind : t.kind = .minus := by
    cases hk : t.kind <;> simp [hk, UnaryOp.ofToken?] at hop ⊢
  have hstart : c.significant = ⟨c.significant.passed, t :: rest⟩ := by rw [← hahead]
  rw [Reader.ends_bind]
  refine (hlevel.signed m).mono ?_ (fun _ _ => trivial)
  intro first m' hfirst
  rw [Reader.ends_bind]
  refine (hlevel.climb _ m' first .sign hfirst.1 ?_).mono ?_ (fun _ _ => trivial)
  · intro j hj _
    exact hfirst.2 j hj (by cases j.precedence <;> decide)
  · rintro e c' ⟨he, hjoiner, -⟩
    rw [Reader.ends_pure]
    have hsigned : Accepts .signed c.significant (.negation t.span e (t.span.cover e.span))
        c'.significant := by
      refine ⟨?_, he.2⟩
      rw [hstart]
      refine .negation hkind ?_
      rw [← hm]
      exact he.1
    refine ⟨hsigned, ?_⟩
    intro j hj _
    have hbelow := hjoiner j hj
    refine hsigned.loosen ?_
    revert hbelow
    cases j.precedence <;> decide

theorem readSigned_sound (c : Cursor) :
    (readSigned inner).Ends c (fun e c' => Operand c.significant e c') (fun _ => True) := by
  rw [readSigned, Reader.ends_bind, Reader.ends_get]
  split
  · exact (Reader.ends_attempt _).2 (readNegation_sound hinner c)
  · rw [Reader.ends_attempt]
    refine (readOperand_sound hinner c).mono ?_ (fun _ _ => trivial)
    intro e c' he
    refine ⟨he.loosen (by decide), ?_⟩
    intro j _ _
    exact he.loosen (by cases j.precedence <;> decide)

/-! ## The two loops -/

/-- Raising an operand keeps what may stand after the operator before it, until no joiner ahead
outranks that operator. -/
theorem raise_sound (op : BinaryOp) {s : Cursor} (bound : List Token) (c : Cursor) (e : Expr α)
    (hbound : c.significant.ahead.length ≤ bound.length)
    (he : Accepts (.after op.precedence) s e c.significant)
    (hjoinable : ∀ j, c.joiner? = some j → j.outranks op.precedence = true →
      Accepts (.before j.precedence) s e c.significant) :
    (raise inner op.precedence bound e).Ends c
      (fun e' c' => Accepts (.after op.precedence) s e' c'.significant ∧
        ∀ j, c'.joiner? = some j → j.outranks op.precedence = false)
      (fun _ => True) := by
  induction bound generalizing c e with
  | nil =>
    have hend : c.joiner? = none :=
      Cursor.joiner?_eq_none_of_end (List.eq_nil_of_length_eq_zero (by simpa using hbound))
    refine ⟨he, ?_⟩
    intro j hj
    rw [hend] at hj
    cases hj
  | cons b bound ih =>
    rw [raise, Reader.ends_bind, Reader.ends_get]
    cases hjoiner : c.joiner? with
    | none =>
      refine ⟨he, ?_⟩
      intro j hj
      rw [hjoiner] at hj
      cases hj
    | some joiner =>
      dsimp only
      by_cases houtranks : joiner.outranks op.precedence = true
      · rw [if_pos houtranks, Reader.ends_bind]
        refine nested_sound hinner ?_ (fun _ _ => trivial)
        intro level hlevel
        have hbefore := hjoinable joiner hjoiner houtranks
        refine (hlevel.climb s c e joiner.precedence
          (hbefore.loosen (Category.joined_rank_le_before joiner.op)) ?_).mono ?_
          (fun _ _ => trivial)
        · intro j hj _
          rw [hjoiner] at hj
          cases hj
          exact hbefore
        · rintro e' c' ⟨he', hbelow, hplace | hlength⟩
          · -- the joiner has been taken, so that the place is not the same
            have hsame : c'.joiner? = some joiner := by
              rw [Cursor.joiner?_eq_some_iff, hplace, ← Cursor.joiner?_eq_some_iff, hjoiner]
            exact absurd (hbelow joiner hsame) (Nat.lt_irrefl _)
          · refine ih c' e' ?_ (he'.loosen (Category.after_rank_le_joined houtranks)) ?_
            · rw [List.length_cons] at hbound
              omega
            · intro j hj _
              exact he'.loosen (Category.before_rank_le_joined_of_lt (hbelow j hj))
      · rw [if_neg houtranks]
        refine ⟨he, ?_⟩
        intro j hj
        rw [hjoiner] at hj
        cases hj
        simpa using houtranks

/-- The operand after an operator, raised as far as the operators after it demand. -/
theorem readRight_sound (op : BinaryOp) (c : Cursor) {ok : Expr α → Cursor → Prop}
    (hok : ∀ e c', Accepts (.after op.precedence) c.significant e c'.significant →
      (∀ j, c'.joiner? = some j → j.outranks op.precedence = false) → ok e c') :
    (readSigned inner).Ends c
      (fun e m => (raise inner op.precedence m.ahead e).Ends m ok (fun _ => True))
      (fun _ => True) := by
  refine (readSigned_sound hinner c).mono ?_ (fun _ _ => trivial)
  intro e m he
  have hraise := raise_sound hinner op (s := c.significant) m.ahead m e
    (List.length_filter_le _ _) (he.1.loosen (by cases op <;> decide)) ?_
  · refine hraise.mono ?_ (fun _ _ => trivial)
    rintro e' c' ⟨he', houtranks⟩
    exact hok e' c' he' houtranks
  · intro j hj _
    exact he.2 j hj (by cases j.precedence <;> decide)

/-- Climbing keeps the category of what has been joined, until no joiner ahead binds tightly enough.
-/
theorem climbAlong_sound (least : Precedence) {s : Cursor} (bound : List Token) (c : Cursor)
    (e : Expr α) (hbound : c.significant.ahead.length ≤ bound.length)
    (he : Accepts (.joined least) s e c.significant) (hjoinable : Joinable least s e c) :
    (climbAlong inner least bound e).Ends c (fun e' c' => Climbed least s c e' c')
      (fun _ => True) := by
  induction bound generalizing c e with
  | nil =>
    have hend : c.joiner? = none :=
      Cursor.joiner?_eq_none_of_end (List.eq_nil_of_length_eq_zero (by simpa using hbound))
    refine ⟨he, ?_, .inl rfl⟩
    intro j hj
    rw [hend] at hj
    cases hj
  | cons b bound ih =>
    rw [climbAlong, Reader.ends_bind, Reader.ends_get]
    cases hjoiner : c.joiner? with
    | none =>
      refine ⟨he, ?_, .inl rfl⟩
      intro j hj
      rw [hjoiner] at hj
      cases hj
    | some joiner =>
      dsimp only
      by_cases hleast : joiner.precedence < least
      · rw [if_pos hleast]
        refine ⟨he, ?_, .inl rfl⟩
        intro j hj
        rw [hjoiner] at hj
        cases hj
        exact hleast
      · rw [if_neg hleast]
        have hleft := hjoinable joiner hjoiner hleast
        -- one step: whatever the right operand, the joined operands keep the invariant
        have hstep : ∀ (right : Expr α) (written : Span) (c' : Cursor),
            Accepts (.joined joiner.op.precedence) s (join joiner written e right) c'.significant →
            (∀ j, c'.joiner? = some j → j.outranks joiner.op.precedence = false) →
            c'.significant.ahead.length < c.significant.ahead.length →
            (climbAlong inner least bound (join joiner written e right)).Ends c'
              (fun e' c' => Climbed least s c e' c') (fun _ => True) := by
          intro right written c' hjoined houtranks hlength
          rw [List.length_cons] at hbound
          refine (ih c' _ (by omega) (hjoined.loosen (Category.joined_rank_le hleast)) ?_).mono ?_
            (fun _ _ => trivial)
          · intro j hj _
            exact hjoined.loosen (Category.before_rank_le_joined (houtranks j hj))
          · intro e' c'' hclimbed
            exact hclimbed.of_earlier hlength
        cases joiner with
        | written op =>
          obtain ⟨t, rest, hahead, hop⟩ := (c.joiner?_eq_written_iff op).1 hjoiner
          have hstart : c.significant = ⟨c.significant.passed, t :: rest⟩ := by rw [← hahead]
          simp only [Reader.ends_bind, Reader.ends_get, Reader.ends_map, Reader.ends_attempt]
          refine Reader.ends_accepting ?_ (fun _ _ _ => trivial)
          intro t' rest' operator hahead' haccept m hm
          rw [hahead] at hahead'
          cases hahead'
          rw [hop] at haccept
          cases haccept
          refine readRight_sound hinner op m ?_
          intro right c' hright houtranks
          refine hstep right t.span c' ?_ houtranks ?_
          · rw [hm] at hright
            exact ⟨.join_written hop hstart hleft.1 hright.1, hleft.2, hright.2⟩
          · have hlength := hright.1.length_lt
            rw [hm] at hlength
            rw [hahead, List.length_cons]
            exact Nat.lt_succ_of_lt hlength
        | juxtaposed =>
          simp only [Reader.ends_bind, Reader.ends_get, Reader.ends_pure]
          refine readRight_sound hinner .times c ?_
          intro right c' hright houtranks
          refine hstep right default c' ?_ houtranks hright.1.length_lt
          have hjoins := c.joiner?_eq_juxtaposed_iff.1 hjoiner
          exact ⟨.join_juxtaposed hjoins hleft.1 hright.1, hleft.2, hright.2⟩

end Level

/-- Every level is sound, for the level further in is. -/
theorem Inner.ofRoom_sound (room : Nat) : ∀ level ∈ Inner.ofRoom (α := α) room, level.Sound := by
  induction room with
  | zero =>
    intro level hlevel
    cases hlevel
  | succ room ih =>
    intro level hlevel
    cases hlevel
    refine ⟨readExpr_sound ih, readSigned_sound ih, ?_⟩
    intro s c e least he hjoinable
    exact climbAlong_sound ih least c.ahead c e (List.length_filter_le _ _) he hjoinable

/-- What is read of a whole text is derived from all of its significant tokens. -/
theorem spells_of_ofText {text : String} {e : Expr α} (h : ofText text = .ok e) :
    Spells text e ∧ e.Proper := by
  have hread := readExpr_sound (Inner.ofRoom_sound (α := α) maxNesting) (.ofText text)
  have hwhole : (readExpr outermost).whole.Ends (.ofText text)
      (fun (e : Expr α) _ => Spells text e ∧ e.Proper) (fun _ => True) := by
    refine Reader.ends_whole (fun _ _ => trivial) (hread.mono ?_ (fun _ _ => trivial))
    rintro e m ⟨hderives, hproper⟩
    refine ⟨?_, fun _ _ => trivial⟩
    intro hend
    have htokens := hderives.tokens_eq
    have hpassed : m.significant.passed = (meaningful text).reverse := by
      rw [Cursor.tokens, Cursor.tokens, hend, List.append_nil] at htokens
      rw [← List.reverse_eq_iff, htokens]
      rfl
    have hstop : m.significant = ⟨(meaningful text).reverse, []⟩ := by rw [← hpassed, ← hend]
    rw [hstop] at hderives
    exact ⟨hderives, hproper⟩
  cases hrun : (readExpr (outermost (α := α))).whole.runFrom (.ofText text) with
  | mk result c' =>
    rw [ofText, hrun] at h
    cases h
    exact hwhole.of_ok hrun

end Fluxion.Expr
