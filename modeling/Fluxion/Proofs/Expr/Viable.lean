import Fluxion.Proofs.Expr.Soundness

/-!
# Beginnings of expressions

Some tokens are viable if they begin an expression of the grammar: if more tokens can be put after
them so that all of them together form a sum. Wherever an operand is due, the tokens before it are
viable, and they stay viable with every operand of the category that is due there. The rules of the
grammar lead from one such place to the next.
-/

namespace Fluxion.Expr

open Func (ofName?)

variable (α : Type) [Scalar α] [Numeral α]

/-- The tokens before a place begin an expression of finite numbers. -/
def Viable (passed : List Token) : Prop :=
  ∃ (rest : List Token) (e : Expr α),
    Derives .sum ⟨[], passed.reverse ++ rest⟩ e ⟨rest.reverse ++ passed, []⟩ ∧ e.Proper

/-- An operand of the category is due: what was passed is viable, also together with every such
operand that starts with the token ahead. -/
structure Due (cat : Category) (c : Cursor) : Prop where
  viable : Viable α c.passed
  operand (e : Expr α) (taken : List Token) (hhead : taken.head? = c.ahead.head?)
    (he : Derives cat ⟨c.passed, taken⟩ e ⟨taken.reverse ++ c.passed, []⟩) (hproper : e.Proper) :
    Viable α (taken.reverse ++ c.passed)

variable {α}

theorem Viable.of_append {taken passed : List Token} (h : Viable α (taken.reverse ++ passed)) :
    Viable α passed := by
  obtain ⟨rest, e, he, hproper⟩ := h
  refine ⟨taken ++ rest, e, ?_, hproper⟩
  simpa using he

theorem Viable.of_cons {t : Token} {passed : List Token} (h : Viable α (t :: passed)) :
    Viable α passed := by
  have happend : Viable α ([t].reverse ++ passed) := h
  exact happend.of_append

/-! ## Other tokens after an expression -/

/-- Whatever symbols may stand before some tokens may stand before the others. -/
def MayReplace (ahead' ahead : List Token) : Prop :=
  ∀ u ∈ ahead'.head?, u.kind = .opening → ∃ v ∈ ahead.head?, v.kind = .opening

theorem mayReplace_nil (ahead : List Token) : MayReplace [] ahead := by
  intro u hu
  cases hu

theorem mayReplace_cons (t : Token) (ahead' ahead : List Token) :
    MayReplace (t :: ahead') (t :: ahead) := by
  rintro u hu hopening
  exact ⟨u, hu, hopening⟩

theorem mayReplace_of_kind {t : Token} (h : t.kind ≠ .opening) (ahead' ahead : List Token) :
    MayReplace (t :: ahead') ahead := by
  rintro u hu hopening
  cases hu
  exact absurd hopening h

omit [Scalar α] in
/-- A derivation does not look at the tokens that come after it, except that no symbol stands before
an opening parenthesis. -/
theorem Derives.replace {cat : Category} {c c' : Cursor} {e : Expr α} (h : Derives cat c e c')
    {ahead : List Token} (hahead : MayReplace ahead c'.ahead) :
    ∃ t taken, c.ahead = t :: taken ++ c'.ahead ∧ c'.passed = (t :: taken).reverse ++ c.passed ∧
      Derives cat ⟨c.passed, t :: taken ++ ahead⟩ e ⟨c'.passed, ahead⟩ := by
  induction h generalizing ahead with
  | @number _ _ t hkind => exact ⟨t, [], rfl, rfl, .number hkind⟩
  | @symbol _ _ t hkind hname hnext =>
    refine ⟨t, [], rfl, rfl, .symbol hkind hname ?_⟩
    intro u hu hopening
    obtain ⟨v, hv, hvkind⟩ := hahead u hu hopening
    exact hnext v hv hvkind
  | @paren passed _ passed' _ opening closing _ hopening hclosing _ ih =>
    obtain ⟨t, taken, htaken, hpassed, he⟩ := ih (mayReplace_cons closing ahead _)
    refine ⟨opening, t :: taken ++ [closing], by simp_all, by simp_all, ?_⟩
    simpa using Derives.paren hopening hclosing he
  | @call passed _ passed' _ name opening closing _ _ hkind hname hopening hclosing _ ih =>
    obtain ⟨t, taken, htaken, hpassed, he⟩ := ih (mayReplace_cons closing ahead _)
    refine ⟨name, opening :: t :: taken ++ [closing], by simp_all, by simp_all, ?_⟩
    simpa using Derives.call hkind hname hopening hclosing he
  | atom _ ih =>
    obtain ⟨t, taken, htaken, hpassed, he⟩ := ih hahead
    exact ⟨t, taken, htaken, hpassed, .atom he⟩
  -- the right operand comes first: what comes after the left one begins as it did before
  | @power _ _ _ _ sep _ _ _ hkind _ ihl ihr =>
    obtain ⟨u, taken', htaken', hpassed', hr⟩ := ihr hahead
    obtain ⟨t, taken, htaken, hpassed, hl⟩ := ihl (mayReplace_cons sep (u :: taken' ++ ahead) _)
    refine ⟨t, taken ++ sep :: u :: taken', by simp_all, by simp_all, ?_⟩
    simpa using Derives.power hl hkind hr
  | unsigned _ ih =>
    obtain ⟨t, taken, htaken, hpassed, he⟩ := ih hahead
    exact ⟨t, taken, htaken, hpassed, .unsigned he⟩
  | @negation _ _ _ sign _ hkind _ ih =>
    obtain ⟨t, taken, htaken, hpassed, he⟩ := ih hahead
    exact ⟨sign, t :: taken, by simp_all, by simp_all, .negation hkind he⟩
  | factor _ ih =>
    obtain ⟨t, taken, htaken, hpassed, he⟩ := ih hahead
    exact ⟨t, taken, htaken, hpassed, .factor he⟩
  | @product _ _ _ _ sep _ _ _ _ hkind hop _ ihl ihr =>
    obtain ⟨u, taken', htaken', hpassed', hr⟩ := ihr hahead
    obtain ⟨t, taken, htaken, hpassed, hl⟩ := ihl (mayReplace_cons sep (u :: taken' ++ ahead) _)
    refine ⟨t, taken ++ sep :: u :: taken', by simp_all, by simp_all, ?_⟩
    simpa using Derives.product hl hkind hop hr
  | @juxtaposed _ _ _ _ _ second _ _ _ hbefore hafter _ ihl ihr =>
    obtain ⟨u, taken', htaken', hpassed', hr⟩ := ihr hahead
    -- the factors are joined by the first token of the second one, which is not replaced
    obtain ⟨rfl, -⟩ : second = u ∧ _ := List.cons.inj htaken'
    obtain ⟨t, taken, htaken, hpassed, hl⟩ := ihl (mayReplace_cons second (taken' ++ ahead) _)
    refine ⟨t, taken ++ second :: taken', by simp_all, by simp_all, ?_⟩
    simpa using Derives.juxtaposed hl hbefore hafter hr
  | term _ ih =>
    obtain ⟨t, taken, htaken, hpassed, he⟩ := ih hahead
    exact ⟨t, taken, htaken, hpassed, .term he⟩
  | @sum _ _ _ _ sep _ _ _ _ hkind hop _ ihl ihr =>
    obtain ⟨u, taken', htaken', hpassed', hr⟩ := ihr hahead
    obtain ⟨t, taken, htaken, hpassed, hl⟩ := ihl (mayReplace_cons sep (u :: taken' ++ ahead) _)
    refine ⟨t, taken ++ sep :: u :: taken', by simp_all, by simp_all, ?_⟩
    simpa using Derives.sum hl hkind hop hr

/-! ## Where operands are due -/

/-- A name that is no function. -/
def sampleSymbol : Token := ⟨.name, "x", .empty 0⟩

omit [Scalar α] in
theorem derives_sampleSymbol (cat : Category) (passed : List Token) :
    Derives cat ⟨passed, [sampleSymbol]⟩ (.symbol "x" (.empty 0) : Expr α)
      ⟨sampleSymbol :: passed, []⟩ := by
  have hatom : Derives .atom ⟨passed, [sampleSymbol]⟩ (.symbol "x" (.empty 0) : Expr α)
      ⟨sampleSymbol :: passed, []⟩ :=
    .symbol rfl (by decide +kernel) (fun _ hu => by cases hu)
  exact hatom.loosen (by cases cat <;> decide)

/-- An operand is due if any operand may come, for then a symbol may. -/
theorem Due.of_operand {cat : Category} {c : Cursor}
    (h : ∀ (e : Expr α) (taken : List Token),
      Derives cat ⟨c.passed, taken⟩ e ⟨taken.reverse ++ c.passed, []⟩ → e.Proper →
        Viable α (taken.reverse ++ c.passed)) :
    Due α cat c where
  viable := (h _ [sampleSymbol] (derives_sampleSymbol cat c.passed) trivial).of_cons
  operand e taken _ he hproper := h e taken he hproper

theorem Due.sum (tokens : List Token) : Due α .sum ⟨[], tokens⟩ := by
  refine .of_operand ?_
  intro e taken he hproper
  rw [List.append_nil] at he ⊢
  exact ⟨[], e, by simpa using he, hproper⟩

/-- Where an operand is due, an operand of a tighter category is. -/
theorem Due.tighten {cat cat' : Category} {c : Cursor} (h : Due α cat c)
    (hrank : cat.rank ≤ cat'.rank) : Due α cat' c where
  viable := h.viable
  operand e taken hhead he hproper := h.operand e taken hhead (he.loosen hrank) hproper

/-- After the operand that was due, everything passed is viable. -/
theorem Due.viable_after {cat : Category} {s c : Cursor} {e : Expr α} (h : Due α cat s)
    (he : Accepts cat s e c) : Viable α c.passed := by
  obtain ⟨t, taken, htaken, hpassed, hderives⟩ := he.1.replace (mayReplace_nil c.ahead)
  rw [List.append_nil, hpassed] at hderives
  rw [hpassed]
  exact h.operand e (t :: taken) (by rw [htaken]; rfl) hderives he.2

/-- After a written operator. -/
theorem Due.written {least : Precedence} {s : Cursor} {passed ahead : List Token} {t : Token}
    {op : BinaryOp} {left : Expr α} (h : Due α (.joined least) s)
    (hkind : BinaryOp.ofToken? t.kind = some op) (hleast : ¬ op.precedence < least)
    (hleft : Accepts (.before op.precedence) s left ⟨passed, t :: ahead⟩) :
    Due α (.after op.precedence) ⟨t :: passed, ahead⟩ := by
  refine .of_operand ?_
  intro e taken he hproper
  obtain ⟨u, taken', htaken, hpassed, hl⟩ := hleft.1.replace (mayReplace_cons t taken ahead)
  subst hpassed
  have hjoined := (Derives.join_written hkind rfl hl he).loosen (Category.joined_rank_le hleast)
  have hboth : (join (.written op) t.span left e).Proper := ⟨hleft.2, hproper⟩
  have hviable := h.operand _ (u :: taken' ++ t :: taken) (by rw [htaken]; rfl)
    (by simpa using hjoined) hboth
  simpa using hviable

/-- After an operand with which the next one is multiplied without an operator. -/
theorem Due.juxtaposed {least : Precedence} {s c : Cursor} {left : Expr α}
    (h : Due α (.joined least) s) (hjoins : c.Joins .juxtaposed)
    (hleast : ¬ Joiner.juxtaposed.precedence < least) (hleft : Accepts (.before .factor) s left c) :
    Due α (.after .factor) c where
  viable :=
    h.viable_after (hleft.loosen (Nat.le_trans (Category.joined_rank_le hleast) (by decide)))
  operand e taken hhead he hproper := by
    obtain ⟨t, passed, u, rest, hpassed, hahead, ht, hu⟩ := hjoins
    obtain ⟨taken, rfl⟩ : ∃ after, taken = u :: after := by
      rw [hahead] at hhead
      exact List.head?_eq_some_iff.1 hhead
    have hreplace : MayReplace (u :: taken) c.ahead := by
      rw [hahead]
      exact mayReplace_cons u taken rest
    obtain ⟨v, taken', htaken, hconsumed, hl⟩ := hleft.1.replace hreplace
    have hplace : Cursor.Joins ⟨c.passed, u :: taken⟩ .juxtaposed :=
      ⟨t, passed, u, taken, hpassed, rfl, ht, hu⟩
    have hjoined := (Derives.join_juxtaposed hplace hl he).loosen (Category.joined_rank_le hleast)
    have hboth : (join .juxtaposed default left e).Proper := ⟨hleft.2, hproper⟩
    rw [hconsumed] at hjoined ⊢
    have hviable := h.operand _ (v :: taken' ++ u :: taken) (by rw [htaken]; rfl)
      (by simpa using hjoined) hboth
    simpa using hviable

/-- After a sign. -/
theorem Due.sign {passed ahead : List Token} {t : Token} (h : Due α .signed ⟨passed, t :: ahead⟩)
    (hkind : t.kind = .minus) : Due α .signed ⟨t :: passed, ahead⟩ := by
  refine .of_operand ?_
  intro e taken he hproper
  have hviable := h.operand (.negation t.span e (t.span.cover e.span)) (t :: taken) rfl
    (by simpa using Derives.negation hkind he) hproper
  simpa using hviable

/-- A closing parenthesis that belongs to any opening one. -/
def sampleClosing : Token := ⟨.closing, ")", .empty 0⟩

/-- After an opening parenthesis. -/
theorem Due.paren {passed ahead : List Token} {opening : Token}
    (h : Due α .atom ⟨passed, opening :: ahead⟩) (hopening : opening.kind = .opening) :
    Due α .sum ⟨opening :: passed, ahead⟩ := by
  refine .of_operand ?_
  intro e taken he hproper
  obtain ⟨t, taken', htaken, -, hclosed⟩ :=
    he.replace (mayReplace_of_kind (t := sampleClosing) (by decide) [] [])
  obtain rfl : taken = t :: taken' := by simpa using htaken
  have hviable := h.operand (.paren e (opening.span.cover sampleClosing.span))
    (opening :: t :: taken' ++ [sampleClosing]) rfl
    (by simpa using Derives.paren hopening (by rfl) hclosed) hproper
  exact Viable.of_cons (t := sampleClosing) (by simpa using hviable)

/-- After a function and its opening parenthesis. -/
theorem Due.call {passed ahead : List Token} {name opening : Token} {func : Func}
    (h : Due α .atom ⟨passed, name :: opening :: ahead⟩) (hkind : name.kind = .name)
    (hname : Func.ofName? name.lexeme = some func) (hopening : opening.kind = .opening) :
    Due α .sum ⟨opening :: name :: passed, ahead⟩ := by
  refine .of_operand ?_
  intro e taken he hproper
  obtain ⟨t, taken', htaken, -, hclosed⟩ :=
    he.replace (mayReplace_of_kind (t := sampleClosing) (by decide) [] [])
  obtain rfl : taken = t :: taken' := by simpa using htaken
  have hviable := h.operand
    (.call func name.lexeme name.span e (opening.span.cover sampleClosing.span))
    (name :: opening :: t :: taken' ++ [sampleClosing]) rfl
    (by simpa using Derives.call hkind hname hopening (by rfl) hclosed) hproper
  exact Viable.of_cons (t := sampleClosing) (by simpa using hviable)

end Fluxion.Expr
