import Fluxion.Proofs.Layout.Agreement

/-!
# Layout does not matter to expressions

Expressions are read in the same way from two texts that differ only in spaces and in the spelling of
operators: both are accepted, with trees that differ in their spans only, or both are rejected, with
the same fault at the same significant token. Each reader agrees with itself on both texts if those
one level further in do. An operand takes a token at least, so that no loop runs out of its bound,
though the numbers of tokens that bound it differ.
-/

open Fluxion.Expr

namespace Fluxion

namespace Expr

variable {α : Type}

/-- The tree alone: no node says where it stands. -/
def withoutSpans : Expr α → Expr α
  | number value _ => number value default
  | symbol name _ => symbol name default
  | paren inner _ => paren inner.withoutSpans default
  | call func name _ arg _ => call func name default arg.withoutSpans default
  | negation _ operand _ => negation default operand.withoutSpans default
  | binary op left right _ =>
    binary { op with span := default } left.withoutSpans right.withoutSpans default

/-- The trees differ in their spans only. -/
def SameTree (e e' : Expr α) : Prop := e.withoutSpans = e'.withoutSpans

namespace SameTree

variable {e e' : Expr α}

theorem paren (h : SameTree e e') (s s' : Span) : SameTree (.paren e s) (.paren e' s') := by
  unfold SameTree at h ⊢
  rw [withoutSpans, withoutSpans, h]

theorem call (func : Func) (name : String) (h : SameTree e e') (s s' parens parens' : Span) :
    SameTree (.call func name s e parens) (.call func name s' e' parens') := by
  unfold SameTree at h ⊢
  rw [withoutSpans, withoutSpans, h]

theorem negation (h : SameTree e e') (sign sign' s s' : Span) :
    SameTree (.negation sign e s) (.negation sign' e' s') := by
  unfold SameTree at h ⊢
  rw [withoutSpans, withoutSpans, h]

theorem join {r r' : Expr α} (joiner : Joiner) (h : SameTree e e') (h' : SameTree r r')
    (written written' : Span) :
    SameTree (Expr.join joiner written e r) (Expr.join joiner written' e' r') := by
  unfold SameTree at h h' ⊢
  cases joiner <;> simp only [Expr.join, withoutSpans, h, h']

end SameTree

end Expr

namespace Layouts

variable {α : Type} {p : Layouts} {c d : Cursor}

/-! ## Signs, operators and names -/

/-- What is read depends on the kind of the token, and carries its span. -/
theorem agrees_accepting_kind {β γ : Type} (expected : List TokenKind)
    (ofKind? : TokenKind → Option γ) (place : γ → Span → β) (h : p.SameCursor c d) :
    p.Agrees 1 (fun _ _ => True)
      (Reader.accepting expected fun t => (ofKind? t.kind).map fun b => place b t.span)
      (Reader.accepting expected fun t => (ofKind? t.kind).map fun b => place b t.span) c d := by
  refine agrees_accepting expected (fun t u htu => ?_) h
  rw [htu.alike.kind_eq]
  cases ofKind? u.kind with
  | none => exact .none
  | some b => exact .some trivial

theorem agrees_readSign (h : p.SameCursor c d) :
    p.Agrees 1 (fun _ _ => True) readSign readSign c d :=
  agrees_accepting_kind UnaryOp.tokens UnaryOp.ofToken? (fun _ s => s) h

theorem agrees_readOperator (h : p.SameCursor c d) :
    p.Agrees 1 (fun _ _ => True) readOperator readOperator c d :=
  agrees_accepting_kind BinaryOp.tokens BinaryOp.ofToken? (fun op s => (⟨op, false, s⟩ : Operator)) h

theorem agrees_checkOperand (h : p.SameCursor c d) :
    p.Agrees 0 (fun _ _ => True) checkOperand checkOperand c d := by
  refine agrees_get_bind ?_
  have hunclosed := h.unclosed_eq
  cases hkind : c.nextKind? with
  | none =>
    rw [← h.nextKind?_eq, hkind]
    exact agrees_failHere _ h
  | some kind =>
    rw [← h.nextKind?_eq, hkind, hunclosed]
    dsimp only
    split
    · exact agrees_pure trivial h
    · split
      · exact agrees_abortHere _ h
      · split
        · next hunknown =>
          refine ((agrees_next h).bind (n := 0) fun t u c' d' ⟨htu, hnext⟩ hcursor _ => ?_).untaken
          have ht : t.kind = .unknown := by rw [← hunknown, ← Option.some_inj, ← hnext, hkind]
          rw [htu.alike.lexeme_eq (by simp [ht])]
          exact agrees_fail (.single (.of_corresponds htu))
        · exact agrees_abortHere _ h

theorem agrees_readSymbol (h : p.SameCursor c d) :
    p.Agrees 1 SameTree (readSymbol : Reader (Expr α)) readSymbol c d := by
  refine (agrees_token .name h).bind (n := 0) fun t u c' d' ⟨htu, hkind⟩ hcursor _ => ?_
  rw [htu.alike.lexeme_eq (by simp [hkind])]
  exact agrees_pure rfl hcursor

/-! ## One level further in -/

theorem agrees_nested {β : Type} {n : Nat} {same : β → β → Prop} {inner : Option (Inner α)}
    {read read' : Inner α → Reader β} (h : p.SameCursor c d)
    (hread : ∀ level, inner = some level → p.Agrees n same (read level) (read' level) c d) :
    p.Agrees n same (nested inner read) (nested inner read') c d := by
  cases inner with
  | none => exact agrees_abortHere _ h
  | some level => exact hread level rfl

/-- The parentheses are opened by corresponding tokens. -/
theorem agrees_readDelimited {read : Reader (Expr α)} {opening opening' : Token}
    (hread : p.Agrees 0 SameTree read read c d) (hopening : p.Corresponds opening opening')
    (h : p.SameCursor c d) :
    p.Agrees 0 (fun x y => SameTree x.1 y.1) (readDelimited read opening)
      (readDelimited read opening') c d := by
  have hspan := SameSpan.of_corresponds hopening
  refine agrees_get_bind ?_
  rw [h.nextKind?_eq]
  split
  · exact agrees_get_bind (agrees_fail_bind _ _ (.single (hspan.cover h.span)))
  · refine hread.attempt.hardened.bind (n := 0) fun e e' c' d' he hcursor _ => agrees_get_bind ?_
    rw [hcursor.nextKind?_eq]
    cases d'.nextKind? with
    | none => exact agrees_fail (.single hspan)
    | some kind =>
      cases kind with
      | closing =>
        refine ((agrees_token .closing hcursor).attempt.bind (n := 0)
          fun t u c'' d'' _ hcursor' _ => ?_).untaken
        exact agrees_pure (p := p) he hcursor'
      | _ => exact agrees_abortHere _ hcursor

/-- All that is read at a level agrees. Where an operator is due to be taken, it is. -/
structure Level (p : Layouts) (level : Inner α) : Prop where
  expr {c d : Cursor} (h : p.SameCursor c d) : p.Agrees 1 SameTree level.expr level.expr c d
  signed {c d : Cursor} (h : p.SameCursor c d) : p.Agrees 1 SameTree level.signed level.signed c d
  climb {c d : Cursor} {e e' : Expr α} (least : Precedence) (he : SameTree e e')
    (h : p.SameCursor c d) :
    p.Agrees 0 SameTree (level.climb e least) (level.climb e' least) c d
  climb_of_joiner {c d : Cursor} {e e' : Expr α} {joiner : Joiner} (he : SameTree e e')
    (h : p.SameCursor c d) (hjoiner : c.joiner? = some joiner) :
    p.Agrees 1 SameTree (level.climb e joiner.precedence) (level.climb e' joiner.precedence) c d

/-- Where an operand is joined to the next one, no bound is used up. -/
theorem exists_cons_of_joiner {joiner : Joiner} {bound : List Token}
    (hjoiner : c.joiner? = some joiner) (hbound : c.significant.ahead.length ≤ bound.length) :
    ∃ t rest, bound = t :: rest := by
  cases bound with
  | cons t rest => exact ⟨t, rest, rfl⟩
  | nil =>
    have hend : c.significant.ahead = [] := List.length_eq_zero_iff.1 (Nat.le_zero.1 hbound)
    rw [Cursor.joiner?_eq_none_of_end hend] at hjoiner
    cases hjoiner

/-- Raising an operand ends at once where no operator after it outranks the one before it. -/
theorem runFrom_raise_of_stop {inner : Option (Inner α)} {outer : Precedence}
    (hstop : ∀ joiner, c.joiner? = some joiner → joiner.outranks outer = false)
    (bound : List Token) (e : Expr α) : (raise inner outer bound e).runFrom c = (.ok e, c) := by
  cases bound with
  | nil => rfl
  | cons t bound =>
    rw [raise, Reader.runFrom_bind, Reader.runFrom_get]
    dsimp only
    cases hjoiner : c.joiner? with
    | none => rfl
    | some joiner =>
      dsimp only
      rw [hstop joiner hjoiner]
      rfl

section Within

variable {inner : Option (Inner α)} (hinner : ∀ level, inner = some level → p.Level level)

include hinner

theorem agrees_readExpr (h : p.SameCursor c d) :
    p.Agrees 1 SameTree (readExpr inner) (readExpr inner) c d := by
  refine agrees_nested h fun level hlevel => ?_
  exact ((hinner level hlevel).signed h).bind (n := 0) fun e e' c' d' he hcursor _ =>
    (hinner level hlevel).climb .any he hcursor

theorem agrees_readParen (h : p.SameCursor c d) :
    p.Agrees 1 SameTree (readParen inner) (readParen inner) c d := by
  refine (agrees_token .opening h).attempt.bind (n := 0) fun t u c' d' ⟨htu, _⟩ hcursor _ => ?_
  have hexpr := (agrees_readExpr hinner hcursor).untaken
  exact (agrees_readDelimited hexpr htu hcursor).bind (n := 0) fun x y c'' d'' he hcursor' _ =>
    agrees_pure (he.paren _ _) hcursor'

theorem agrees_readCall (h : p.SameCursor c d) :
    p.Agrees 1 SameTree (readCall inner) (readCall inner) c d := by
  refine (agrees_token .name h).attempt.bind (n := 0) fun t u c' d' ⟨htu, hkind⟩ hcursor _ => ?_
  have hname : p.SameSpan t.span u.span := .of_corresponds htu
  have hlexeme : t.lexeme = u.lexeme := htu.alike.lexeme_eq (by simp [hkind])
  refine ((agrees_token .opening hcursor).optional hcursor).bind (n := 0)
    fun opening? opening?' c'' d'' hopening hcursor' _ => ?_
  rw [hlexeme]
  cases Func.ofName? u.lexeme with
  | none => cases hopening <;> exact agrees_fail (.single hname)
  | some func =>
    cases hopening with
    | none => exact agrees_fail (.single hname)
    | some hopening =>
      refine Agrees.bind (n := 0) (agrees_nested hcursor' fun level hlevel => ?_)
        fun x y _ _ he hcursor'' _ => agrees_pure (.call func u.lexeme he _ _ _ _) hcursor''
      exact agrees_readDelimited ((hinner level hlevel).expr hcursor').untaken hopening.1 hcursor'

theorem agrees_readNegation (h : p.SameCursor c d) :
    p.Agrees 1 SameTree (readNegation inner) (readNegation inner) c d := by
  refine agrees_nested h fun level hlevel => ?_
  refine (agrees_readSign h).attempt.bind (n := 0) fun _ _ c' d' _ hcursor _ => ?_
  refine (((hinner level hlevel).signed hcursor).bind (n := 0)
    fun e e' c'' d'' he hcursor' _ => ?_).untaken
  exact ((hinner level hlevel).climb UnaryOp.negate.precedence he hcursor').bind (n := 0)
    fun e e' _ _ he hcursor'' _ => agrees_pure (he.negation _ _ _ _) hcursor''

/-- Both bounds are no fewer than the significant tokens ahead. -/
theorem agrees_raise (outer : Precedence) {bound bound' : List Token} {e e' : Expr α}
    (he : SameTree e e') (h : p.SameCursor c d)
    (hbound : c.significant.ahead.length ≤ bound.length)
    (hbound' : c.significant.ahead.length ≤ bound'.length) :
    p.Agrees 0 SameTree (raise inner outer bound e) (raise inner outer bound' e') c d := by
  -- the bounds differ in length, but neither is used up before there are no joiners left
  induction bound generalizing bound' c d e e' with
  | nil =>
    refine agrees_of_unmoved rfl (runFrom_raise_of_stop (h.joiner?_eq ▸ ?_) bound' e') he h
    intro joiner hjoiner
    obtain ⟨t, rest, hnil⟩ := exists_cons_of_joiner hjoiner hbound
    cases hnil
  | cons t bound ih =>
    by_cases hstop : ∀ joiner, c.joiner? = some joiner → joiner.outranks outer = false
    · exact agrees_of_unmoved (runFrom_raise_of_stop hstop _ e)
        (runFrom_raise_of_stop (h.joiner?_eq ▸ hstop) _ e') he h
    · simp only [not_forall, Bool.not_eq_false] at hstop
      obtain ⟨joiner, hjoiner, houtranks⟩ := hstop
      obtain ⟨u, bound', rfl⟩ := exists_cons_of_joiner hjoiner hbound'
      rw [List.length_cons] at hbound hbound'
      refine agrees_get_bind ?_
      rw [← h.joiner?_eq, hjoiner]
      dsimp only
      rw [if_pos houtranks, if_pos houtranks]
      have hnested := agrees_nested h fun level hlevel =>
        (hinner level hlevel).climb_of_joiner he h hjoiner
      refine (hnested.bind (n := 0) fun e e' c' d' he hcursor htaken => ?_).untaken
      exact ih he hcursor (by omega) (by omega)

end Within

/-! ## Levels -/

section Numbers

variable [Scalar α] [Numeral α]

theorem agrees_readNumber (h : p.SameCursor c d) :
    p.Agrees 1 SameTree (readNumber : Reader (Expr α)) readNumber c d := by
  have haccept : ∀ t u, p.Corresponds t u →
      Option.Rel (fun t u => p.Corresponds t u ∧ t.kind.isNumber = true)
        (if t.kind.isNumber then some t else none) (if u.kind.isNumber then some u else none) := by
    intro t u htu
    rw [← htu.alike.kind_eq]
    split
    · next hnumber => exact .some ⟨htu, hnumber⟩
    · exact .none
  refine (agrees_accepting _ haccept h).bind (n := 0)
    fun t u c' d' ⟨htu, hnumber⟩ hcursor _ => ?_
  have hkind : t.kind ∈ [TokenKind.name, .int, .decimal, .unknown] := by
    cases hk : t.kind <;> simp [hk, TokenKind.isNumber] at hnumber ⊢
  rw [htu.alike.lexeme_eq hkind]
  dsimp only
  split
  · exact agrees_pure rfl hcursor
  · exact agrees_fail (.single (.of_corresponds htu))

theorem agrees_readLiteral (h : p.SameCursor c d) :
    p.Agrees 1 SameTree (readLiteral : Reader (Expr α)) readLiteral c d :=
  (agrees_readNumber h).orElse (agrees_readSymbol h).attempt

variable {inner : Option (Inner α)}

/-- Climbing ends at once where no operator binds tightly enough. -/
theorem runFrom_climbAlong_of_stop {least : Precedence}
    (hstop : ∀ joiner, c.joiner? = some joiner → joiner.precedence < least)
    (bound : List Token) (e : Expr α) : (climbAlong inner least bound e).runFrom c = (.ok e, c) := by
  cases bound with
  | nil => rfl
  | cons t bound =>
    rw [climbAlong, Reader.runFrom_bind, Reader.runFrom_get]
    dsimp only
    cases hjoiner : c.joiner? with
    | none => rfl
    | some joiner =>
      dsimp only
      rw [if_pos (hstop joiner hjoiner)]
      rfl

variable (hinner : ∀ level, inner = some level → p.Level level)

include hinner

theorem agrees_readOperand (h : p.SameCursor c d) :
    p.Agrees 1 SameTree (readOperand inner) (readOperand inner) c d := by
  refine (agrees_checkOperand h).bind (n := 1) fun _ _ c' d' _ hcursor _ => ?_
  exact (agrees_readCall hinner hcursor).orElse
    ((agrees_readLiteral hcursor).orElse (agrees_readParen hinner hcursor).attempt)

theorem agrees_readSigned (h : p.SameCursor c d) :
    p.Agrees 1 SameTree (readSigned inner) (readSigned inner) c d := by
  refine agrees_get_bind ?_
  rw [h.nextKind?_eq]
  split
  · exact (agrees_readNegation hinner h).attempt
  · exact (agrees_readOperand hinner h).attempt

/-- A step of climbing takes the operand at least, and leaves the rest to the loop. -/
theorem agrees_climbAlong_of_joiner {least : Precedence} {joiner : Joiner} (t u : Token)
    {bound bound' : List Token} {e e' : Expr α} (he : SameTree e e') (h : p.SameCursor c d)
    (hjoiner : c.joiner? = some joiner) (hleast : ¬ joiner.precedence < least)
    (hrest : ∀ {c' d' : Cursor} {e e' : Expr α}, SameTree e e' → p.SameCursor c' d' →
      c'.significant.ahead.length + 1 ≤ c.significant.ahead.length →
      p.Agrees 0 SameTree (climbAlong inner least bound e) (climbAlong inner least bound' e') c' d') :
    p.Agrees 1 SameTree (climbAlong inner least (t :: bound) e)
      (climbAlong inner least (u :: bound') e') c d := by
  have hright : ∀ {c' d' : Cursor} (written written' : Span), p.SameCursor c' d' →
      c'.significant.ahead.length ≤ c.significant.ahead.length →
      p.Agrees 1 SameTree
        (do
          let operand ← readSigned inner
          let right ← raise inner joiner.precedence (← get).ahead operand
          climbAlong inner least bound (join joiner written e right))
        (do
          let operand ← readSigned inner
          let right ← raise inner joiner.precedence (← get).ahead operand
          climbAlong inner least bound' (join joiner written' e' right)) c' d' := by
    intro c' d' written written' hcursor hle
    refine (agrees_readSigned hinner hcursor).bind (n := 0) fun r r' a b hr hoperand htaken => ?_
    refine agrees_get_bind ?_
    refine (agrees_raise hinner joiner.precedence hr hoperand hoperand.length_le_one
      hoperand.length_le_other).bind (n := 0) fun r r' _ _ hr hraised htaken' => ?_
    exact hrest (.join joiner he hr _ _) hraised (by omega)
  refine agrees_get_bind ?_
  rw [← h.joiner?_eq, hjoiner]
  dsimp only
  rw [if_neg hleast, if_neg hleast]
  cases joiner with
  | written op =>
    have hwritten : p.Agrees 1 (fun _ _ => True) ((·.span) <$> readOperator.attempt)
        ((·.span) <$> readOperator.attempt) c d :=
      (agrees_readOperator h).attempt.map fun _ _ h => h
    exact hwritten.untaken.bind (n := 1) fun written written' c' d' _ hcursor htaken =>
      hright written written' hcursor htaken
  | juxtaposed =>
    have hnothing : p.Agrees 0 (fun _ _ => True) (pure default : Reader Span) (pure default) c d :=
      agrees_pure trivial h
    exact hnothing.bind (n := 1) fun written written' c' d' _ hcursor htaken =>
      hright written written' hcursor htaken

/-- Both bounds are no fewer than the significant tokens ahead. -/
theorem agrees_climbAlong (least : Precedence) {bound bound' : List Token} {e e' : Expr α}
    (he : SameTree e e') (h : p.SameCursor c d)
    (hbound : c.significant.ahead.length ≤ bound.length)
    (hbound' : c.significant.ahead.length ≤ bound'.length) :
    p.Agrees 0 SameTree (climbAlong inner least bound e) (climbAlong inner least bound' e') c d := by
  induction bound generalizing bound' c d e e' with
  | nil =>
    refine agrees_of_unmoved rfl (runFrom_climbAlong_of_stop (h.joiner?_eq ▸ ?_) bound' e') he h
    intro joiner hjoiner
    obtain ⟨t, rest, hnil⟩ := exists_cons_of_joiner hjoiner hbound
    cases hnil
  | cons t bound ih =>
    by_cases hstop : ∀ joiner, c.joiner? = some joiner → joiner.precedence < least
    · exact agrees_of_unmoved (runFrom_climbAlong_of_stop hstop _ e)
        (runFrom_climbAlong_of_stop (h.joiner?_eq ▸ hstop) _ e') he h
    · simp only [not_forall] at hstop
      obtain ⟨joiner, hjoiner, hleast⟩ := hstop
      obtain ⟨u, bound', rfl⟩ := exists_cons_of_joiner hjoiner hbound'
      rw [List.length_cons] at hbound hbound'
      refine (agrees_climbAlong_of_joiner hinner t u he h hjoiner hleast ?_).untaken
      intro c' d' e e' he hcursor htaken
      exact ih he hcursor (by omega) (by omega)

/-- A level agrees if the one further in does. -/
theorem Level.within : p.Level (.within inner) where
  expr := agrees_readExpr hinner
  signed := agrees_readSigned hinner
  climb least he h :=
    agrees_get_bind (agrees_climbAlong hinner least he h h.length_le_one h.length_le_other)
  climb_of_joiner {c d} _ _ joiner he h hjoiner := by
    have hone := h.length_le_one
    have hother := h.length_le_other
    obtain ⟨t, bound, hc⟩ := exists_cons_of_joiner hjoiner hone
    obtain ⟨u, bound', hd⟩ := exists_cons_of_joiner hjoiner hother
    refine agrees_get_bind ?_
    rw [hc, List.length_cons] at hone
    rw [hd, List.length_cons] at hother
    rw [hc, hd]
    refine agrees_climbAlong_of_joiner hinner t u he h hjoiner (Nat.lt_irrefl _) ?_
    intro c' d' e e' he hcursor htaken
    exact agrees_climbAlong hinner _ he hcursor (by omega) (by omega)

omit hinner in
/-- At every level the same is read of both texts. -/
theorem level_of_ofRoom (room : Nat) (level : Inner α) (h : Inner.ofRoom room = some level) :
    p.Level level := by
  induction room generalizing level with
  | zero => cases h
  | succ room ih =>
    cases h
    exact .within ih

end Numbers

end Layouts

namespace Expr

variable {α : Type} [Scalar α] [Numeral α]

/-- Spaces and the spelling of operators never matter. Texts whose significant tokens are alike are
both accepted, with trees that differ in their spans only, or both rejected, with faults that differ
only as the places of the tokens in the texts do. -/
theorem ofText_ignores_layout {one other : String}
    (h : List.Forall₂ Token.Alike (meaningful one) (meaningful other)) :
    (∃ e e' : Expr α, ofText one = .ok e ∧ ofText other = .ok e' ∧
      e.withoutSpans = e'.withoutSpans) ∨
    (∃ f g : Fault, ofText (α := α) one = .error f ∧ ofText (α := α) other = .error g ∧
      (⟨one, other, h⟩ : Layouts).SameFault f g) := by
  let p : Layouts := ⟨one, other, h⟩
  have hstart : p.SameCursor (.ofText one) (.ofText other) := Layouts.sameCursor_ofText
  have hread := (Layouts.agrees_readExpr (Layouts.level_of_ofRoom (α := α) maxNesting) hstart).whole
    hstart
  unfold ofText
  generalize hone : (readExpr (α := α) outermost).whole.runFrom (.ofText one) = x
  generalize hother : (readExpr (α := α) outermost).whole.runFrom (.ofText other) = y
  have houtcome : Layouts.SameOutcome p 1 SameTree (.ofText one) x y := by
    rw [← hone, ← hother]
    exact hread
  cases houtcome with
  | ok he _ _ => exact .inl ⟨_, _, rfl, rfl, he⟩
  | error _ _ hfault => exact .inr ⟨_, _, rfl, rfl, hfault⟩

/-- The parenthesis that `(x)y*(-z` never closes is the fault of the text in any other layout. -/
theorem ofText_ignores_layout_unclosed :
    let f : Fault := .hard (.unclosedParenthesis true) ⟨5, 6⟩
    ∃ h : List.Forall₂ Token.Alike (meaningful "(x)y*(-z") (meaningful "( x )\ny · ( − z"),
      ofText (α := Float) "(x)y*(-z" = .error f ∧
      ∃ g, ofText (α := Float) "( x )\ny · ( − z" = .error g ∧
        (⟨_, _, h⟩ : Layouts).SameFault f g := by
  intro f
  have h : List.Forall₂ Token.Alike (meaningful "(x)y*(-z") (meaningful "( x )\ny · ( − z") := by
    decide +kernel
  have hread : ofText (α := Float) "(x)y*(-z" = .error f := by cbv
  refine ⟨h, hread, ?_⟩
  rcases ofText_ignores_layout (α := Float) h with ⟨e, e', he, -, -⟩ | ⟨f', g, hf, hg, hfault⟩
  · rw [hread] at he
    cases he
  · rw [hread, Except.error.injEq] at hf
    rw [← hf] at hfault
    exact ⟨g, hg, hfault⟩

end Expr

end Fluxion
