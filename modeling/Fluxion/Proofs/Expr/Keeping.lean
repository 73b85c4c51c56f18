import Fluxion.Expr.Reading
import Fluxion.Proofs.Reader.Outcome

/-!
# Readers keep the tokens

A reader that gives a value only moves the cursor: the tokens around it, spaces included, stay what
they are. Where a reader fails the cursor does not matter, for every attempt puts it back.
-/

namespace Fluxion

namespace Reader

variable {β γ : Type}

/-- Whenever the reader gives a value, the tokens around the cursor are the same as before. -/
def Keeps (r : Reader β) : Prop :=
  ∀ c : Cursor, r.Ends c (fun _ c' => c'.tokens = c.tokens) (fun _ => True)

/-- Two facts about one outcome hold together. -/
theorem Ends.and {r : Reader β} {c : Cursor} {ok ok' : β → Cursor → Prop} {err err' : Fault → Prop}
    (h : r.Ends c ok err) (h' : r.Ends c ok' err') :
    r.Ends c (fun b m => ok b m ∧ ok' b m) (fun f => err f ∧ err' f) := by
  unfold Ends at h h' ⊢
  split
  · next hrun =>
    rw [hrun] at h h'
    exact ⟨h, h'⟩
  · next hrun =>
    rw [hrun] at h h'
    exact ⟨h, h'⟩

namespace Keeps

variable {r s : Reader β}

theorem pure (b : β) : Keeps (Pure.pure b) := fun _ => rfl

theorem fail (f : Fault) : Keeps (Reader.fail f : Reader β) := fun _ => trivial

theorem get : Keeps (MonadState.get : Reader Cursor) := fun _ => rfl

theorem bind {f : γ → Reader β} {r : Reader γ} (hr : r.Keeps) (hf : ∀ b, (f b).Keeps) :
    (r >>= f).Keeps := by
  intro c
  rw [ends_bind]
  refine (hr c).mono ?_ (fun _ _ => trivial)
  intro b m hm
  rw [← hm]
  exact hf b m

theorem map {r : Reader γ} (hr : r.Keeps) (f : γ → β) : (f <$> r).Keeps := by
  intro c
  rw [ends_map]
  exact hr c

theorem failHere (cause : Cause) : (Reader.failHere cause : Reader β).Keeps :=
  get.bind fun _ => fail _

theorem abortHere (cause : Cause) : (Reader.abortHere cause : Reader β).Keeps :=
  get.bind fun _ => fail _

theorem attempt (h : r.Keeps) : r.attempt.Keeps := by
  intro c
  rw [ends_attempt]
  exact h c

theorem hardened (h : r.Keeps) : r.hardened.Keeps := by
  intro c
  rw [ends_hardened]
  exact h c

theorem optional (h : r.Keeps) : r.optional.Keeps := by
  intro c
  rw [ends_optional]
  exact (h c).mono (fun _ _ hm => hm) (fun _ _ => rfl)

theorem orElse (hr : r.Keeps) (hs : s.Keeps) : (r.orElse s).Keeps := by
  intro c
  rw [ends_orElse]
  refine (hr c).mono (fun _ _ hm => hm) ?_
  intro f _
  split
  · trivial
  · exact hs c

theorem next : Reader.next.Keeps := by
  intro c
  rw [Reader.next, ends_bind, ends_skipSpaces, ends_bind, ends_get]
  have htokens := c.tokens_skipSpaces
  split
  · next t rest hahead =>
    simp only [ends_bind, ends_set, ends_pure]
    rw [← htokens, Cursor.tokens, Cursor.tokens, hahead]
    simp
  · trivial

theorem accepting (expected : List TokenKind) (accept : Token → Option β) :
    (Reader.accepting expected accept).Keeps := by
  refine next.bind fun t => ?_
  split
  · exact pure _
  · exact fail _

theorem token (kind : TokenKind) : (Reader.token kind).Keeps := accepting _ _

end Keeps

end Reader

namespace Expr

open Reader (Keeps)

variable {α : Type} [Scalar α] [Numeral α]

theorem keeps_readNumber : (readNumber : Reader (Expr α)).Keeps := by
  refine (Keeps.accepting _ _).bind fun t => ?_
  dsimp only
  split
  · exact .pure _
  · exact .fail _

omit [Scalar α] [Numeral α] in
theorem keeps_readSymbol : (readSymbol : Reader (Expr α)).Keeps :=
  (Keeps.token _).bind fun _ => .pure _

theorem keeps_readLiteral : (readLiteral : Reader (Expr α)).Keeps :=
  keeps_readNumber.orElse keeps_readSymbol.attempt

theorem keeps_checkOperand : checkOperand.Keeps := by
  refine Keeps.get.bind fun c => ?_
  split
  · exact .failHere _
  · split
    · exact .pure _
    · split
      · exact .abortHere _
      · split
        · exact Keeps.next.bind fun _ => .fail _
        · exact .abortHere _

/-- What is read one level further in keeps the tokens. -/
structure Inner.Keeps (level : Inner α) : Prop where
  expr : level.expr.Keeps
  signed : level.signed.Keeps
  climb (e : Expr α) (least : Precedence) : (level.climb e least).Keeps

omit [Scalar α] [Numeral α] in
theorem keeps_nested {β : Type} {inner : Option (Inner α)} {read : Inner α → Reader β}
    (hinner : ∀ level ∈ inner, level.Keeps) (hread : ∀ level : Inner α, level.Keeps → (read level).Keeps) :
    (nested inner read).Keeps := by
  cases inner with
  | none => exact .abortHere _
  | some level => exact hread level (hinner level rfl)

omit [Scalar α] [Numeral α] in
theorem keeps_readDelimited {read : Reader (Expr α)} (h : read.Keeps) (opening : Token) :
    (readDelimited read opening).Keeps := by
  refine Keeps.get.bind fun c => ?_
  split
  · exact Keeps.get.bind fun _ => .fail _
  · refine h.attempt.hardened.bind fun e => Keeps.get.bind fun m => ?_
    split
    · exact (Keeps.token _).attempt.bind fun _ => .pure _
    · exact .fail _
    · exact .abortHere _

section Level

variable {inner : Option (Inner α)} (hinner : ∀ level ∈ inner, level.Keeps)

include hinner

omit [Scalar α] [Numeral α] in
theorem keeps_readExpr : (readExpr inner).Keeps :=
  keeps_nested hinner fun _ hlevel => hlevel.signed.bind fun _ => hlevel.climb _ _

omit [Scalar α] [Numeral α] in
theorem keeps_readParen : (readParen inner).Keeps :=
  (Keeps.token _).attempt.bind fun _ =>
    (keeps_readDelimited (keeps_readExpr hinner) _).bind fun _ => .pure _

omit [Scalar α] [Numeral α] in
theorem keeps_readCall : (readCall inner).Keeps := by
  refine (Keeps.token _).attempt.bind fun name => (Keeps.token _).optional.bind fun opening? => ?_
  split
  · exact .fail _
  · exact .fail _
  · exact .fail _
  · refine (keeps_nested hinner fun level hlevel => ?_).bind fun _ => .pure _
    exact keeps_readDelimited hlevel.expr _

theorem keeps_readOperand : (readOperand inner).Keeps :=
  keeps_checkOperand.bind fun _ => (keeps_readCall hinner).orElse
    (keeps_readLiteral.orElse (keeps_readParen hinner).attempt)

omit [Scalar α] [Numeral α] in
theorem keeps_readNegation : (readNegation inner).Keeps := by
  refine keeps_nested hinner fun level hlevel => ?_
  exact (Keeps.accepting _ _).attempt.bind fun _ => hlevel.signed.bind fun _ =>
    (hlevel.climb _ _).bind fun _ => .pure _

theorem keeps_readSigned : (readSigned inner).Keeps := by
  refine Keeps.get.bind fun c => ?_
  split
  · exact (keeps_readNegation hinner).attempt
  · exact (keeps_readOperand hinner).attempt

omit [Scalar α] [Numeral α] in
theorem keeps_raise (outer : Precedence) (bound : List Token) (e : Expr α) :
    (raise inner outer bound e).Keeps := by
  induction bound generalizing e with
  | nil => exact .pure _
  | cons t bound ih =>
    refine Keeps.get.bind fun c => ?_
    split
    · exact .pure _
    · split
      · exact (keeps_nested hinner fun _ hlevel => hlevel.climb _ _).bind fun _ => ih _
      · exact .pure _

theorem keeps_climbAlong (least : Precedence) (bound : List Token) (e : Expr α) :
    (climbAlong inner least bound e).Keeps := by
  induction bound generalizing e with
  | nil => exact .pure _
  | cons t bound ih =>
    refine Keeps.get.bind fun c => ?_
    split
    · exact .pure _
    · split
      · exact .pure _
      · have hright : ∀ (joiner : Joiner) (written : Span), (do
            let operand ← readSigned inner
            let right ← raise inner joiner.precedence (← get).ahead operand
            climbAlong inner least bound (join joiner written e right)).Keeps :=
          fun joiner written => (keeps_readSigned hinner).bind fun operand => Keeps.get.bind fun m =>
            (keeps_raise hinner _ m.ahead operand).bind fun right => ih _
        split
        · exact ((Keeps.accepting _ _).attempt.map _).bind fun written => hright _ written
        · exact (Keeps.pure _).bind fun written => hright _ written

end Level

/-- Every level keeps the tokens, for the level further in does. -/
theorem Inner.ofRoom_keeps (room : Nat) : ∀ level ∈ Inner.ofRoom (α := α) room, level.Keeps := by
  induction room with
  | zero =>
    intro level hlevel
    cases hlevel
  | succ room ih =>
    intro level hlevel
    cases hlevel
    refine ⟨keeps_readExpr ih, keeps_readSigned ih, ?_⟩
    intro e least
    exact Keeps.get.bind fun c => keeps_climbAlong ih least c.ahead e

end Expr

end Fluxion
