import Fluxion.Proofs.Nesting.Counted

/-!
# Counting changes nothing

A parser that counts its levels reads what a reader reads to which as many levels are left as can be
counted on. Whatever comes of it, the counter is in the end what it was in the beginning and was never
too high, the tokens are the same, and the cursor has not moved backwards.
-/

namespace Fluxion

/-- The second cursor is at another place among the same tokens, and not before the first one. -/
structure Cursor.Leads (c c' : Cursor) : Prop where
  tokens_eq : c'.tokens = c.tokens
  index_le : c.index ≤ c'.index

namespace Cursor.Leads

theorem refl (c : Cursor) : c.Leads c := ⟨rfl, Nat.le_refl _⟩

theorem trans {a b c : Cursor} (hab : a.Leads b) (hbc : b.Leads c) : a.Leads c :=
  ⟨hbc.tokens_eq.trans hab.tokens_eq, Nat.le_trans hab.index_le hbc.index_le⟩

/-- No cursor is past the end of its tokens. -/
theorem index_le_length (c : Cursor) : c.index ≤ c.tokens.length := by
  simp [Cursor.index, Cursor.tokens]

theorem afterSpaces (passed ahead : List Token) :
    Leads ⟨passed, ahead⟩ (Cursor.afterSpaces passed ahead) := by
  induction ahead generalizing passed with
  | nil => exact refl _
  | cons t rest ih =>
    rw [Cursor.afterSpaces]
    split
    · refine trans ⟨?_, Nat.le_succ _⟩ (ih (t :: passed))
      simp [Cursor.tokens]
    · exact refl _

theorem skipSpaces (c : Cursor) : c.Leads c.skipSpaces := afterSpaces c.passed c.ahead

end Cursor.Leads

namespace Reader

variable {β γ : Type}

/-- The reader only moves forward, even if it fails. -/
def Advances (r : Reader β) : Prop := ∀ c : Cursor, c.Leads (r.runFrom c).2

namespace Advances

variable {r s : Reader β}

theorem pure (b : β) : Advances (Pure.pure b) := fun c => .refl c

theorem fail (f : Fault) : Advances (Reader.fail f : Reader β) := fun c => .refl c

theorem get : Advances (MonadState.get : Reader Cursor) := fun c => .refl c

theorem skipSpaces : Advances Reader.skipSpaces := fun c => .skipSpaces c

theorem bind {r : Reader γ} {f : γ → Reader β} (hr : r.Advances) (hf : ∀ b, (f b).Advances) :
    (r >>= f).Advances := by
  intro c
  have hfirst := hr c
  rw [runFrom_bind]
  split
  · next b c' hrun =>
    rw [hrun] at hfirst
    exact hfirst.trans (hf b c')
  · next hrun =>
    rw [hrun] at hfirst
    exact hfirst

theorem failHere (cause : Cause) : (Reader.failHere cause : Reader β).Advances :=
  get.bind fun _ => fail _

theorem abortHere (cause : Cause) : (Reader.abortHere cause : Reader β).Advances :=
  get.bind fun _ => fail _

theorem attempt (h : r.Advances) : r.attempt.Advances := by
  intro c
  have hc := h c
  rw [Reader.attempt, runFrom_ofFunction]
  split
  · next hrun =>
    rw [hrun] at hc
    exact hc
  · exact .refl c

theorem orElse (hr : r.Advances) (hs : s.Advances) : (r.orElse s).Advances := by
  intro c
  have hc := hr.attempt c
  rw [Reader.orElse, runFrom_ofFunction]
  split
  · next hrun =>
    rw [hrun] at hc
    split
    · exact hc
    · exact hc.trans (hs _)
  · exact hc

theorem next : Reader.next.Advances := by
  refine skipSpaces.bind fun _ => ?_
  intro c
  rw [runFrom_bind, runFrom_get]
  dsimp only
  split
  · next t rest hahead =>
    refine ⟨?_, Nat.le_succ _⟩
    show Cursor.tokens ⟨t :: c.passed, rest⟩ = c.tokens
    simp [Cursor.tokens, hahead]
  · exact failHere _ c

theorem accepting (expected : List TokenKind) (accept : Token → Option β) :
    (Reader.accepting expected accept).Advances := by
  refine next.bind fun t => ?_
  split
  · exact pure _
  · exact fail _

theorem token (kind : TokenKind) : (Reader.token kind).Advances := accepting _ _

end Advances

end Reader

namespace Expr

open Reader (Advances)

variable {α : Type} [Scalar α] [Numeral α]

theorem advances_readNumber : (readNumber : Reader (Expr α)).Advances := by
  refine (Advances.accepting _ _).bind fun t => ?_
  dsimp only
  split
  · exact .pure _
  · exact .fail _

omit [Scalar α] [Numeral α] in
theorem advances_readSymbol : (readSymbol : Reader (Expr α)).Advances :=
  (Advances.token _).bind fun _ => .pure _

theorem advances_readLiteral : (readLiteral : Reader (Expr α)).Advances :=
  advances_readNumber.orElse advances_readSymbol.attempt

theorem advances_checkOperand : checkOperand.Advances := by
  refine Advances.get.bind fun c => ?_
  split
  · exact .failHere _
  · split
    · exact .pure _
    · split
      · exact .abortHere _
      · split
        · exact Advances.next.bind fun _ => .fail _
        · exact .abortHere _

end Expr

namespace Counted

variable {β γ : Type} {depth : Nat}

/-- At a depth, the parser comes to the same as the reader: the same value or fault, at the same
place. It is back at its depth then, has never been too deep, and has only moved forward. -/
def Tracks (depth : Nat) (m : Counted β) (r : Reader β) : Prop :=
  ∀ (c : Cursor) (n : Nat), n ≤ maxNesting →
    ∃ result c' n', r.runFrom c = (result, c') ∧ m ⟨⟨c, depth⟩, n⟩ = (result, ⟨⟨c', depth⟩, n'⟩) ∧
      n' ≤ maxNesting ∧ c.Leads c'

namespace Tracks

variable {m m' : Counted β} {r r' : Reader β}

theorem pure (b : β) : Tracks depth (Pure.pure b) (Pure.pure b) :=
  fun c n hn => ⟨.ok b, c, n, rfl, rfl, hn, .refl c⟩

theorem lift (h : r.Advances) : Tracks depth (Counted.lift r) r :=
  fun c n hn => ⟨_, _, n, rfl, rfl, hn, h c⟩

theorem here : Tracks depth here get := .lift .get

/-- Nothing runs after a fault. -/
theorem fail_bind (f : Fault) (k : γ → Counted β) (k' : γ → Reader β) :
    Tracks depth (Counted.lift (Reader.fail f) >>= k) (Reader.fail f >>= k') :=
  fun c n hn => ⟨.error f, c, n, rfl, rfl, hn, .refl c⟩

theorem bind {m : Counted γ} {r : Reader γ} {f : γ → Counted β} {g : γ → Reader β}
    (h : Tracks depth m r) (h' : ∀ b, Tracks depth (f b) (g b)) :
    Tracks depth (m >>= f) (r >>= g) := by
  intro c n hn
  obtain ⟨result, c', n', hr, hm, hn', hleads⟩ := h c n hn
  rw [Reader.runFrom_bind, hr]
  cases result with
  | error e => exact ⟨_, c', n', rfl, bind_of_error hm f, hn', hleads⟩
  | ok b =>
    obtain ⟨result, c'', n'', hr', hm', hn'', hleads'⟩ := h' b c' n' hn'
    exact ⟨result, c'', n'', hr', (bind_of_ok hm f).trans hm', hn'', hleads.trans hleads'⟩

theorem map (h : Tracks depth m r) (f : β → γ) : Tracks depth (f <$> m) (f <$> r) := by
  have hmap : (f <$> m : Counted γ) = m >>= fun b => Pure.pure (f b) := rfl
  rw [hmap, map_eq_pure_bind]
  exact h.bind fun b => pure (f b)

theorem attempt (h : Tracks depth m r) : Tracks depth m.attempt r.attempt := by
  intro c n hn
  obtain ⟨result, c', n', hr, hm, hn', hleads⟩ := h c n hn
  rw [Counted.attempt, hm]
  cases result with
  | error e => exact ⟨_, c, n', Reader.runFrom_attempt_of_error hr, rfl, hn', .refl c⟩
  | ok b => exact ⟨_, c', n', Reader.runFrom_attempt_of_ok hr, rfl, hn', hleads⟩

theorem peek (h : Tracks depth m r) : Tracks depth m.peek r.peek := by
  intro c n hn
  obtain ⟨result, c', n', hr, hm, hn', hleads⟩ := h c n hn
  rw [Counted.peek, hm, Reader.runFrom_peek, hr]
  exact ⟨_, c, n', rfl, rfl, hn', .refl c⟩

theorem optional (h : Tracks depth m r) : Tracks depth m.optional r.optional := by
  intro c n hn
  obtain ⟨result, c', n', hr, hm, hn', hleads⟩ := h.attempt c n hn
  rw [Counted.optional, Reader.optional, Reader.runFrom_ofFunction, hr, hm]
  cases result with
  | error e => exact ⟨_, c', n', rfl, rfl, hn', hleads⟩
  | ok b => exact ⟨_, c', n', rfl, rfl, hn', hleads⟩

theorem hardened (h : Tracks depth m r) : Tracks depth m.hardened r.hardened := by
  intro c n hn
  obtain ⟨result, c', n', hr, hm, hn', hleads⟩ := h c n hn
  rw [Counted.hardened, Reader.hardened, Reader.runFrom_ofFunction, hr, hm]
  cases result with
  | error e => exact ⟨_, c', n', rfl, rfl, hn', hleads⟩
  | ok b => exact ⟨_, c', n', rfl, rfl, hn', hleads⟩

theorem orElse (h : Tracks depth m r) (h' : Tracks depth m' r') :
    Tracks depth (m.orElse m') (r.orElse r') := by
  intro c n hn
  obtain ⟨result, c', n', hr, hm, hn', hleads⟩ := h.attempt c n hn
  rw [Counted.orElse, Reader.orElse, Reader.runFrom_ofFunction, hr, hm]
  cases result with
  | ok b => exact ⟨_, c', n', rfl, rfl, hn', hleads⟩
  | error e =>
    cases hfatal : e.fatal with
    | true => exact ⟨_, c', n', if_pos hfatal, if_pos hfatal, hn', hleads⟩
    | false =>
      obtain ⟨result, c'', n'', hr', hm', hn'', hleads'⟩ := h' c' n' hn'
      refine ⟨result, c'', n'', ?_, ?_, hn'', hleads.trans hleads'⟩
      · simpa [hfatal] using hr'
      · simpa [hfatal] using hm'

/-- Where a level is left to the reader, the counter can be raised, and it is lowered again. -/
theorem nested {α : Type} [Scalar α] [Numeral α] {m : Counted β} {read : Expr.Inner α → Reader β}
    {room : Nat} (hroom : depth + room = maxNesting)
    (h : ∀ room', room = room' + 1 →
      Tracks (depth + 1) m (read (.within (Expr.Inner.ofRoom room')))) :
    Tracks depth m.nested (Expr.nested (Expr.Inner.ofRoom room) read) := by
  intro c n hn
  cases room with
  | zero =>
    have hfull : maxNesting ≤ depth := Nat.le_of_eq hroom.symm
    rw [Counted.nested, if_pos hfull]
    exact lift (.abortHere _) c n hn
  | succ room =>
    have hleft : ¬ maxNesting ≤ depth := by omega
    obtain ⟨result, c', n', hr, hm, hn', hleads⟩ :=
      h room rfl c (max n (depth + 1)) (Nat.max_le.2 ⟨hn, by omega⟩)
    refine ⟨result, c', n', hr, ?_, hn', hleads⟩
    rw [Counted.nested, if_neg hleft, hm]
    rfl

theorem whole (h : Tracks depth m r) : Tracks depth m.whole r.whole := by
  refine here.bind fun c => ?_
  split
  · exact here.bind fun c' => fail_bind _ _ _
  · refine h.bind fun b => (lift .skipSpaces).bind fun _ => here.bind fun c' => ?_
    cases c'.current? with
    | none => exact pure b
    | some t =>
      dsimp only
      cases t.kind <;> exact lift (.fail _)

end Tracks

/-! ## Expressions -/

variable {α : Type} [Scalar α] [Numeral α]

omit [Scalar α] [Numeral α] in
theorem tracks_readDelimited {read : Counted (Expr α)} {read' : Reader (Expr α)}
    (h : Tracks depth read read') (opening : Token) :
    Tracks depth (readDelimited read opening) (Expr.readDelimited read' opening) := by
  refine Tracks.here.bind fun c => ?_
  split
  · exact Tracks.here.bind fun _ => .fail_bind _ _ _
  · refine h.attempt.hardened.bind fun e => Tracks.here.bind fun c' => ?_
    cases c'.nextKind? with
    | none => exact .lift (.fail _)
    | some kind =>
      cases kind with
      | closing => exact (Tracks.lift (.token _)).attempt.bind fun _ => .pure _
      | _ => exact .lift (.abortHere _)

/-- All that is read at a level is the same. -/
structure Inner.Tracks (depth : Nat) (inner : Inner α) (level : Expr.Inner α) : Prop where
  expr : Counted.Tracks depth inner.expr level.expr
  signed : Counted.Tracks depth inner.signed level.signed
  climb (e : Expr α) (least : Precedence) :
    Counted.Tracks depth (inner.climb e least) (level.climb e least)

section Level

variable {inner : Inner α} {room : Nat} (hroom : depth + room = maxNesting)
  (hinner : ∀ room', room = room' + 1 →
    inner.Tracks (depth + 1) (.within (Expr.Inner.ofRoom room')))

include hroom hinner

theorem tracks_readExpr :
    Tracks depth (readExpr inner) (Expr.readExpr (Expr.Inner.ofRoom room)) := by
  refine .nested hroom fun room' h => ?_
  exact (hinner room' h).signed.bind fun first => (hinner room' h).climb first .any

theorem tracks_readParen :
    Tracks depth (readParen inner) (Expr.readParen (Expr.Inner.ofRoom room)) := by
  refine (Tracks.lift (.token _)).attempt.bind fun opening => ?_
  exact (tracks_readDelimited (tracks_readExpr hroom hinner) opening).bind fun _ => .pure _

theorem tracks_readCall :
    Tracks depth (readCall inner) (Expr.readCall (Expr.Inner.ofRoom room)) := by
  refine (Tracks.lift (.token _)).attempt.bind fun name => ?_
  refine (Tracks.lift (.token _)).optional.bind fun opening? => ?_
  cases Func.ofName? name.lexeme with
  | none => cases opening? <;> exact .lift (.fail _)
  | some func =>
    cases opening? with
    | none => exact .lift (.fail _)
    | some opening =>
      refine Tracks.bind (.nested hroom fun room' h => ?_) fun _ => .pure _
      exact tracks_readDelimited (hinner room' h).expr opening

theorem tracks_readOperand :
    Tracks depth (readOperand inner) (Expr.readOperand (Expr.Inner.ofRoom room)) := by
  refine (Tracks.lift Expr.advances_checkOperand).bind fun _ => ?_
  exact (tracks_readCall hroom hinner).orElse
    ((Tracks.lift Expr.advances_readLiteral).orElse (tracks_readParen hroom hinner).attempt)

theorem tracks_readNegation :
    Tracks depth (readNegation inner) (Expr.readNegation (Expr.Inner.ofRoom room)) := by
  refine .nested hroom fun room' h => (Tracks.lift (.accepting _ _)).attempt.bind fun sign => ?_
  refine (hinner room' h).signed.bind fun first => ?_
  exact ((hinner room' h).climb first UnaryOp.negate.precedence).bind fun _ => .pure _

theorem tracks_readSigned :
    Tracks depth (readSigned inner) (Expr.readSigned (Expr.Inner.ofRoom room)) := by
  refine Tracks.here.bind fun c => ?_
  split
  · exact (tracks_readNegation hroom hinner).attempt
  · exact (tracks_readOperand hroom hinner).attempt

theorem tracks_raise (outer : Precedence) (bound : List Token) (e : Expr α) :
    Tracks depth (raise inner outer bound e) (Expr.raise (Expr.Inner.ofRoom room) outer bound e) := by
  induction bound generalizing e with
  | nil => exact .pure e
  | cons t bound ih =>
    refine Tracks.here.bind fun c => ?_
    cases c.joiner? with
    | none => exact .pure e
    | some joiner =>
      dsimp only
      split
      · refine Tracks.bind (.nested hroom fun room' h => ?_) fun extended => ih extended
        exact (hinner room' h).climb e joiner.precedence
      · exact .pure e

theorem tracks_climbAlong (least : Precedence) (bound : List Token) (e : Expr α) :
    Tracks depth (climbAlong inner least bound e)
      (Expr.climbAlong (Expr.Inner.ofRoom room) least bound e) := by
  induction bound generalizing e with
  | nil => exact .pure e
  | cons t bound ih =>
    have hright : ∀ (joiner : Joiner) (written : Span), Tracks depth
        (do
          let operand ← readSigned inner
          let right ← raise inner joiner.precedence (← here).ahead operand
          climbAlong inner least bound (Expr.join joiner written e right))
        (do
          let operand ← Expr.readSigned (Expr.Inner.ofRoom room)
          let right ← Expr.raise (Expr.Inner.ofRoom room) joiner.precedence (← get).ahead operand
          Expr.climbAlong (Expr.Inner.ofRoom room) least bound (Expr.join joiner written e right)) :=
      fun joiner written => (tracks_readSigned hroom hinner).bind fun operand =>
        Tracks.here.bind fun c =>
          (tracks_raise hroom hinner joiner.precedence c.ahead operand).bind fun right => ih _
    refine Tracks.here.bind fun c => ?_
    cases c.joiner? with
    | none => exact .pure e
    | some joiner =>
      dsimp only
      split
      · exact .pure e
      · cases joiner with
        | written op =>
          exact ((Tracks.lift (.accepting _ _)).attempt.map _).bind fun written => hright _ written
        | juxtaposed => exact (Tracks.pure _).bind fun written => hright _ written

theorem tracks_climb (e : Expr α) (least : Precedence) :
    Tracks depth (climb inner e least) (Expr.climb (Expr.Inner.ofRoom room) e least) :=
  Tracks.here.bind fun c => tracks_climbAlong hroom hinner least c.ahead e

theorem Inner.tracks_within :
    (Inner.within inner).Tracks depth (.within (Expr.Inner.ofRoom room)) where
  expr := tracks_readExpr hroom hinner
  signed := tracks_readSigned hroom hinner
  climb := tracks_climb hroom hinner

end Level

/-- The stack of levels is as high as it has to be. -/
theorem Inner.tracks_ofHeight {room : Nat} (hroom : depth + room = maxNesting) :
    ∀ room', room = room' + 1 →
      (Inner.ofHeight (α := α) room).Tracks (depth + 1) (.within (Expr.Inner.ofRoom room')) := by
  induction room generalizing depth with
  | zero =>
    intro room' h
    cases h
  | succ room ih =>
    intro room' h
    cases h
    exact Inner.tracks_within (by omega) (ih (by omega))

end Counted

end Fluxion
