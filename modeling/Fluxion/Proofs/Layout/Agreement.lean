import Fluxion.Proofs.Expr.Faults

/-!
# Readers on two layouts of a text

Two texts have the same layout but for spaces and the spelling of operators if their significant
tokens are alike, one by one. Readers are compared on both at once: from places that lie between the
same significant tokens, they come to the same, and stop at such places again. There is one rule for
each way of combining readers. What is read has to become shorter by the same number of significant
tokens, for loops are bounded by the number of all tokens, and that differs.
-/

namespace Fluxion

/-- The tokens are of one kind, and spelled in the same way if they are names, numbers, or unknown
characters. -/
structure Token.Alike (t u : Token) : Prop where
  kind_eq : t.kind = u.kind
  lexeme_eq : t.kind ∈ [.name, .int, .decimal, .unknown] → t.lexeme = u.lexeme

instance (t u : Token) : Decidable (t.Alike u) :=
  decidable_of_iff (t.kind = u.kind ∧ (t.kind ∈ [.name, .int, .decimal, .unknown] →
    t.lexeme = u.lexeme)) ⟨fun h => ⟨h.1, h.2⟩, fun h => ⟨h.kind_eq, h.lexeme_eq⟩⟩

/-- Two texts whose significant tokens are alike. -/
structure Layouts where
  one : String
  other : String
  alike : List.Forall₂ Token.Alike (Expr.meaningful one) (Expr.meaningful other)

namespace Layouts

variable (p : Layouts)

/-- Of the significant tokens of both texts, the tokens are those with the same number. -/
def Corresponds (t u : Token) : Prop :=
  ∃ n : Nat, (Expr.meaningful p.one)[n]? = some t ∧ (Expr.meaningful p.other)[n]? = some u

/-- The offsets are at the same end of corresponding tokens, or at the ends of the texts. -/
inductive SamePlace (side : Span → Nat) : Nat → Nat → Prop
  | token {t u : Token} (h : p.Corresponds t u) : SamePlace side (side t.span) (side u.span)
  | stop : SamePlace side p.one.utf8ByteSize p.other.utf8ByteSize

/-- The spans start at the same place, and stop at the same place. -/
structure SameSpan (a b : Span) : Prop where
  start : p.SamePlace Span.start a.start b.start
  stop : p.SamePlace Span.stop a.stop b.stop

/-- The faults differ only as the places of the tokens in the texts do. -/
structure SameFault (f g : Fault) : Prop where
  cause_eq : f.cause = g.cause
  fatal_eq : f.fatal = g.fatal
  spans : List.Forall₂ p.SameSpan f.spans g.spans

/-- The cursors stand between the same significant tokens. -/
structure SameCursor (c d : Cursor) : Prop where
  tokens_one : c.tokens = Token.scan p.one
  tokens_other : d.tokens = Token.scan p.other
  passed : List.Forall₂ p.Corresponds c.significant.passed d.significant.passed
  ahead : List.Forall₂ p.Corresponds c.significant.ahead d.significant.ahead

variable {p}

theorem Corresponds.alike {t u : Token} (h : p.Corresponds t u) : t.Alike u := by
  obtain ⟨n, ht, hu⟩ := h
  obtain ⟨hn, rfl⟩ := List.getElem?_eq_some_iff.1 ht
  obtain ⟨hn', rfl⟩ := List.getElem?_eq_some_iff.1 hu
  exact p.alike.get hn hn'

theorem sameCursor_ofText : p.SameCursor (.ofText p.one) (.ofText p.other) := by
  refine ⟨rfl, rfl, .nil, List.forall₂_iff_get.2 ⟨p.alike.length_eq, ?_⟩⟩
  intro n hn hn'
  exact ⟨n, List.getElem?_eq_getElem hn, List.getElem?_eq_getElem hn'⟩

/-! ## Cursors -/

namespace SameSpan

theorem of_corresponds {t u : Token} (h : p.Corresponds t u) : p.SameSpan t.span u.span :=
  ⟨.token h, .token h⟩

theorem cover {a b a' b' : Span} (h : p.SameSpan a b) (h' : p.SameSpan a' b') :
    p.SameSpan (a.cover a') (b.cover b') :=
  ⟨h.start, h'.stop⟩

end SameSpan

theorem headKind?_eq {ts us : List Token} (h : List.Forall₂ p.Corresponds ts us) :
    ts.head?.map (·.kind) = us.head?.map (·.kind) := by
  cases h with
  | nil => rfl
  | cons htu _ => exact congrArg some htu.alike.kind_eq

namespace SameCursor

variable {c d : Cursor}

/-- The tokens ahead in either text are no fewer than the significant ones. -/
theorem length_le_one (_ : p.SameCursor c d) : c.significant.ahead.length ≤ c.ahead.length :=
  List.length_filter_le _ _

variable (h : p.SameCursor c d)

include h

theorem endSpan : p.SameSpan c.endSpan d.endSpan := by
  rw [Expr.endSpan_of_scan h.tokens_one, Expr.endSpan_of_scan h.tokens_other]
  exact ⟨.stop, .stop⟩

theorem span : p.SameSpan c.span d.span := by
  have hahead := h.ahead
  cases hc : c.significant.ahead with
  | nil =>
    rw [hc, List.forall₂_nil_left_iff] at hahead
    rw [Cursor.span_of_end hc, Cursor.span_of_end hahead]
    exact h.endSpan
  | cons t rest =>
    rw [hc, List.forall₂_cons_left_iff] at hahead
    obtain ⟨u, rest', htu, -, hd⟩ := hahead
    rw [Cursor.span_of_ahead hc, Cursor.span_of_ahead hd]
    exact .of_corresponds htu

theorem length_le_other : c.significant.ahead.length ≤ d.ahead.length := by
  rw [h.ahead.length_eq]
  exact List.length_filter_le _ _

theorem nextKind?_eq : c.nextKind? = d.nextKind? := by
  rw [Cursor.nextKind?_eq, Cursor.nextKind?_eq]
  exact headKind?_eq h.ahead

theorem next?_isNone_eq : c.next?.isNone = d.next?.isNone := by
  have hkind := congrArg Option.isNone h.nextKind?_eq
  rwa [Cursor.nextKind?, Cursor.nextKind?, Option.isNone_map, Option.isNone_map] at hkind

theorem unclosed_eq : c.unclosed = d.unclosed := by
  rw [← Expr.unclosed_significant c, ← Expr.unclosed_significant d]
  unfold Cursor.unclosed
  have hpassed := h.passed
  generalize c.significant.passed = ts at hpassed ⊢
  generalize d.significant.passed = us at hpassed ⊢
  induction hpassed with
  | nil => rfl
  | cons htu _ ih =>
    rw [List.foldr_cons, List.foldr_cons, ih, Cursor.countOpen, Cursor.countOpen,
      htu.alike.kind_eq]

theorem juxtaposes_eq : c.juxtaposes = d.juxtaposes := by
  have hprevious := headKind?_eq h.passed
  rw [← Cursor.previous?_eq, ← Cursor.previous?_eq] at hprevious
  unfold Cursor.juxtaposes
  rw [h.nextKind?_eq]
  cases hc : c.previous? with
  | none =>
    rw [hc, Option.map_none, eq_comm, Option.map_eq_none_iff] at hprevious
    rw [hprevious]
  | some t =>
    rw [hc, Option.map_some, eq_comm, Option.map_eq_some_iff] at hprevious
    obtain ⟨u, hd, hkind⟩ := hprevious
    have hends : (t.kind.isNumber || t.kind == .closing) =
        (u.kind.isNumber || u.kind == .closing) := by rw [hkind]
    rw [hd]
    cases d.nextKind? with
    | none => rfl
    | some kind => cases kind <;> first | exact hends | rfl

/-- The same joins the operand before the cursor to the next one. -/
theorem joiner?_eq : c.joiner? = d.joiner? := by
  unfold Cursor.joiner?
  rw [h.nextKind?_eq, h.juxtaposes_eq]

theorem skipSpaces : p.SameCursor c.skipSpaces d.skipSpaces := by
  obtain ⟨hone, hother, hpassed, hahead⟩ := h
  rw [← Cursor.significant_skipSpaces c, ← Cursor.significant_skipSpaces d] at hpassed hahead
  exact ⟨by rw [Cursor.tokens_skipSpaces, hone], by rw [Cursor.tokens_skipSpaces, hother], hpassed,
    hahead⟩

end SameCursor

/-! ## Readers -/

/-- What two readers come to that start where the first one starts at `c`: values that `same` holds of,
between the same significant tokens, at least `taken` of them further on, or the same fault. -/
inductive SameOutcome {β : Type} (p : Layouts) (taken : Nat) (same : β → β → Prop) (c : Cursor) :
    Except Fault β × Cursor → Except Fault β × Cursor → Prop
  | ok {b b' : β} {c' d' : Cursor} (hsame : same b b') (hcursor : p.SameCursor c' d')
      (htaken : c'.significant.ahead.length + taken ≤ c.significant.ahead.length) :
      SameOutcome p taken same c (.ok b, c') (.ok b', d')
  | error {f g : Fault} (c' d' : Cursor) (h : p.SameFault f g) :
      SameOutcome p taken same c (.error f, c') (.error g, d')

/-- The readers come to the same. -/
def Agrees {β : Type} (p : Layouts) (taken : Nat) (same : β → β → Prop) (r s : Reader β)
    (c d : Cursor) : Prop :=
  SameOutcome p taken same c (r.runFrom c) (s.runFrom d)

theorem SameFault.single {cause : Cause} {fatal : Bool} {a b : Span} (h : p.SameSpan a b) :
    p.SameFault ⟨cause, [a], fatal⟩ ⟨cause, [b], fatal⟩ :=
  ⟨rfl, rfl, .cons h .nil⟩

section Rules

variable {β γ : Type} {m n : Nat} {same : β → β → Prop} {same' : γ → γ → Prop}
  {r s r' s' : Reader β} {c d : Cursor}

/-- That something is taken may be left out. -/
theorem Agrees.untaken (h : p.Agrees m same r s c d) : p.Agrees 0 same r s c d := by
  unfold Agrees at h ⊢
  generalize r.runFrom c = x, s.runFrom d = y at h ⊢
  cases h with
  | ok hb hcursor htaken => exact .ok hb hcursor (Nat.le_of_add_right_le htaken)
  | error _ _ hfault => exact .error _ _ hfault

theorem agrees_pure {b b' : β} (hsame : same b b') (h : p.SameCursor c d) :
    p.Agrees 0 same (pure b) (pure b') c d :=
  .ok hsame h (Nat.le_refl _)

/-- Both readers leave the cursor alone. -/
theorem agrees_of_unmoved {b b' : β} (hr : r.runFrom c = (.ok b, c)) (hs : s.runFrom d = (.ok b', d))
    (hsame : same b b') (h : p.SameCursor c d) : p.Agrees 0 same r s c d := by
  unfold Agrees
  rw [hr, hs]
  exact agrees_pure hsame h

theorem agrees_fail {f g : Fault} (h : p.SameFault f g) :
    p.Agrees m same (Reader.fail f) (Reader.fail g) c d :=
  .error c d h

theorem agrees_failHere (cause : Cause) (h : p.SameCursor c d) :
    p.Agrees m same (Reader.failHere cause) (Reader.failHere cause) c d :=
  .error c d (.single h.span)

theorem agrees_abortHere (cause : Cause) (h : p.SameCursor c d) :
    p.Agrees m same (Reader.abortHere cause) (Reader.abortHere cause) c d :=
  .error c d (.single h.span)

/-- What depends on the place is compared at both places. -/
theorem agrees_get_bind {f g : Cursor → Reader β} (h : p.Agrees m same (f c) (g d) c d) :
    p.Agrees m same (get >>= f) (get >>= g) c d := h

/-- One reader after another. -/
theorem Agrees.bind {r s : Reader γ} {f g : γ → Reader β} (h : p.Agrees m same' r s c d)
    (hrest : ∀ b b' c' d', same' b b' → p.SameCursor c' d' →
      c'.significant.ahead.length + m ≤ c.significant.ahead.length →
      p.Agrees n same (f b) (g b') c' d') :
    p.Agrees (m + n) same (r >>= f) (s >>= g) c d := by
  unfold Agrees at h ⊢
  rw [Reader.runFrom_bind, Reader.runFrom_bind]
  generalize r.runFrom c = x, s.runFrom d = y at h ⊢
  cases h with
  | error _ _ hfault => exact .error _ _ hfault
  | @ok b b' c' d' hb hcursor htaken =>
    have hnext := hrest b b' c' d' hb hcursor htaken
    unfold Agrees at hnext
    dsimp only
    generalize (f b).runFrom c' = x, (g b').runFrom d' = y at hnext ⊢
    cases hnext with
    | error _ _ hfault => exact .error _ _ hfault
    | ok hb hcursor htaken' => exact .ok hb hcursor (by omega)

theorem Agrees.map {r s : Reader γ} (h : p.Agrees m same' r s c d) {f g : γ → β}
    (hsame : ∀ b b', same' b b' → same (f b) (g b')) : p.Agrees m same (f <$> r) (g <$> s) c d := by
  rw [map_eq_pure_bind, map_eq_pure_bind]
  exact h.bind fun b b' c' d' hb hcursor _ => agrees_pure (hsame b b' hb) hcursor

/-- Nothing runs after a fault. -/
theorem agrees_fail_bind {f g : Fault} (k k' : γ → Reader β) (h : p.SameFault f g) :
    p.Agrees m same (Reader.fail f >>= k) (Reader.fail g >>= k') c d :=
  .error c d h

theorem Agrees.attempt (h : p.Agrees m same r s c d) :
    p.Agrees m same r.attempt s.attempt c d := by
  unfold Agrees at h ⊢
  rw [Reader.attempt, Reader.attempt, Reader.runFrom_ofFunction, Reader.runFrom_ofFunction]
  generalize r.runFrom c = x, s.runFrom d = y at h ⊢
  cases h with
  | ok hb hcursor htaken => exact .ok hb hcursor htaken
  | error _ _ hfault => exact .error _ _ hfault

theorem SameFault.harden {f g : Fault} (h : p.SameFault f g) : p.SameFault f.harden g.harden :=
  ⟨h.cause_eq, rfl, h.spans⟩

theorem Agrees.hardened (h : p.Agrees m same r s c d) :
    p.Agrees m same r.hardened s.hardened c d := by
  unfold Agrees at h ⊢
  rw [Reader.hardened, Reader.hardened, Reader.runFrom_ofFunction, Reader.runFrom_ofFunction]
  generalize r.runFrom c = x, s.runFrom d = y at h ⊢
  cases h with
  | ok hb hcursor htaken => exact .ok hb hcursor htaken
  | error _ _ hfault => exact .error _ _ hfault.harden

theorem Agrees.optional (h : p.Agrees m same r s c d) (hcursor : p.SameCursor c d) :
    p.Agrees 0 (Option.Rel same) r.optional s.optional c d := by
  unfold Agrees at h ⊢
  simp only [Reader.optional, Reader.attempt, Reader.runFrom_ofFunction]
  generalize r.runFrom c = x, s.runFrom d = y at h ⊢
  cases h with
  | ok hb hcursor' htaken => exact .ok (.some hb) hcursor' (by omega)
  | error _ _ _ => exact .ok .none hcursor (Nat.le_refl _)

/-- The second reader starts from the same place as the first. -/
theorem Agrees.orElse (h : p.Agrees m same r s c d) (h' : p.Agrees m same r' s' c d) :
    p.Agrees m same (r.orElse r') (s.orElse s') c d := by
  unfold Agrees at h ⊢
  simp only [Reader.orElse, Reader.attempt, Reader.runFrom_ofFunction]
  generalize r.runFrom c = x, s.runFrom d = y at h ⊢
  cases h with
  | ok hb hcursor htaken => exact .ok hb hcursor htaken
  | @error f g _ _ hfault =>
    dsimp only
    rw [← hfault.fatal_eq]
    cases f.fatal with
    | true => exact .error _ _ hfault
    | false => exact h'

/-! ## Tokens -/

theorem runFrom_next_of_cons {t : Token} {rest : List Token} (h : c.skipSpaces.ahead = t :: rest) :
    Reader.next.runFrom c = (.ok t, ⟨t :: c.skipSpaces.passed, rest⟩) := by
  rw [Reader.next, Reader.runFrom_bind, Reader.runFrom_skipSpaces]
  dsimp only
  rw [Reader.runFrom_bind, Reader.runFrom_get]
  dsimp only
  rw [h]
  rfl

theorem runFrom_next_of_nil (h : c.skipSpaces.ahead = []) :
    Reader.next.runFrom c = (.error (.soft .unexpectedEnd c.skipSpaces.span), c.skipSpaces) := by
  rw [Reader.next, Reader.runFrom_bind, Reader.runFrom_skipSpaces]
  dsimp only
  rw [Reader.runFrom_bind, Reader.runFrom_get]
  dsimp only
  rw [h]
  rfl

theorem tokens_of_next {t : Token} {rest : List Token} (h : c.skipSpaces.ahead = t :: rest) :
    Cursor.tokens ⟨t :: c.skipSpaces.passed, rest⟩ = c.tokens := by
  rw [← Cursor.tokens_skipSpaces c, Cursor.tokens, Cursor.tokens, h]
  simp

theorem SameCursor.skipSpaces_cases (h : p.SameCursor c d) :
    (∃ t rest u rest', c.skipSpaces.ahead = t :: rest ∧ d.skipSpaces.ahead = u :: rest' ∧
      (p.Corresponds t u ∧ c.nextKind? = some t.kind) ∧
      p.SameCursor ⟨t :: c.skipSpaces.passed, rest⟩ ⟨u :: d.skipSpaces.passed, rest'⟩ ∧
      (Cursor.significant ⟨t :: c.skipSpaces.passed, rest⟩).ahead.length + 1 =
        c.significant.ahead.length) ∨
    (c.skipSpaces.ahead = [] ∧ d.skipSpaces.ahead = []) := by
  have hahead := h.ahead
  rcases c.skipSpaces_cases with ⟨t, rest, hc, -, hcons, hplace⟩ | ⟨hc, hnil⟩ <;>
    rcases d.skipSpaces_cases with ⟨u, rest', hd, -, hcons', hplace'⟩ | ⟨hd, hnil'⟩
  · rw [hcons, hcons', List.forall₂_cons] at hahead
    have hnext : c.nextKind? = some t.kind := by rw [Cursor.nextKind?_eq, hcons]; rfl
    refine .inl ⟨t, rest, u, rest', hc, hd, ⟨hahead.1, hnext⟩, ⟨?_, ?_, ?_, hahead.2⟩, ?_⟩
    · rw [tokens_of_next hc, h.tokens_one]
    · rw [tokens_of_next hd, h.tokens_other]
    · rw [hplace, hplace']
      exact .cons hahead.1 h.passed
    · rw [hcons, List.length_cons]
  · rw [hcons, hnil'] at hahead
    cases hahead
  · rw [hnil, hcons'] at hahead
    cases hahead
  · exact .inr ⟨hc, hd⟩

/-- Both texts go on with corresponding tokens, or both end. -/
theorem agrees_next (h : p.SameCursor c d) :
    p.Agrees 1 (fun t u => p.Corresponds t u ∧ c.nextKind? = some t.kind) Reader.next Reader.next
      c d := by
  unfold Agrees
  rcases h.skipSpaces_cases with ⟨t, rest, u, rest', hc, hd, htu, hcursor, htaken⟩ | ⟨hc, hd⟩
  · rw [runFrom_next_of_cons hc, runFrom_next_of_cons hd]
    exact .ok htu hcursor (Nat.le_of_eq htaken)
  · rw [runFrom_next_of_nil hc, runFrom_next_of_nil hd]
    exact .error _ _ (.single h.skipSpaces.span)

theorem agrees_accepting {accept : Token → Option β} (expected : List TokenKind)
    (haccept : ∀ t u, p.Corresponds t u → Option.Rel same (accept t) (accept u))
    (h : p.SameCursor c d) :
    p.Agrees 1 same (Reader.accepting expected accept) (Reader.accepting expected accept) c d := by
  refine (agrees_next h).bind (n := 0) fun t u c' d' ⟨htu, _⟩ hcursor _ => ?_
  have haccept := haccept t u htu
  generalize accept t = a, accept u = b at haccept ⊢
  cases haccept with
  | some hb => exact agrees_pure hb hcursor
  | none =>
    rw [htu.alike.kind_eq]
    exact agrees_fail (.single (.of_corresponds htu))

theorem agrees_token (kind : TokenKind) (h : p.SameCursor c d) :
    p.Agrees 1 (fun t u => p.Corresponds t u ∧ t.kind = kind) (Reader.token kind)
      (Reader.token kind) c d := by
  refine agrees_accepting [kind] (fun t u htu => ?_) h
  rw [← htu.alike.kind_eq]
  split
  · next hkind => exact .some ⟨htu, hkind⟩
  · exact .none

theorem agrees_skipSpaces_bind {f g : Unit → Reader β}
    (h : p.Agrees m same (f ()) (g ()) c.skipSpaces d.skipSpaces) :
    p.Agrees m same (Reader.skipSpaces >>= f) (Reader.skipSpaces >>= g) c d := by
  unfold Agrees at h ⊢
  rw [Reader.runFrom_bind, Reader.runFrom_bind, Reader.runFrom_skipSpaces, Reader.runFrom_skipSpaces]
  dsimp only
  generalize (f ()).runFrom c.skipSpaces = x, (g ()).runFrom d.skipSpaces = y at h ⊢
  cases h with
  | ok hb hcursor htaken =>
    rw [Cursor.significant_skipSpaces] at htaken
    exact .ok hb hcursor htaken
  | error _ _ hfault => exact .error _ _ hfault

/-- All is read of both texts, or something is left of both. -/
theorem Agrees.whole (h : p.Agrees m same r s c d) (hcursor : p.SameCursor c d) :
    p.Agrees m same r.whole s.whole c d := by
  unfold Reader.whole
  refine agrees_get_bind ?_
  rw [hcursor.next?_isNone_eq]
  split
  · refine agrees_get_bind ?_
    exact agrees_fail_bind _ _ (.single hcursor.endSpan)
  · refine h.bind (n := 0) fun b b' c' d' hb hcursor' _ => ?_
    refine agrees_skipSpaces_bind (agrees_get_bind ?_)
    rcases hcursor'.skipSpaces_cases with ⟨t, rest, u, rest', hc, hd, ⟨htu, -⟩, -, -⟩ | ⟨hc, hd⟩
    · simp only [Cursor.current?, hc, hd, List.head?_cons]
      rw [htu.alike.kind_eq]
      have hspan := SameSpan.of_corresponds htu
      split
      · exact agrees_fail (.single hspan)
      · next hunknown =>
        rw [htu.alike.lexeme_eq (by simp [htu.alike.kind_eq, hunknown])]
        exact agrees_fail (.single hspan)
      · exact agrees_fail (.single (hspan.cover hcursor'.skipSpaces.endSpan))
    · simp only [Cursor.current?, hc, hd, List.head?_nil]
      exact agrees_pure hb hcursor'.skipSpaces

end Rules

end Layouts

end Fluxion
