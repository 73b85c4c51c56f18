import Fluxion.Proofs.Expr.Levels
import Fluxion.Proofs.Expr.Soundness

/-!
# What is derived is read

Where the grammar derives a tree, the readers find it, if the levels that are left suffice for the
tree; if they do not, it is nested too deeply. A tree of one category is an operand of the next
tighter one, extended step by step by joiners of one precedence. Climbing takes all of these steps in
a single loop. Raising an operand enters one more loop of climbing for each precedence above that of
the operator before it.
-/

namespace Fluxion.Expr

variable {α : Type} [Scalar α] [Numeral α]

/-- The only fault of an expression that the grammar derives. -/
def TooDeep (f : Fault) : Prop :=
  f.cause = .nestedTooDeeply maxNesting ∧ f.fatal = true

/-- The reader gives this value from this place, and stops at that place, if there is room for it; if
there is not, it is nested too deeply. -/
def Gives {β : Type} (r : Reader β) (c : Cursor) (b : β) (m : Cursor) (fits : Prop) : Prop :=
  r.Ends c (fun b' c' => b' = b ∧ c'.significant = m ∧ fits) (fun f => TooDeep f ∧ ¬ fits)

/-- The operand between two places is read at every level from which it has as much room as it
needs. -/
def Reads (s : Cursor) (e : Expr α) (m : Cursor) : Prop :=
  e.isJoined = false ∧
    ∀ room c, c.significant = s → Gives (readSigned (Inner.ofRoom room)) c e m (e.lead ≤ room)

/-- Every joiner at the place binds less tightly than `p`. -/
def Below (p : Precedence) (m : Cursor) : Prop := ∀ j, m.Joins j → j.precedence < p

/-- A loop of climbing that is at `m` with `first`, and takes operators as loose as `p`, comes to
`s'` with `e`, if there is room for `e`. -/
def Climbs (p : Precedence) (first : Expr α) (m : Cursor) (e : Expr α) (s' : Cursor) : Prop :=
  ∀ (room : Nat) (least : Precedence) (ok : Expr α → Cursor → Prop) (err : Fault → Prop)
    (c : Cursor) (bound : List Token), ¬ p < least → c.significant = m →
    m.ahead.length ≤ bound.length → first.extent ≤ room →
    (e.extent ≤ room → ∀ c' bound', c'.significant = s' → s'.ahead.length ≤ bound'.length →
      (climbAlong (Inner.ofRoom room) least bound' e).Ends c' ok err) →
    (¬ e.extent ≤ room → ∀ f, TooDeep f → err f) →
    (climbAlong (Inner.ofRoom room) least bound first).Ends c ok err

/-- From `first` at `m` to `e` at `s'` there are no steps at all, or steps by joiners of precedence
`p`. -/
def Steps (p : Precedence) (first : Expr α) (m : Cursor) (e : Expr α) (s' : Cursor) : Prop :=
  (first = e ∧ m = s') ∨
    ((∃ j, m.Joins j ∧ j.precedence = p) ∧ s'.ahead.length < m.ahead.length ∧
      Extends first e ∧ Climbs p first m e s')

/-- Between two places an operand is read and extended in steps by powers. -/
def FoundSigned (s : Cursor) (e : Expr α) (s' : Cursor) : Prop :=
  ∃ first m, Reads s first m ∧ Steps .power first m e s'

/-- Between two places a signed operand is found and extended in steps by factors. -/
def FoundProduct (s : Cursor) (e : Expr α) (s' : Cursor) : Prop :=
  ∃ first m, FoundSigned s first m ∧ Steps .factor first m e s'

/-- How what the grammar derives is found by the readers. -/
def Found : Category → Cursor → Expr α → Cursor → Prop
  | .atom, s, e, s' => Reads s e s'
  | .power, s, e, s' | .signed, s, e, s' => FoundSigned s e s'
  | .product, s, e, s' => FoundProduct s e s'
  | .sum, s, e, s' => ∃ first m, FoundProduct s first m ∧ Steps .term first m e s'

/-! ## Joiners that end a loop -/

omit [Scalar α] [Numeral α] in
theorem below_of_joins {m : Cursor} {j : Joiner} {p : Precedence} (hj : m.Joins j)
    (hp : j.precedence < p) : Below p m := by
  intro j' hj'
  rw [hj'.unique hj]
  exact hp

theorem Below.mono {p q : Precedence} {m : Cursor} (h : Below p m) (hpq : p.rank ≤ q.rank) :
    Below q m := by
  intro j hj
  exact Nat.lt_of_lt_of_le (h j hj) hpq

/-- No joiner binds as tightly as a sign without being a power. -/
theorem Below.sign {m : Cursor} (h : Below .power m) : Below .sign m := by
  intro j hj
  have hlt := h j hj
  revert hlt
  rcases j with (op | -)
  · cases op <;> decide
  · decide

theorem Below.joiner? {p : Precedence} {c m : Cursor} {j : Joiner} (h : Below p m)
    (hc : c.significant = m) (hj : c.joiner? = some j) : j.precedence < p := by
  rw [Cursor.joiner?_eq_some_iff, hc] at hj
  exact h j hj

/-- The loop of climbing ends where no joiner binds tightly enough. -/
theorem climbAlong_stops {inner : Option (Inner α)} {least : Precedence} {bound : List Token}
    {e : Expr α} {c m : Cursor} {ok : Expr α → Cursor → Prop} {err : Fault → Prop}
    (hc : c.significant = m) (hbelow : Below least m) (hok : ok e c) :
    (climbAlong inner least bound e).Ends c ok err := by
  cases bound with
  | nil => exact hok
  | cons b bound =>
    rw [climbAlong, Reader.ends_bind, Reader.ends_get]
    cases hjoiner : c.joiner? with
    | none => exact hok
    | some j =>
      dsimp only
      rw [if_pos (hbelow.joiner? hc hjoiner)]
      exact hok

omit [Scalar α] [Numeral α] in
/-- The loop of raising ends where no joiner outranks the operator before the operand. -/
theorem raise_stops {inner : Option (Inner α)} {op : BinaryOp} {bound : List Token} {e : Expr α}
    {c : Cursor} {ok : Expr α → Cursor → Prop} {err : Fault → Prop}
    (hbelow : ∀ j, c.joiner? = some j → j.outranks op.precedence = false) (hok : ok e c) :
    (raise inner op.precedence bound e).Ends c ok err := by
  cases bound with
  | nil => exact hok
  | cons b bound =>
    rw [raise, Reader.ends_bind, Reader.ends_get]
    cases hjoiner : c.joiner? with
    | none => exact hok
    | some j =>
      dsimp only
      rw [hbelow j hjoiner]
      exact hok

/-! ## Steps -/

/-- A level is entered, unless there is no room for one. -/
theorem nested_ends {β : Type} {read : Inner α → Reader β} {c : Cursor} {ok : β → Cursor → Prop}
    {err : Fault → Prop} {room : Nat} (hnone : room = 0 → ∀ f, TooDeep f → err f)
    (hread : ∀ left, room = left + 1 → (read (.within (Inner.ofRoom left))).Ends c ok err) :
    (nested (Inner.ofRoom room) read).Ends c ok err := by
  cases room with
  | zero => exact hnone rfl _ ⟨rfl, rfl⟩
  | succ left => exact hread left rfl

namespace Steps

variable {p : Precedence} {first left e : Expr α} {m n s' : Cursor}

theorem climbs (h : Steps p first m e s') : Climbs p first m e s' := by
  rcases h with ⟨rfl, rfl⟩ | ⟨-, -, -, hclimbs⟩
  · intro room least ok err c bound _ hc hbound hfirst hrest _
    exact hrest hfirst c bound hc hbound
  · exact hclimbs

theorem lead_eq (h : Steps p first m e s') : e.lead = first.lead := by
  rcases h with ⟨rfl, -⟩ | ⟨-, -, hextends, -⟩
  · rfl
  · exact hextends.lead_eq

theorem extent_le (h : Steps p first m e s') : first.extent ≤ e.extent := by
  rcases h with ⟨rfl, -⟩ | ⟨-, -, hextends, -⟩
  · exact Nat.le_refl _
  · exact hextends.extent_le

theorem raised_le (h : Steps p first m e s') : first.raised ≤ e.raised := by
  rcases h with ⟨rfl, -⟩ | ⟨-, -, hextends, -⟩
  · exact Nat.le_refl _
  · exact hextends.raised_le

/-- Where steps of precedence `p` begin, no joiner of a higher precedence stands. -/
theorem below {q : Precedence} (h : Steps p first m e s') (hpq : p < q) (hs' : Below q s') :
    Below q m := by
  rcases h with ⟨-, rfl⟩ | ⟨⟨j, hj, rfl⟩, -, -, -⟩
  · exact hs'
  · exact below_of_joins hj hpq

/-- Steps may be followed by one more of the same precedence. -/
theorem snoc {j : Joiner} (h : Steps j.precedence first m left n) (hj : n.Joins j)
    (hlength : s'.ahead.length < n.ahead.length) (hextends : Extends left e)
    (hstep : Climbs j.precedence left n e s') : Steps j.precedence first m e s' := by
  refine .inr ?_
  rcases h with ⟨rfl, rfl⟩ | ⟨hjoins, hless, hextends', hclimbs⟩
  · exact ⟨⟨j, hj, rfl⟩, hlength, hextends, hstep⟩
  · refine ⟨hjoins, Nat.lt_trans hlength hless, hextends'.trans hextends, ?_⟩
    intro room least ok err c bound hleast hc hbound hfirst hrest herr
    refine hclimbs room least ok err c bound hleast hc hbound hfirst ?_ ?_
    · intro hleft c' bound' hc' hbound'
      exact hstep room least ok err c' bound' hleast hc' hbound' hleft hrest herr
    · intro hleft
      exact herr fun he => hleft (Nat.le_trans hextends.extent_le he)

/-- When an operand is raised, its steps are taken one level further in, if they outrank the
operator before it. -/
theorem raise {op : BinaryOp} (h : Steps p first m e s')
    (houtranks : ∀ j : Joiner, j.precedence = p → j.outranks op.precedence = true)
    (hs' : Below p s') {room : Nat} {ok : Expr α → Cursor → Prop} {err : Fault → Prop} {c : Cursor}
    {bound : List Token} (hc : c.significant = m) (hbound : m.ahead.length ≤ bound.length)
    (hfirst : first.raised ≤ room)
    (hrest : e.raised ≤ room → ∀ c' bound', c'.significant = s' →
      s'.ahead.length ≤ bound'.length →
      (Expr.raise (Inner.ofRoom room) op.precedence bound' e).Ends c' ok err)
    (herr : ¬ e.raised ≤ room → ∀ f, TooDeep f → err f) :
    (Expr.raise (Inner.ofRoom room) op.precedence bound first).Ends c ok err := by
  rcases h with ⟨rfl, rfl⟩ | ⟨⟨j, hj, hjp⟩, hless, hextends, hclimbs⟩
  · exact hrest hfirst c bound hc hbound
  · cases bound with
    | nil =>
      rw [List.length_nil] at hbound
      omega
    | cons b bound =>
      have hjoiner : c.joiner? = some j := by
        rw [Cursor.joiner?_eq_some_iff, hc]
        exact hj
      have he := raised_of_isJoined hextends.isJoined
      rw [Expr.raise, Reader.ends_bind, Reader.ends_get, hjoiner]
      dsimp only
      rw [if_pos (houtranks j hjp), Reader.ends_bind, hjp]
      refine nested_ends (fun hroom => herr (by omega)) ?_
      rintro left rfl
      refine hclimbs left p _ err c c.ahead (Nat.lt_irrefl _) hc ?_
        (extent_le_of_raised_le hfirst) ?_ (fun hdeep => herr (by omega))
      · rw [← hc]
        exact List.length_filter_le _ _
      · intro hfits c' bound' hc' hbound'
        refine climbAlong_stops hc' hs' ?_
        refine hrest (by omega) c' bound hc' ?_
        rw [List.length_cons] at hbound
        omega

end Steps

/-! ## Right operands -/

/-- After an operator, the operand between two places is read and raised at every level from which it
has as much room as it needs. -/
def ReadsRight (op : BinaryOp) (s : Cursor) (e : Expr α) (s' : Cursor) : Prop :=
  ∀ (room : Nat) (ok : Expr α → Cursor → Prop) (err : Fault → Prop) (c : Cursor),
    c.significant = s → (e.afterOperator ≤ room → ∀ c', c'.significant = s' → ok e c') →
    (¬ e.afterOperator ≤ room → ∀ f, TooDeep f → err f) →
    (readSigned (Inner.ofRoom room)).Ends c
      (fun operand m =>
        (Expr.raise (Inner.ofRoom room) op.precedence m.ahead operand).Ends m ok err)
      err

/-- A right operand that is a power ends before every joiner that binds less tightly. -/
theorem readsRight_signed {op : BinaryOp} {s s' : Cursor} {e : Expr α} (h : FoundSigned s e s')
    (hs' : Below .power s') (hop : op.precedence ≠ .term) : ReadsRight op s e s' := by
  obtain ⟨first, m, ⟨hfirst, hreads⟩, hsteps⟩ := h
  intro room ok err c hc hok herr
  have hlead := hsteps.lead_eq
  refine (hreads room c hc).mono ?_ ?_
  · rintro operand c₁ ⟨rfl, hc₁, hfits⟩
    refine hsteps.raise ?_ hs' hc₁ (by rw [← hc₁]; exact List.length_filter_le _ _)
      (raised_of_not_isJoined hfirst ▸ Nat.zero_le room) ?_ ?_
    · rintro (op' | -) hj
      · revert hj hop
        cases op' <;> cases op <;> decide
      · cases hj
    · intro hraised c' bound' hc' _
      refine raise_stops ?_ (hok (Nat.max_le.2 ⟨by omega, hraised⟩) c' hc')
      intro j hj
      have hlt := hs'.joiner? hc' hj
      revert hlt hop
      rcases j with (op' | -)
      · cases op' <;> cases op <;> decide
      · cases op <;> decide
    · intro hraised
      exact herr fun hright => hraised (Nat.max_le.1 hright).2
  · rintro f ⟨hf, hdeep⟩
    exact herr (fun hright => hdeep (hlead ▸ (Nat.max_le.1 hright).1)) f hf

/-- A right operand that is a product is raised twice: first to the powers in it. -/
theorem readsRight_product {op : BinaryOp} {s s' : Cursor} {e : Expr α} (h : FoundProduct s e s')
    (hs' : Below .factor s') (hop : op.precedence = .term) : ReadsRight op s e s' := by
  obtain ⟨head, n, ⟨first, m, ⟨hfirst, hreads⟩, hpowers⟩, hfactors⟩ := h
  intro room ok err c hc hok herr
  have hlead := hfactors.lead_eq.trans hpowers.lead_eq
  have houtranks : ∀ p, Precedence.term < p → ∀ j : Joiner, j.precedence = p →
      j.outranks op.precedence = true := by
    rintro p hp j rfl
    simp only [Joiner.outranks, hop, hp, decide_true, Bool.true_or]
  have hn : Below .power n := hfactors.below (by decide) (hs'.mono (by decide))
  refine (hreads room c hc).mono ?_ ?_
  · rintro operand c₁ ⟨rfl, hc₁, hfits⟩
    refine hpowers.raise (houtranks _ (by decide)) hn hc₁
      (by rw [← hc₁]; exact List.length_filter_le _ _)
      (raised_of_not_isJoined hfirst ▸ Nat.zero_le room) ?_ ?_
    · intro hhead c₂ bound hc₂ hbound
      refine hfactors.raise (houtranks _ (by decide)) hs' hc₂ hbound hhead ?_ ?_
      · intro hraised c' bound' hc' _
        refine raise_stops ?_ (hok (Nat.max_le.2 ⟨by omega, hraised⟩) c' hc')
        intro j hj
        have hlt := hs'.joiner? hc' hj
        rw [hop]
        revert hlt
        rcases j with (op' | -)
        · cases op' <;> decide
        · decide
      · intro hraised
        exact herr fun hright => hraised (Nat.max_le.1 hright).2
    · intro hhead
      exact herr fun hright => hhead (Nat.le_trans hfactors.raised_le (Nat.max_le.1 hright).2)
  · rintro f ⟨hf, hdeep⟩
    exact herr (fun hright => hdeep (hlead ▸ (Nat.max_le.1 hright).1)) f hf

/-- One step by a written operator. -/
theorem climbs_written {op : BinaryOp} {t : Token} {passed ahead : List Token} {left right : Expr α}
    {s' : Cursor} (hkind : BinaryOp.ofToken? t.kind = some op)
    (hright : ReadsRight op ⟨t :: passed, ahead⟩ right s')
    (hlength : s'.ahead.length ≤ ahead.length) :
    Climbs op.precedence left ⟨passed, t :: ahead⟩ (join (.written op) t.span left right) s' := by
  intro room least ok err c bound hleast hc hbound hfirst hrest herr
  cases bound with
  | nil => cases hbound
  | cons b bound =>
    have hahead : c.significant.ahead = t :: ahead := by rw [hc]
    have hjoiner : c.joiner? = some (.written op) := by
      rw [Cursor.joiner?_eq_some_iff]
      exact ⟨t, ahead, hahead, hkind⟩
    have hloose : ¬ (Joiner.written op).precedence < least := hleast
    rw [climbAlong, Reader.ends_bind, Reader.ends_get, hjoiner]
    dsimp only
    rw [if_neg hloose]
    simp only [Reader.ends_bind, Reader.ends_get, Reader.ends_map, Reader.ends_attempt]
    refine Reader.ends_accepting ?_ ?_
    · intro t' rest operator hahead' haccept c₁ hc₁
      rw [hahead] at hahead'
      cases hahead'
      rw [hkind] at haccept
      cases haccept
      rw [hc] at hc₁
      refine hright room _ err c₁ hc₁ ?_ ?_
      · intro hfits c' hc'
        refine hrest (Nat.max_le.2 ⟨hfirst, hfits⟩) c' bound hc' ?_
        simp only [List.length_cons] at hbound
        omega
      · intro hdeep
        exact herr fun hfits => hdeep (Nat.max_le.1 hfits).2
    · intro hnone
      have haccept := hnone t ahead hahead
      rw [hkind] at haccept
      cases haccept

/-- One step by a multiplication that is left out. -/
theorem climbs_juxtaposed {m s' : Cursor} {left right : Expr α} (hm : m.Joins .juxtaposed)
    (hright : ReadsRight .times m right s') (hlength : s'.ahead.length < m.ahead.length) :
    Climbs .factor left m (join .juxtaposed default left right) s' := by
  intro room least ok err c bound hleast hc hbound hfirst hrest herr
  cases bound with
  | nil =>
    rw [List.length_nil] at hbound
    omega
  | cons b bound =>
    have hjoiner : c.joiner? = some .juxtaposed := by
      rw [Cursor.joiner?_eq_some_iff, hc]
      exact hm
    have hloose : ¬ Joiner.juxtaposed.precedence < least := hleast
    rw [climbAlong, Reader.ends_bind, Reader.ends_get, hjoiner]
    dsimp only
    rw [if_neg hloose]
    simp only [Reader.ends_bind, Reader.ends_get, Reader.ends_pure]
    refine hright room _ err c hc ?_ ?_
    · intro hfits c' hc'
      refine hrest (Nat.max_le.2 ⟨hfirst, hfits⟩) c' bound hc' ?_
      rw [List.length_cons] at hbound
      omega
    · intro hdeep
      exact herr fun hfits => hdeep (Nat.max_le.1 hfits).2

/-! ## Operands -/

omit [Numeral α] [Scalar α] in
theorem orElse_gives {r r' : Reader (Expr α)} {c m : Cursor} {e : Expr α} {fits : Prop}
    (h : Gives r c e m fits) : Gives (r.orElse r') c e m fits := by
  unfold Gives
  rw [Reader.ends_orElse]
  refine h.mono (fun _ _ hok => hok) ?_
  rintro f ⟨hf, hdeep⟩
  rw [if_pos hf.2]
  exact ⟨hf, hdeep⟩

omit [Scalar α] [Numeral α] in
/-- Where no call can be meant, none is read, and there is room for another operand. -/
theorem readCall_declines (inner : Option (Inner α)) {c : Cursor} (h : NoCall c) :
    (readCall inner).Declines c := by
  unfold Reader.Declines
  rw [readCall, Reader.ends_bind, Reader.ends_attempt]
  refine Reader.ends_token ?_ (fun _ _ hsoft => hsoft)
  intro name rest hahead hkind m hm
  obtain ⟨hname, hnext⟩ := h name rest hahead hkind
  rw [Reader.ends_bind, Reader.ends_optional]
  refine Reader.ends_token ?_ ?_
  · intro opening rest' hahead' hopening
    rw [hm] at hahead'
    refine absurd hopening (hnext opening ?_)
    exact List.head?_eq_some_iff.2 ⟨rest', hahead'⟩
  · intro _ _ _
    rw [hname]
    rfl

theorem readNumber_declines {c : Cursor}
    (h : ∀ t rest, c.significant.ahead = t :: rest → t.kind.isNumber = false) :
    (readNumber : Reader (Expr α)).Declines c := by
  unfold Reader.Declines
  rw [readNumber, Reader.ends_bind]
  refine Reader.ends_accepting ?_ (fun _ _ hsoft => hsoft)
  intro t rest b hahead haccept
  rw [h t rest hahead] at haccept
  cases haccept

omit [Scalar α] [Numeral α] in
theorem readSymbol_declines {c : Cursor}
    (h : ∀ t rest, c.significant.ahead = t :: rest → t.kind ≠ .name) :
    (readSymbol : Reader (Expr α)).Declines c := by
  unfold Reader.Declines
  rw [readSymbol, Reader.ends_bind]
  exact (Reader.declines_token h).mono (fun _ _ hfalse => absurd hfalse id) (fun _ hsoft => hsoft)

/-- An operand without a sign is read as the first of a call, a number, a symbol and an expression
in parentheses that fits. -/
theorem reads_operand {s m : Cursor} {e : Expr α} {t : Token} {rest : List Token}
    (he : e.isJoined = false) (hs : s.ahead = t :: rest) (hstart : t.kind ∈ operandStart)
    (hread : ∀ room c, c.significant = s →
      Gives ((readCall (Inner.ofRoom room)).orElse
        (readLiteral.orElse (readParen (Inner.ofRoom room)).attempt)) c e m (e.lead ≤ room)) :
    Reads s e m := by
  refine ⟨he, ?_⟩
  intro room c hc
  have hkind : c.nextKind? = some t.kind := by
    rw [Cursor.nextKind?_eq, hc, hs]
    rfl
  have hminus : c.nextKind? ≠ some .minus := by
    rw [hkind]
    intro hminus
    rw [Option.some.inj hminus] at hstart
    exact absurd hstart (by decide)
  unfold Gives
  rw [readSigned, Reader.ends_bind, Reader.ends_get, if_neg hminus, Reader.ends_attempt,
    readOperand, checkOperand, Reader.ends_bind, Reader.ends_bind, Reader.ends_get, hkind]
  dsimp only
  rw [if_pos hstart]
  exact hread room c hc

theorem reads_number {passed ahead : List Token} {t : Token}
    (hkind : t.kind = .int ∨ t.kind = .decimal)
    (hfinite : Scalar.isFinite (Numeral.ofChars t.lexeme.toList : α) = true) :
    Reads ⟨passed, t :: ahead⟩ (.number (Numeral.ofChars t.lexeme.toList : α) t.span)
      ⟨t :: passed, ahead⟩ := by
  have hnumber : t.kind.isNumber = true := by rcases hkind with h | h <;> rw [h] <;> rfl
  refine reads_operand rfl rfl (by rcases hkind with h | h <;> rw [h] <;> decide) ?_
  intro room c hc
  have hcall : NoCall c := by
    intro t' rest' hahead' hname
    rw [hc] at hahead'
    cases hahead'
    rw [hname] at hnumber
    cases hnumber
  refine (readCall_declines _ hcall).orElse_ends (orElse_gives (orElse_gives ?_))
  unfold Gives
  rw [readNumber, Reader.ends_bind]
  refine Reader.ends_accepting ?_ ?_
  · intro t' rest' b hahead' haccept c' hc'
    rw [hc] at hahead' hc'
    cases hahead'
    rw [if_pos hnumber] at haccept
    cases haccept
    rw [if_pos hfinite]
    exact ⟨rfl, hc', Nat.zero_le room⟩
  · intro hnone
    have haccept := hnone t ahead (by rw [hc])
    rw [if_pos hnumber] at haccept
    cases haccept

theorem reads_symbol {passed ahead : List Token} {t : Token} (hkind : t.kind = .name)
    (hname : Func.ofName? t.lexeme = none) (hnext : ∀ u ∈ ahead.head?, u.kind ≠ .opening) :
    Reads ⟨passed, t :: ahead⟩ (.symbol t.lexeme t.span : Expr α) ⟨t :: passed, ahead⟩ := by
  refine reads_operand rfl rfl (by rw [hkind]; decide) ?_
  intro room c hc
  have hcall : NoCall c := by
    intro t' rest' hahead' _
    rw [hc] at hahead'
    cases hahead'
    exact ⟨hname, hnext⟩
  have hnumber : (readNumber : Reader (Expr α)).Declines c := by
    refine readNumber_declines ?_
    intro t' rest' hahead'
    rw [hc] at hahead'
    cases hahead'
    rw [hkind]
    rfl
  refine (readCall_declines _ hcall).orElse_ends (orElse_gives (hnumber.orElse_ends ?_))
  rw [Reader.ends_attempt, readSymbol, Reader.ends_bind]
  refine Reader.ends_token ?_ ?_
  · intro t' rest' hahead' _ c' hc'
    rw [hc] at hahead' hc'
    cases hahead'
    exact ⟨rfl, hc', Nat.zero_le room⟩
  · intro hnone
    exact absurd hkind (hnone t ahead (by rw [hc]))

/-! ## Parentheses -/

omit [Scalar α] [Numeral α] in
/-- What is read between two places before a closing parenthesis is read up to and with it. -/
theorem readDelimited_gives {read : Reader (Expr α)} {c : Cursor} {e : Expr α} {t : Token}
    {rest passed ahead : List Token} {fits : Prop} (opening : Token) {closing : Token}
    (hstart : c.significant.ahead = t :: rest) (ht : t.kind ≠ .closing)
    (hread : Gives read c e ⟨passed, closing :: ahead⟩ fits) (hclosing : closing.kind = .closing) :
    Gives (readDelimited read opening) c (e, closing) ⟨closing :: passed, ahead⟩ fits := by
  have hkind : c.nextKind? ≠ some .closing := by
    rw [Cursor.nextKind?_eq, hstart]
    intro hsome
    exact ht (Option.some.inj hsome)
  unfold Gives
  rw [readDelimited, Reader.ends_bind, Reader.ends_get, if_neg hkind, Reader.ends_bind,
    Reader.ends_hardened, Reader.ends_attempt]
  refine hread.mono ?_ ?_
  · rintro e' m ⟨rfl, hm, hfits⟩
    have hnext : m.nextKind? = some .closing := by
      rw [Cursor.nextKind?_eq, hm, ← hclosing]
      rfl
    rw [Reader.ends_bind, Reader.ends_get, hnext]
    dsimp only
    rw [Reader.ends_bind, Reader.ends_attempt]
    refine Reader.ends_token ?_ ?_
    · intro t' rest' hahead' _ c' hc'
      rw [hm] at hahead' hc'
      cases hahead'
      exact ⟨rfl, hc', hfits⟩
    · intro hnone
      exact absurd hclosing (hnone closing ahead (by rw [hm]))
  · rintro f ⟨hf, hdeep⟩
    exact ⟨⟨hf.1, rfl⟩, hdeep⟩

/-- A sum that nothing joins to anything else is read as a whole expression. -/
theorem readExpr_gives {s s' : Cursor} {e : Expr α} (h : Found .sum s e s') (hs' : Below .any s')
    (room : Nat) {c : Cursor} (hc : c.significant = s) :
    Gives (readExpr (Inner.ofRoom room)) c e s' (e.need ≤ room) := by
  obtain ⟨product, k, ⟨head, n, ⟨first, m, ⟨hfirst, hreads⟩, hpowers⟩, hfactors⟩, hterms⟩ := h
  have hlead := hterms.lead_eq.trans (hfactors.lead_eq.trans hpowers.lead_eq)
  have hneed : ∀ left, e.need ≤ left + 1 ↔ first.lead ≤ left ∧ e.extent ≤ left := by
    intro left
    rw [← hlead, ← Nat.max_le, Nat.add_comm left]
    exact Nat.add_le_add_iff_left
  refine nested_ends ?_ ?_
  · rintro rfl f hf
    exact ⟨hf, by rw [need]; omega⟩
  rintro left rfl
  rw [hneed, Reader.ends_bind]
  refine (hreads left c hc).mono ?_ (fun f hf => ⟨hf.1, fun hfits => hf.2 hfits.1⟩)
  rintro operand c₁ ⟨rfl, hc₁, hfits⟩
  have hbound : m.ahead.length ≤ c₁.ahead.length := by
    rw [← hc₁]
    exact List.length_filter_le _ _
  -- what is too deep for one loop is too deep for the whole expression
  have hdeep : ∀ {part : Expr α}, part.extent ≤ e.extent → ¬ part.extent ≤ left →
      ∀ f, TooDeep f → TooDeep f ∧ ¬ (operand.lead ≤ left ∧ e.extent ≤ left) :=
    fun hpart hnot f hf => ⟨hf, fun hfits => hnot (Nat.le_trans hpart hfits.2)⟩
  refine hpowers.climbs left .any _ _ c₁ c₁.ahead (by decide) hc₁ hbound
    (extent_of_not_isJoined hfirst ▸ Nat.zero_le left) ?_
    (hdeep (Nat.le_trans hfactors.extent_le hterms.extent_le))
  intro hhead c₂ bound₂ hc₂ hbound₂
  refine hfactors.climbs left .any _ _ c₂ bound₂ (by decide) hc₂ hbound₂ hhead ?_
    (hdeep hterms.extent_le)
  intro hproduct c₃ bound₃ hc₃ hbound₃
  refine hterms.climbs left .any _ _ c₃ bound₃ (by decide) hc₃ hbound₃ hproduct ?_
    (hdeep (Nat.le_refl _))
  intro hextent c₄ bound₄ hc₄ _
  exact climbAlong_stops hc₄ hs' ⟨rfl, hc₄, hfits, hextent⟩

theorem reads_paren {passed ahead passed' ahead' : List Token} {opening closing : Token}
    {e : Expr α} (hopening : opening.kind = .opening) (hclosing : closing.kind = .closing)
    (he : Found .sum ⟨opening :: passed, ahead⟩ e ⟨passed', closing :: ahead'⟩)
    (hs' : Below .any ⟨passed', closing :: ahead'⟩) {t : Token} {rest : List Token}
    (hstart : ahead = t :: rest) (ht : t.kind ≠ .closing) :
    Reads ⟨passed, opening :: ahead⟩ (.paren e (opening.span.cover closing.span))
      ⟨closing :: passed', ahead'⟩ := by
  refine reads_operand rfl rfl (by rw [hopening]; decide) ?_
  intro room c hc
  have hother : ∀ t' rest', c.significant.ahead = t' :: rest' → t'.kind = .opening := by
    intro t' rest' hahead'
    rw [hc] at hahead'
    cases hahead'
    exact hopening
  have hname : ∀ t' rest', c.significant.ahead = t' :: rest' → t'.kind ≠ .name := by
    intro t' rest' hahead'
    rw [hother t' rest' hahead']
    decide
  have hcall : NoCall c := by
    intro t' rest' hahead' hkind
    exact absurd hkind (hname t' rest' hahead')
  have hnumber : (readNumber : Reader (Expr α)).Declines c := by
    refine readNumber_declines ?_
    intro t' rest' hahead'
    rw [hother t' rest' hahead']
    rfl
  have hliteral : (readLiteral : Reader (Expr α)).Declines c :=
    hnumber.orElse (readSymbol_declines hname).attempt
  refine (readCall_declines _ hcall).orElse_ends (hliteral.orElse_ends ?_)
  rw [Reader.ends_attempt, readParen, Reader.ends_bind, Reader.ends_attempt]
  refine Reader.ends_token ?_ ?_
  · intro t' rest' hahead' _ m hm
    rw [hc] at hahead' hm
    cases hahead'
    rw [Reader.ends_bind]
    refine (readDelimited_gives opening (by rw [hm]; exact hstart) ht
      (readExpr_gives he hs' room hm) hclosing).mono ?_ (fun _ hf => hf)
    rintro p c' ⟨rfl, hc', hfits⟩
    exact ⟨rfl, hc', hfits⟩
  · intro hnone
    exact absurd hopening (hnone opening ahead (by rw [hc]))

theorem reads_call {passed ahead passed' ahead' : List Token} {name opening closing : Token}
    {func : Func} {e : Expr α} (hkind : name.kind = .name)
    (hname : Func.ofName? name.lexeme = some func) (hopening : opening.kind = .opening)
    (hclosing : closing.kind = .closing)
    (he : Found .sum ⟨opening :: name :: passed, ahead⟩ e ⟨passed', closing :: ahead'⟩)
    (hs' : Below .any ⟨passed', closing :: ahead'⟩) {t : Token} {rest : List Token}
    (hstart : ahead = t :: rest) (ht : t.kind ≠ .closing) :
    Reads ⟨passed, name :: opening :: ahead⟩
      (.call func name.lexeme name.span e (opening.span.cover closing.span))
      ⟨closing :: passed', ahead'⟩ := by
  refine reads_operand rfl rfl (by rw [hkind]; decide) ?_
  intro room c hc
  refine orElse_gives ?_
  unfold Gives
  rw [readCall, Reader.ends_bind, Reader.ends_attempt]
  refine Reader.ends_token ?_ ?_
  · intro t' rest' hahead' _ m hm
    rw [hc] at hahead' hm
    cases hahead'
    rw [Reader.ends_bind, Reader.ends_optional]
    refine Reader.ends_token ?_ ?_
    · intro t' rest' hahead' _ m' hm'
      rw [hm] at hahead' hm'
      cases hahead'
      rw [hname]
      dsimp only
      rw [Reader.ends_bind]
      rw [lead_call]
      refine nested_ends (fun hroom f hf => ⟨hf, by omega⟩) ?_
      rintro left rfl
      refine (readDelimited_gives opening (by rw [hm']; exact hstart) ht
        (readExpr_gives he hs' left hm') hclosing).mono ?_ ?_
      · rintro p c' ⟨rfl, hc', hfits⟩
        exact ⟨rfl, hc', by omega⟩
      · rintro f ⟨hf, hdeep⟩
        exact ⟨hf, by omega⟩
    · intro hnone
      exact absurd hopening (hnone opening ahead (by rw [hm]))
  · intro hnone
    exact absurd hkind (hnone name (opening :: ahead) (by rw [hc]))

/-- A sign takes the signed operand after it, with its powers. -/
theorem reads_negation {passed ahead : List Token} {t : Token} {e : Expr α} {s' : Cursor}
    (hkind : t.kind = .minus) (he : FoundSigned ⟨t :: passed, ahead⟩ e s') (hs' : Below .power s') :
    Reads ⟨passed, t :: ahead⟩ (.negation t.span e (t.span.cover e.span)) s' := by
  obtain ⟨first, m, ⟨hfirst, hreads⟩, hpowers⟩ := he
  refine ⟨rfl, ?_⟩
  intro room c hc
  have hminus : c.nextKind? = some .minus := by
    rw [Cursor.nextKind?_eq, hc, ← hkind]
    rfl
  have hsign : ∀ t' : Token, t'.kind = .minus →
      (UnaryOp.ofToken? t'.kind).map (fun _ => t'.span) = some t'.span := by
    intro t' ht'
    rw [ht']
    rfl
  have hneed : ∀ left, (negation t.span e (t.span.cover e.span)).lead ≤ left + 1 ↔
      first.lead ≤ left ∧ e.extent ≤ left := by
    intro left
    rw [← hpowers.lead_eq, ← Nat.max_le, Nat.add_comm left]
    exact Nat.add_le_add_iff_left
  unfold Gives
  rw [readSigned, Reader.ends_bind, Reader.ends_get, if_pos hminus, Reader.ends_attempt]
  refine nested_ends ?_ ?_
  · rintro rfl f hf
    exact ⟨hf, by rw [lead_negation]; omega⟩
  rintro left rfl
  rw [hneed, Reader.ends_bind, Reader.ends_attempt]
  refine Reader.ends_accepting ?_ ?_
  · intro t' rest' sign hahead' haccept c₁ hc₁
    rw [hc] at hahead' hc₁
    cases hahead'
    rw [hsign t hkind] at haccept
    cases haccept
    rw [Reader.ends_bind]
    refine (hreads left c₁ hc₁).mono ?_ (fun f hf => ⟨hf.1, fun hfits => hf.2 hfits.1⟩)
    rintro operand c₂ ⟨rfl, hc₂, hfits⟩
    rw [Reader.ends_bind]
    refine hpowers.climbs left .sign _ _ c₂ c₂.ahead (by decide) hc₂
      (by rw [← hc₂]; exact List.length_filter_le _ _)
      (extent_of_not_isJoined hfirst ▸ Nat.zero_le left) ?_
      (fun hdeep f hf => ⟨hf, fun hfits => hdeep hfits.2⟩)
    intro hextent c₃ bound hc₃ _
    exact climbAlong_stops hc₃ hs'.sign ⟨rfl, hc₃, hfits, hextent⟩
  · intro hnone
    have haccept := hnone t ahead (by rw [hc])
    rw [hsign t hkind] at haccept
    cases haccept

/-! ## The whole grammar -/

/-- Where an operand of a category ends: no joiner ahead binds more tightly than the category. -/
def Category.Closed : Category → Cursor → Prop
  | .atom, _ => True
  | .sum, c => Below .factor c
  | _, c => Below .power c

omit [Scalar α] [Numeral α] in
theorem joins_written {passed ahead : List Token} {t : Token} {op : BinaryOp}
    (hkind : BinaryOp.ofToken? t.kind = some op) :
    Cursor.Joins ⟨passed, t :: ahead⟩ (.written op) := ⟨t, ahead, rfl, hkind⟩

omit [Scalar α] [Numeral α] in
/-- A closing parenthesis joins nothing. -/
theorem below_closing {passed ahead : List Token} {t : Token} (hkind : t.kind = .closing)
    (p : Precedence) : Below p ⟨passed, t :: ahead⟩ := by
  rintro (op | -) hj
  · obtain ⟨u, rest, hahead, hop⟩ := hj
    cases hahead
    rw [hkind] at hop
    cases hop
  · obtain ⟨_, _, u, rest, -, hahead, -, hu⟩ := hj
    cases hahead
    rw [hkind] at hu
    rcases hu with hu | hu <;> cases hu

omit [Scalar α] [Numeral α] in
/-- Nothing is joined at the end of the tokens. -/
theorem below_end (passed : List Token) (p : Precedence) : Below p ⟨passed, []⟩ := by
  rintro (op | -) hj
  · obtain ⟨u, rest, hahead, -⟩ := hj
    cases hahead
  · obtain ⟨_, _, u, rest, -, hahead, -⟩ := hj
    cases hahead

/-- What the grammar derives is found by the readers, where the next joiner does not belong to it.
The induction is on the derivation; the numbers have to be finite to be read. -/
theorem Derives.found {cat : Category} {c c' : Cursor} {e : Expr α} (h : Derives cat c e c')
    (hproper : e.Proper) (hclosed : cat.Closed c') : Found cat c e c' := by
  induction h with
  | number hkind => exact reads_number hkind hproper
  | symbol hkind hname hnext => exact reads_symbol hkind hname hnext
  | paren hopening hclosing he ih =>
    obtain ⟨t, rest, hstart, ht⟩ := he.start
    exact reads_paren hopening hclosing (ih hproper (below_closing hclosing _))
      (below_closing hclosing _) hstart ht
  | call hkind hname hopening hclosing he ih =>
    obtain ⟨t, rest, hstart, ht⟩ := he.start
    exact reads_call hkind hname hopening hclosing (ih hproper (below_closing hclosing _))
      (below_closing hclosing _) hstart ht
  | atom _ ih => exact ⟨_, _, ih hproper trivial, .inl ⟨rfl, rfl⟩⟩
  | power _ hkind hexponent ihb ihe =>
    obtain ⟨hb, he⟩ := hproper
    have hop : BinaryOp.ofToken? _ = some .power := congrArg BinaryOp.ofToken? hkind
    have hlength := hexponent.length_lt
    refine ⟨_, _, ihb hb trivial, .inr ⟨⟨_, joins_written hop, rfl⟩, ?_, extends_join _ _ _ _, ?_⟩⟩
    · exact Nat.lt_succ_of_lt hlength
    · exact climbs_written hop (readsRight_signed (ihe he hclosed) hclosed (by decide))
        (Nat.le_of_lt hlength)
  | unsigned _ ih => exact ih hproper hclosed
  | negation hkind _ ih =>
    exact ⟨_, _, reads_negation hkind (ih hproper hclosed) hclosed, .inl ⟨rfl, rfl⟩⟩
  | factor _ ih => exact ⟨_, _, ih hproper hclosed, .inl ⟨rfl, rfl⟩⟩
  | @product c c' passed ahead t op left right hleft hkind hop hright ihl ihr =>
    obtain ⟨hl, hr⟩ := hproper
    have hfactor : op.precedence = .factor := by rcases hop with rfl | rfl <;> rfl
    have hnotTerm : op.precedence ≠ .term := by
      rw [hfactor]
      decide
    have hjoins : Cursor.Joins ⟨passed, t :: ahead⟩ (.written op) := joins_written hkind
    have hlength := hright.length_lt
    obtain ⟨head, n, hsigned, hsteps⟩ :=
      ihl hl (below_of_joins hjoins (by change op.precedence < _; rw [hfactor]; decide))
    refine ⟨head, n, hsigned, ?_⟩
    rw [← hfactor] at hsteps ⊢
    refine hsteps.snoc (j := .written op) hjoins (Nat.lt_succ_of_lt hlength) (extends_join _ _ _ _) ?_
    exact climbs_written hkind
      (readsRight_signed (ihr hr hclosed) hclosed hnotTerm) (Nat.le_of_lt hlength)
  | @juxtaposed c c' passed ahead t u left right hleft hbefore hafter hright ihl ihr =>
    obtain ⟨hl, hr⟩ := hproper
    have hjoins : Cursor.Joins ⟨t :: passed, u :: ahead⟩ .juxtaposed :=
      ⟨t, passed, u, ahead, rfl, rfl, hbefore, hafter⟩
    obtain ⟨head, n, hsigned, hsteps⟩ := ihl hl (below_of_joins hjoins (by decide))
    refine ⟨head, n, hsigned, ?_⟩
    refine hsteps.snoc (j := .juxtaposed) hjoins hright.length_lt (extends_join _ _ _ _) ?_
    exact climbs_juxtaposed hjoins (readsRight_signed (ihr hr hclosed) hclosed (by decide))
      hright.length_lt
  | term _ ih =>
    refine ⟨_, _, ih hproper (hclosed.mono (by decide)), .inl ⟨rfl, rfl⟩⟩
  | @sum c c' passed ahead t op left right hleft hkind hop hright ihl ihr =>
    obtain ⟨hl, hr⟩ := hproper
    have hterm : op.precedence = .term := by rcases hop with rfl | rfl <;> rfl
    have hjoins : Cursor.Joins ⟨passed, t :: ahead⟩ (.written op) := joins_written hkind
    have hlength := hright.length_lt
    obtain ⟨head, n, hproduct, hsteps⟩ :=
      ihl hl (below_of_joins hjoins (by change op.precedence < _; rw [hterm]; decide))
    refine ⟨head, n, hproduct, ?_⟩
    rw [← hterm] at hsteps ⊢
    refine hsteps.snoc (j := .written op) hjoins (Nat.lt_succ_of_lt hlength) (extends_join _ _ _ _) ?_
    exact climbs_written hkind
      (readsRight_product (ihr hr (hclosed.mono (by decide))) hclosed hterm) (Nat.le_of_lt hlength)

/-- An expression of finite numbers is read from every text that spells it if and only if it needs no
more levels than can be entered; if it does, it is nested too deeply. -/
theorem ofText_gives {text : String} {e : Expr α} (h : Spells text e) (hproper : e.Proper) :
    (ofText text = .ok e ∧ e.need ≤ maxNesting) ∨
      ∃ f, ofText (α := α) text = .error f ∧ TooDeep f ∧ maxNesting < e.need := by
  have hfound := h.found hproper (below_end _ _)
  obtain ⟨t, rest, hstart, -⟩ := h.start
  have hwhole : (readExpr (outermost (α := α))).whole.Ends (.ofText text)
      (fun e' _ => e' = e ∧ e.need ≤ maxNesting) (fun f => TooDeep f ∧ ¬ e.need ≤ maxNesting) := by
    refine Reader.ends_whole ?_ ?_
    · intro hempty
      exact absurd (hstart.symm.trans hempty) (List.cons_ne_nil _ _)
    · refine (readExpr_gives hfound (below_end _ _) maxNesting rfl).mono ?_ (fun _ hf => hf)
      rintro e' m ⟨rfl, hm, hfits⟩
      refine ⟨fun _ => ⟨rfl, hfits⟩, ?_⟩
      intro hleft
      rw [hm] at hleft
      exact absurd rfl hleft
  cases hrun : (readExpr (outermost (α := α))).whole.runFrom (.ofText text) with
  | mk result c' =>
    cases result with
    | ok e' =>
      obtain ⟨he, hfits⟩ := hwhole.of_ok hrun
      rw [ofText, hrun, he]
      exact .inl ⟨rfl, hfits⟩
    | error f =>
      obtain ⟨hf, hdeep⟩ := hwhole.of_error hrun
      rw [ofText, hrun]
      exact .inr ⟨f, rfl, hf, Nat.lt_of_not_le hdeep⟩

/-- Whether an expression is read is a matter of the levels that it needs. -/
theorem ofText_iff_need_le {text : String} {e : Expr α} (h : Spells text e) (hproper : e.Proper) :
    ofText text = .ok e ↔ e.need ≤ maxNesting := by
  rcases ofText_gives h hproper with ⟨hok, hfits⟩ | ⟨f, herror, -, hdeep⟩
  · exact iff_of_true hok hfits
  · refine iff_of_false ?_ (Nat.not_le_of_lt hdeep)
    rw [herror]
    rintro ⟨⟩

/-- An expression of finite numbers is read from every text that spells it, or it is nested too
deeply. -/
theorem ofText_of_spells {text : String} {e : Expr α} (h : Spells text e) (hproper : e.Proper) :
    ofText text = .ok e ∨
      ∃ f, ofText (α := α) text = .error f ∧ f.cause = .nestedTooDeeply maxNesting := by
  rcases ofText_gives h hproper with ⟨hread, -⟩ | ⟨f, hread, hf, -⟩
  · exact .inl hread
  · exact .inr ⟨f, hread, hf.1⟩

end Fluxion.Expr
