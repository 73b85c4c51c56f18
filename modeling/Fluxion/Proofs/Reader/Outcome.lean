import Fluxion.Proofs.Cursor.Significant
import Fluxion.Reader

/-!
# Outcomes of readers

What a reader comes to from a cursor, split into what holds of its value and of the place where it
stops, and what holds of its fault. There is one rule for each way of combining readers. The rules
see only the significant tokens, and none of them mentions the cursor that a failing reader leaves
behind, because every attempt puts it back.
-/

namespace Fluxion.Reader

variable {β γ : Type}

/-- From `c`, the reader either gives a value that `ok` holds of, together with the cursor that is
left, or a fault that `err` holds of. -/
def Ends (r : Reader β) (c : Cursor) (ok : β → Cursor → Prop) (err : Fault → Prop) : Prop :=
  match r.runFrom c with
  | (.ok b, c') => ok b c'
  | (.error f, _) => err f

section Rules

variable {c : Cursor} {ok : β → Cursor → Prop} {err : Fault → Prop}

theorem Ends.of_ok {r : Reader β} {c' : Cursor} {b : β} (h : r.Ends c ok err)
    (hrun : r.runFrom c = (.ok b, c')) : ok b c' := by
  rw [Ends, hrun] at h
  exact h

theorem Ends.of_error {r : Reader β} {c' : Cursor} {f : Fault} (h : r.Ends c ok err)
    (hrun : r.runFrom c = (.error f, c')) : err f := by
  rw [Ends, hrun] at h
  exact h

/-- Both parts of an outcome may be weakened. -/
theorem Ends.mono {r : Reader β} {ok' : β → Cursor → Prop} {err' : Fault → Prop}
    (h : r.Ends c ok err) (hok : ∀ b c', ok b c' → ok' b c') (herr : ∀ f, err f → err' f) :
    r.Ends c ok' err' := by
  unfold Ends at h ⊢
  split at h
  · exact hok _ _ h
  · exact herr _ h

@[simp] theorem ends_pure (b : β) : (pure b : Reader β).Ends c ok err ↔ ok b c := Iff.rfl

@[simp] theorem ends_fail (f : Fault) : (fail f : Reader β).Ends c ok err ↔ err f := Iff.rfl

@[simp] theorem ends_get {ok : Cursor → Cursor → Prop} :
    (get : Reader Cursor).Ends c ok err ↔ ok c c := Iff.rfl

@[simp] theorem ends_set {c' : Cursor} {ok : PUnit → Cursor → Prop} :
    (set c' : Reader PUnit).Ends c ok err ↔ ok ⟨⟩ c' := Iff.rfl

@[simp] theorem ends_skipSpaces {ok : Unit → Cursor → Prop} :
    skipSpaces.Ends c ok err ↔ ok () c.skipSpaces := Iff.rfl

/-- The second reader starts where the first one stops. -/
@[simp] theorem ends_bind (r : Reader γ) (f : γ → Reader β) :
    (r >>= f).Ends c ok err ↔ r.Ends c (fun b c' => (f b).Ends c' ok err) err := by
  unfold Ends
  rw [runFrom_bind]
  cases hrun : r.runFrom c with
  | mk result c' => cases result <;> rfl

@[simp] theorem ends_map (r : Reader γ) (f : γ → β) :
    (f <$> r).Ends c ok err ↔ r.Ends c (fun b c' => ok (f b) c') err := by
  rw [map_eq_pure_bind, ends_bind]
  rfl

@[simp] theorem ends_failHere (cause : Cause) :
    (failHere cause : Reader β).Ends c ok err ↔ err (.soft cause c.span) := Iff.rfl

/-- An attempt differs from the reader only in the cursor that a failure leaves. -/
@[simp] theorem ends_attempt (r : Reader β) : r.attempt.Ends c ok err ↔ r.Ends c ok err := by
  unfold Ends
  cases hrun : r.runFrom c with
  | mk result c' =>
    cases result with
    | ok b => rw [runFrom_attempt_of_ok hrun]
    | error f => rw [runFrom_attempt_of_error hrun]

@[simp] theorem ends_hardened (r : Reader β) :
    r.hardened.Ends c ok err ↔ r.Ends c ok (fun f => err f.harden) := by
  unfold Ends
  rw [hardened, runFrom_ofFunction]
  cases hrun : r.runFrom c with
  | mk result c' => cases result <;> rfl

/-- What is optional never fails. -/
@[simp] theorem ends_optional (r : Reader γ) {ok : Option γ → Cursor → Prop} :
    r.optional.Ends c ok err ↔ r.Ends c (fun b c' => ok (some b) c') (fun _ => ok none c) := by
  unfold Ends
  rw [optional, runFrom_ofFunction]
  cases hrun : r.runFrom c with
  | mk result c' =>
    cases result with
    | ok b => rw [runFrom_attempt_of_ok hrun]
    | error f => rw [runFrom_attempt_of_error hrun]

/-- The second reader starts from the same cursor as the first, if the first leaves room for it. -/
@[simp] theorem ends_orElse (r s : Reader β) :
    (r.orElse s).Ends c ok err ↔
      r.Ends c ok (fun f => if f.fatal then err f else s.Ends c ok err) := by
  unfold Ends
  rw [orElse, runFrom_ofFunction]
  cases hrun : r.runFrom c with
  | mk result c' =>
    cases result with
    | ok b => rw [runFrom_attempt_of_ok hrun]
    | error f =>
      rw [runFrom_attempt_of_error hrun]
      cases hfatal : f.fatal <;> simp [hfatal]

/-- The reader fails in a way that leaves room for another one. -/
def Declines (r : Reader β) (c : Cursor) : Prop :=
  r.Ends c (fun _ _ => False) (fun f => f.fatal = false)

theorem Declines.attempt {r : Reader β} (h : r.Declines c) : r.attempt.Declines c :=
  (ends_attempt r).2 h

theorem Declines.orElse_ends {r s : Reader β} (hr : r.Declines c) (hs : s.Ends c ok err) :
    (r.orElse s).Ends c ok err := by
  rw [ends_orElse]
  refine Ends.mono hr (fun _ _ hfalse => absurd hfalse id) ?_
  intro f hsoft
  rw [hsoft]
  exact hs

theorem Declines.orElse {r s : Reader β} (hr : r.Declines c) (hs : s.Declines c) :
    (r.orElse s).Declines c := hr.orElse_ends hs

end Rules

/-! ## Tokens -/

section Tokens

variable {c : Cursor} {err : Fault → Prop}

/-- The next token is the next significant one, and reading it moves the cursor past it. -/
theorem ends_next {ok : Token → Cursor → Prop}
    (hok : ∀ t rest, c.significant.ahead = t :: rest →
      ∀ c', c'.significant = ⟨t :: c.significant.passed, rest⟩ → ok t c')
    (herr : c.significant.ahead = [] → ∀ f : Fault, f.fatal = false → err f) :
    next.Ends c ok err := by
  rw [next, ends_bind, ends_skipSpaces, ends_bind, ends_get]
  rcases c.skipSpaces_cases with ⟨t, rest, hahead, -, hsignificant, hplace⟩ | ⟨hahead, hnone⟩
  · rw [hahead]
    simp only [ends_bind, ends_set, ends_pure]
    rw [hplace] at hsignificant
    exact hok t _ hsignificant _ hplace
  · rw [hahead]
    simp only [ends_failHere]
    exact herr hnone _ rfl

/-- A token is taken if the function makes something of it, and otherwise the failure leaves room
for another attempt. -/
theorem ends_accepting {expected : List TokenKind} {accept : Token → Option β}
    {ok : β → Cursor → Prop}
    (hok : ∀ t rest b, c.significant.ahead = t :: rest → accept t = some b →
      ∀ c', c'.significant = ⟨t :: c.significant.passed, rest⟩ → ok b c')
    (herr : (∀ t rest, c.significant.ahead = t :: rest → accept t = none) →
      ∀ f : Fault, f.fatal = false → err f) :
    (accepting expected accept).Ends c ok err := by
  rw [accepting, ends_bind]
  refine ends_next ?_ ?_
  · intro t rest hahead c' hplace
    cases haccept : accept t with
    | some b =>
      rw [ends_pure]
      exact hok t rest b hahead haccept c' hplace
    | none =>
      rw [ends_fail]
      refine herr ?_ _ rfl
      intro u rest' hahead'
      rw [hahead] at hahead'
      cases hahead'
      exact haccept
  · intro hahead f hfatal
    refine herr ?_ f hfatal
    intro t rest hahead'
    rw [hahead] at hahead'
    cases hahead'

/-- A token of a given kind. -/
theorem ends_token {kind : TokenKind} {ok : Token → Cursor → Prop}
    (hok : ∀ t rest, c.significant.ahead = t :: rest → t.kind = kind →
      ∀ c', c'.significant = ⟨t :: c.significant.passed, rest⟩ → ok t c')
    (herr : (∀ t rest, c.significant.ahead = t :: rest → t.kind ≠ kind) →
      ∀ f : Fault, f.fatal = false → err f) :
    (token kind).Ends c ok err := by
  rw [token]
  refine ends_accepting ?_ ?_
  · intro t rest b hahead haccept c' hplace
    by_cases hkind : t.kind = kind
    · rw [if_pos hkind] at haccept
      cases haccept
      exact hok t rest hahead hkind c' hplace
    · rw [if_neg hkind] at haccept
      cases haccept
  · intro hnone f hfatal
    refine herr ?_ f hfatal
    intro t rest hahead hkind
    have haccept := hnone t rest hahead
    rw [if_pos hkind] at haccept
    cases haccept

theorem declines_token {c : Cursor} {kind : TokenKind}
    (h : ∀ t rest, c.significant.ahead = t :: rest → t.kind ≠ kind) : (token kind).Declines c := by
  refine ends_token ?_ (fun _ _ hsoft => hsoft)
  intro t rest hahead hkind
  exact absurd hkind (h t rest hahead)

/-- All is read if there is something to read and nothing is left after it. -/
theorem ends_whole {r : Reader β} {ok : β → Cursor → Prop}
    (hempty : c.significant.ahead = [] → ∀ f, err f)
    (hread : r.Ends c (fun b m => (m.significant.ahead = [] → ok b m.skipSpaces) ∧
      (m.significant.ahead ≠ [] → ∀ f, err f)) err) :
    r.whole.Ends c ok err := by
  rw [whole, ends_bind, ends_get]
  split
  · next hnone =>
    simp only [ends_bind, ends_get, ends_fail]
    refine hempty ?_ _
    rw [Cursor.next?_eq, Option.isNone_iff_eq_none, List.head?_eq_none_iff] at hnone
    exact hnone
  · rw [ends_bind]
    refine hread.mono ?_ (fun _ hf => hf)
    rintro b m ⟨hdone, hleft⟩
    simp only [ends_bind, ends_skipSpaces, ends_get, Cursor.current?]
    rcases m.skipSpaces_cases with ⟨t, rest, hahead, -, hsignificant, -⟩ | ⟨hahead, hnone⟩
    · have herr := hleft (by rw [hsignificant]; exact List.cons_ne_nil _ _)
      rw [hahead]
      dsimp only [List.head?_cons]
      split <;> exact herr _
    · rw [hahead]
      exact hdone hnone

end Tokens

end Fluxion.Reader
