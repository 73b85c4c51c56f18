import Fluxion.Proofs.Expr.Completeness
import Fluxion.Proofs.Scalar.Integer

/-!
# Reading back what is written

The text of a term whose numbers are finite and whose symbols are names is read as an expression
that has the value of the term, unless it is nested too deeply to be read.
-/

namespace Fluxion.Term

variable {α : Type} [Scalar α] [Numeral α] [LawfulNumeral α]

omit [Numeral α] [LawfulNumeral α] in
theorem named_of_withoutMinus? {t s : Term α} (h : t.withoutMinus? = some s) (ht : t.Named) :
    s.Named := by
  fun_induction withoutMinus? t generalizing s with
  | case1 => cases h; trivial
  | case2 => cases h
  | case3 left right _ => cases h; exact ht.2
  | case4 left right _ ih =>
    obtain ⟨l, hl, rfl⟩ := Option.map_eq_some_iff.1 h
    exact ⟨ih hl ht.1, ht.2⟩
  | case5 left right ih =>
    obtain ⟨l, hl, rfl⟩ := Option.map_eq_some_iff.1 h
    exact ⟨ih hl ht.1, ht.2⟩
  | case6 => cases h

omit [Numeral α] [LawfulNumeral α] in
theorem proper_of_withoutMinus? [SignedScalar α] {t s : Term α} (h : t.withoutMinus? = some s)
    (ht : t.Proper) : s.Proper := by
  fun_induction withoutMinus? t generalizing s with
  | case1 v _ =>
    cases h
    change Scalar.isFinite (-v) = true
    rw [SignedScalar.isFinite_neg]
    exact ht
  | case2 => cases h
  | case3 left right _ => cases h; exact ht.2
  | case4 left right _ ih =>
    obtain ⟨l, hl, rfl⟩ := Option.map_eq_some_iff.1 h
    exact ⟨ih hl ht.1, ht.2⟩
  | case5 left right ih =>
    obtain ⟨l, hl, rfl⟩ := Option.map_eq_some_iff.1 h
    exact ⟨ih hl ht.1, ht.2⟩
  | case6 => cases h

omit [Numeral α] [LawfulNumeral α] in
/-- What a minus sign may be taken off of without losing a property has it without its minus sign. -/
theorem unsigned_of {P : Term α → Prop} (h : ∀ {t s : Term α}, t.withoutMinus? = some s → P t → P s)
    {t : Term α} (ht : P t) : P t.unsigned := by
  rw [unsigned]
  cases hminus : t.withoutMinus? with
  | none => exact ht
  | some s => exact h hminus ht

theorem written_const {v : α} (hfinite : Scalar.isFinite v = true) :
    Written (Numeral.text v) (const v) := by
  have hread (first : Term α → Term α) : (const v).asRead first = first (const v) := by rw [asRead]
  cases hsign : Scalar.isNegative v with
  | false =>
    refine .of_atom ?_ hread
    intro passed offset rest hrest
    obtain ⟨w, t, offset', -, hw, hvalue, hderives⟩ :=
      number_derives hfinite hsign passed offset hrest.endsWord.endsNumber
    exact ⟨_, _, offset', hderives, .number hw hvalue t.span⟩
  | true =>
    have hstarts := startsWithMinus_text hfinite hsign
    have hchain : FormsChain (Numeral.text v) (const v).asRead := by
      rw [funext hread]
      exact chain_const hfinite
    refine ⟨hchain.forms.loosen (by decide), fun _ => hchain, ?_, ?_⟩
    · intro _ hnot
      rw [hstarts] at hnot
      cases hnot
    · intro _ hnot
      rw [hstarts] at hnot
      cases hnot

/-- The text of every term with finite numbers and proper names is read as tightly as its level
says. The induction is on the size, for a minus sign may be taken off an operand first. -/
theorem written {t : Term α} (hproper : t.Proper) (hnamed : t.Named) :
    Written (t.chars .caret) t := by
  induction hsize : t.size using Nat.strongRecOn generalizing t with
  | ind n ih =>
    have hsub (s : Term α) (hlt : s.size < t.size) (hs : s.Proper) (hs' : s.Named) :
        Written (s.chars .caret) s := ih s.size (hsize ▸ hlt) hs hs' rfl
    cases t with
    | const v =>
      rw [chars]
      exact written_const hproper
    | symbol name =>
      rw [chars]
      exact .of_atom (forms_symbol hnamed) fun first => by rw [asRead]
    | sum l r =>
      have hur := unsigned_of proper_of_withoutMinus? hproper.2
      have hun := unsigned_of named_of_withoutMinus? hnamed.2
      have hl := hsub l (by simp only [size]; omega) hproper.1 hnamed.1
      have hr := hsub r.unsigned
        (by have := size_unsigned_le r; simp only [size]; omega) hur hun
      rw [chars]
      exact .of_sum (hl.sum.signed hr.operandForms _) (by rw [asRead, id]) rfl rfl
    | difference l r =>
      have hur := unsigned_of proper_of_withoutMinus? hproper.2
      have hun := unsigned_of named_of_withoutMinus? hnamed.2
      have hl := hsub l (by simp only [size]; omega) hproper.1 hnamed.1
      have hr := hsub r.unsigned
        (by have := size_unsigned_le r; simp only [size]; omega) hur hun
      rw [chars]
      exact .of_sum (hl.sum.signed hr.operandForms _) (by rw [asRead, id]) rfl rfl
    | product l r =>
      have hr := hsub r (by simp only [size]; omega) hproper.2 hnamed.2
      cases hconst : l.isConst with
      | true =>
        cases l with
        | const c =>
          rw [chars]
          exact .of_chain (hr.operandText.1.coefficient hproper.1 hr.operandText.2)
            (fun first => by rw [asRead]) rfl
        | symbol _ | sum _ _ | difference _ _ | product _ _ | quotient _ _ | power _ _ | call _ _ =>
          cases hconst
      | false =>
        have hl := hsub l (by simp only [size]; omega) hproper.1 hnamed.1
        rw [chars]
        · exact .of_chain (hl.leftText.times hr.rightText) (asRead_product hconst r) rfl
        · rintro c rfl
          cases hconst
    | quotient l r =>
      have hl := hsub l (by simp only [size]; omega) hproper.1 hnamed.1
      have hr := hsub r (by simp only [size]; omega) hproper.2 hnamed.2
      rw [chars]
      exact .of_chain (hl.leftText.divide hr.rightText) (fun first => by rw [asRead]) rfl
    | power b e =>
      have hb := hsub b (by simp only [size]; omega) hproper.1 hnamed
      rw [chars]
      exact .of_power (hb.baseText.power hproper.2) (fun first => by rw [asRead]) rfl
    | call f a =>
      have ha := hsub a (by simp only [size]; omega) hproper hnamed
      rw [chars]
      exact .of_atom (ha.sum.call f) fun first => by rw [asRead]

/-- The text of a term spells an expression that becomes the tree that the text is read as. -/
theorem text_spells_asRead {t : Term α} (hproper : t.Proper) (hnamed : t.Named) :
    ∃ e : Expr α, Expr.Spells (t.text .caret) e ∧ e.Becomes (t.asRead id) := by
  obtain ⟨e, passed', offset', hderives, hbecomes⟩ :=
    (written hproper hnamed).sum [] 0 [] separated_nil
  exact ⟨e, spells_of_derives hderives, hbecomes⟩

/-- The text of a term spells an expression that stands for the term. -/
theorem text_spells {t : Term α} (hproper : t.Proper) (hnamed : t.Named) :
    ∃ e : Expr α, Expr.Spells (t.text .caret) e ∧ e.StandsFor t := by
  obtain ⟨e, hspells, hbecomes⟩ := text_spells_asRead hproper hnamed
  exact ⟨e, hspells, hbecomes.standsFor (sameValue_asRead t linear_id)⟩

/-- A term that is written and read back has the value that it had, in every field, whatever its
symbols stand for, and however its numbers, powers and functions are read: or else its text is
nested too deeply to be read. -/
theorem text_reads_back {t : Term α} (hproper : t.Proper) (hnamed : t.Named) :
    (∃ e : Expr α, Expr.ofText (t.text .caret) = .ok e ∧
      ∃ s enough, (∀ most, enough ≤ most → ofExpr most e = .ok s) ∧
        ∀ (K : Type) [Field K] (m : Interpretation α K), m.Signed → ∀ env : String → K,
          s.eval? m env = t.eval? m env) ∨
    ∃ f, Expr.ofText (α := α) (t.text .caret) = .error f ∧
      f.cause = .nestedTooDeeply maxNesting := by
  obtain ⟨e, hspells, heproper, s, height, hsame, hterm⟩ := text_spells hproper hnamed
  rcases Expr.ofText_of_spells hspells heproper with hread | hdeep
  · refine .inl ⟨e, hread, s, height + 1, ?_, hsame⟩
    intro most hle
    exact hterm most 1 hle
  · exact .inr hdeep

/-- A coefficient takes only the first factor of the quotient that it is written before. -/
theorem text_reads_back_coefficient :
    let t : Term ℤ := .product (.const (-2)) (.quotient (.symbol "x") (.const 3))
    t.Proper ∧ t.Named ∧
    ((∃ e : Expr ℤ, Expr.ofText (t.text .caret) = .ok e ∧
      ∃ s enough, (∀ most, enough ≤ most → ofExpr most e = .ok s) ∧
        ∀ (K : Type) [Field K] (m : Interpretation ℤ K), m.Signed → ∀ env : String → K,
          s.eval? m env = t.eval? m env) ∨
    ∃ f, Expr.ofText (α := ℤ) (t.text .caret) = .error f ∧
      f.cause = .nestedTooDeeply maxNesting) := by
  intro t
  have hproper : t.Proper := ⟨rfl, trivial, rfl⟩
  have hnamed : t.Named := by
    have hname : isVariable "x" = true := by decide +kernel
    exact ⟨trivial, hname, trivial⟩
  exact ⟨hproper, hnamed, text_reads_back hproper hnamed⟩

end Fluxion.Term
