import Fluxion.Proofs.Derivation.NormalOrders
import Fluxion.Proofs.Scalar.Binary64

/-!
# Derivations are well-formed

Whatever is computed is well-formed: the term that is read, and each of its derivatives. Its numbers
are proper, its symbols are names of the expression that are no functions, and nothing in it is
divided by the constant zero. The limits of the options hold as well.
-/

namespace Fluxion

/-- No function is known by a name if and only if the name is none of the spellings, in capital or
small letters. -/
theorem Func.ofName?_eq_none_iff {name : String} :
    Func.ofName? name = none ↔ ∀ f : Func, Func.fold name ∉ f.names := by
  have hall : ∀ f : Func, f ∈ Func.all := by
    intro f
    cases f <;> decide
  unfold Func.ofName?
  rw [List.find?_eq_none]
  constructor
  · intro h f hname
    exact h f (hall f) (List.contains_iff_mem.2 hname)
  · intro h f _ hname
    exact h f (List.contains_iff_mem.1 hname)

namespace Token

/-- The name stands among the tokens, and is no spelling of a function in any letter case. -/
def NamesSymbol (tokens : List Token) (name : String) : Prop :=
  (∃ t ∈ tokens, t.kind = .name ∧ t.lexeme = name) ∧ ∀ f : Func, Func.fold name ∉ f.names

end Token

namespace Term

variable {α : Type} [Scalar α]

/-- Numbers and exponents are proper, symbols are allowed, and no divisor is the constant zero. -/
def WellFormed (allowed : String → Prop) : Term α → Prop
  | const v => Scalar.isFinite v = true
  | symbol name => allowed name
  | sum l r | difference l r | product l r => l.WellFormed allowed ∧ r.WellFormed allowed
  | quotient l r => l.WellFormed allowed ∧ r.WellFormed allowed ∧ ∀ v, r = const v → (v == 0) = false
  | power b e => b.WellFormed allowed ∧ Scalar.isFinite e = true
  | call _ a => a.WellFormed allowed

theorem isValue_eq_false_iff {t : Term α} {v : α} :
    t.isValue v = false ↔ ∀ w, t = const w → (w == v) = false := by
  cases t with
  | const w =>
    constructor
    · intro h u hu
      cases hu
      exact h
    · intro h
      exact h w rfl
  | symbol _ | sum _ _ | difference _ _ | product _ _ | quotient _ _ | power _ _ | call _ _ =>
    exact iff_of_true rfl fun w hw => by cases hw

/-- A term of proper numbers and allowed symbols is well-formed if it divides by no zero. -/
theorem wellFormed_of_madeOf {allowed : String → Prop} {t : Term α} (h : t.MadeOf allowed)
    (hzero : t.dividesByZero = false) : t.WellFormed allowed := by
  induction t with
  | const _ | symbol _ => exact h
  | sum l r ihl ihr | difference l r ihl ihr | product l r ihl ihr =>
    obtain ⟨hl, hr⟩ := Bool.or_eq_false_iff.1 hzero
    exact ⟨ihl h.1 hl, ihr h.2 hr⟩
  | quotient l r ihl ihr =>
    obtain ⟨hleft, hr⟩ := Bool.or_eq_false_iff.1 hzero
    obtain ⟨hdivisor, hl⟩ := Bool.or_eq_false_iff.1 hleft
    exact ⟨ihl h.1 hl, ihr h.2 hr, isValue_eq_false_iff.1 hdivisor⟩
  | power b e ih => exact ⟨ih h.1 hzero, h.2⟩
  | call f a ih => exact ih h hzero

end Term

namespace Expr

variable {α : Type} [Scalar α] [Numeral α]

/-- The symbols of an expression are among the tokens that it is derived from. -/
theorem Derives.madeOf {cat : Category} {c c' : Cursor} {e : Expr α} (h : Derives cat c e c')
    (hproper : e.Proper) : e.MadeOf (Token.NamesSymbol c.tokens) := by
  generalize htokens : c.tokens = tokens
  induction h with
  | number _ => exact hproper
  | @symbol passed ahead t hkind hname _ =>
    refine ⟨⟨t, ?_, hkind, rfl⟩, Func.ofName?_eq_none_iff.1 hname⟩
    rw [← htokens]
    exact List.mem_append_right _ List.mem_cons_self
  | paren _ _ _ ih => exact ih hproper (by simpa [Cursor.tokens] using htokens)
  | call _ _ _ _ _ ih => exact ih hproper (by simpa [Cursor.tokens] using htokens)
  | negation _ _ ih => exact ih hproper (by simpa [Cursor.tokens] using htokens)
  | atom _ ih | unsigned _ ih | factor _ ih | term _ ih => exact ih hproper htokens
  -- the right operand starts where the left one stops, among the same tokens
  | power hleft _ _ ihl ihr | product hleft _ _ _ ihl ihr | sum hleft _ _ _ ihl ihr =>
    refine ⟨ihl hproper.1 htokens, ihr hproper.2 ?_⟩
    rw [← htokens, ← hleft.tokens_eq]
    simp [Cursor.tokens]
  | juxtaposed hleft _ _ _ ihl ihr =>
    exact ⟨ihl hproper.1 htokens, ihr hproper.2 (hleft.tokens_eq.trans htokens)⟩

/-- An expression that is read has proper numbers, and symbols that stand in the text. -/
theorem madeOf_of_ofText {text : String} {e : Expr α} (h : ofText text = .ok e) :
    e.MadeOf (Token.NamesSymbol (meaningful text)) := by
  obtain ⟨hspells, hproper⟩ := spells_of_ofText h
  exact hspells.madeOf hproper

end Expr

namespace Derivation

open Token (NamesSymbol)

variable {α : Type} [Scalar α] [ProperScalar α] {options : Options}

theorem madeOf_next {allowed : String → Prop} (options : Options) (var : String) {t : Term α}
    (h : t.MadeOf allowed) : (next options var t).MadeOf allowed := by
  have hsimplified := Simplified.madeOf_ofTerm (Term.madeOf_derivative var h)
  unfold next
  split
  · exact Term.madeOf_canonicalize var hsimplified
  · exact hsimplified

variable [Numeral α]

/-- The term that is read is made of what stands in the text, and not deeper than allowed. -/
theorem readTerm_spec {text : String} {t : Term α} (h : readTerm options text = .ok t) :
    t.MadeOf (NamesSymbol (Expr.meaningful text)) ∧ t.dividesByZero = false ∧
      t.depth ≤ options.maxDepth := by
  obtain ⟨e, hread, hterm, -, hzero⟩ := readTerm_eq_ok.1 h
  have hdepth : t.depth + 1 ≤ options.maxDepth + 1 := Expr.depth_term hterm
  exact ⟨Expr.madeOf_term (Expr.madeOf_of_ofText hread) hterm, hzero, Nat.le_of_succ_le_succ hdepth⟩

/-- If a request is answered, the term that was read and all its derivatives are well-formed over the
names of the expression. The term is no deeper, and no derivative larger, than the options allow. -/
theorem compute_wellFormed {request : Request} {d : Derivation α}
    (h : compute request options = .ok d) :
    (∀ t ∈ d.term :: d.orders, t.WellFormed (NamesSymbol (Expr.meaningful request.expression))) ∧
      (∀ t ∈ d.orders, t.size ≤ options.maxNodes) ∧ d.term.depth ≤ options.maxDepth := by
  obtain ⟨var, order, t, orders, -, hread, htake, rfl⟩ := compute_eq_ok.1 h
  obtain ⟨hterm, hzero, hdepth⟩ := readTerm_spec hread
  have hnext : ∀ u : Term α, u.MadeOf (NamesSymbol (Expr.meaningful request.expression)) →
      (next options var u).MadeOf (NamesSymbol (Expr.meaningful request.expression)) :=
    fun _ => madeOf_next options var
  have horders := forall_mem_take hnext hterm htake
  refine ⟨?_, fun s hs => (horders s hs).2.2, hdepth⟩
  intro s hs
  rcases List.mem_cons.1 hs with rfl | hs
  · exact Term.wellFormed_of_madeOf hterm hzero
  · obtain ⟨hmade, hszero, -⟩ := horders s hs
    exact Term.wellFormed_of_madeOf hmade hszero

theorem compute_wellFormed_quotient :
    ∃ d : Derivation Float, compute ⟨"x^2.5/(y - 1)", "x", 2⟩ {} = .ok d ∧
      (∀ t ∈ d.term :: d.orders, t.WellFormed (NamesSymbol (Expr.meaningful "x^2.5/(y - 1)"))) ∧
      (∀ t ∈ d.orders, t.size ≤ 100000) ∧ d.term.depth ≤ 512 := by
  have hok : (compute ⟨"x^2.5/(y - 1)", "x", 2⟩ {} :
      Except Failure (Derivation Float)).toOption.isSome = true := by decide +kernel
  cases hd : (compute ⟨"x^2.5/(y - 1)", "x", 2⟩ {} : Except Failure (Derivation Float)) with
  | error failure =>
    rw [hd] at hok
    cases hok
  | ok d => exact ⟨d, rfl, compute_wellFormed hd⟩

end Derivation

end Fluxion
