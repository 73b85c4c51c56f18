import Fluxion.Proofs.Derivation.WellFormed
import Fluxion.Proofs.Expr.Fragments

/-!
# Variables

What may be asked for as a variable is told from the name alone: it has to be a single token, a
name, and no function may be known by it. That the reader takes just these names for symbols is
another matter, for it comes to a symbol only after it has tried a call. Both ways of telling agree,
and with them a third one: the name occurs as a symbol in some expression.
-/

namespace Fluxion

namespace Expr

variable {α : Type} [Scalar α]

/-- Every symbol in an expression is among those that it is made of. -/
theorem MadeOf.of_symbol_mem {allowed : String → Prop} {e : Expr α} {name : String} {span : Span}
    (he : e.MadeOf allowed) (h : symbol name span ∈ e.nodes) : allowed name := by
  induction e with
  | number value s =>
    cases List.mem_singleton.1 h
  | symbol other s =>
    cases List.mem_singleton.1 h
    exact he
  | paren _ _ ih | call _ _ _ _ _ ih | negation _ _ _ ih =>
    rcases List.mem_cons.1 h with heq | h
    · cases heq
    · exact ih he h
  | binary op left right s ihl ihr =>
    rcases List.mem_cons.1 h with heq | h
    · cases heq
    · rcases List.mem_append.1 h with h | h
      · exact ihl he.1 h
      · exact ihr he.2 h

end Expr

/-- A token that is a name of no function may be asked for as a variable. -/
theorem isVariable_of_namesSymbol {text name : String}
    (h : Token.NamesSymbol (Expr.meaningful text) name) : isVariable name = true := by
  obtain ⟨⟨t, ht, hkind, rfl⟩, hfunc⟩ := h
  obtain ⟨u, hscan, hu⟩ := Token.scan_lexeme (List.mem_of_mem_filter ht)
  refine isVariable_eq_true_iff.2 ⟨u, hscan, hu.trans hkind, ?_⟩
  exact Func.ofName?_eq_none_iff.2 hfunc

section

variable {α : Type} [Scalar α] [Numeral α]

omit [Scalar α] in
/-- The grammar derives a symbol from a variable. -/
theorem spells_of_isVariable {name : String} (h : isVariable name = true) :
    ∃ span, Expr.Spells name (.symbol name span : Expr α) := by
  obtain ⟨t, hscan, hkind, hfunc⟩ := isVariable_eq_true_iff.1 h
  obtain ⟨-, hlexeme⟩ := Token.isName_of_scan hscan hkind
  have hsignificant : t.isSignificant = true := by
    rw [Token.isSignificant, Token.isSpace, hkind]
    rfl
  have hmeaningful : Expr.meaningful name = [t] := by
    rw [Expr.meaningful, hscan, List.filter_cons_of_pos hsignificant, List.filter_nil]
  have hsymbol : Expr.Derives (α := α) .atom ⟨[], [t]⟩ (.symbol t.lexeme t.span) ⟨[t], []⟩ := by
    refine .symbol hkind (hlexeme ▸ hfunc) ?_
    intro u hu
    cases hu
  refine ⟨t.span, ?_⟩
  rw [Expr.Spells, hmeaningful]
  rw [hlexeme] at hsymbol
  exact hsymbol.loosen (by decide)

/-- A name may be asked for as a variable if and only if it is read as a symbol of that name, which
is so if and only if a symbol of that name occurs in any expression at all. -/
theorem isVariable_iff_read (name : String) :
    (isVariable name = true ↔
      ∃ span, Expr.ofText name = .ok (.symbol name span : Expr α)) ∧
    (isVariable name = true ↔
      ∃ (text : String) (e : Expr α) (span : Span), Expr.ofText text = .ok e ∧
        .symbol name span ∈ e.nodes) := by
  have hread (h : isVariable name = true) :
      ∃ span, Expr.ofText name = .ok (.symbol name span : Expr α) := by
    obtain ⟨span, hspells⟩ := spells_of_isVariable (α := α) h
    have hneed : (Expr.symbol name span : Expr α).need ≤ maxNesting := by
      show 1 ≤ 128
      decide
    exact ⟨span, (Expr.ofText_iff_need_le hspells trivial).2 hneed⟩
  have hoccurs {text : String} {e : Expr α} {span : Span} (he : Expr.ofText text = .ok e)
      (h : .symbol name span ∈ e.nodes) : isVariable name = true :=
    isVariable_of_namesSymbol ((Expr.madeOf_of_ofText he).of_symbol_mem h)
  refine ⟨⟨hread, ?_⟩, ?_, ?_⟩
  · rintro ⟨span, h⟩
    exact hoccurs h (List.mem_singleton_self _)
  · intro h
    obtain ⟨span, hspan⟩ := hread h
    exact ⟨name, _, span, hspan, List.mem_singleton_self _⟩
  · rintro ⟨text, e, span, he, h⟩
    exact hoccurs he h

end

end Fluxion
