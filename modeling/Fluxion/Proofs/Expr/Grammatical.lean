import Fluxion.Proofs.Expr.Completeness
import Fluxion.Scalar.Binary64

/-!
# The reader and the grammar agree

Reading a text gives a tree if and only if the grammar derives it from all of the significant tokens
of the text, each once and in order, with two reservations: numbers have to be finite, and
expressions can be nested too deeply to be read.
-/

namespace Fluxion.Expr

variable {α : Type} [Scalar α] [Numeral α]

/-- Whatever is read is spelled by the text, in finite numbers; and whatever a text spells in finite
numbers is read, unless it is nested too deeply. -/
theorem ofText_reads_grammar (text : String) (e : Expr α) :
    (ofText text = .ok e → Spells text e ∧ e.Proper) ∧
    (Spells text e → e.Proper → ofText text = .ok e ∨
      ∃ f, ofText (α := α) text = .error f ∧ f.cause = .nestedTooDeeply maxNesting) := by
  constructor
  · intro h
    exact spells_of_ofText h
  · intro hspells hproper
    exact ofText_of_spells hspells hproper

/-- A multiplication that is left out binds more loosely than the sign before its left operand and
the power in its right one. -/
theorem ofText_reads_grammar_juxtaposed :
    let e : Expr Float :=
      .binary ⟨.times, true, ⟨4, 4⟩⟩
        (.negation ⟨0, 1⟩ (.paren (.symbol "x" ⟨2, 3⟩) ⟨1, 4⟩) ⟨0, 4⟩)
        (.binary ⟨.power, false, ⟨5, 6⟩⟩ (.symbol "y" ⟨4, 5⟩) (.symbol "z" ⟨6, 7⟩) ⟨4, 7⟩) ⟨0, 7⟩
    ofText "-(x)y^z" = .ok e ∧ Spells "-(x)y^z" e ∧ e.Proper ∧
      (ofText "-(x)y^z" = .ok e ∨
        ∃ f, ofText (α := Float) "-(x)y^z" = .error f ∧ f.cause = .nestedTooDeeply maxNesting) := by
  intro e
  have hread : ofText "-(x)y^z" = .ok e := by cbv
  obtain ⟨hspells, hproper⟩ := (ofText_reads_grammar "-(x)y^z" e).1 hread
  exact ⟨hread, hspells, hproper, (ofText_reads_grammar "-(x)y^z" e).2 hspells hproper⟩

end Fluxion.Expr
