import Fluxion.Proofs.Expr.Completeness
import Fluxion.Scalar.Binary64

/-!
# The limit of nesting

Whether an expression is nested too deeply is a matter of its tree alone: it is read if the levels
that the tree needs can be entered, and refused otherwise. A chain needs what the most demanding of
its operands needs, however long it is.
-/

namespace Fluxion.Expr

variable {α : Type}

/-- An operator and what stands after it in a chain. -/
structure Link (α : Type) where
  operator : Operator
  right : Expr α
  /-- The span of the chain up to here. -/
  span : Span

/-- A chain of operators that is grouped to the left. -/
def chain (first : Expr α) (links : List (Link α)) : Expr α :=
  links.foldl (fun left link => binary link.operator left link.right link.span) first

theorem need_binary (op : Operator) (left right : Expr α) (span : Span) :
    (binary op left right span).need = max left.need (1 + right.afterOperator) := by
  have hbody : (binary op left right span).body = max left.body right.afterOperator := by
    rw [body, extent_binary, body, ← Nat.max_assoc]
    rfl
  rw [need, need, hbody]
  omega

/-- A chain needs no more levels than its operands need one by one. -/
theorem need_chain_le_iff {first : Expr α} {links : List (Link α)} {most : Nat} :
    (chain first links).need ≤ most ↔
      first.need ≤ most ∧ ∀ link ∈ links, 1 + link.right.afterOperator ≤ most := by
  induction links generalizing first with
  | nil => simp [chain]
  | cons link links ih =>
    have hchain : chain first (link :: links) =
        chain (binary link.operator first link.right link.span) links := rfl
    rw [hchain, ih, need_binary, Nat.max_le, List.forall_mem_cons, and_assoc]

variable [Scalar α] [Numeral α]

/-- A text that spells an expression in finite numbers is read if and only if the expression needs no
more levels than can be entered, and otherwise the fault is that it is nested too deeply, and fatal.
In particular, a chain is read if each of its operands is one that can be read in its place, and the
number of operands does not matter. -/
theorem ofText_within_levels {text : String} {e : Expr α} (h : Spells text e) (hproper : e.Proper) :
    (ofText text = .ok e ↔ e.need ≤ maxNesting) ∧
    (¬ e.need ≤ maxNesting → ∃ f, ofText (α := α) text = .error f ∧
      f.cause = .nestedTooDeeply maxNesting ∧ f.fatal = true) ∧
    (∀ first links, e = chain first links →
      (ofText text = .ok e ↔
        first.need ≤ maxNesting ∧ ∀ link ∈ links, 1 + link.right.afterOperator ≤ maxNesting)) := by
  have hread : ofText text = .ok e ↔ e.need ≤ maxNesting := by
    rcases ofText_gives h hproper with ⟨hok, hfits⟩ | ⟨f, herror, -, hdeep⟩
    · exact iff_of_true hok hfits
    · refine iff_of_false ?_ (Nat.not_le_of_lt hdeep)
      rw [herror]
      rintro ⟨⟩
  refine ⟨hread, ?_, ?_⟩
  · intro hneed
    rcases ofText_gives h hproper with ⟨-, hfits⟩ | ⟨f, herror, hf, -⟩
    · exact absurd hfits hneed
    · exact ⟨f, herror, hf⟩
  · rintro first links rfl
    rw [hread, need_chain_le_iff]

/-- In `x-w^-y+z`, the operand `w^-y` is extended one level further in, where its sign takes another
level. -/
theorem ofText_within_levels_chain :
    let first : Expr Float := .symbol "x" ⟨0, 1⟩
    let links : List (Link Float) :=
      [⟨⟨.minus, false, ⟨1, 2⟩⟩,
        .binary ⟨.power, false, ⟨3, 4⟩⟩ (.symbol "w" ⟨2, 3⟩)
          (.negation ⟨4, 5⟩ (.symbol "y" ⟨5, 6⟩) ⟨4, 6⟩) ⟨2, 6⟩, ⟨0, 6⟩⟩,
       ⟨⟨.plus, false, ⟨6, 7⟩⟩, .symbol "z" ⟨7, 8⟩, ⟨0, 8⟩⟩]
    let e := chain first links
    Spells "x-w^-y+z" e ∧ e.Proper ∧ e.need = 3 ∧
      (ofText "x-w^-y+z" = .ok e ↔ e.need ≤ maxNesting) ∧ ofText "x-w^-y+z" = .ok e := by
  intro first links e
  have hok : ofText "x-w^-y+z" = .ok e := by cbv
  obtain ⟨hspells, hproper⟩ := spells_of_ofText hok
  have hneed : e.need = 3 := rfl
  have hread := (ofText_within_levels hspells hproper).1
  exact ⟨hspells, hproper, hneed, hread, hread.2 (by rw [hneed]; decide)⟩

end Fluxion.Expr
