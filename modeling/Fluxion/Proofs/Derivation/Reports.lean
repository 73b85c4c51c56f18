import Fluxion.Fault.Message
import Fluxion.Proofs.Derivation.Failures
import Fluxion.Proofs.Text.Places

/-!
# Where reports point

A failure shows where a token of the expression starts, or at its end, which is always between two
characters. Spans are counted in bytes. The report takes the offset for a number of characters, and
so it only points at the place of the fault if all characters before it are ASCII; behind other
characters it points too far, and possibly at no place at all.
-/

namespace Fluxion

/-- The offset is between two characters of the text, or at one of its ends. -/
def Text.Boundary (text : String) (offset : Nat) : Prop :=
  ∃ before after, text = before ++ after ∧ before.utf8ByteSize = offset

theorem Span.Marks.boundary {span : Span} {text piece : String} (h : span.Marks text piece) :
    Text.Boundary text span.start := by
  obtain ⟨before, after, htext, hstart, -⟩ := h
  exact ⟨before, piece ++ after, by rw [htext, String.append_assoc], hstart.symm⟩

namespace Expr

variable {α : Type} [Scalar α] [Numeral α] {text : String} {e : Expr α}

omit [Scalar α] [Numeral α] in
theorem boundary_of_token {t : Token} (h : t ∈ Token.scan text) :
    Text.Boundary text t.span.start := by
  obtain ⟨front, back, hscan⟩ := List.append_of_mem h
  have hpieces : Token.scan text = front ++ [t] ++ back := by simp [hscan]
  rw [Token.span_of_scan hscan]
  exact (Token.marks_characters hpieces).boundary

/-- A fault of reading starts with a token, or at the end of the text. -/
theorem boundary_of_fault {fault : Fault} (h : ofText (α := α) text = .error fault) {span : Span}
    (hspan : span ∈ fault.spans) : Text.Boundary text span.start := by
  obtain ⟨place, pointed, hplace, -, hspans, hshows⟩ := pointed_of_ofText h
  rw [hspans, List.mem_singleton] at hspan
  subst hspan
  have hsublist : place.tokens.Sublist (Token.scan text) := by
    rw [hplace]
    exact List.filter_sublist
  obtain ⟨hstart, -, -⟩ := hshows.span_bounds hsublist
  rw [hstart]
  cases hahead : place.ahead with
  | nil =>
    rw [Cursor.here, hahead]
    exact ⟨text, "", by simp, rfl⟩
  | cons t rest =>
    rw [Cursor.here, hahead]
    refine boundary_of_token (hsublist.subset (List.mem_append_right _ ?_))
    rw [hahead]
    exact List.mem_cons_self

/-- Every part of an expression starts with a token. -/
theorem boundary_of_node (h : ofText text = .ok e) {n : Expr α} (hn : n ∈ e.nodes) :
    Text.Boundary text n.span.start := by
  obtain ⟨hspells, -⟩ := spells_of_ofText h
  obtain ⟨cat, c, c', hderives, hc⟩ := Derives.derivedIn hspells n hn
  obtain ⟨piece, r, hmarks, -, -⟩ := hderives.fragment hc
  exact hmarks.boundary

omit [Numeral α] in
theorem WritesZero.exists_node {zero : Span} (h : e.WritesZero zero) :
    ∃ n ∈ e.nodes, n.span = zero := by
  induction h with
  | number hzero => exact ⟨_, List.mem_cons_self, rfl⟩
  | paren _ ih =>
    obtain ⟨n, hn, hspan⟩ := ih
    exact ⟨n, List.mem_cons_of_mem _ hn, hspan⟩

theorem boundary_of_zeroDivisor? (h : ofText text = .ok e) {zero : Span}
    (hzero : e.zeroDivisor? = some zero) : Text.Boundary text zero.start := by
  obtain ⟨dividend, ⟨op, divisor, span, hquotient, -, hwritten⟩, -⟩ :=
    exists_of_zeroDivisor?_eq_some (placed_of_ofText h) hzero
  obtain ⟨n, hn, hspan⟩ := hwritten.exists_node
  have hpart : n ∈ e.nodes :=
    mem_nodes_trans (right_nodes_subset op dividend divisor span hn) hquotient
  rw [← hspan]
  exact boundary_of_node h hpart

end Expr

namespace Derivation

variable {α : Type} [Scalar α] [Numeral α] {request : Request} {options : Options}
  {failure : Failure}

/-- Wherever a failure shows, a token starts or the expression ends. -/
theorem boundary_of_failure (h : FailsWith α request options failure) {span : Span}
    (hspan : span ∈ failure.fault.spans) : Text.Boundary request.expression span.start := by
  cases h with
  | invalid hfirst => cases hspan
  | unreadable hall hread =>
    rcases hread with hread | ⟨e, he, hterm⟩
    · exact Expr.boundary_of_fault hread hspan
    · obtain ⟨-, n, hn, hspans⟩ := Expr.faultOfTerm_term hterm
      replace hspan : span ∈ [n.span] := hspans ▸ hspan
      rw [List.mem_singleton.1 hspan]
      exact Expr.boundary_of_node he hn
  | divisionByZero spans hspans =>
    rcases hspans with rfl | ⟨e, zero, he, hzero, rfl⟩
    · cases hspan
    · rw [List.mem_singleton.1 hspan]
      exact Expr.boundary_of_zeroDivisor? he hzero
  | resultTooLarge hk horder => cases hspan

end Derivation

namespace Fault

variable {fault : Fault} {span : Span} {rest : List Span}

theorem location?_eq (h : fault.spans = span :: rest) (text : String) :
    fault.location? text = some (Text.Position.text (Text.Position.of? text.toList span.start)) := by
  rw [location?, position?, h]
  rfl

end Fault

namespace Text.Position

/-- What is written of the offset in bytes is what is written of the place, if and only if all
characters before it are ASCII. It is written that there is no place if and only if there are fewer
characters. -/
theorem text_of?_bytes (before after : String) :
    ∃ place, of? (before ++ after).toList before.length = some place ∧
      (text (of? (before ++ after).toList before.utf8ByteSize) = text (some place) ↔
        ∀ c ∈ before.toList, c.toNat < 128) ∧
      (text (of? (before ++ after).toList before.utf8ByteSize) = text none ↔
        (before ++ after).length < before.utf8ByteSize) := by
  have hsome : (of? (before ++ after).toList before.length).isSome := by
    rw [of?, advance_isSome_iff, String.toList_append, List.length_append, String.length_toList]
    exact Nat.le_add_right _ _
  obtain ⟨place, hplace⟩ := Option.isSome_iff_exists.1 hsome
  obtain ⟨-, hascii⟩ := length_le_utf8ByteSize before.toList
  rw [String.ofList_toList, String.length_toList] at hascii
  refine ⟨place, hplace, ?_, ?_⟩
  · rw [← hascii]
    constructor
    · intro h
      exact of?_inj (text_inj h) hplace
    · intro h
      rw [h, hplace]
  · have hlength : (before ++ after).toList.length = (before ++ after).length := String.length_toList
    rw [← hlength, ← Nat.not_le, ← advance_isSome_iff ⟨1, 1⟩, Option.not_isSome_iff_eq_none]
    constructor
    · intro h
      exact text_inj h
    · intro h
      rw [of?, h]

end Text.Position

namespace Derivation

variable {α : Type} [Scalar α] [Numeral α]

/-- Whenever a failure has a span, the span starts between two characters of the expression, which has
a place. The report shows the character whose number is the offset in bytes: it shows the place of
the fault if and only if all characters before it are ASCII, and question marks if and only if the
expression has fewer characters. -/
theorem compute_located {request : Request} {options : Options} {failure : Failure} {span : Span}
    {rest : List Span} (h : compute (α := α) request options = .error failure)
    (hspans : failure.fault.spans = span :: rest) :
    failure.fault.location? request.expression =
      some (Text.Position.text (Text.Position.of? request.expression.toList span.start)) ∧
    ∃ before after place, request.expression = before ++ after ∧
      before.utf8ByteSize = span.start ∧
      Text.Position.of? request.expression.toList before.length = some place ∧
      (failure.fault.location? request.expression = some (Text.Position.text (some place)) ↔
        ∀ c ∈ before.toList, c.toNat < 128) ∧
      (failure.fault.location? request.expression = some "?:?" ↔
        request.expression.length < span.start) := by
  have hlocation := Fault.location?_eq hspans request.expression
  have hmem : span ∈ failure.fault.spans := by rw [hspans]; exact List.mem_cons_self
  have hboundary := boundary_of_failure (failsWith_of_compute h) hmem
  obtain ⟨before, after, htext, hstart⟩ := hboundary
  obtain ⟨place, hplace, hascii, hnone⟩ := Text.Position.text_of?_bytes before after
  rw [← htext, hstart] at hascii hnone
  rw [← htext] at hplace
  refine ⟨hlocation, before, after, place, htext, hstart, hplace, ?_, ?_⟩
  · rw [hlocation, Option.some_inj, hascii]
  · rw [hlocation, Option.some_inj]
    exact hnone

/-- Nothing is wrong with the request if the first derivative with respect to `x` is asked for, unless
there is no expression. -/
theorem compute_first_of_unread {text : String} {fault : Fault} (htext : ¬ Text.Blank text.toList)
    (hread : Expr.ofText (α := α) text = .error fault) :
    compute (α := α) ⟨text, "x", 1⟩ {} = .error (.unreadable fault) := by
  have hvar : Request.trimmedVariable ⟨text, "x", 1⟩ = "x" :=
    (by decide +kernel : Request.trimmedVariable ⟨"", "x", 1⟩ = "x")
  have hname := isVariable_eq_true_iff.1 (by decide +kernel : isVariable "x" = true)
  refine compute_of_unreadable ?_ (.inl hread)
  simp only [Request.checks, List.forall_mem_cons, hvar]
  exact ⟨htext, by decide +kernel, hname, by decide, by decide, by simp⟩

/-- A sign of multiplication takes up two bytes. In `x×$ + y` the report points at the space behind the
character that is not allowed. -/
theorem compute_located_sign :
    let text := "x×$ + y"
    let failure : Failure := .unreadable (.hard (.unexpectedCharacter "$") ⟨3, 4⟩)
    compute (α := Float) ⟨text, "x", 1⟩ {} = .error failure ∧
    failure.fault.spans = [⟨3, 4⟩] ∧ failure.fault.location? text = some "1:4" ∧
    ∃ before after place, text = before ++ after ∧ before.utf8ByteSize = 3 ∧
      Text.Position.of? text.toList before.length = some place ∧
      (failure.fault.location? text = some (Text.Position.text (some place)) ↔
        ∀ c ∈ before.toList, c.toNat < 128) := by
  intro text failure
  have hread : Expr.ofText (α := Float) text = .error failure.fault := by cbv
  have hfails : compute (α := Float) ⟨text, "x", 1⟩ {} = .error failure :=
    compute_first_of_unread (by decide +kernel) hread
  have hspans : failure.fault.spans = [⟨3, 4⟩] := rfl
  obtain ⟨-, before, after, place, htext, hsize, hplace, hascii, -⟩ := compute_located hfails hspans
  exact ⟨hfails, hspans, by decide +kernel, before, after, place, htext, hsize, hplace, hascii⟩

/-- In `x×y×$` the character that is not allowed is the fifth one, and the report points at no place. -/
theorem report_mislocated :
    let text := "x×y×$"
    let failure : Failure := .unreadable (.hard (.unexpectedCharacter "$") ⟨6, 7⟩)
    compute (α := Float) ⟨text, "x", 1⟩ {} = .error failure ∧
    text = "x×y×" ++ "$" ∧ "x×y×".utf8ByteSize = 6 ∧
    Text.Position.of? text.toList "x×y×".length = some ⟨1, 5⟩ ∧
    failure.fault.location? text = some "?:?" := by
  intro text failure
  have hread : Expr.ofText (α := Float) text = .error failure.fault := by cbv
  have hfails : compute (α := Float) ⟨text, "x", 1⟩ {} = .error failure :=
    compute_first_of_unread (by decide +kernel) hread
  exact ⟨hfails, by decide +kernel, by decide +kernel, by decide +kernel, by decide +kernel⟩

end Derivation

end Fluxion
