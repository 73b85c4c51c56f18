import Fluxion.Proofs.Derivation.Extension

/-!
# What an outline does with any lines

Lines are arranged without a look at who wrote them, in whatever order and at whatever depths they
come. A line becomes the next step, is indented, stands alone if it is a separator, or is dropped if
it need not be kept. So an outline is a selection of the lines in their order, and its steps are
numbered one after the other.
-/

namespace Fluxion

variable {α : Type}

namespace Entry

/-- The number of the step that starts here, if one does. -/
def number? : Entry α → Option Nat
  | numbered number _ => some number
  | indented _ _ | bare _ => none

/-- A line at any level starts with the spaces of the first one. -/
theorem indent_prefix_text {levels : Nat} (l : Line α) (h : 0 < levels) :
    (indent 1).toList <+: (indented levels l).text.toList := by
  obtain ⟨more, rfl⟩ := Nat.exists_eq_add_of_lt h
  have hindent : indent (0 + more + 1) = indent 1 ++ indent more := by
    rw [indent, indent, indent, ← String.ofList_append, List.replicate_append_replicate]
    congr 2
    omega
  rw [text, hindent, String.toList_append, String.toList_append, List.append_assoc]
  exact List.prefix_append _ _

end Entry

namespace Line

/-- Whether the line is kept wherever it stands: it names operands, or it is not about a part of the
term. -/
def isPermanent : Line α → Bool
  | computing _ _ | given _ _ | result _ _ _ | separator | operands _ _ _ => true
  | rule _ _ depth | separately _ depth | header _ _ _ _ depth | note _ depth => depth == 0

/-- Whether the line announces an operand, but belongs to the whole term. -/
def isTopHeader : Line α → Bool
  | header _ _ _ _ depth => depth == 0
  | _ => false

end Line

namespace Outline

/-- What may become of a line after `n` steps: the entries it is given, and the number of steps that
there are with it. -/
inductive Placed (n : Nat) (l : Line α) : Nat → List (Entry α) → Prop
  | numbered : Placed n l (n + 1) [.numbered (n + 1) l]
  | indented {levels : Nat} (h : 0 < levels ∨ l.isTopHeader = true) :
    Placed n l n [.indented levels l]
  | bare (h : l = .separator) : Placed n l n [.bare l]
  | dropped (h : l.isPermanent = false) : Placed n l n []

/-- Lines and what may become of them after `n` steps, one line after the other. -/
inductive Laid : Nat → List (Line α) → List (Entry α) → Prop
  | nil (n : Nat) : Laid n [] []
  | cons {n n' : Nat} {l : Line α} {rest : List (Line α)} {first entries : List (Entry α)}
    (h : Placed n l n' first) (hrest : Laid n' rest entries) : Laid n (l :: rest) (first ++ entries)

/-! ## A single line -/

section Line

variable (s : State) {l : Line α}

theorem step_meeting : (s.meeting l).step = s.step := by
  unfold State.meeting
  split <;> rfl

/-- A line that is not about a part of the term ends what is dropped. -/
theorem clear_meeting_of_top (h : l.depth = 0) : Clear (s.meeting l) := by
  rw [State.meeting, if_pos h]
  rfl

theorem drops_operands (var : String) (named : List (Char × String)) (depth : Nat) :
    s.drops (.operands var named depth : Line α) = false := by
  unfold State.drops
  cases s.skipped <;> rfl

/-- What is dropped need not be kept. -/
theorem isPermanent_of_drops (h : (s.meeting l).drops l = true) : l.isPermanent = false := by
  have hdepth : l.depth ≠ 0 := by
    intro htop
    rw [drops_of_clear (clear_meeting_of_top s htop)] at h
    cases h
  cases l with
  | computing _ _ | given _ _ | result _ _ _ | separator => exact absurd rfl hdepth
  | operands var named depth =>
    rw [drops_operands] at h
    cases h
  | rule _ _ _ | separately _ _ | header _ _ _ _ _ | note _ _ => exact beq_eq_false_iff_ne.2 hdepth

/-- A line that is indented below its depth, or dropped. -/
theorem placed_keep (context : Context) :
    Placed (s.meeting l).step l ({ s.meeting l with context := context }.keep l).1.step
      ({ s.meeting l with context := context }.keep l).2 := by
  unfold State.keep
  split
  · next hdrops => exact .dropped (isPermanent_of_drops s hdrops)
  · exact .indented (.inl (Nat.succ_pos _))

/-- Whatever was met before, a line becomes the next step, is indented, stands alone, or need not be
kept. -/
theorem placed_place (l : Line α) :
    Placed s.step l ((s.meeting l).place l).1.step ((s.meeting l).place l).2 := by
  rw [← step_meeting s (l := l)]
  cases l with
  | computing order var => exact .numbered
  | result order label expr => exact .numbered
  | given label expr => exact .indented (.inl Nat.one_pos)
  | separator => exact .bare rfl
  | operands var named depth => exact placed_keep s _
  | note text depth => exact placed_keep s _
  | separately var depth =>
    rcases Nat.eq_zero_or_pos depth with rfl | hdepth
    · exact .numbered
    · rw [place_separately_of_pos hdepth]
      exact placed_keep s .operands
  | rule name formula depth =>
    simp only [State.place]
    split
    · split
      · exact .indented (.inl Nat.one_pos)
      · exact .numbered
    · exact placed_keep s .rule
  | header name var term expr depth =>
    rcases Nat.eq_zero_or_pos depth with rfl | hdepth
    · exact .indented (.inr rfl)
    · simp only [State.place]
      split
      · exact .dropped (beq_eq_false_iff_ne.2 (Nat.ne_of_gt hdepth))
      · exact .indented (.inl hdepth)

end Line

/-! ## Any number of lines -/

/-- Lines are placed one after the other. -/
theorem laid_arrangeFrom (s : State) (lines : List (Line α)) :
    Laid s.step lines (arrangeFrom s lines) := by
  induction lines generalizing s with
  | nil => exact .nil _
  | cons l rest ih => exact .cons (placed_place s l) (ih _)

section Laid

variable {n : Nat} {lines : List (Line α)} {entries : List (Entry α)}

/-- The lines that are kept are lines that were given, in their order. -/
theorem Laid.sublist (h : Laid n lines entries) : (entries.map Entry.line).Sublist lines := by
  induction h with
  | nil => exact List.Sublist.refl _
  | cons h _ ih =>
    cases h with
    | numbered | indented _ | bare _ => exact ih.cons_cons _
    | dropped _ => exact ih.cons _

/-- The steps have the numbers that follow those before. -/
theorem Laid.numbers_eq (h : Laid n lines entries) :
    entries.filterMap Entry.number? = List.range' (n + 1) (entries.countP Entry.isNumbered) := by
  induction h with
  | nil => rfl
  | @cons n _ l _ _ _ h _ ih =>
    cases h with
    | numbered =>
      have hnumber : Entry.number? (.numbered (n + 1) l : Entry α) = some (n + 1) := rfl
      rw [List.singleton_append, List.filterMap_cons_some hnumber, ih,
        List.countP_cons_of_pos rfl, List.range'_succ]
    | indented _ | bare _ => exact ih
    | dropped _ => exact ih

/-- Of the lines that have to be kept, none is left out. -/
theorem Laid.filter_isPermanent (h : Laid n lines entries) :
    (entries.map Entry.line).filter Line.isPermanent = lines.filter Line.isPermanent := by
  induction h with
  | nil => rfl
  | cons h _ ih =>
    cases h with
    | numbered | indented _ | bare _ =>
      rw [List.cons_append, List.nil_append, List.map_cons, List.filter_cons, List.filter_cons, ih]
      rfl
    | dropped hnot =>
      rw [List.nil_append, ih, List.filter_cons_of_neg (Bool.eq_false_iff.1 hnot)]

/-- What starts no step and is no separator is indented, headers of the whole term apart. -/
theorem Laid.indented (h : Laid n lines entries) :
    ∀ e ∈ entries, e.isNumbered = false → e.line ≠ .separator → e.line.isTopHeader = false →
      ∃ levels, 0 < levels ∧ e = .indented levels e.line := by
  induction h with
  | nil => simp
  | cons h _ ih =>
    intro e he hnumbered hseparator hheader
    rcases List.mem_append.1 he with he | he
    · cases h with
      | dropped _ => cases he
      | numbered =>
        cases List.mem_singleton.1 he
        cases hnumbered
      | bare hl =>
        cases List.mem_singleton.1 he
        exact absurd hl hseparator
      | indented hlevels =>
        cases List.mem_singleton.1 he
        rcases hlevels with hlevels | htop
        · exact ⟨_, hlevels, rfl⟩
        · exact absurd htop (Bool.eq_false_iff.1 hheader)
    · exact ih e he hnumbered hseparator hheader

end Laid

end Outline

/-- Of any lines, an outline shows a selection in their order, no line twice, whether or not the rule
for the whole term takes its note along. The steps are numbered one after the other from one on. No
announcement, nothing that is given, no result, separator or line that names operands, and no line at
depth zero is left out. What starts no step is indented by three spaces at least, separators and
headers at depth zero apart. -/
theorem Line.outline_selects_in_order (lines : List (Line α)) :
    ∃ entries : List (Entry α), Line.outline lines = entries.map Entry.text ∧
      Outline.arrangeAhead .initial lines = entries ∧
      (entries.map Entry.line).Sublist lines ∧
      entries.filterMap Entry.number? = List.range' 1 (entries.countP Entry.isNumbered) ∧
      (entries.map Entry.line).filter Line.isPermanent = lines.filter Line.isPermanent ∧
      ∀ e ∈ entries, e.isNumbered = false → e.line ≠ .separator → e.line.isTopHeader = false →
        "   ".toList <+: e.text.toList := by
  have hlaid := Outline.laid_arrangeFrom .initial lines
  refine ⟨Outline.arrange lines, rfl, Outline.arrangeAhead_eq _ _, hlaid.sublist, hlaid.numbers_eq,
    hlaid.filter_isPermanent, ?_⟩
  intro e he hnumbered hseparator hheader
  obtain ⟨levels, hlevels, heq⟩ := hlaid.indented e he hnumbered hseparator hheader
  rw [heq]
  exact Entry.indent_prefix_text e.line hlevels

end Fluxion
