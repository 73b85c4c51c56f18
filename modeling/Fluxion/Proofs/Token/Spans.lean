import Mathlib
import Fluxion.Cursor

/-!
# Where tokens stand

The tokens of a text fill it from its first byte to its last one, each with at least one byte and
none overlapping another. So a place between two tokens is told from its offset, and the end of the
last token is the end of the text.
-/

namespace Fluxion

namespace Token

/-- The tokens fill the bytes from `start` to `stop` without a gap. -/
inductive Covers : (start stop : Nat) → List Token → Prop
  | nil (n : Nat) : Covers n n []
  | cons {start stop : Nat} {t : Token} {rest : List Token} (hstart : t.span.start = start)
      (hlt : start < t.span.stop) (hrest : Covers t.span.stop stop rest) :
      Covers start stop (t :: rest)

theorem fraction_prefix_self (cs : List Char) : fraction cs <+: cs := by
  unfold fraction
  split
  · split
    · next d rest _ =>
      obtain ⟨after, hafter⟩ := List.takeWhile_prefix (p := Char.isDigit) (l := rest)
      exact ⟨after, by rw [List.cons_append, List.cons_append, hafter]⟩
    · exact List.nil_prefix
  · exact List.nil_prefix

/-- A token takes its characters from the front of the text. -/
theorem first_prefix_rest (c : Char) (rest : List Char) : (first c rest).2 <+: rest := by
  unfold first
  split
  · exact List.takeWhile_prefix _
  · split
    · exact List.takeWhile_prefix _
    · split
      · exact List.takeWhile_prefix _
      · split
        · obtain ⟨after, hafter⟩ := fraction_prefix_self (rest.dropWhile Char.isDigit)
          refine ⟨after, ?_⟩
          rw [number, List.append_assoc, hafter, List.takeWhile_append_dropWhile]
        · split
          · exact List.nil_prefix
          · next point digits hfraction =>
            have hfront := fraction_prefix_self (c :: rest)
            rw [hfraction] at hfront
            exact (List.cons_prefix_cons.1 hfront).2

/-- Scanning leaves no gap. -/
theorem scanFrom_covers (offset : Nat) (cs : List Char) :
    Covers offset (offset + (String.ofList cs).utf8ByteSize) (scanFrom offset cs) := by
  fun_induction scanFrom offset cs with
  | case1 offset => exact .nil offset
  | case2 offset c rest kind tail hfirst lexeme stop ih =>
    obtain ⟨after, hafter⟩ : tail <+: rest := by
      have hfront := first_prefix_rest c rest
      rwa [hfirst] at hfront
    have hdrop : rest.drop tail.length = after := by
      rw [← hafter, List.drop_left]
    have hsize : offset + (String.ofList (c :: rest)).utf8ByteSize =
        stop + (String.ofList after).utf8ByteSize := by
      rw [← hafter, ← List.cons_append, String.ofList_append, String.utf8ByteSize_append]
      exact (Nat.add_assoc _ _ _).symm
    have hpos : 0 < lexeme.utf8ByteSize := by
      rw [Nat.pos_iff_ne_zero, ne_eq, String.utf8ByteSize_eq_zero_iff]
      intro hempty
      have hnil : c :: tail = [] := String.ofList_injective hempty
      cases hnil
    rw [hdrop] at ih ⊢
    rw [hsize]
    exact .cons rfl (Nat.lt_add_of_pos_right hpos) ih

theorem scan_covers (text : String) : Covers 0 text.utf8ByteSize (scan text) := by
  have h := scanFrom_covers 0 text.toList
  rwa [String.ofList_toList, Nat.zero_add] at h

namespace Covers

variable {start stop : Nat} {ts : List Token}

theorem le (h : Covers start stop ts) : start ≤ stop := by
  induction h with
  | nil n => exact Nat.le_refl n
  | cons _ hlt _ ih => omega

theorem of_mem (h : Covers start stop ts) {t : Token} (ht : t ∈ ts) :
    start ≤ t.span.start ∧ t.span.start < t.span.stop ∧ t.span.stop ≤ stop := by
  induction h with
  | nil n => cases ht
  | cons hstart hlt hrest ih =>
    rcases List.mem_cons.1 ht with rfl | ht
    · exact ⟨by omega, by omega, hrest.le⟩
    · obtain ⟨hle, hspan⟩ := ih ht
      exact ⟨by omega, hspan⟩

/-- Every token ends before the next one starts. -/
theorem pairwise (h : Covers start stop ts) :
    ts.Pairwise fun t u => t.span.stop ≤ u.span.start := by
  induction h with
  | nil n => exact .nil
  | cons _ _ hrest ih => exact .cons (fun u hu => (hrest.of_mem hu).1) ih

theorem stop_getLast (h : Covers start stop ts) {t : Token} (ht : ts.getLast? = some t) :
    t.span.stop = stop := by
  induction h with
  | nil n => cases ht
  | @cons start stop u rest _ _ hrest ih =>
    cases rest with
    | nil =>
      cases hrest
      cases ht
      rfl
    | cons v rest => exact ih (by rwa [List.getLast?_cons_cons] at ht)

end Covers

end Token

namespace Cursor

open Token (Covers)

variable {stop : Nat} {c : Cursor}

/-- Where the next token stands, or the end of the text if there is none. -/
def here (stop : Nat) (c : Cursor) : Span :=
  match c.ahead with
  | t :: _ => t.span
  | [] => .empty stop

/-- The end of the expression is the end of the text. -/
theorem endSpan_eq (h : Covers 0 stop c.tokens) : c.endSpan = .empty stop := by
  unfold endSpan
  cases hahead : c.ahead.getLast? with
  | some t =>
    have hlast : c.tokens.getLast? = some t := by
      rw [tokens, List.getLast?_append, hahead]
      rfl
    exact congrArg Span.empty (h.stop_getLast hlast)
  | none =>
    have hnil := List.getLast?_eq_none_iff.1 hahead
    cases hpassed : c.passed.head? with
    | some t =>
      have hlast : c.tokens.getLast? = some t := by
        rw [tokens, hnil, List.append_nil, List.getLast?_reverse, hpassed]
      exact congrArg Span.empty (h.stop_getLast hlast)
    | none =>
      rw [tokens, hnil, List.head?_eq_none_iff.1 hpassed] at h
      cases h
      rfl

/-- The tokens before a place are those that end before the next token starts. -/
theorem passed_eq_filter {ts : List Token} (h : Covers 0 stop ts) (hc : c.tokens.Sublist ts) :
    c.passed.reverse = c.tokens.filter fun t => t.span.stop ≤ (c.here stop).start := by
  have hpairwise := h.pairwise.sublist hc
  rw [tokens, List.pairwise_append] at hpairwise
  obtain ⟨-, hahead, hacross⟩ := hpairwise
  have hmem : ∀ t ∈ c.passed.reverse ++ c.ahead,
      t.span.start < t.span.stop ∧ t.span.stop ≤ stop := by
    intro t ht
    exact (h.of_mem (hc.subset ht)).2
  have hbefore : ∀ t ∈ c.passed.reverse, t.span.stop ≤ (c.here stop).start := by
    intro t ht
    unfold here
    split
    · next u rest hcons => exact hacross t ht u (by rw [hcons]; exact List.mem_cons_self)
    · exact (hmem t (List.mem_append_left _ ht)).2
  have hafter : ∀ t ∈ c.ahead, ¬ t.span.stop ≤ (c.here stop).start := by
    intro t ht
    have hlt := (hmem t (List.mem_append_right _ ht)).1
    unfold here
    split
    · next u rest hcons =>
      rw [hcons] at ht hahead
      rcases List.mem_cons.1 ht with rfl | ht
      · omega
      · have hgap := (List.pairwise_cons.1 hahead).1 t ht
        have hnext := (hmem u (by rw [hcons]; simp)).1
        omega
    · next hnil =>
      rw [hnil] at ht
      cases ht
  rw [tokens, List.filter_append, List.filter_eq_self.2 (by simpa using hbefore),
    List.filter_eq_nil_iff.2 (by simpa using hafter), List.append_nil]

end Cursor

end Fluxion
