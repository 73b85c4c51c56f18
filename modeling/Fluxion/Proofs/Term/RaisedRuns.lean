import Mathlib
import Fluxion.Term.Text

/-!
# Runs of raised characters

What is written in raised digits can be written after a caret instead. Every run of raised
characters, taken as long as it is, becomes a caret and the number that the run denotes, in
parentheses if it has a minus sign; all other characters stay. What comes of a text that is put
together from two is put together from what comes of them, unless a run goes on from the one to the
other.
-/

namespace Fluxion.Term

/-- The digit or the minus sign that a raised character stands for. -/
def lowerChar? : Char → Option Char
  | '⁻' => some '-'
  | '⁰' => some '0'
  | '¹' => some '1'
  | '²' => some '2'
  | '³' => some '3'
  | '⁴' => some '4'
  | '⁵' => some '5'
  | '⁶' => some '6'
  | '⁷' => some '7'
  | '⁸' => some '8'
  | '⁹' => some '9'
  | _ => none

/-- Whether a character is raised. -/
def isRaised (c : Char) : Bool := (lowerChar? c).isSome

/-- A run of raised characters as the number that it denotes, after a caret. -/
def loweredRun (run : List Char) : List Char :=
  let number := run.filterMap lowerChar?
  '^' :: wrapIf (startsWithMinus number) number

/-- The text with every maximal run of raised characters written after a caret. -/
def lowered (cs : List Char) : List Char :=
  (cs.splitBy fun c d => isRaised c && isRaised d).flatMap fun run =>
    if run.all isRaised then loweredRun run else run

/-! ## Characters -/

theorem lowerChar?_of_raiseChar? {c r : Char} (h : raiseChar? c = some r) :
    lowerChar? r = some c := by
  unfold raiseChar? at h
  split at h <;> cases h <;> rfl

/-- A raised character is neither a minus sign nor one that a coefficient can be written before. -/
theorem neutral_of_isRaised {r : Char} (h : isRaised r = true) :
    (r == '-') = false ∧ (Text.isAlphabetic r || r == '(') = false := by
  obtain ⟨c, hc⟩ := Option.isSome_iff_exists.1 h
  unfold lowerChar? at hc
  split at hc <;> cases hc <;> decide +kernel

theorem isDigit_of_isRaised {r : Char} (h : isRaised r = true) : r.isDigit = false := by
  obtain ⟨c, hc⟩ := Option.isSome_iff_exists.1 h
  unfold lowerChar? at hc
  split at hc <;> cases hc <;> decide

/-- What a raised character stands for is not raised. -/
theorem isRaised_of_lowerChar? {r c : Char} (h : lowerChar? r = some c) : isRaised c = false := by
  unfold lowerChar? at h
  split at h <;> cases h <;> decide

/-- The characters of a text in raised digits are raised, and stand for those of the text. -/
theorem lowerChar?_of_mapM_raiseChar? {cs rs : List Char} (h : cs.mapM raiseChar? = some rs) :
    rs.filterMap lowerChar? = cs ∧ ∀ r ∈ rs, isRaised r = true := by
  induction cs generalizing rs with
  | nil =>
    cases h
    exact ⟨rfl, by simp⟩
  | cons c cs ih =>
    rw [List.mapM_cons] at h
    obtain ⟨r, hr, h⟩ := Option.bind_eq_some_iff.1 h
    obtain ⟨rs', hrs', h⟩ := Option.bind_eq_some_iff.1 h
    cases h
    obtain ⟨hlower, hraised⟩ := ih hrs'
    have hchar := lowerChar?_of_raiseChar? hr
    constructor
    · rw [List.filterMap_cons_some hchar, hlower]
    · rw [List.forall_mem_cons]
      exact ⟨Option.isSome_iff_exists.2 ⟨c, hchar⟩, hraised⟩

/-! ## Runs -/

theorem isRaised_of_isChain {c d : Char} {rest : List Char}
    (h : (c :: d :: rest).IsChain fun c d => (isRaised c && isRaised d) = true) :
    ∀ e ∈ c :: d :: rest, isRaised e = true := by
  induction rest generalizing c d with
  | nil =>
    obtain ⟨hpair, -⟩ := List.isChain_cons_cons.1 h
    simpa using hpair
  | cons e rest ih =>
    obtain ⟨hpair, hrest⟩ := List.isChain_cons_cons.1 h
    rw [List.forall_mem_cons]
    exact ⟨(Bool.and_eq_true_iff.1 hpair).1, ih hrest⟩

/-- A run is made of raised characters, or is a single character that is not raised. -/
theorem run_cases {cs run : List Char}
    (h : run ∈ cs.splitBy fun c d => isRaised c && isRaised d) :
    (∀ c ∈ run, isRaised c = true) ∨ ∃ c, run = [c] ∧ isRaised c = false := by
  match run, List.isChain_of_mem_splitBy h with
  | [], _ => exact .inl (by simp)
  | [c], _ =>
    cases hc : isRaised c with
    | true => exact .inl (by simpa using hc)
    | false => exact .inr ⟨c, rfl, hc⟩
  | c :: d :: rest, hchain => exact .inl (isRaised_of_isChain hchain)

theorem lowered_append {cs ds : List Char}
    (h : ∀ c ∈ cs.getLast?, ∀ d ∈ ds.head?, (isRaised c && isRaised d) = false) :
    lowered (cs ++ ds) = lowered cs ++ lowered ds := by
  rw [lowered, List.splitBy_append h, List.flatMap_append]
  rfl

theorem lowered_cons {c : Char} (h : isRaised c = false) (cs : List Char) :
    lowered (c :: cs) = c :: lowered cs := by
  have hrun : lowered [c] = [c] := by
    change (if isRaised c && true then _ else [c]) ++ [] = [c]
    rw [h]
    rfl
  rw [← List.singleton_append, lowered_append (by simp [h]), hrun]
  rfl

/-- A text without raised characters stays. -/
theorem lowered_eq_self {cs : List Char} (h : ∀ c ∈ cs, isRaised c = false) : lowered cs = cs := by
  induction cs with
  | nil => rfl
  | cons c cs ih =>
    obtain ⟨hc, hcs⟩ := List.forall_mem_cons.1 h
    rw [lowered_cons hc, ih hcs]

/-- A text of raised characters is a run. -/
theorem lowered_of_raised {run : List Char} (hne : run ≠ [])
    (h : ∀ c ∈ run, isRaised c = true) : lowered run = loweredRun run := by
  have hpairwise : run.Pairwise fun c d => (isRaised c && isRaised d) = true :=
    List.pairwise_of_forall_mem_list fun c hc d hd => by rw [h c hc, h d hd]; rfl
  rw [lowered, List.splitBy_of_isChain hne hpairwise.isChain, List.flatMap_singleton,
    if_pos (List.all_eq_true.2 h)]

/-- What stands after a caret has no raised characters. -/
theorem isRaised_of_mem_loweredRun {run : List Char} {c : Char} (h : c ∈ loweredRun run) :
    isRaised c = false := by
  have hnumber : ∀ d ∈ run.filterMap lowerChar?, isRaised d = false := by
    intro d hd
    obtain ⟨r, -, hr⟩ := List.mem_filterMap.1 hd
    exact isRaised_of_lowerChar? hr
  rcases List.mem_cons.1 h with rfl | h
  · rfl
  unfold wrapIf at h
  split at h
  · rcases List.mem_append.1 h with h | h
    · rcases List.mem_cons.1 h with rfl | h
      · rfl
      · exact hnumber c h
    · rw [List.mem_singleton.1 h]
      rfl
  · exact hnumber c h

/-- No raised characters are left. -/
theorem isRaised_of_mem_lowered {cs : List Char} {c : Char} (h : c ∈ lowered cs) :
    isRaised c = false := by
  obtain ⟨run, hrun, hc⟩ := List.mem_flatMap.1 h
  split at hc
  · exact isRaised_of_mem_loweredRun hc
  · next hall =>
    rcases run_cases hrun with hraised | ⟨d, rfl, hd⟩
    · exact absurd (List.all_eq_true.2 hraised) hall
    · rwa [List.mem_singleton.1 hc]

/-- A text starts as before, unless it starts with a run. -/
theorem head?_lowered (cs : List Char) :
    (lowered cs).head? = cs.head?.map fun c => if isRaised c then '^' else c := by
  cases hruns : cs.splitBy fun c d => isRaised c && isRaised d with
  | nil =>
    obtain rfl := List.splitBy_eq_nil.1 hruns
    rfl
  | cons run runs =>
    have hrun := List.mem_cons_self (a := run) (l := runs)
    have hcs := List.flatten_splitBy (fun c d => isRaised c && isRaised d) cs
    rw [hruns, List.flatten_cons] at hcs
    rw [← hruns] at hrun
    rw [lowered, hruns, List.flatMap_cons, ← hcs]
    rcases run_cases hrun with hraised | ⟨c, rfl, hc⟩
    · obtain ⟨c, rest, rfl⟩ := List.exists_cons_of_ne_nil (List.ne_nil_of_mem_splitBy hrun)
      rw [if_pos (List.all_eq_true.2 hraised)]
      simp [loweredRun, hraised c List.mem_cons_self]
    · simp [hc]

/-! ## What decides about parentheses and asterisks -/

/-- A caret and a raised character are alike for whatever looks for neither of them. -/
theorem any_head?_lowered {p : Char → Bool} (hcaret : p '^' = false)
    (hraised : ∀ c, isRaised c = true → p c = false) (cs : List Char) :
    (lowered cs).head?.any p = cs.head?.any p := by
  rw [head?_lowered]
  cases cs with
  | nil => rfl
  | cons c cs =>
    cases hc : isRaised c with
    | false => simp [hc]
    | true => simp [hc, hcaret, hraised c hc]

theorem startsWithMinus_eq (cs : List Char) :
    startsWithMinus cs = cs.head?.any (· == '-') := by
  cases cs <;> rfl

theorem takesCoefficient_eq (cs : List Char) :
    takesCoefficient cs = cs.head?.any fun c => Text.isAlphabetic c || c == '(' := by
  cases cs <;> rfl

theorem startsWithMinus_lowered (cs : List Char) :
    startsWithMinus (lowered cs) = startsWithMinus cs := by
  rw [startsWithMinus_eq, startsWithMinus_eq]
  exact any_head?_lowered rfl (fun c hc => (neutral_of_isRaised hc).1) cs

theorem takesCoefficient_lowered (cs : List Char) :
    takesCoefficient (lowered cs) = takesCoefficient cs := by
  rw [takesCoefficient_eq, takesCoefficient_eq]
  exact any_head?_lowered (by decide +kernel) (fun c hc => (neutral_of_isRaised hc).2) cs

end Fluxion.Term
