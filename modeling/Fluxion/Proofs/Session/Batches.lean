import Mathlib.Logic.Function.Basic
import Fluxion.Proofs.Session.Settings
import Fluxion.Proofs.Text.Lines

/-!
# Failures in a batch

The lines of a batch are handled in one session. What a line meets there are the settings that were
last given by a command, and a line that fails can be left out without an effect on the others. A line
that cannot be read is another matter: with it the batch ends. The exit status tells whether all lines
could be read, and were handled if they hold something.
-/

namespace Fluxion

open Session (isBlank isCommand commandWords)

/-! ## The settings that were given last -/

/-- The settings of a session are the last that were given, or the ones at the start. -/
structure Session.SetBy (s : Session) (last : Setting → Option String) : Prop where
  var : s.var = (last .var).getD "x"
  order : (last .order).elim (.ok 1) orderOfText = .ok s.order
  style : (last .style).elim (some .caret) Setting.styleOf? = some s.options.exponentStyle
  steps : (last .steps).elim (some true) Setting.stepsOf? = some s.options.steps
  /-- No command is there for the limits and the order of sums. -/
  rest : { s.options with exponentStyle := .caret, steps := true } = {}

namespace Session.SetBy

variable {s s' t : Session} {last : Setting → Option String}

theorem start : ({} : Session).SetBy fun _ => none :=
  ⟨rfl, rfl, rfl, rfl, rfl⟩

theorem expression (h : s.SetBy last) (line : String) : { s with expression := line }.SetBy last :=
  ⟨h.var, h.order, h.style, h.steps, h.rest⟩

/-- The values that were given last leave no choice about the settings. -/
theorem alike (hs : s.SetBy last) (ht : t.SetBy last) : s.Alike t := by
  have hvar : s.var = t.var := hs.var.trans ht.var.symm
  have horder : s.order = t.order := Except.ok.inj (hs.order.symm.trans ht.order)
  have hstyle : s.options.exponentStyle = t.options.exponentStyle :=
    Option.some.inj (hs.style.symm.trans ht.style)
  have hsteps : s.options.steps = t.options.steps :=
    Option.some.inj (hs.steps.symm.trans ht.steps)
  have hrest := hs.rest.trans ht.rest.symm
  obtain ⟨expression, var, order, options⟩ := s
  obtain ⟨expression', var', order', options'⟩ := t
  cases options
  cases options'
  simp_all [Alike]

/-- A command gives one setting another value, and leaves the last values of the others. -/
theorem sets {setting : Setting} {arg : String} (h : s.SetBy last) (hsets : s.Sets setting arg s') :
    s'.SetBy (Function.update last setting (some arg)) := by
  cases hsets with
  | var => exact ⟨rfl, h.order, h.style, h.steps, h.rest⟩
  | order horder => exact ⟨h.var, horder, h.style, h.steps, h.rest⟩
  | style hstyle => exact ⟨h.var, h.order, hstyle, h.steps, h.rest⟩
  | steps hsteps => exact ⟨h.var, h.order, h.style, hsteps, h.rest⟩

end Session.SetBy

/-! ## One line -/

/-- What a line of an input can do to a session, and what comes of it. -/
inductive Session.Takes (s : Session) : InputLine → Session → Option Response → Prop where
  | blank {line : String} (hblank : isBlank line = true) : s.Takes (.text line) s none
  | handled {line : String} {s' : Session} {response : Response} (hblank : isBlank line = false)
    (hhandles : s.Handles line s' response) : s.Takes (.text line) s' (some response)
  | unread (fault : ReadFault) : s.Takes (.unread fault) s (some (.unread fault))

/-- A line that fails leaves the settings as they are, also if it cannot be read. -/
theorem Session.Takes.alike_of_fails {s s' : Session} {line : InputLine} {response : Response}
    (h : s.Takes line s' (some response)) (hfails : response.succeeded = false) : s.Alike s' := by
  cases h with
  | handled hblank hhandles => exact hhandles.alike_of_fails hfails
  | unread fault => exact .refl _

namespace Batch

variable {b c : Batch} {line : InputLine} {lines : List InputLine} {outcome : Option Response}

theorem next_of_blank (b : Batch) {line : String} (hblank : isBlank line = true) :
    b.next (.text line) = (b, none) :=
  if_pos hblank

theorem next_of_not_blank (b : Batch) {line : String} (hblank : isBlank line = false) :
    b.next (.text line) =
      (⟨(b.session.handle line).1, b.succeeded && (b.session.handle line).2.succeeded⟩,
        some (b.session.handle line).2) := by
  rw [next, if_neg (by simp [hblank])]

theorem takes_next (b : Batch) (line : InputLine) :
    b.session.Takes line (b.next line).1.session (b.next line).2 := by
  cases line with
  | text line =>
    cases hblank : isBlank line with
    | true =>
      rw [next_of_blank b hblank]
      exact .blank hblank
    | false =>
      rw [next_of_not_blank b hblank]
      exact .handled hblank (Session.handles_handle _ _)
  | unread fault => exact .unread fault

/-- The batch still succeeds unless something comes of the line that is a failure. -/
theorem succeeded_next (b : Batch) (line : InputLine) :
    (b.next line).1.succeeded = (b.succeeded && (b.next line).2.all Response.succeeded) := by
  cases line with
  | text line =>
    cases hblank : isBlank line with
    | true =>
      rw [next_of_blank b hblank]
      exact (Bool.and_true _).symm
    | false => rw [next_of_not_blank b hblank, Option.all_some]
  | unread fault => exact (Bool.and_false _).symm

/-- The same comes of a line where the settings are the same. -/
theorem next_alike (h : b.session.Alike c.session) (line : InputLine) :
    (b.next line).2 = (c.next line).2 ∧
      (b.next line).1.session.Alike (c.next line).1.session := by
  cases line with
  | text line =>
    cases hblank : isBlank line with
    | true =>
      rw [next_of_blank b hblank, next_of_blank c hblank]
      exact ⟨rfl, h⟩
    | false =>
      obtain ⟨hresponse, hsession⟩ := h.handle line
      rw [next_of_not_blank b hblank, next_of_not_blank c hblank]
      exact ⟨congrArg some hresponse, hsession⟩
  | unread fault => exact ⟨rfl, h⟩

/-! ## The values that lines give -/

/-- The value that a line gave to a setting, if it is a command for it that was carried out. -/
def given (setting : Setting) : InputLine × Option Response → Option String
  | (.text line, some response) =>
    if isCommand line && response.succeeded && (commandWords line).1 == some setting.name then
      (commandWords line).2
    else
      none
  | _ => none

/-- The value that was given to a setting by the last of the lines that gave it one. -/
def lastGiven (entries : List (InputLine × Option Response)) (setting : Setting) : Option String :=
  (entries.filterMap (given setting)).getLast?

section Given

variable {entries : List (InputLine × Option Response)} {entry : InputLine × Option Response}

theorem lastGiven_append (entries : List (InputLine × Option Response))
    (entry : InputLine × Option Response) (setting : Setting) :
    lastGiven (entries ++ [entry]) setting =
      (given setting entry).or (lastGiven entries setting) := by
  simp only [lastGiven, List.filterMap_append]
  cases hgiven : given setting entry with
  | none => simp [hgiven]
  | some arg => simp [hgiven]

theorem lastGiven_append_of_none (h : ∀ setting, given setting entry = none) :
    lastGiven (entries ++ [entry]) = lastGiven entries := by
  funext setting
  rw [lastGiven_append, h setting, Option.none_or]

/-- A command for a setting gives no other setting a value. -/
theorem given_command {line : String} {setting : Setting} {arg : String} {response : Response}
    (hcommand : isCommand line = true) (hwords : commandWords line = (some setting.name, some arg))
    (hsucceeded : response.succeeded = true) (other : Setting) :
    given other (.text line, some response) = if other = setting then some arg else none := by
  have hname : setting.name = other.name ↔ other = setting := by
    rw [Setting.name_inj, eq_comm]
  simp [given, hcommand, hsucceeded, hwords, hname]

theorem lastGiven_append_command {line : String} {setting : Setting} {arg : String}
    {response : Response} (hcommand : isCommand line = true)
    (hwords : commandWords line = (some setting.name, some arg))
    (hsucceeded : response.succeeded = true) :
    lastGiven (entries ++ [(.text line, some response)]) =
      Function.update (lastGiven entries) setting (some arg) := by
  funext other
  rw [lastGiven_append, given_command hcommand hwords hsucceeded]
  by_cases hother : other = setting
  · subst hother
    simp
  · simp [hother]

/-- The values that were given last stay those of the session. -/
theorem setBy_next (h : b.session.SetBy (lastGiven entries)) (line : InputLine) :
    (b.next line).1.session.SetBy (lastGiven (entries ++ [(line, (b.next line).2)])) := by
  have htakes := takes_next b line
  generalize (b.next line).1.session = s', (b.next line).2 = outcome at htakes ⊢
  cases htakes with
  | blank hblank =>
    rw [lastGiven_append_of_none fun _ => rfl]
    exact h
  | handled hblank hhandles =>
    cases hhandles with
    | changed hcommand hwords hsets =>
      rw [lastGiven_append_command hcommand hwords rfl]
      exact h.sets hsets
    | refused hcommand hnone =>
      rw [lastGiven_append_of_none fun _ => by simp [given, Response.succeeded]]
      exact h
    | expression hexpression =>
      rw [lastGiven_append_of_none fun _ => by simp [given, hexpression]]
      exact h.expression _
  | unread fault =>
    rw [lastGiven_append_of_none fun _ => rfl]
    exact h

end Given

/-! ## All lines -/

/-- The lines of a batch that are handled, each with what comes of it. -/
def transcript (b : Batch) (lines : List InputLine) : List (InputLine × Option Response) :=
  lines.zip (b.run lines).2

theorem run_text (b : Batch) (line : String) (rest : List InputLine) :
    b.run (.text line :: rest) =
      (((b.next (.text line)).1.run rest).1,
        (b.next (.text line)).2 :: ((b.next (.text line)).1.run rest).2) := rfl

theorem run_unread (b : Batch) (fault : ReadFault) (rest : List InputLine) :
    b.run (.unread fault :: rest) = ((b.next (.unread fault)).1, [some (.unread fault)]) := rfl

theorem transcript_text (b : Batch) (line : String) (rest : List InputLine) :
    b.transcript (.text line :: rest) =
      (.text line, (b.next (.text line)).2) :: (b.next (.text line)).1.transcript rest := rfl

/-- Nothing comes of the lines after one that cannot be read. -/
theorem transcript_unread (b : Batch) (fault : ReadFault) (rest : List InputLine) :
    b.transcript (.unread fault :: rest) = [(.unread fault, some (.unread fault))] := by
  rw [transcript, run_unread, List.zip_cons_cons, List.zip_nil_right]

/-- The lines are handled up to the first one that cannot be read, with this one. -/
theorem transcript_fst (b : Batch) (lines : List InputLine) :
    (b.transcript lines).map Prod.fst = lines.take (lines.findIdx (!·.isText) + 1) := by
  induction lines generalizing b with
  | nil => rfl
  | cons line rest ih =>
    cases line with
    | text line =>
      rw [transcript_text, List.map_cons, ih, List.findIdx_cons]
      rfl
    | unread fault =>
      rw [transcript_unread, List.findIdx_cons]
      rfl

theorem transcript_snd (b : Batch) (lines : List InputLine) :
    (b.transcript lines).map Prod.snd = (b.run lines).2 := by
  induction lines generalizing b with
  | nil => rfl
  | cons line rest ih =>
    cases line with
    | text line =>
      rw [transcript_text, List.map_cons, ih]
      rfl
    | unread fault =>
      rw [transcript_unread]
      rfl

/-- The responses to the lines of an input are those of the transcript. -/
theorem run_input (input : ByteArray) :
    Session.run [] input = (transcript {} (inputLines input)).filterMap Prod.snd := by
  change (run {} (inputLines input)).2.filterMap id = _
  rw [← transcript_snd, List.filterMap_map, Function.id_comp]

theorem transcript_take (b : Batch) (lines : List InputLine) (i : Nat) :
    b.transcript (lines.take i) = (b.transcript lines).take i := by
  induction lines generalizing b i with
  | nil => simp [transcript]
  | cons line rest ih =>
    cases i with
    | zero => rfl
    | succ i =>
      cases line with
      | text line =>
        rw [List.take_succ_cons, transcript_text, transcript_text, ih, List.take_succ_cons]
      | unread fault =>
        rw [List.take_succ_cons, transcript_unread, transcript_unread, List.take_succ_cons,
          List.take_nil]

/-- Lines give their values after those that were given before them. -/
theorem setBy_run {entries : List (InputLine × Option Response)}
    (h : b.session.SetBy (lastGiven entries)) (lines : List InputLine) :
    (b.run lines).1.session.SetBy (lastGiven (entries ++ b.transcript lines)) := by
  induction lines generalizing b entries with
  | nil =>
    rw [transcript, List.zip_nil_left, List.append_nil]
    exact h
  | cons line rest ih =>
    have hnext := setBy_next h line
    cases line with
    | text line =>
      have hrest := ih hnext
      rwa [List.append_assoc] at hrest
    | unread fault =>
      rw [transcript_unread]
      exact hnext

/-- The same comes of all lines where the settings are the same. -/
theorem transcript_alike (h : b.session.Alike c.session) (lines : List InputLine) :
    b.transcript lines = c.transcript lines := by
  induction lines generalizing b c with
  | nil => rfl
  | cons line rest ih =>
    cases line with
    | text line =>
      obtain ⟨houtcome, hsession⟩ := next_alike h (.text line)
      rw [transcript_text, transcript_text, houtcome, ih hsession]
    | unread fault => rw [transcript_unread, transcript_unread]

/-- A line that fails can be left out, if it can be read. -/
theorem transcript_eraseIdx {i : Nat} {line : String} {response : Response}
    (hentry : (b.transcript lines)[i]? = some (.text line, some response))
    (hfails : response.succeeded = false) :
    b.transcript (lines.eraseIdx i) = (b.transcript lines).eraseIdx i := by
  induction lines generalizing b i with
  | nil => rfl
  | cons first rest ih =>
    cases first with
    | text first =>
      rw [transcript_text] at hentry ⊢
      cases i with
      | zero =>
        rw [List.getElem?_cons_zero, Option.some_inj, Prod.mk.injEq] at hentry
        have htakes := takes_next b (.text first)
        rw [hentry.2] at htakes
        exact transcript_alike (htakes.alike_of_fails hfails) rest
      | succ i =>
        rw [List.getElem?_cons_succ] at hentry
        rw [List.eraseIdx_cons_succ, List.eraseIdx_cons_succ, transcript_text, ih hentry]
    | unread fault =>
      rw [transcript_unread] at hentry
      cases i with
      | zero => cases hentry
      | succ i => cases hentry

/-- The line at a place of the transcript is handled where the lines before it lead. -/
theorem next_of_transcript {i : Nat} (hentry : (b.transcript lines)[i]? = some (line, outcome)) :
    ((b.run (lines.take i)).1.next line) = ((b.run (lines.take (i + 1))).1, outcome) := by
  induction lines generalizing b i with
  | nil => cases hentry
  | cons first rest ih =>
    cases first with
    | text first =>
      rw [transcript_text] at hentry
      cases i with
      | zero =>
        rw [List.getElem?_cons_zero, Option.some_inj, Prod.mk.injEq] at hentry
        obtain ⟨rfl, rfl⟩ := hentry
        rfl
      | succ i =>
        rw [List.getElem?_cons_succ] at hentry
        exact ih hentry
    | unread fault =>
      rw [transcript_unread] at hentry
      cases i with
      | zero =>
        cases hentry
        rfl
      | succ i => cases hentry

/-- A batch succeeds if and only if all of its lines could be read, and those that hold something
were handled with success. -/
theorem succeeded_run_iff (b : Batch) (lines : List InputLine) :
    (b.run lines).1.succeeded = true ↔
      b.succeeded = true ∧ ∀ entry ∈ b.transcript lines, ∃ line, entry.1 = .text line ∧
        (isBlank line = false → ∃ response, entry.2 = some response ∧ response.succeeded = true) := by
  induction lines generalizing b with
  | nil => simp [run, transcript]
  | cons line rest ih =>
    have hsucceeded := succeeded_next b line
    cases line with
    | text line =>
      have htakes := takes_next b (.text line)
      rw [run_text, transcript_text, List.forall_mem_cons, ← and_assoc, ih, hsucceeded]
      generalize (b.next (.text line)).1.session = s', (b.next (.text line)).2 = outcome at htakes ⊢
      cases htakes with
      | blank hblank => simp [hblank]
      | handled hblank hhandles => simp [hblank]
    | unread fault =>
      rw [run_unread, transcript_unread, hsucceeded]
      simp [next, Response.succeeded]

theorem exitStatus_eq_zero_iff (succeeded : Bool) : exitStatus succeeded = 0 ↔ succeeded = true := by
  cases succeeded <;> decide

/-- Failures stay without effects on the other lines of a batch, as long as lines can be read. The
lines are handled up to the first one that cannot be read, and all lines of a text can be. At every
line, the settings of the session are those that commands gave it last, and what comes of the line is
determined by them. The line can change no more of the session than `Session.Takes` tells. If it is
one that can be read, and fails, then all settings stay as they are, and the same comes of all other
lines without it. The exit status is zero if and only if every line could be read, and was handled
with success unless it is blank. -/
theorem failures_isolated (lines : List InputLine) :
    (transcript {} lines).unzip =
      (lines.take (lines.findIdx (!·.isText) + 1), (run {} lines).2) ∧
    (∀ input : ByteArray, inputLines input = lines →
      Session.run [] input = (transcript {} lines).filterMap Prod.snd) ∧
    (∀ text : String, (Text.lines text.toList).map (fun line => .text (String.ofList line)) = lines →
      Session.run [] text = (transcript {} lines).filterMap Prod.snd) ∧
    (∀ (i : Nat) (line : InputLine) (outcome : Option Response),
      (transcript {} lines)[i]? = some (line, outcome) →
      let s := (run {} (lines.take i)).1.session
      let s' := (run {} (lines.take (i + 1))).1.session
      let last := lastGiven ((transcript {} lines).take i)
      s.SetBy last ∧
      (∀ b : Batch, b.session.SetBy last → (b.next line).2 = outcome) ∧
      s.Takes line s' outcome ∧
      (∀ text response, line = .text text → outcome = some response → response.succeeded = false →
        s.Alike s' ∧ transcript {} (lines.eraseIdx i) = (transcript {} lines).eraseIdx i)) ∧
    (exitStatus (run {} lines).1.succeeded = 0 ↔
      ∀ entry ∈ transcript {} lines, ∃ line, entry.1 = .text line ∧
        (isBlank line = false →
          ∃ response, entry.2 = some response ∧ response.succeeded = true)) := by
  refine ⟨?_, ?_, ?_, ?_, ?_⟩
  · rw [List.unzip_eq_map, transcript_fst, transcript_snd]
  · rintro input rfl
    exact run_input input
  · rintro text rfl
    rw [← inputLines_text]
    exact run_input text
  · intro i line outcome hentry s s' last
    have hstart : ({} : Batch).session.SetBy (lastGiven []) := Session.SetBy.start
    have hsettings : s.SetBy last := by
      change s.SetBy (lastGiven ((transcript {} lines).take i))
      rw [← transcript_take]
      exact setBy_run hstart (lines.take i)
    have hnext := next_of_transcript hentry
    have houtcome : ((run {} (lines.take i)).1.next line).2 = outcome := by rw [hnext]
    have hsession : ((run {} (lines.take i)).1.next line).1.session = s' := by rw [hnext]
    have htakes : s.Takes line s' outcome := by
      have hline := takes_next (run {} (lines.take i)).1 line
      rwa [houtcome, hsession] at hline
    refine ⟨hsettings, ?_, htakes, ?_⟩
    · intro b hb
      rw [(next_alike (hb.alike hsettings) line).1]
      exact houtcome
    · rintro text response rfl rfl hfails
      exact ⟨htakes.alike_of_fails hfails, transcript_eraseIdx hentry hfails⟩
  · rw [exitStatus_eq_zero_iff, succeeded_run_iff]
    exact and_iff_right rfl

/-- An order that is no number is refused, and might as well not have been given; the line after a
line that cannot be read is not reached. -/
theorem failures_isolated_order :
    let lines : List InputLine := [.text ":var t", .text ":order two", .text ":style superscript",
      .unread .notText, .text "t^2"]
    (transcript {} lines)[1]? = some (.text ":order two",
      some (.refused ":order two" (.failed (.invalid (.invalidOrder "two"))))) ∧
    transcript {} (lines.eraseIdx 1) = (transcript {} lines).eraseIdx 1 ∧
    (transcript {} lines).unzip.1 = lines.take 4 := by
  intro lines
  have hentry : (transcript {} lines)[1]? = some (.text ":order two",
      some (.refused ":order two" (.failed (.invalid (.invalidOrder "two"))))) := rfl
  obtain ⟨hreached, -, -, hlines, -⟩ := failures_isolated lines
  obtain ⟨-, -, -, hfails⟩ := hlines 1 _ _ hentry
  exact ⟨hentry, (hfails _ _ rfl rfl rfl).2, congrArg Prod.fst hreached⟩

/-- A line that cannot be read is not isolated: nothing is printed for the line after it, unless it is
left out. And beside arguments an input is not handled at all, so that the exit status is zero even if
its lines fail. -/
theorem unread_line_not_isolated :
    let input := ":steps off\n".toUTF8 ++ ⟨#[0xff, 0x0a]⟩ ++ "x^2\n".toUTF8
    inputLines input = [.text ":steps off", .unread .notText, .text "x^2"] ∧
      (Session.run [] input).flatMap Response.output = ["steps are hidden"] ∧
      inputLines ":steps off\nx^2\n" = (inputLines input).eraseIdx 1 ∧
      (Session.run [] ":steps off\nx^2\n").flatMap Response.output =
        ["steps are hidden", "2x"] ∧
      exitStatus ((Session.run ["x"] "(\n").all Response.succeeded) = 0 ∧
      exitStatus (run {} (inputLines "(\n")).1.succeeded = 1 := by
  decide +kernel

end Batch

end Fluxion
