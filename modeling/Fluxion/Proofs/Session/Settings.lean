import Fluxion.Session

/-!
# The settings of a session

What a line can do to a session: a command that is carried out sets the one setting that it names, a
command that is refused changes nothing, and any other line changes the expression alone. What comes
of a line depends on the settings, and not on the expression of an earlier line.
-/

namespace Fluxion

/-- What a command can set. -/
inductive Setting where
  | var
  | order
  | style
  | steps
  deriving DecidableEq, Repr, Inhabited

namespace Setting

/-- The name of the command. -/
def name : Setting → String
  | var => "var"
  | order => "order"
  | style => "style"
  | steps => "steps"

theorem name_inj {a b : Setting} : a.name = b.name ↔ a = b := by
  cases a <;> cases b <;> decide

/-- The style that an argument stands for. -/
def styleOf? : String → Option ExponentStyle
  | "caret" => some .caret
  | "superscript" => some .raised
  | _ => none

/-- Whether an argument asks for an explanation. -/
def stepsOf? : String → Option Bool
  | "on" => some true
  | "off" => some false
  | _ => none

theorem styleOf?_eq_some {arg : String} {style : ExponentStyle} (h : styleOf? arg = some style) :
    arg = "caret" ∧ style = .caret ∨ arg = "superscript" ∧ style = .raised := by
  unfold styleOf? at h
  split at h <;> simp_all

theorem stepsOf?_eq_some {arg : String} {steps : Bool} (h : stepsOf? arg = some steps) :
    arg = "on" ∧ steps = true ∨ arg = "off" ∧ steps = false := by
  unfold stepsOf? at h
  split at h <;> simp_all

end Setting

namespace Session

open Setting (styleOf? stepsOf?)

variable {s s' t : Session} {setting : Setting} {name arg text line : String}

/-! ## Commands -/

/-- The session `s` becomes another one by giving a setting the value that an argument stands for. -/
inductive Sets (s : Session) : Setting → String → Session → Prop where
  | var (arg : String) : Sets s .var arg { s with var := arg }
  | order {arg : String} {order : Int} (horder : orderOfText arg = .ok order) :
    Sets s .order arg { s with order := order }
  | style {arg : String} {style : ExponentStyle} (hstyle : styleOf? arg = some style) :
    Sets s .style arg { s with options.exponentStyle := style }
  | steps {arg : String} {steps : Bool} (hsteps : stepsOf? arg = some steps) :
    Sets s .steps arg { s with options.steps := steps }

/-- A command that is carried out sets the setting that it names. -/
theorem sets_of_change (h : s.change name arg = .ok (s', text)) :
    ∃ setting : Setting, name = setting.name ∧ s.Sets setting arg s' := by
  unfold change at h
  split at h
  · cases h
    exact ⟨.var, rfl, .var arg⟩
  · split at h
    · next horder =>
      cases h
      exact ⟨.order, rfl, .order horder⟩
    · cases h
  · cases h
    exact ⟨.style, rfl, .style rfl⟩
  · cases h
    exact ⟨.style, rfl, .style rfl⟩
  · cases h
    exact ⟨.steps, rfl, .steps rfl⟩
  · cases h
    exact ⟨.steps, rfl, .steps rfl⟩
  all_goals cases h

/-- Whatever can be set is set by a command. -/
theorem change_of_sets (h : s.Sets setting arg s') :
    ∃ text, s.change setting.name arg = .ok (s', text) := by
  cases h with
  | var => exact ⟨_, rfl⟩
  | @order _ order horder =>
    refine ⟨s!"order set to {order}", ?_⟩
    simp only [Setting.name, change, horder]
  | style hstyle =>
    obtain ⟨rfl, rfl⟩ | ⟨rfl, rfl⟩ := Setting.styleOf?_eq_some hstyle
    · exact ⟨_, rfl⟩
    · exact ⟨_, rfl⟩
  | steps hsteps =>
    obtain ⟨rfl, rfl⟩ | ⟨rfl, rfl⟩ := Setting.stepsOf?_eq_some hsteps
    · exact ⟨_, rfl⟩
    · exact ⟨_, rfl⟩

/-- A command that is carried out names a setting, and sets it. -/
theorem sets_of_apply (h : s.apply line = .ok (s', text)) :
    ∃ (setting : Setting) (arg : String),
      commandWords line = (some setting.name, some arg) ∧ s.Sets setting arg s' := by
  unfold apply at h
  split at h
  · cases h
  · next first arg hwords =>
    obtain ⟨setting, hname, hsets⟩ := sets_of_change h
    cases first with
    | none =>
      rw [Option.getD_none] at hname
      cases setting <;> exact absurd hname (by decide)
    | some name =>
      rw [Option.getD_some] at hname
      exact ⟨setting, arg, hname ▸ hwords, hsets⟩

/-- A command that is refused names no setting, or it gives no value of the setting. -/
theorem not_sets_of_apply {fault : CommandFault} (h : s.apply line = .error fault)
    (hwords : commandWords line = (some setting.name, some arg)) : ¬ s.Sets setting arg s' := by
  intro hsets
  obtain ⟨text, htext⟩ := change_of_sets hsets
  simp only [apply, hwords, Option.getD_some, htext] at h
  cases h

/-! ## Lines -/

/-- What a line can do to a session, and what comes of it. -/
inductive Handles (s : Session) (line : String) : Session → Response → Prop where
  /-- A command is carried out. -/
  | changed {setting : Setting} {arg text : String} {s' : Session}
    (hcommand : isCommand line = true)
    (hwords : commandWords line = (some setting.name, some arg)) (hsets : s.Sets setting arg s') :
    Handles s line s' (.changed text)
  /-- A command is refused, since there is nothing that it could set. -/
  | refused {fault : CommandFault} (hcommand : isCommand line = true)
    (hnone : ∀ (setting : Setting) (arg : String) (s' : Session),
      commandWords line = (some setting.name, some arg) → ¬ s.Sets setting arg s') :
    Handles s line s (.refused line fault)
  /-- An expression is differentiated, with success or not. -/
  | expression (hexpression : isCommand line = false) :
    Handles s line { s with expression := line } { s with expression := line }.respond

theorem handles_handle (s : Session) (line : String) :
    s.Handles line (s.handle line).1 (s.handle line).2 := by
  unfold handle
  by_cases hcommand : isCommand line = true
  · rw [if_pos hcommand]
    cases happly : s.apply line with
    | ok changed =>
      obtain ⟨setting, arg, hwords, hsets⟩ := sets_of_apply happly
      exact .changed hcommand hwords hsets
    | error fault =>
      apply Handles.refused hcommand
      intro setting arg s' hwords
      exact not_sets_of_apply happly hwords
  · rw [if_neg hcommand]
    exact .expression (eq_false_of_ne_true hcommand)

/-! ## Sessions with the same settings -/

/-- Only the expressions of the sessions may differ. -/
def Alike (s t : Session) : Prop :=
  { s with expression := t.expression } = t

theorem Alike.refl (s : Session) : s.Alike s := rfl

/-- What a command does has nothing to do with the expression. -/
theorem change_expression (s : Session) (expression name arg : String) :
    { s with expression := expression }.change name arg =
      (s.change name arg).map fun (s', text) => ({ s' with expression := expression }, text) := by
  unfold change
  split
  · rfl
  · split <;> rfl
  all_goals rfl

theorem apply_expression (s : Session) (expression line : String) :
    { s with expression := expression }.apply line =
      (s.apply line).map fun (s', text) => ({ s' with expression := expression }, text) := by
  unfold apply
  split
  · rfl
  · exact change_expression s expression _ _

/-- The expression of a line takes the place of the one before it. -/
theorem Alike.expression (h : s.Alike t) (line : String) :
    { s with expression := line } = { t with expression := line } := by
  rw [← h]

/-- The same comes of a line in sessions with the same settings, and they still have the same settings
afterwards. -/
theorem Alike.handle (h : s.Alike t) (line : String) :
    (s.handle line).2 = (t.handle line).2 ∧ (s.handle line).1.Alike (t.handle line).1 := by
  unfold Session.handle
  by_cases hcommand : isCommand line = true
  · rw [if_pos hcommand, if_pos hcommand, ← h, apply_expression s t.expression line]
    cases s.apply line with
    | ok changed => exact ⟨rfl, rfl⟩
    | error fault => exact ⟨rfl, rfl⟩
  · rw [if_neg hcommand, if_neg hcommand, h.expression line]
    exact ⟨rfl, .refl _⟩

/-- A line that fails leaves all settings as they are. -/
theorem Handles.alike_of_fails {response : Response} (h : s.Handles line s' response)
    (hfails : response.succeeded = false) : s.Alike s' := by
  cases h with
  | changed => cases hfails
  | refused => exact .refl _
  | expression => exact rfl

end Session

end Fluxion
