import Fluxion.Proofs.Expr.Keeping
import Fluxion.Proofs.Expr.Parentheses
import Fluxion.Proofs.Expr.Viable
import Fluxion.Proofs.Token.Spans
import Fluxion.Scalar.Binary64

/-!
# Faults tell the truth

A fault has one span, and the tokens before it begin an expression: it shows where reading cannot go
on for the first time. Around that place the tokens are as the cause of the fault says. Every reader
keeps to this, provided that it is called where an operand of its category is due. Faults that leave
room for another attempt need not be told apart from others, with one exception: a name that is no
call is left to be read as a symbol.
-/

namespace Fluxion

namespace Cursor

variable {c : Cursor}

theorem tokens_significant (c : Cursor) :
    c.significant.tokens = c.tokens.filter Token.isSignificant := by
  rw [tokens, tokens, significant, List.filter_append, List.filter_reverse]

/-- The span of a place is that of the next token. -/
theorem span_of_ahead {t : Token} {rest : List Token} (h : c.significant.ahead = t :: rest) :
    c.span = t.span := by
  rw [span, next?_eq, h]
  rfl

theorem span_of_end (h : c.significant.ahead = []) : c.span = c.endSpan := by
  rw [span, next?_eq, h]
  rfl

/-- The next significant token is taken. -/
def Takes (c : Cursor) (t : Token) (c' : Cursor) : Prop :=
  ∃ rest, c.significant.ahead = t :: rest ∧ c'.significant = ⟨t :: c.significant.passed, rest⟩

end Cursor

namespace Reader

open Cursor (Takes)

variable {β : Type} (c : Cursor)

theorem next_takes : next.Ends c (fun t c' => Takes c t c') (fun _ => True) := by
  refine ends_next ?_ (fun _ _ _ => trivial)
  intro t rest hahead c' hplace
  exact ⟨rest, hahead, hplace⟩

theorem accepting_takes (expected : List TokenKind) (accept : Token → Option β) :
    (accepting expected accept).Ends c (fun b c' => ∃ t, accept t = some b ∧ Takes c t c')
      (fun _ => True) := by
  refine ends_accepting ?_ (fun _ _ _ => trivial)
  intro t rest b hahead haccept c' hplace
  exact ⟨t, haccept, rest, hahead, hplace⟩

theorem token_takes (kind : TokenKind) :
    (token kind).Ends c (fun t c' => t.kind = kind ∧ Takes c t c')
      (fun _ => ∀ t ∈ c.significant.ahead.head?, t.kind ≠ kind) := by
  refine ends_token ?_ ?_
  · intro t rest hahead hkind c' hplace
    exact ⟨hkind, rest, hahead, hplace⟩
  · intro hnone _ _ t ht
    obtain ⟨rest, hahead⟩ := List.head?_eq_some_iff.1 ht
    exact hnone t rest hahead

end Reader

namespace Expr

variable (α : Type) [Scalar α] [Numeral α]

/-- What a cause says of the tokens around the place where the fault shows, and of its span. -/
inductive Shows (text : String) : Cause → Cursor → Span → Prop
  | emptyExpression : Shows text .emptyExpression ⟨[], []⟩ (.empty text.utf8ByteSize)
  | unexpectedEnd (passed : List Token) :
      Shows text .unexpectedEnd ⟨passed, []⟩ (.empty text.utf8ByteSize)
  /-- What comes before the place is an expression by itself. -/
  | expectedEnd {passed : List Token} (t : Token) (ahead : List Token) {e : Expr α}
      (he : Derives .sum ⟨[], passed.reverse⟩ e ⟨passed, []⟩) (hproper : e.Proper) :
      Shows text .expectedEnd ⟨passed, t :: ahead⟩ ⟨t.span.start, text.utf8ByteSize⟩
  | unopened {passed : List Token} {t : Token} (ahead : List Token) (hkind : t.kind = .closing)
      (hpartner : Unopened passed.reverse) :
      Shows text (.unclosedParenthesis false) ⟨passed, t :: ahead⟩ t.span
  | unclosed (passed : List Token) {t : Token} {ahead : List Token} (hkind : t.kind = .opening)
      (hpartner : Unclosed ahead) :
      Shows text (.unclosedParenthesis true) ⟨passed, t :: ahead⟩ t.span
  | emptyParenthesis (passed : List Token) {opening closing : Token} (ahead : List Token)
      (hopening : opening.kind = .opening) (hclosing : closing.kind = .closing) :
      Shows text .emptyParenthesis ⟨passed, opening :: closing :: ahead⟩
        (opening.span.cover closing.span)
  | unknownFunction (passed : List Token) {name opening : Token} (ahead : List Token)
      (hkind : name.kind = .name) (hname : Func.ofName? name.lexeme = none)
      (hopening : opening.kind = .opening) :
      Shows text (.unknownFunction name.lexeme) ⟨passed, name :: opening :: ahead⟩ name.span
  | missingArgument (passed : List Token) {name : Token} {ahead : List Token} {func : Func}
      (hkind : name.kind = .name) (hname : Func.ofName? name.lexeme = some func)
      (hnext : ∀ u ∈ ahead.head?, u.kind ≠ .opening) :
      Shows text (.missingArgument name.lexeme) ⟨passed, name :: ahead⟩ name.span
  | numberTooLarge (passed : List Token) {t : Token} (ahead : List Token)
      (hkind : t.kind = .int ∨ t.kind = .decimal)
      (hinfinite : Scalar.isFinite (Numeral.ofChars t.lexeme.toList : α) = false) :
      Shows text .numberTooLarge ⟨passed, t :: ahead⟩ t.span
  | unexpectedCharacter (passed : List Token) {t : Token} (ahead : List Token)
      (hkind : t.kind = .unknown) :
      Shows text (.unexpectedCharacter t.lexeme) ⟨passed, t :: ahead⟩ t.span
  | unexpectedToken (passed : List Token) {t : Token} (ahead : List Token)
      {expected : List TokenKind} (hkind : t.kind ∉ expected) :
      Shows text (.unexpectedToken expected t.kind) ⟨passed, t :: ahead⟩ t.span
  | nestedTooDeeply (place : Cursor) :
      Shows text (.nestedTooDeeply maxNesting) place (place.here text.utf8ByteSize)

/-- The fault shows at one span, behind tokens that begin an expression. -/
def Pointed (text : String) (f : Fault) : Prop :=
  ∃ place span, place.tokens = meaningful text ∧ Viable α place.passed ∧ f.spans = [span] ∧
    Shows α text f.cause place span

/-- Whenever the reader fails from the place, the fault tells the truth. -/
def Points {β : Type} (text : String) (r : Reader β) (c : Cursor) : Prop :=
  r.Ends c (fun _ _ => True) (Pointed α text)

variable {α} {β γ : Type} {text : String} {c : Cursor}

/-! ## Rules -/

omit [Scalar α] [Numeral α] in
theorem endSpan_of_scan (hc : c.tokens = Token.scan text) :
    c.endSpan = .empty text.utf8ByteSize :=
  Cursor.endSpan_eq (by rw [hc]; exact Token.scan_covers text)

theorem meaningful_of_scan (hc : c.tokens = Token.scan text) :
    c.significant.tokens = meaningful text := by
  rw [Cursor.tokens_significant, hc]
  rfl

/-- A fault at the next token. -/
theorem pointed_of_ahead {cause : Cause} {fatal : Bool} {t : Token} {rest : List Token}
    (hc : c.tokens = Token.scan text) (hviable : Viable α c.significant.passed)
    (hahead : c.significant.ahead = t :: rest) {span : Span}
    (hshows : Shows α text cause ⟨c.significant.passed, t :: rest⟩ span) :
    Pointed α text ⟨cause, [span], fatal⟩ := by
  refine ⟨c.significant, span, meaningful_of_scan hc, hviable, rfl, ?_⟩
  rwa [← hahead] at hshows

/-- A fault at the end of the text. -/
theorem pointed_of_end {cause : Cause} {fatal : Bool}
    (hc : c.tokens = Token.scan text) (hviable : Viable α c.significant.passed)
    (hahead : c.significant.ahead = [])
    (hshows : Shows α text cause ⟨c.significant.passed, []⟩ (.empty text.utf8ByteSize)) :
    Pointed α text ⟨cause, [c.span], fatal⟩ := by
  refine ⟨c.significant, .empty text.utf8ByteSize, meaningful_of_scan hc, hviable, ?_, ?_⟩
  · rw [Cursor.span_of_end hahead, endSpan_of_scan hc]
  · rwa [← hahead] at hshows

theorem Points.attempt {r : Reader β} (h : Points α text r c) : Points α text r.attempt c :=
  (Reader.ends_attempt r).2 h

theorem Points.orElse {r s : Reader β}
    (hr : r.Ends c (fun _ _ => True) (fun f => f.fatal = true → Pointed α text f))
    (hs : Points α text s c) : Points α text (r.orElse s) c := by
  unfold Points
  rw [Reader.ends_orElse]
  refine hr.mono (fun _ _ _ => trivial) ?_
  intro f hf
  split
  · next hfatal => exact hf hfatal
  · exact hs

/-- One reader after another: what the first one reads is known, and the tokens stay the same. -/
theorem Points.bind {r : Reader β} {f : β → Reader γ} {ok : β → Cursor → Prop} {err : Fault → Prop}
    (hr : Points α text r c) (hsound : r.Ends c ok err) (hkeeps : r.Keeps)
    (hc : c.tokens = Token.scan text)
    (hf : ∀ b m, ok b m → m.tokens = Token.scan text → Points α text (f b) m) :
    Points α text (r >>= f) c := by
  unfold Points
  rw [Reader.ends_bind]
  refine ((hr.and hsound).and (hkeeps c)).mono ?_ (fun _ hfault => hfault.1.1)
  rintro b m ⟨⟨-, hok⟩, hm⟩
  exact hf b m hok (hm.trans hc)

theorem Points.pure (b : β) : Points α text (Pure.pure b) c := trivial

theorem Points.bind_pure {r : Reader β} {f : β → γ} (h : Points α text r c) :
    Points α text (r >>= fun b => Pure.pure (f b)) c := by
  unfold Points
  rw [Reader.ends_bind]
  exact h.mono (fun _ _ _ => trivial) (fun _ hf => hf)

/-- Giving up at the next token. -/
theorem points_abortHere {cause : Cause} {t : Token} {rest : List Token}
    (hc : c.tokens = Token.scan text) (hviable : Viable α c.significant.passed)
    (hahead : c.significant.ahead = t :: rest)
    (hshows : Shows α text cause ⟨c.significant.passed, t :: rest⟩ t.span) :
    Points α text (Reader.abortHere cause : Reader β) c := by
  change Pointed α text (.hard cause c.span)
  rw [Cursor.span_of_ahead hahead]
  exact pointed_of_ahead hc hviable hahead hshows

/-- At any place, there may be no level left. -/
theorem points_tooDeep (hc : c.tokens = Token.scan text) (hviable : Viable α c.significant.passed) :
    Points α text (Reader.abortHere (.nestedTooDeeply maxNesting) : Reader β) c := by
  change Pointed α text (.hard (.nestedTooDeeply maxNesting) c.span)
  have hspan : c.span = c.significant.here text.utf8ByteSize := by
    unfold Cursor.here
    split
    · next hahead => exact Cursor.span_of_ahead hahead
    · next hahead => rw [Cursor.span_of_end hahead, endSpan_of_scan hc]
  refine ⟨c.significant, c.span, meaningful_of_scan hc, hviable, rfl, ?_⟩
  rw [hspan]
  exact .nestedTooDeeply c.significant

/-- The next token, or the end of the text. -/
theorem points_next (hc : c.tokens = Token.scan text) (hviable : Viable α c.significant.passed) :
    Points α text Reader.next c := by
  unfold Points
  rw [Reader.next, Reader.ends_bind, Reader.ends_skipSpaces, Reader.ends_bind, Reader.ends_get]
  rcases c.skipSpaces_cases with ⟨t, rest, hahead, -, -, -⟩ | ⟨hahead, hnone⟩
  · rw [hahead]
    trivial
  · rw [hahead]
    have hplace : c.skipSpaces.significant = c.significant := c.significant_skipSpaces
    refine pointed_of_end (c := c.skipSpaces) ?_ ?_ ?_ (.unexpectedEnd _)
    · rw [Cursor.tokens_skipSpaces, hc]
    · rwa [hplace]
    · rw [hplace, hnone]

/-- A token that does not fit is reported as such. -/
theorem points_accepting {expected : List TokenKind} {accept : Token → Option β}
    (hc : c.tokens = Token.scan text) (hviable : Viable α c.significant.passed)
    (haccept : ∀ t, accept t = none → t.kind ∉ expected) :
    Points α text (Reader.accepting expected accept) c := by
  refine (points_next hc hviable).bind (Reader.next_takes c) .next hc ?_
  rintro t m ⟨rest, hahead, -⟩ -
  split
  · exact .pure _
  · next hnone =>
    exact pointed_of_ahead hc hviable hahead (.unexpectedToken _ rest (haccept t hnone))

theorem points_token (hc : c.tokens = Token.scan text) (hviable : Viable α c.significant.passed)
    (kind : TokenKind) : Points α text (Reader.token kind) c := by
  refine points_accepting hc hviable ?_
  intro t hnone
  split at hnone
  · cases hnone
  · next hkind =>
    rw [List.mem_singleton]
    exact hkind

/-! ## Operands -/

theorem points_checkOperand (hc : c.tokens = Token.scan text)
    (hviable : Viable α c.significant.passed) : Points α text checkOperand c := by
  unfold Points
  rw [checkOperand, Reader.ends_bind, Reader.ends_get, Cursor.nextKind?_eq]
  cases hahead : c.significant.ahead with
  | nil => exact pointed_of_end hc hviable hahead (.unexpectedEnd _)
  | cons t rest =>
    dsimp only [List.head?_cons, Option.map_some]
    split
    · trivial
    · next hstart =>
      split
      · next hclosing =>
        have hpartner : Unopened c.significant.passed.reverse := by
          refine unopened_of_unclosed_eq_zero ?_
          rw [unclosed_significant]
          exact hclosing.2
        exact points_abortHere hc hviable hahead (.unopened rest hclosing.1 hpartner)
      · split
        · next hunknown =>
          rw [Reader.ends_bind]
          refine Reader.ends_next ?_ ?_
          · intro u rest' hahead' _ _
            rw [hahead] at hahead'
            cases hahead'
            exact pointed_of_ahead hc hviable hahead (.unexpectedCharacter _ rest hunknown)
          · intro hnone
            rw [hahead] at hnone
            cases hnone
        · exact points_abortHere hc hviable hahead (.unexpectedToken _ rest hstart)

theorem points_readNumber (hc : c.tokens = Token.scan text)
    (hviable : Viable α c.significant.passed) :
    Points α text (readNumber : Reader (Expr α)) c := by
  have hkind : ∀ t : Token, t.kind ∉ [TokenKind.int, .decimal] ↔ ¬ t.kind.isNumber = true := by
    intro t
    cases t.kind <;> decide
  refine (points_accepting hc hviable ?_).bind (Reader.accepting_takes c _ _) (.accepting _ _) hc ?_
  · intro t hnone
    split at hnone
    · cases hnone
    · next hother => exact (hkind t).2 hother
  · rintro t m ⟨u, haccept, rest, hahead, -⟩ -
    split at haccept
    · next hnumber =>
      cases haccept
      dsimp only
      split
      · exact .pure _
      · next hinfinite =>
        have hform : t.kind = .int ∨ t.kind = .decimal := by
          cases hk : t.kind <;> simp [hk, TokenKind.isNumber] at hnumber ⊢
        exact pointed_of_ahead hc hviable hahead
          (.numberTooLarge _ rest hform (Bool.eq_false_iff.2 hinfinite))
    · cases haccept

theorem points_readSymbol (hc : c.tokens = Token.scan text)
    (hviable : Viable α c.significant.passed) :
    Points α text (readSymbol : Reader (Expr α)) c :=
  (points_token hc hviable .name).bind_pure

theorem points_readLiteral (hc : c.tokens = Token.scan text)
    (hviable : Viable α c.significant.passed) :
    Points α text (readLiteral : Reader (Expr α)) c :=
  .orElse ((points_readNumber hc hviable).mono (fun _ _ _ => trivial) fun _ hf _ => hf)
    (points_readSymbol hc hviable).attempt

/-- Faults one level further in tell the truth, where an operand is due. -/
structure Inner.Points (text : String) (level : Inner α) : Prop where
  sound : level.Sound
  keeps : level.Keeps
  expr (c : Cursor) (hc : c.tokens = Token.scan text) (hdue : Due α .sum c.significant) :
    Expr.Points α text level.expr c
  signed (c : Cursor) (hc : c.tokens = Token.scan text) (hdue : Due α .signed c.significant) :
    Expr.Points α text level.signed c
  climb (s c : Cursor) (e : Expr α) (least : Precedence) (hc : c.tokens = Token.scan text)
      (hdue : Due α (.joined least) s) (he : Accepts (.joined least) s e c.significant)
      (hjoinable : Joinable least s e c) :
    Expr.Points α text (level.climb e least) c

theorem points_nested {inner : Option (Inner α)} {read : Inner α → Reader β}
    (hinner : ∀ level ∈ inner, level.Points text) (hc : c.tokens = Token.scan text)
    (hviable : Viable α c.significant.passed)
    (hread : ∀ level : Inner α, level.Points text → Points α text (read level) c) :
    Points α text (nested inner read) c := by
  cases inner with
  | none => exact points_tooDeep hc hviable
  | some level => exact hread level (hinner level rfl)

/-- After an opening parenthesis: it shows as unclosed if the text ends, and as empty if it is closed
at once. -/
theorem points_readDelimited {read : Reader (Expr α)} {opening : Token} {passed ahead : List Token}
    (hc : c.tokens = Token.scan text) (hplace : c.significant = ⟨opening :: passed, ahead⟩)
    (hopening : opening.kind = .opening) (hdue : Due α .sum c.significant)
    (hsound : read.Ends c (fun e m => Accepts .sum c.significant e m.significant) (fun _ => True))
    (hkeeps : read.Keeps) (hread : Points α text read c) :
    Points α text (readDelimited read opening) c := by
  have hviable : Viable α passed := by
    have hafter := hdue.viable
    rw [hplace] at hafter
    exact hafter.of_cons
  have hbefore : Cursor.tokens ⟨passed, opening :: ahead⟩ = meaningful text := by
    rw [← meaningful_of_scan hc, hplace]
    simp [Cursor.tokens]
  unfold Points
  rw [readDelimited, Reader.ends_bind, Reader.ends_get]
  split
  · next hclosing =>
    rw [Cursor.nextKind?_eq, hplace] at hclosing
    obtain ⟨closing, hhead, hkind⟩ := Option.map_eq_some_iff.1 hclosing
    obtain ⟨rest, rfl⟩ := List.head?_eq_some_iff.1 hhead
    have hspan : c.span = closing.span := Cursor.span_of_ahead (by rw [hplace])
    rw [Reader.ends_bind, Reader.ends_get, Reader.ends_bind, Reader.ends_fail, hspan]
    exact ⟨_, _, hbefore, hviable, rfl, .emptyParenthesis passed rest hopening hkind⟩
  · have hinner : Points α text read.attempt.hardened c := by
      unfold Points
      rw [Reader.ends_hardened, Reader.ends_attempt]
      exact hread
    have hinnerSound : read.attempt.hardened.Ends c
        (fun e m => Accepts .sum c.significant e m.significant) (fun _ => True) := by
      rw [Reader.ends_hardened, Reader.ends_attempt]
      exact hsound
    refine hinner.bind hinnerSound hkeeps.attempt.hardened hc ?_
    intro e m he hm
    have hafter : Viable α m.significant.passed := hdue.viable_after he
    unfold Points
    rw [Reader.ends_bind, Reader.ends_get, Cursor.nextKind?_eq]
    cases hahead : m.significant.ahead with
    | nil =>
      -- what is read inside is balanced, and nothing else follows the opening parenthesis
      obtain ⟨taken, htaken, -, hbalanced⟩ := he.1.balanced
      rw [hplace, hahead, List.append_nil] at htaken
      dsimp only at htaken
      subst htaken
      exact ⟨_, _, hbefore, hviable, rfl, .unclosed passed hopening hbalanced.unclosed⟩
    | cons t rest =>
      dsimp only [List.head?_cons, Option.map_some]
      split
      · exact (points_token hm hafter .closing).attempt.bind_pure
      · next hnone => cases hnone
      · next found hother hsome =>
        cases hsome
        refine points_abortHere hm hafter hahead (.unexpectedToken _ rest ?_)
        rw [List.mem_singleton]
        exact hother

section Level

variable {inner : Option (Inner α)} (hinner : ∀ level ∈ inner, level.Points text)

include hinner

theorem points_readExpr (hc : c.tokens = Token.scan text) (hdue : Due α .sum c.significant) :
    Points α text (readExpr inner) c := by
  refine points_nested hinner hc hdue.viable ?_
  intro level hlevel
  refine (hlevel.signed c hc (hdue.tighten (by decide))).bind (hlevel.sound.signed c)
    hlevel.keeps.signed hc ?_
  intro first m hfirst hm
  exact hlevel.climb _ m first .any hm hdue (hfirst.1.loosen (by decide)) hfirst.2

theorem points_readParen (hc : c.tokens = Token.scan text) (hdue : Due α .atom c.significant) :
    Points α text (readParen inner) c := by
  have hsound : ∀ level ∈ inner, level.Sound := fun level hlevel => (hinner level hlevel).sound
  have hkeeps : ∀ level ∈ inner, level.Keeps := fun level hlevel => (hinner level hlevel).keeps
  refine (points_token hc hdue.viable .opening).attempt.bind
    ((Reader.ends_attempt _).2 (Reader.token_takes c .opening)) (.attempt (.token _)) hc ?_
  rintro opening m ⟨hopening, rest, hahead, hplace⟩ hm
  have hinside : Due α .sum m.significant := by
    rw [hplace]
    refine Due.paren ?_ hopening
    rw [← hahead]
    exact hdue
  exact (points_readDelimited hm hplace hopening hinside (readExpr_sound hsound m)
    (keeps_readExpr hkeeps) (points_readExpr hinner hm hinside)).bind_pure

/-- A call that cannot be read tells the truth, unless it leaves room for a symbol. -/
theorem points_readCall (hc : c.tokens = Token.scan text) (hdue : Due α .atom c.significant) :
    (readCall inner).Ends c (fun _ _ => True) (fun f => f.fatal = true → Pointed α text f) := by
  have hviable := hdue.viable
  rw [readCall, Reader.ends_bind, Reader.ends_attempt]
  refine ((Reader.token_takes c .name).and
    ((points_token hc hdue.viable .name).and (Reader.Keeps.token .name c))).mono ?_ ?_
  · rintro name m ⟨⟨hkind, rest, hahead, hplace⟩, -, hm⟩
    rw [hc] at hm
    rw [Reader.ends_bind, Reader.ends_optional]
    refine ((Reader.token_takes m .opening).and (Reader.Keeps.token .opening m)).mono ?_ ?_
    · rintro opening m' ⟨⟨hopening, rest', hahead', hplace'⟩, hm'⟩
      rw [hm] at hm'
      rw [hplace] at hahead' hplace'
      cases hahead'
      cases hname : Func.ofName? name.lexeme with
      | none =>
        intro _
        exact pointed_of_ahead hc hviable hahead
          (.unknownFunction _ rest' hkind hname hopening)
      | some func =>
        have hinside : Due α .sum m'.significant := by
          rw [hplace']
          refine Due.call ?_ hkind hname hopening
          rw [← hahead]
          exact hdue
        have hnested : Points α text
            (nested inner fun level => readDelimited level.expr opening) m' := by
          refine points_nested hinner hm' hinside.viable ?_
          intro level hlevel
          exact points_readDelimited hm' hplace' hopening hinside (hlevel.sound.expr m')
            hlevel.keeps.expr (hlevel.expr m' hm' hinside)
        exact hnested.bind_pure.mono (fun _ _ _ => trivial) fun _ hf _ => hf
    · rintro f ⟨hnext, -⟩
      rw [hplace] at hnext
      cases hname : Func.ofName? name.lexeme with
      | none =>
        intro hfatal
        cases hfatal
      | some func =>
        intro _
        exact pointed_of_ahead hc hviable hahead (.missingArgument _ hkind hname hnext)
  · rintro f ⟨-, hf, -⟩ -
    exact hf

theorem points_readOperand (hc : c.tokens = Token.scan text) (hdue : Due α .atom c.significant) :
    Points α text (readOperand inner) c := by
  refine (points_checkOperand hc hdue.viable).bind (checkOperand_sound c) keeps_checkOperand hc ?_
  rintro - m rfl hm
  exact .orElse (points_readCall hinner hm hdue)
    (.orElse ((points_readLiteral hm hdue.viable).mono (fun _ _ _ => trivial) fun _ hf _ => hf)
      (points_readParen hinner hm hdue).attempt)

theorem points_readNegation (hc : c.tokens = Token.scan text) (hdue : Due α .signed c.significant) :
    Points α text (readNegation inner) c := by
  refine points_nested hinner hc hdue.viable ?_
  intro level hlevel
  have haccept : ∀ t : Token, (UnaryOp.ofToken? t.kind).map (fun _ => t.span) = none →
      t.kind ∉ UnaryOp.tokens := by
    intro t
    cases t.kind <;> simp [UnaryOp.ofToken?, UnaryOp.tokens]
  refine (points_accepting hc hdue.viable haccept).attempt.bind
    ((Reader.ends_attempt _).2 (Reader.accepting_takes c _ _)) (.attempt (.accepting _ _)) hc ?_
  rintro sign m ⟨t, hsign, rest, hahead, hplace⟩ hm
  have hkind : t.kind = .minus := by
    cases hk : t.kind <;> simp [hk, UnaryOp.ofToken?] at hsign ⊢
  have hsigned : Due α .signed m.significant := by
    rw [hplace]
    refine Due.sign ?_ hkind
    rw [← hahead]
    exact hdue
  refine (hlevel.signed m hm hsigned).bind (hlevel.sound.signed m) hlevel.keeps.signed hm ?_
  intro first m' hfirst hm'
  refine (hlevel.climb _ m' first .sign hm' hsigned hfirst.1 ?_).bind_pure
  intro j hj _
  exact hfirst.2 j hj (by cases j.precedence <;> decide)

theorem points_readSigned (hc : c.tokens = Token.scan text) (hdue : Due α .signed c.significant) :
    Points α text (readSigned inner) c := by
  unfold Points
  rw [readSigned, Reader.ends_bind, Reader.ends_get]
  split
  · exact (points_readNegation hinner hc hdue).attempt
  · exact (points_readOperand hinner hc (hdue.tighten (by decide))).attempt

/-! ## The two loops -/

theorem points_raise (op : BinaryOp) {s : Cursor} (bound : List Token) (c : Cursor) (e : Expr α)
    (hc : c.tokens = Token.scan text) (hdue : Due α (.after op.precedence) s)
    (he : Accepts (.after op.precedence) s e c.significant)
    (hjoinable : ∀ j, c.joiner? = some j → j.outranks op.precedence = true →
      Accepts (.before j.precedence) s e c.significant) :
    Points α text (raise inner op.precedence bound e) c := by
  have hsound : ∀ level ∈ inner, level.Sound := fun level hlevel => (hinner level hlevel).sound
  have hkeeps : ∀ level ∈ inner, level.Keeps := fun level hlevel => (hinner level hlevel).keeps
  induction bound generalizing c e with
  | nil => exact .pure _
  | cons b bound ih =>
    unfold Points
    rw [raise, Reader.ends_bind, Reader.ends_get]
    cases hjoiner : c.joiner? with
    | none => trivial
    | some joiner =>
      dsimp only
      by_cases houtranks : joiner.outranks op.precedence = true
      · rw [if_pos houtranks]
        have hbefore := hjoinable joiner hjoiner houtranks
        have hjoined := hbefore.loosen (Category.joined_rank_le_before joiner.op)
        have hrest : Joinable joiner.precedence s e c := by
          intro j hj _
          rw [hjoiner] at hj
          cases hj
          exact hbefore
        have hclimb : Points α text
            (nested inner fun level => level.climb e joiner.precedence) c := by
          refine points_nested hinner hc (hdue.viable_after he) ?_
          intro level hlevel
          exact hlevel.climb s c e _ hc (hdue.tighten (Category.after_rank_le_joined houtranks))
            hjoined hrest
        refine hclimb.bind (nested_sound hsound
          (fun level hlevel => hlevel.climb s c e _ hjoined hrest) (fun _ _ => trivial))
          (keeps_nested hkeeps fun level hlevel => hlevel.climb _ _) hc ?_
        rintro e' c' ⟨he', hbelow, -⟩ hc'
        refine ih c' e' hc' (he'.loosen (Category.after_rank_le_joined houtranks)) ?_
        intro j hj _
        exact he'.loosen (Category.before_rank_le_joined_of_lt (hbelow j hj))
      · rw [if_neg houtranks]
        trivial

/-- The operand after an operator, raised as far as the operators after it demand. -/
theorem points_readRight (op : BinaryOp) {f : Expr α → Reader γ} (hc : c.tokens = Token.scan text)
    (hdue : Due α (.after op.precedence) c.significant)
    (hf : ∀ e c', Accepts (.after op.precedence) c.significant e c'.significant →
      (∀ j, c'.joiner? = some j → j.outranks op.precedence = false) →
      c'.tokens = Token.scan text → Points α text (f e) c') :
    Points α text (do
      let operand ← readSigned inner
      let right ← raise inner op.precedence (← get).ahead operand
      f right) c := by
  have hsound : ∀ level ∈ inner, level.Sound := fun level hlevel => (hinner level hlevel).sound
  have hkeeps : ∀ level ∈ inner, level.Keeps := fun level hlevel => (hinner level hlevel).keeps
  refine (points_readSigned hinner hc (hdue.tighten (by cases op <;> decide))).bind
    (readSigned_sound hsound c) (keeps_readSigned hkeeps) hc ?_
  intro operand m hoperand hm
  have hafter : Accepts (.after op.precedence) c.significant operand m.significant :=
    hoperand.1.loosen (by cases op <;> decide)
  have hjoinable : ∀ j, m.joiner? = some j → j.outranks op.precedence = true →
      Accepts (.before j.precedence) c.significant operand m.significant := by
    intro j hj _
    exact hoperand.2 j hj (by cases j.precedence <;> decide)
  unfold Points
  rw [Reader.ends_bind, Reader.ends_get]
  refine (points_raise hinner op m.ahead m operand hm hdue hafter hjoinable).bind
    (raise_sound hsound op m.ahead m operand (List.length_filter_le _ _) hafter hjoinable)
    (keeps_raise hkeeps _ _ _) hm ?_
  rintro right c' ⟨hright, houtranks⟩ hc'
  exact hf right c' hright houtranks hc'

theorem points_climbAlong (least : Precedence) {s : Cursor} (bound : List Token) (c : Cursor)
    (e : Expr α) (hc : c.tokens = Token.scan text) (hdue : Due α (.joined least) s)
    (he : Accepts (.joined least) s e c.significant) (hjoinable : Joinable least s e c) :
    Points α text (climbAlong inner least bound e) c := by
  induction bound generalizing c e with
  | nil => exact .pure _
  | cons b bound ih =>
    unfold Points
    rw [climbAlong, Reader.ends_bind, Reader.ends_get]
    cases hjoiner : c.joiner? with
    | none => trivial
    | some joiner =>
      dsimp only
      by_cases hleast : joiner.precedence < least
      · rw [if_pos hleast]
        trivial
      · rw [if_neg hleast]
        have hleft := hjoinable joiner hjoiner hleast
        -- whatever the right operand is, the joined operands keep the invariant
        have hstep : ∀ (right : Expr α) (written : Span) (c' : Cursor),
            Accepts (.joined joiner.op.precedence) s (join joiner written e right) c'.significant →
            (∀ j, c'.joiner? = some j → j.outranks joiner.op.precedence = false) →
            c'.tokens = Token.scan text →
            Points α text (climbAlong inner least bound (join joiner written e right)) c' := by
          intro right written c' hjoined houtranks hc'
          refine ih c' _ hc' (hjoined.loosen (Category.joined_rank_le hleast)) ?_
          intro j hj _
          exact hjoined.loosen (Category.before_rank_le_joined (houtranks j hj))
        cases joiner with
        | written op =>
          obtain ⟨t, rest, hahead, hop⟩ := (c.joiner?_eq_written_iff op).1 hjoiner
          have hstart : c.significant = ⟨c.significant.passed, t :: rest⟩ := by rw [← hahead]
          have hoperator : Points α text ((·.span) <$> readOperator.attempt) c := by
            unfold Points
            rw [Reader.ends_map]
            refine (points_accepting hc (hdue.viable_after he) ?_).attempt
            intro u hnone
            rw [Option.map_eq_none_iff] at hnone
            rw [← BinaryOp.ofToken?_isSome_iff, hnone]
            exact Bool.false_ne_true
          have htakes : ((·.span) <$> readOperator.attempt).Ends c
              (fun written m => written = t.span ∧
                m.significant = ⟨t :: c.significant.passed, rest⟩) (fun _ => True) := by
            rw [Reader.ends_map, Reader.ends_attempt]
            refine (Reader.accepting_takes c _ _).mono ?_ (fun _ _ => trivial)
            rintro operator m ⟨u, haccept, rest', hahead', hplace⟩
            rw [hahead] at hahead'
            cases hahead'
            rw [hop] at haccept
            cases haccept
            exact ⟨rfl, hplace⟩
          refine hoperator.bind htakes (.map (.attempt (.accepting _ _)) _) hc ?_
          rintro written m ⟨rfl, hplace⟩ hm
          have hright : Due α (.after op.precedence) m.significant := by
            rw [hstart] at hleft
            rw [hplace]
            exact hdue.written hop hleast hleft
          refine points_readRight hinner op hm hright ?_
          intro right c' hderives houtranks hc'
          refine hstep right t.span c' ?_ houtranks hc'
          rw [hplace] at hderives
          exact ⟨.join_written hop hstart hleft.1 hderives.1, hleft.2, hderives.2⟩
        | juxtaposed =>
          have hjoins := c.joiner?_eq_juxtaposed_iff.1 hjoiner
          have hright : Due α (.after .factor) c.significant := hdue.juxtaposed hjoins hleast hleft
          refine points_readRight hinner .times hc hright ?_
          intro right c' hderives houtranks hc'
          refine hstep right default c' ?_ houtranks hc'
          exact ⟨.join_juxtaposed hjoins hleft.1 hderives.1, hleft.2, hderives.2⟩

end Level

/-- Faults tell the truth at every level, for they do one level further in. -/
theorem Inner.ofRoom_points (room : Nat) :
    ∀ level ∈ Inner.ofRoom (α := α) room, level.Points text := by
  induction room with
  | zero =>
    intro level hlevel
    cases hlevel
  | succ room ih =>
    intro level hlevel
    have hsound := Inner.ofRoom_sound _ level hlevel
    have hkeeps := Inner.ofRoom_keeps _ level hlevel
    cases hlevel
    refine ⟨hsound, hkeeps, fun c => points_readExpr ih, fun c => points_readSigned ih, ?_⟩
    intro s c e least hc hdue he hjoinable
    exact points_climbAlong ih least c.ahead c e hc hdue he hjoinable

/-- Reading a whole text, from its first token to its last. -/
theorem points_whole (text : String) :
    Points α text (readExpr (outermost (α := α))).whole (.ofText text) := by
  have hc : (Cursor.ofText text).tokens = Token.scan text := rfl
  have hdue : Due α .sum (Cursor.ofText text).significant := .sum _
  have hinner : ∀ level ∈ Inner.ofRoom (α := α) maxNesting, level.Points text :=
    Inner.ofRoom_points maxNesting
  unfold Points
  rw [Reader.whole, Reader.ends_bind, Reader.ends_get]
  split
  · next hnone =>
    rw [Cursor.next?_eq, Option.isNone_iff_eq_none, List.head?_eq_none_iff] at hnone
    simp only [Reader.ends_bind, Reader.ends_get, Reader.ends_fail]
    refine ⟨(Cursor.ofText text).significant, .empty text.utf8ByteSize, meaningful_of_scan hc,
      hdue.viable, ?_, ?_⟩
    · rw [endSpan_of_scan hc]
      rfl
    · have hplace : (Cursor.ofText text).significant = ⟨[], []⟩ := congrArg (Cursor.mk []) hnone
      rw [hplace]
      exact .emptyExpression
  · refine (points_readExpr hinner hc hdue).bind (readExpr_sound (Inner.ofRoom_sound maxNesting) _)
      (keeps_readExpr (Inner.ofRoom_keeps maxNesting)) hc ?_
    intro e m he hm
    have hafter : Viable α m.significant.passed := hdue.viable_after he
    unfold Points
    simp only [Reader.ends_bind, Reader.ends_skipSpaces, Reader.ends_get, Cursor.current?]
    rcases m.skipSpaces_cases with ⟨t, rest, hnext, -, hahead, -⟩ | ⟨hnext, -⟩
    · rw [hnext]
      dsimp only [List.head?_cons]
      split
      · next hkind =>
        obtain ⟨taken, -, hpassed, hbalanced⟩ := he.1.balanced
        have hpartner : Unopened m.significant.passed.reverse := by
          refine Balanced.unopened ?_
          rw [hpassed]
          simpa [Cursor.ofText, Cursor.significant] using hbalanced
        exact pointed_of_ahead hm hafter hahead (.unopened _ hkind hpartner)
      · next hkind => exact pointed_of_ahead hm hafter hahead (.unexpectedCharacter _ _ hkind)
      · have hspan : t.span.cover m.skipSpaces.endSpan = ⟨t.span.start, text.utf8ByteSize⟩ := by
          have hskip : m.skipSpaces.tokens = Token.scan text := by
            rw [Cursor.tokens_skipSpaces, hm]
          rw [endSpan_of_scan hskip]
          rfl
        rw [Reader.ends_fail, hspan]
        obtain ⟨u, taken, -, hpassed, hderives⟩ := he.1.replace (mayReplace_nil _)
        have hwhole : Derives .sum ⟨[], m.significant.passed.reverse⟩ e
            ⟨m.significant.passed, []⟩ := by
          have hreverse : m.significant.passed.reverse = u :: taken := by
            rw [hpassed]
            simp [Cursor.ofText, Cursor.significant]
          rw [hreverse]
          simpa [Cursor.ofText, Cursor.significant] using hderives
        exact pointed_of_ahead hm hafter hahead (.expectedEnd t _ hwhole he.2)
    · rw [hnext]
      trivial

theorem pointed_of_ofText {f : Fault} (h : ofText (α := α) text = .error f) : Pointed α text f := by
  cases hrun : (readExpr (outermost (α := α))).whole.runFrom (.ofText text) with
  | mk result c' =>
    rw [ofText, hrun] at h
    cases h
    exact Reader.Ends.of_error (points_whole text) hrun

/-! ## Places and offsets -/

/-- A fault starts where its place is, and its span lies inside the text. -/
theorem Shows.span_bounds {cause : Cause} {place : Cursor} {span : Span}
    (h : Shows α text cause place span) (hplace : place.tokens.Sublist (Token.scan text)) :
    span.start = (place.here text.utf8ByteSize).start ∧ span.start ≤ span.stop ∧
      span.stop ≤ text.utf8ByteSize := by
  have hcovers := Token.scan_covers text
  have hmem : ∀ t ∈ place.ahead,
      t.span.start ≤ t.span.stop ∧ t.span.stop ≤ text.utf8ByteSize := by
    intro t ht
    obtain ⟨-, hlt, hle⟩ := hcovers.of_mem (hplace.subset (List.mem_append_right _ ht))
    exact ⟨Nat.le_of_lt hlt, hle⟩
  cases h with
  | emptyExpression => exact ⟨rfl, Nat.le_refl _, Nat.le_refl _⟩
  | unexpectedEnd => exact ⟨rfl, Nat.le_refl _, Nat.le_refl _⟩
  | expectedEnd t =>
    obtain ⟨hle, hstop⟩ := hmem t List.mem_cons_self
    exact ⟨rfl, Nat.le_trans hle hstop, Nat.le_refl _⟩
  | @emptyParenthesis passed opening closing ahead =>
    have hpairwise := hcovers.pairwise.sublist hplace
    obtain ⟨-, hahead, -⟩ := List.pairwise_append.1 hpairwise
    have hgap := (List.pairwise_cons.1 hahead).1 closing List.mem_cons_self
    obtain ⟨hopening, -⟩ := hmem opening List.mem_cons_self
    obtain ⟨hclosing, hstop⟩ := hmem closing (List.mem_cons_of_mem _ List.mem_cons_self)
    refine ⟨rfl, ?_, hstop⟩
    rw [Span.start_cover, Span.stop_cover]
    omega
  | nestedTooDeeply =>
    refine ⟨rfl, ?_⟩
    unfold Cursor.here
    split
    · next t rest hahead => exact hmem t (by rw [hahead]; exact List.mem_cons_self)
    · exact ⟨Nat.le_refl _, Nat.le_refl _⟩
  | unopened | unclosed | unknownFunction | missingArgument | numberTooLarge | unexpectedCharacter |
    unexpectedToken => exact ⟨rfl, hmem _ List.mem_cons_self⟩

/-- Nothing but spaces is no expression, and is reported as such. -/
theorem ofText_of_empty (h : meaningful text = []) :
    ∃ f, ofText (α := α) text = .error f ∧ f.cause = .emptyExpression := by
  have hnone : (Cursor.ofText text).next?.isNone = true := by
    rw [Cursor.next?_eq, Option.isNone_iff_eq_none, List.head?_eq_none_iff]
    exact h
  have hends : (readExpr (outermost (α := α))).whole.Ends (.ofText text) (fun _ _ => False)
      (fun f => f.cause = .emptyExpression) := by
    rw [Reader.whole, Reader.ends_bind, Reader.ends_get, if_pos hnone]
    simp only [Reader.ends_bind, Reader.ends_get, Reader.ends_fail]
    rfl
  cases hrun : (readExpr (outermost (α := α))).whole.runFrom (.ofText text) with
  | mk result c' =>
    cases result with
    | ok e => exact absurd (hends.of_ok hrun) id
    | error f => exact ⟨f, by rw [ofText, hrun], hends.of_error hrun⟩

/-- A text that is not read has one fault, at a span inside of it. What comes before the span begins
an expression, and around it the tokens are as the cause says. The text is reported as empty if and
only if it has no significant tokens. -/
theorem ofText_faults (text : String) :
    (∀ f, ofText (α := α) text = .error f → ∃ place span,
      place.tokens = meaningful text ∧ f.spans = [span] ∧
      span.start ≤ span.stop ∧ span.stop ≤ text.utf8ByteSize ∧
      place.passed.reverse = (meaningful text).filter (fun t => t.span.stop ≤ span.start) ∧
      Viable α place.passed ∧ f.cause ≠ .mismatch ∧ Shows α text f.cause place span) ∧
    (meaningful text = [] ↔
      ∃ f, ofText (α := α) text = .error f ∧ f.cause = .emptyExpression) := by
  refine ⟨?_, ofText_of_empty, ?_⟩
  · intro f h
    obtain ⟨place, span, hplace, hviable, hspans, hshows⟩ := pointed_of_ofText h
    have hsublist : place.tokens.Sublist (Token.scan text) := by
      rw [hplace]
      exact List.filter_sublist
    obtain ⟨hstart, hle, hstop⟩ := hshows.span_bounds hsublist
    refine ⟨place, span, hplace, hspans, hle, hstop, ?_, hviable, ?_, hshows⟩
    · rw [hstart, ← hplace]
      exact Cursor.passed_eq_filter (Token.scan_covers text) hsublist
    · intro hmismatch
      rw [hmismatch] at hshows
      cases hshows
  · rintro ⟨f, h, hcause⟩
    obtain ⟨place, span, hplace, -, -, hshows⟩ := pointed_of_ofText h
    rw [hcause] at hshows
    cases hshows
    exact hplace.symm

/-- The parenthesis in `x*(y + z` is never closed; `x*` can go on as an expression. -/
theorem ofText_faults_unclosed :
    let f : Fault := .hard (.unclosedParenthesis true) ⟨2, 3⟩
    ofText (α := Float) "x*(y + z" = .error f ∧
      ∃ place : Cursor, place.passed.reverse = [⟨.name, "x", ⟨0, 1⟩⟩, ⟨.times, "*", ⟨1, 2⟩⟩] ∧
        Viable Float place.passed ∧ Shows Float "x*(y + z" f.cause place ⟨2, 3⟩ := by
  intro f
  have hread : ofText (α := Float) "x*(y + z" = .error f := by cbv
  have hbefore : ((meaningful "x*(y + z").filter fun t => t.span.stop ≤ 2) =
      [⟨.name, "x", ⟨0, 1⟩⟩, ⟨.times, "*", ⟨1, 2⟩⟩] := by decide +kernel
  obtain ⟨place, span, -, hspans, -, -, hpassed, hviable, -, hshows⟩ :=
    (ofText_faults "x*(y + z").1 f hread
  cases hspans
  exact ⟨hread, place, hpassed.trans hbefore, hviable, hshows⟩

end Expr

end Fluxion
