import Fluxion.Proofs.Nesting.Tracking

/-!
# Runs of a parser

A parser can be driven from outside, one operation after the other, and each starts with the state
that the one before has left. Whatever is done, and whether it succeeds or not, the parser stays in
good order between operations, and an operation that only looks ahead or fails in an attempt leaves no
trace.
-/

namespace Fluxion

/-- What can be done with a parser. -/
inductive Operation where
  /-- Takes a token. -/
  | next
  /-- Skips spaces. -/
  | skip
  /-- Attempts to read a part of an expression. -/
  | attempt (kind : NodeKind)
  /-- Reads a part of an expression, and fails if anything is left. -/
  | whole (kind : NodeKind)
  /-- Looks ahead for a part of an expression. -/
  | peek (kind : NodeKind)
  /-- Attempts to read an operand and the operators after it that bind tightly enough. -/
  | climb (least : Precedence)
  deriving DecidableEq, Repr

namespace Operation

variable (α : Type)

/-- What comes of an operation that succeeds. -/
def Result : Operation → Type
  | next => Token
  | skip => Unit
  | attempt _ | whole _ | climb _ => Node α
  | peek _ => Option (Node α)

variable [Scalar α] [Numeral α]

/-- The operation as readers perform it. -/
def reader : (op : Operation) → Reader (op.Result α)
  | next => Reader.next
  | skip => Reader.skipSpaces
  | attempt kind => (Node.read kind).attempt
  | whole kind => (Node.read kind).whole
  | peek kind => (Node.read kind).peek
  | climb least => (Node.readClimbing least).attempt

/-- The operation as a parser performs it that counts its levels. -/
def counted : (op : Operation) → Counted (op.Result α)
  | next => Counted.lift Reader.next
  | skip => Counted.lift Reader.skipSpaces
  | attempt kind => (Counted.readNode kind).attempt
  | whole kind => (Counted.readNode kind).whole
  | peek kind => (Counted.readNode kind).peek
  | climb least => (Counted.readClimbing least).attempt

/-- Whether the parser is meant to be left as it was: if it only looked ahead, or if an attempt has
failed. -/
def leavesNoTrace {β : Type} : Operation → Except Fault β → Bool
  | peek _, _ | attempt _, .error _ | climb _, .error _ => true
  | _, _ => false

end Operation

namespace Watched

/-- The parser after some operations, from the start of a text. -/
def after (α : Type) [Scalar α] [Numeral α] (text : String) (ops : List Operation) : Watched :=
  ops.foldl (fun w op => (op.counted α w).2) (.ofText text)

/-- The parser is in good order: it stands among the given tokens, inside of no level, and has never
been inside of too many. -/
structure Settled (tokens : List Token) (w : Watched) : Prop where
  tokens_eq : w.cursor.tokens = tokens
  index_le : w.cursor.index ≤ tokens.length
  depth_eq : w.depth = 0
  deepest_le : w.deepest ≤ maxNesting

theorem settled_ofText (text : String) : Settled (Token.scan text) (ofText text) :=
  ⟨rfl, Nat.zero_le _, rfl, Nat.zero_le _⟩

end Watched

namespace Counted

variable {α : Type} [Scalar α] [Numeral α]

theorem tracks_outermost :
    ∀ room, maxNesting = room + 1 →
      (outermost : Inner α).Tracks 1 (.within (Expr.Inner.ofRoom room)) :=
  Inner.tracks_ofHeight (Nat.zero_add _)

theorem tracks_readNode (kind : NodeKind) :
    Tracks 0 (readNode kind : Counted (Node α)) (Node.read kind) := by
  have hroom : 0 + maxNesting = maxNesting := Nat.zero_add _
  cases kind with
  | expr => exact (tracks_readExpr hroom tracks_outermost).map _
  | operand => exact (tracks_readOperand hroom tracks_outermost).map _
  | literal => exact (Tracks.lift Expr.advances_readLiteral).map _
  | number => exact (Tracks.lift Expr.advances_readNumber).map _
  | symbol => exact (Tracks.lift Expr.advances_readSymbol).map _
  | call => exact (tracks_readCall hroom tracks_outermost).map _
  | paren => exact (tracks_readParen hroom tracks_outermost).map _
  | negation => exact (tracks_readNegation hroom tracks_outermost).map _
  | sign | operator | opening | closing => exact (Tracks.lift (.accepting _ _)).map _

theorem tracks_readClimbing (least : Precedence) :
    Tracks 0 (readClimbing least : Counted (Node α)) (Node.readClimbing least) := by
  have hroom : 0 + maxNesting = maxNesting := Nat.zero_add _
  exact (tracks_readSigned hroom tracks_outermost).bind fun first =>
    (tracks_climb hroom tracks_outermost first least).map _

end Counted

namespace Operation

variable {α : Type} [Scalar α] [Numeral α]

theorem tracks_counted (op : Operation) : Counted.Tracks 0 (op.counted α) (op.reader α) := by
  cases op with
  | next => exact .lift .next
  | skip => exact .lift .skipSpaces
  | attempt kind => exact (Counted.tracks_readNode kind).attempt
  | whole kind => exact (Counted.tracks_readNode kind).whole
  | peek kind => exact (Counted.tracks_readNode kind).peek
  | climb least => exact (Counted.tracks_readClimbing least).attempt

/-- What an operation does to a parser in good order: it comes to what the reader comes to, leaves the
parser in good order and not further back, and leaves no trace if it is not meant to. -/
structure Disciplined (α : Type) [Scalar α] [Numeral α] (tokens : List Token) (op : Operation)
    (w : Watched) : Prop where
  reads : (op.reader α).runFrom w.cursor = ((op.counted α w).1, (op.counted α w).2.cursor)
  settled : (op.counted α w).2.Settled tokens
  index_le : w.cursor.index ≤ (op.counted α w).2.cursor.index
  untouched : op.leavesNoTrace (op.counted α w).1 = true → (op.counted α w).2.toParser = w.toParser

omit [Scalar α] [Numeral α] in
/-- A cursor that is put back is put back to where it was. -/
theorem cursor_of_attempt {β : Type} {m : Counted β} {w : Watched} {f : Fault}
    (h : (m.attempt w).1 = .error f) : (m.attempt w).2.cursor = w.cursor := by
  unfold Counted.attempt at h ⊢
  split at h
  · cases h
  · rfl

theorem cursor_of_leavesNoTrace {op : Operation} {w : Watched}
    (h : op.leavesNoTrace (op.counted α w).1 = true) :
    (op.counted α w).2.cursor = w.cursor := by
  cases op with
  | next | skip | whole _ => cases h
  | peek _ => rfl
  | attempt _ | climb _ =>
    cases hresult : (counted α _ w).1 with
    | ok b =>
      rw [hresult] at h
      cases h
    | error f => exact cursor_of_attempt hresult

/-- One operation. -/
theorem disciplined {tokens : List Token} {w : Watched} (h : w.Settled tokens) (op : Operation) :
    op.Disciplined α tokens w := by
  obtain ⟨⟨c, depth⟩, n⟩ := w
  obtain ⟨htokens, -, rfl, hn⟩ := h
  obtain ⟨result, c', n', hr, hm, hn', hleads⟩ := op.tracks_counted (α := α) c n hn
  have htokens' : c'.tokens = tokens := hleads.tokens_eq.trans htokens
  have hend : c'.index ≤ tokens.length := htokens' ▸ Cursor.Leads.index_le_length c'
  refine ⟨?_, ?_, ?_, ?_⟩
  · rw [hr, hm]
  · rw [hm]
    exact ⟨htokens', hend, rfl, hn'⟩
  · rw [hm]
    exact hleads.index_le
  · intro htrace
    have hcursor := cursor_of_leavesNoTrace htrace
    rw [hm] at hcursor ⊢
    exact congrArg (Parser.mk · 0) hcursor

/-- A run of operations. -/
theorem settled_after (text : String) (ops : List Operation) :
    (Watched.after α text ops).Settled (Token.scan text) := by
  have hrun : ∀ w : Watched, w.Settled (Token.scan text) →
      (ops.foldl (fun w op => (op.counted α w).2) w).Settled (Token.scan text) := by
    induction ops with
    | nil => exact fun w hw => hw
    | cons op ops ih => exact fun w hw => ih _ (disciplined hw op).settled
  exact hrun _ (Watched.settled_ofText text)

/-- After any operations on any text, the parser is in good order, and whatever is done next is done
as it should be. -/
theorem run_disciplined (text : String) (ops : List Operation) :
    (Watched.after α text ops).Settled (Token.scan text) ∧
      ∀ op : Operation, op.Disciplined α (Token.scan text) (Watched.after α text ops) :=
  ⟨settled_after text ops, disciplined (settled_after text ops)⟩

end Operation

end Fluxion
