import Fluxion.Proofs.Token.LongestMatch

/-!
# Pieces of a text

A text that is cut between two tokens has the tokens of its pieces. What follows a token is looked
at to see whether it goes on, and less that follows gives no more reason to. So a piece that some
tokens fill is scanned to just these tokens when it stands alone, only that they are counted from
its start.
-/

namespace Fluxion

open scoped Computability

/-- What stands in the span, which starts and stops between characters of the text. -/
def Span.Marks (span : Span) (text piece : String) : Prop :=
  ∃ before after, text = before ++ piece ++ after ∧ span.start = before.utf8ByteSize ∧
    span.stop = span.start + piece.utf8ByteSize

/-- A beginning of a text is determined by its size. -/
theorem eq_of_utf8ByteSize_eq {cs ds cs' ds' : List Char} (h : cs ++ cs' = ds ++ ds')
    (hsize : (String.ofList cs).utf8ByteSize = (String.ofList ds).utf8ByteSize) : cs = ds := by
  have hbegins {xs ys : List Char} (hxy : xs <+: ys)
      (hsize : (String.ofList xs).utf8ByteSize = (String.ofList ys).utf8ByteSize) : xs = ys := by
    obtain ⟨zs, rfl⟩ := hxy
    rw [String.ofList_append, String.utf8ByteSize_append] at hsize
    have hzero : (String.ofList zs).utf8ByteSize = 0 := by omega
    rw [String.utf8ByteSize_eq_zero_iff] at hzero
    have hnil : zs = [] := String.ofList_injective hzero
    rw [hnil, List.append_nil]
  rcases List.prefix_or_prefix_of_prefix (List.prefix_append cs cs') (h ▸ List.prefix_append ds ds')
    with hle | hle
  · exact hbegins hle hsize
  · exact (hbegins hle hsize.symm).symm

/-- No more than one text stands in a span. -/
theorem Span.Marks.unique {span : Span} {text piece piece' : String} (h : span.Marks text piece)
    (h' : span.Marks text piece') : piece = piece' := by
  obtain ⟨before, after, htext, hstart, hstop⟩ := h
  obtain ⟨before', after', htext', hstart', hstop'⟩ := h'
  have heq : before.toList ++ (piece.toList ++ after.toList) =
      before'.toList ++ (piece'.toList ++ after'.toList) := by
    simpa [String.toList_append] using congrArg String.toList (htext.symm.trans htext')
  have hbefore : before.toList = before'.toList := by
    refine eq_of_utf8ByteSize_eq heq ?_
    rw [String.ofList_toList, String.ofList_toList, ← hstart, ← hstart']
  rw [hbefore, List.append_cancel_left_eq] at heq
  refine String.toList_inj.1 (eq_of_utf8ByteSize_eq heq ?_)
  rw [String.ofList_toList, String.ofList_toList]
  omega

namespace TokenKind

/-- With less of the text to look at, there are fewer beginnings that look like a token. -/
theorem Longest.of_prefix {kind : TokenKind} {lexeme text text' : List Char}
    (h : kind.Longest lexeme text) (htext : text' <+: text) (hfront : lexeme <+: text') :
    kind.Longest lexeme text' where
  front := hfront
  mem := h.mem
  length_le hcs hbegins := h.length_le hcs (hbegins.trans htext)
  only := h.only
  last_resort hkind _ _ hcs hbegins := h.last_resort hkind hcs (hbegins.trans htext)

end TokenKind

namespace Token

/-- The bytes that tokens fill. -/
def size (ts : List Token) : Nat := (String.ofList (characters ts)).utf8ByteSize

theorem characters_append (ts us : List Token) :
    characters (ts ++ us) = characters ts ++ characters us :=
  List.flatMap_append

theorem size_append (ts us : List Token) : size (ts ++ us) = size ts + size us := by
  rw [size, characters_append, String.ofList_append, String.utf8ByteSize_append]
  rfl

/-- The token, further on in a text. -/
def shift (n : Nat) (t : Token) : Token := { t with span := t.span.shift n }

theorem scanFrom_shift (n offset : Nat) (cs : List Char) :
    scanFrom (offset + n) cs = (scanFrom offset cs).map (shift n) := by
  fun_induction scanFrom offset cs with
  | case1 offset => rw [scanFrom_nil, List.map_nil]
  | case2 offset c rest kind tail hfirst lexeme stop ih =>
    have hstop : offset + n + lexeme.utf8ByteSize = stop + n := Nat.add_right_comm _ _ _
    rw [scanFrom, hfirst, List.map_cons, ← ih]
    dsimp only
    rw [hstop]
    rfl

/-- Some tokens are also scanned if nothing follows them. -/
theorem scanFrom_characters {offset : Nat} {cs : List Char} {front back : List Token}
    (h : scanFrom offset cs = front ++ back) : scanFrom offset (characters front) = front := by
  induction front generalizing offset cs with
  | nil => exact scanFrom_nil offset
  | cons t front ih =>
    have hcovers := (scanFrom_covers offset cs).of_mem (t := t) (by rw [h]; simp)
    obtain ⟨hspan, hlongest, rest, rfl, hscan⟩ := of_scanFrom_eq_cons h
    obtain ⟨rest, rfl, -⟩ := of_scanFrom_eq_append hscan.symm
    have hcharacters : characters (t :: front) = t.lexeme.toList ++ characters front := rfl
    have halone : t.kind.Longest t.lexeme.toList (characters (t :: front)) :=
      hlongest.of_prefix ⟨rest, List.append_assoc _ _ _⟩ ⟨characters front, rfl⟩
    cases hfirst : scanFrom offset (characters (t :: front)) with
    | nil =>
      have hnil := characters_scanFrom offset (characters (t :: front))
      rw [hfirst, hcharacters] at hnil
      have hempty : t.lexeme = "" :=
        String.toList_eq_nil_iff.1 (List.append_eq_nil_iff.1 hnil.symm).1
      rw [hspan, hempty] at hcovers
      exact absurd hcovers.2.1 (Nat.lt_irrefl _)
    | cons u us =>
      obtain ⟨huspan, hulongest, urest, hu, hus⟩ := of_scanFrom_eq_cons hfirst
      obtain ⟨hkind, hlexeme⟩ := hulongest.unique halone
      rw [hcharacters, hlexeme, List.append_cancel_left_eq] at hu
      rw [String.toList_inj] at hlexeme
      have ht : u = t := by
        rw [hlexeme, ← hspan] at huspan
        cases u
        cases t
        simp_all
      rw [hlexeme, ← hu, ih hscan.symm] at hus
      rw [ht, hus]

/-! ## Tokens of a text -/

variable {text : String} {front mid back : List Token}

/-- Tokens in the middle of a text are those of the piece that they fill. -/
theorem scan_characters (h : scan text = front ++ mid ++ back) :
    (scan (String.ofList (characters mid))).map (shift (size front)) = mid := by
  rw [List.append_assoc] at h
  obtain ⟨rest, -, hrest⟩ := of_scanFrom_eq_append h
  have hmid := scanFrom_characters hrest.symm
  rwa [scanFrom_shift, ← size, ← String.toList_ofList (l := characters mid)] at hmid

/-- A token that stands alone is scanned as what it is. -/
theorem scan_lexeme {t : Token} (h : t ∈ scan text) :
    ∃ u, scan t.lexeme = [u] ∧ u.kind = t.kind := by
  obtain ⟨before, after, hscan⟩ := List.append_of_mem h
  have hpieces : scan text = before ++ [t] ++ after := by simp [hscan]
  have halone := scan_characters hpieces
  have hlexeme : String.ofList (characters [t]) = t.lexeme := by
    rw [characters, List.flatMap_singleton, String.ofList_toList]
  rw [hlexeme, List.map_eq_singleton_iff] at halone
  obtain ⟨u, hu, hshift⟩ := halone
  refine ⟨u, hu, ?_⟩
  rw [← hshift]
  rfl

theorem marks_characters (h : scan text = front ++ mid ++ back) :
    Span.Marks ⟨size front, size (front ++ mid)⟩ text (String.ofList (characters mid)) := by
  refine ⟨String.ofList (characters front), String.ofList (characters back), ?_, rfl,
    size_append front mid⟩
  have htext := characters_scanFrom 0 text.toList
  rw [← scan, h, characters_append, characters_append] at htext
  rw [← String.toList_inj, ← htext]
  simp

/-- A token stands right after those before it. -/
theorem span_of_scan {t : Token} (h : scan text = front ++ t :: back) :
    t.span = ⟨size front, size (front ++ [t])⟩ := by
  obtain ⟨rest, -, hrest⟩ := of_scanFrom_eq_append h
  obtain ⟨hspan, -⟩ := of_scanFrom_eq_cons hrest.symm
  have hsingle : size [t] = t.lexeme.utf8ByteSize := by
    rw [size, characters, List.flatMap_singleton, String.ofList_toList]
  rw [hspan, size_append, hsingle, Nat.zero_add]
  rfl

theorem forall_of_mem_run {p : Char → Prop} {cs : List Char} (h : cs ∈ oneOf p * (oneOf p)∗) :
    ∀ c ∈ cs, p c := by
  obtain ⟨c, tail, rfl, hc, htail⟩ := mem_run.1 h
  exact List.forall_mem_cons.2 ⟨hc, htail⟩

/-- A token that only separates others is made of blanks or of line breaks. -/
theorem mem_of_isSpace {t : Token} (ht : t ∈ scan text) (hspace : t.isSpace = true) :
    ∀ c ∈ t.lexeme.toList, c ∈ [' ', '\t', '\n', '\r'] := by
  obtain ⟨before, after, hscan⟩ := List.append_of_mem ht
  obtain ⟨rest, -, hrest⟩ := of_scanFrom_eq_append hscan
  obtain ⟨-, hlongest, -⟩ := of_scanFrom_eq_cons hrest.symm
  have hmem := hlongest.mem
  intro c hc
  cases hkind : t.kind with
  | lineBreak =>
    rw [hkind] at hmem
    exact List.mem_append_right [' ', '\t'] (forall_of_mem_run hmem c hc)
  | blank =>
    rw [hkind] at hmem
    exact List.mem_append_left ['\n', '\r'] (forall_of_mem_run hmem c hc)
  | _ =>
    rw [isSpace, hkind] at hspace
    cases hspace

/-! ## Significant tokens of a text -/

/-- What comes before and after a significant token among the significant ones comes before and
after it among all. -/
theorem of_filter_eq {p : Token → Bool} {ts front back : List Token} {t : Token}
    (h : ts.filter p = front ++ t :: back) :
    ∃ front' back', ts = front' ++ t :: back' ∧ front'.filter p = front ∧
      back'.filter p = back := by
  obtain ⟨before, after, rfl, hbefore, hafter⟩ := List.filter_eq_append_iff.1 h
  obtain ⟨skipped, back', rfl, hskipped, -, hback⟩ := List.filter_eq_cons_iff.1 hafter
  refine ⟨before ++ skipped, back', (List.append_assoc _ _ _).symm, ?_, hback⟩
  rw [List.filter_append, hbefore, List.filter_eq_nil_iff.2 hskipped, List.append_nil]

/-- From the first to the last of some significant tokens there is a piece that has just these ones.
-/
theorem exists_piece {t u : Token}
    (h : (scan text).filter isSignificant = front ++ mid ++ back) (ht : mid.head? = some t)
    (hu : mid.getLast? = some u) :
    ∃ piece, (t.span.cover u.span).Marks text piece ∧
      ((scan piece).filter isSignificant).map (shift t.span.start) = mid := by
  obtain ⟨rest, rfl⟩ := List.head?_eq_some_iff.1 ht
  obtain ⟨init, hinit⟩ := List.getLast?_eq_some_iff.1 hu
  rw [hinit, ← List.append_assoc, List.append_assoc _ [u], List.singleton_append] at h
  obtain ⟨before, after, hscan, hbefore, -⟩ := of_filter_eq h
  -- the last of the tokens is also found after the first one
  have hlast : (before ++ [u]).filter isSignificant = front ++ t :: rest := by
    have hsignificant : isSignificant u = true :=
      (List.mem_filter.1 (h ▸ List.mem_append_right _ List.mem_cons_self)).2
    rw [List.filter_append, hbefore, List.append_assoc, hinit,
      List.filter_cons_of_pos hsignificant, List.filter_nil]
  obtain ⟨front', rest', hbegin, -, hrest⟩ := of_filter_eq hlast
  have hpieces : scan text = front' ++ (t :: rest') ++ after := by
    rw [hscan, ← hbegin, List.append_assoc]
    rfl
  have hstart : t.span.start = size front' := by
    rw [span_of_scan (hpieces.trans (List.append_assoc _ _ _))]
  have hstop : u.span.stop = size (front' ++ t :: rest') := by
    rw [span_of_scan hscan, hbegin]
  refine ⟨String.ofList (characters (t :: rest')), ?_, ?_⟩
  · rw [Span.cover, hstart, hstop]
    exact marks_characters hpieces
  · have hfirst : isSignificant t = true :=
      (List.mem_filter.1 (hlast ▸ List.mem_append_right _ List.mem_cons_self)).2
    have hfilter := congrArg (List.filter isSignificant) (scan_characters hpieces)
    rw [List.filter_map, List.filter_cons_of_pos hfirst, hrest, ← hstart] at hfilter
    exact hfilter

/-- Between one significant token and the next one there are only blanks and line breaks. -/
theorem exists_gap {t u : Token} (h : (scan text).filter isSignificant = front ++ t :: u :: back) :
    ∃ gap, (t.span.gap u.span).Marks text gap ∧
      ∀ c ∈ gap.toList, c ∈ [' ', '\t', '\n', '\r'] := by
  obtain ⟨before, after, hscan, -, hafter⟩ := of_filter_eq h
  obtain ⟨spaces, after, rfl, hspaces, -, -⟩ := List.filter_eq_cons_iff.1 hafter
  have hpieces : scan text = (before ++ [t]) ++ spaces ++ u :: after := by simp [hscan]
  refine ⟨String.ofList (characters spaces), ?_, ?_⟩
  · rw [Span.gap, span_of_scan hscan, span_of_scan hpieces]
    exact marks_characters hpieces
  · intro c hc
    rw [String.toList_ofList] at hc
    obtain ⟨space, hspace, hc⟩ := List.mem_flatMap.1 hc
    refine mem_of_isSpace (t := space) (by rw [hscan]; simp [hspace]) ?_ c hc
    simpa [isSignificant] using hspaces space hspace

end Token

end Fluxion
