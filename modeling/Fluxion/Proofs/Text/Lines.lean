import Fluxion.Session.Input

/-!
# Lines of bytes and lines of characters

In UTF-8 the byte of an ASCII character is found in no other character, so the bytes of a text end
their lines where the text does. Every line of them can be read.
-/

namespace Fluxion

namespace Text

/-- The bytes of characters in UTF-8. -/
def utf8 (cs : List Char) : List UInt8 :=
  cs.flatMap String.utf8EncodeChar

/-! ## Bytes of a character -/

/-- No byte of a character from 128 on is smaller than that. -/
theorem le_of_mem_utf8EncodeChar {c : Char} (hc : 128 ≤ c.toNat) :
    ∀ b ∈ String.utf8EncodeChar c, 128 ≤ b.toNat := by
  have hlarge : ¬ c.val.toNat ≤ 127 := Nat.not_le_of_lt hc
  have hbyte (n : Nat) {m k : Nat} (hm : 0 < m) (hk : 128 ≤ k) (hmk : m + k ≤ 256) :
      128 ≤ (UInt8.ofNat (n % m + k)).toNat := by
    have hlt := Nat.mod_lt n hm
    rw [UInt8.toNat_ofNat_of_lt' (by unfold UInt8.size; omega)]
    exact Nat.le_add_left_of_le hk
  have hnext (n : Nat) : 128 ≤ (UInt8.ofNat (n % 64 + 128)).toNat :=
    hbyte n (by decide) (by decide) (by decide)
  unfold String.utf8EncodeChar
  rw [if_neg hlarge]
  split
  · simp only [List.forall_mem_cons]
    exact ⟨hbyte _ (by decide) (by decide) (by decide), hnext _, nofun⟩
  · split
    · simp only [List.forall_mem_cons]
      exact ⟨hbyte _ (by decide) (by decide) (by decide), hnext _, hnext _, nofun⟩
    · simp only [List.forall_mem_cons]
      exact ⟨hbyte _ (by decide) (by decide) (by decide), hnext _, hnext _, hnext _, nofun⟩

/-- An ASCII character is one byte. -/
theorem utf8EncodeChar_of_ascii {a : Char} (ha : a.toNat < 128) :
    String.utf8EncodeChar a = [UInt8.ofNat a.toNat] :=
  if_pos (Nat.le_of_lt_succ ha)

/-- The byte of an ASCII character is found in no other character. -/
theorem mem_utf8EncodeChar_iff {a : Char} (ha : a.toNat < 128) (c : Char) :
    UInt8.ofNat a.toNat ∈ String.utf8EncodeChar c ↔ c = a := by
  have hbyte {d : Char} (hd : d.toNat < 128) : (UInt8.ofNat d.toNat).toNat = d.toNat :=
    UInt8.toNat_ofNat_of_lt' (Nat.lt_trans hd (by decide))
  constructor
  · intro hmem
    by_cases hc : c.toNat < 128
    · rw [utf8EncodeChar_of_ascii hc, List.mem_singleton] at hmem
      have hnat := congrArg UInt8.toNat hmem
      rw [hbyte ha, hbyte hc] at hnat
      exact Char.toNat_inj.1 hnat.symm
    · have hle := le_of_mem_utf8EncodeChar (Nat.le_of_not_lt hc) _ hmem
      rw [hbyte ha] at hle
      exact absurd ha (Nat.not_lt_of_le hle)
  · rintro rfl
    rw [utf8EncodeChar_of_ascii ha]
    exact List.mem_singleton_self _

/-! ## Pieces and lines -/

theorem pieces_cons_of_not {α : Type} {p : α → Bool} {x : α} (h : p x = false) (xs : List α) :
    pieces p (x :: xs) = (pieces p xs).modifyHead (x :: ·) := by
  rw [pieces, h, if_neg Bool.false_ne_true]
  cases hpieces : pieces p xs with
  | nil => exact absurd hpieces (pieces_ne_nil p xs)
  | cons piece rest => rfl

/-- Members between which nothing is cut belong to the first piece. -/
theorem pieces_append_of_not {α : Type} {p : α → Bool} {front : List α}
    (h : ∀ x ∈ front, p x = false) (xs : List α) :
    pieces p (front ++ xs) = (pieces p xs).modifyHead (front ++ ·) := by
  induction front with
  | nil => exact (congrFun List.modifyHead_id _).symm
  | cons x front ih =>
    rw [List.forall_mem_cons] at h
    rw [List.cons_append, pieces_cons_of_not h.1, ih h.2, List.modifyHead_modifyHead]
    rfl

/-- Cut at an ASCII character, the bytes of a text are those of its pieces. -/
theorem pieces_utf8 {a : Char} (ha : a.toNat < 128) (cs : List Char) :
    pieces (· == UInt8.ofNat a.toNat) (utf8 cs) = (pieces (· == a) cs).map utf8 := by
  induction cs with
  | nil => rfl
  | cons c cs ih =>
    have hcons : utf8 (c :: cs) = String.utf8EncodeChar c ++ utf8 cs := List.flatMap_cons
    rw [hcons]
    by_cases hc : c = a
    · subst hc
      rw [utf8EncodeChar_of_ascii ha, List.singleton_append, pieces, pieces, if_pos BEq.rfl,
        if_pos BEq.rfl, ih]
      rfl
    · have hbytes : ∀ b ∈ String.utf8EncodeChar c, (b == UInt8.ofNat a.toNat) = false := by
        intro b hb
        refine beq_eq_false_iff_ne.2 ?_
        rintro rfl
        exact hc ((mem_utf8EncodeChar_iff ha c).1 hb)
      rw [pieces_append_of_not hbytes, ih,
        pieces_cons_of_not (p := (· == a)) (beq_eq_false_iff_ne.2 hc)]
      cases pieces (· == a) cs with
      | nil => rfl
      | cons piece rest => exact congrArg (· :: rest.map utf8) List.flatMap_cons.symm

theorem utf8_eq_nil_iff (cs : List Char) : utf8 cs = [] ↔ cs = [] := by
  cases cs with
  | nil => exact iff_of_true rfl rfl
  | cons c cs =>
    refine iff_of_false ?_ (List.cons_ne_nil c cs)
    rw [utf8, List.flatMap_cons]
    exact List.append_ne_nil_of_left_ne_nil String.utf8EncodeChar_ne_nil _

/-- The bytes of a text end with an ASCII character if the text does. -/
theorem dropReturn_utf8 {a : Char} (ha : a.toNat < 128) (line : List Char) :
    dropReturn (UInt8.ofNat a.toNat) (utf8 line) = utf8 (dropReturn a line) := by
  rcases List.eq_nil_or_concat line with rfl | ⟨front, c, rfl⟩
  · rfl
  · have hbytes : utf8 (front ++ [c]) = utf8 front ++ String.utf8EncodeChar c := by
      rw [utf8, List.flatMap_append, List.flatMap_singleton]
      rfl
    have hlast : (utf8 front ++ String.utf8EncodeChar c).getLast? =
        (String.utf8EncodeChar c).getLast? := by
      rw [List.getLast?_append, List.getLast?_eq_some_getLast String.utf8EncodeChar_ne_nil,
        Option.some_or]
    rw [List.concat_eq_append, dropReturn, dropReturn, hbytes, hlast, List.getLast?_concat]
    by_cases hc : c = a
    · subst hc
      rw [utf8EncodeChar_of_ascii ha, List.getLast?_singleton, if_pos BEq.rfl, if_pos BEq.rfl,
        List.dropLast_concat, List.dropLast_concat]
    · rw [if_neg, if_neg, hbytes]
      · rwa [beq_iff_eq, Option.some_inj]
      · rw [beq_iff_eq]
        intro hbyte
        exact hc ((mem_utf8EncodeChar_iff ha c).1 (List.mem_of_getLast? hbyte))

/-- The bytes of a text have the lines of the text. -/
theorem byteLines_utf8 (cs : List Char) : byteLines (utf8 cs) = (lines cs).map utf8 := by
  have hpieces : pieces (· == 0x0A) (utf8 cs) = (pieces (· == '\n') cs).map utf8 :=
    pieces_utf8 (a := '\n') (by decide) cs
  have hreturn : dropReturn 0x0D ∘ utf8 = utf8 ∘ dropReturn '\r' :=
    funext (dropReturn_utf8 (a := '\r') (by decide))
  have hempty : (fun line => !line.isEmpty) ∘ utf8 = fun line => !line.isEmpty := by
    funext line
    rw [Function.comp_apply, Bool.eq_iff_iff]
    simp [utf8_eq_nil_iff]
  simp only [byteLines, lines, linesOf, hpieces, List.map_append, List.map_map, hreturn,
    ← List.map_dropLast, List.getLast?_map, Option.filter_map, hempty, Option.toList_map]

end Text

/-- What is read of the bytes of a text is the text. -/
theorem InputLine.ofBytes_utf8 (cs : List Char) :
    InputLine.ofBytes (Text.utf8 cs) = .text (String.ofList cs) := by
  have hbytes : (Text.utf8 cs).toByteArray = (String.ofList cs).toByteArray :=
    String.toByteArray_ofList.symm
  have hread : String.fromUTF8? (Text.utf8 cs).toByteArray = some (String.ofList cs) := by
    rw [hbytes, String.fromUTF8?, dif_pos (String.ofList cs).isValidUTF8]
    rfl
  rw [ofBytes, hread]

/-- Every line of a text can be read. -/
theorem inputLines_text (text : String) :
    inputLines text = (Text.lines text.toList).map fun line => .text (String.ofList line) := by
  have hbytes : text.toUTF8.data.toList = Text.utf8 text.toList := by
    rw [String.toUTF8_eq_toByteArray, ← String.utf8Encode_toList, List.utf8Encode,
      List.toList_data_toByteArray]
    rfl
  rw [inputLines, hbytes, Text.byteLines_utf8, List.map_map]
  exact List.map_congr_left fun line _ => InputLine.ofBytes_utf8 line

end Fluxion
