import SparsePoly.Batch.Sink

/-!
# Texts that are lines

A text of one line, written with a line feed at its end, is found again when the bytes are cut into
lines. This rests on the encoding: the byte of a line feed occurs in no other character.

* `mem_utf8_iff`: a byte of ASCII in the bytes is its character in the text.
* `cutLines_flatten`: lines written one after another are the lines that cutting gives.
* `linesOf_append`: lines that are ended are read apart from what follows them.
* `isLine_or_notMem_of_mem_cutLines`: a line feed ends a line and is nowhere else in it.
* `Line.ofBytes_eq_ok_iff`: a line is read as the text that its content encodes.
* `Line.ofBytes_utf8`: a line that is written is read as its text.
-/

namespace SparsePoly

/-! ### The bytes of a text -/

theorem utf8_eq_flatMap (text : String) :
    utf8 text = text.toList.flatMap String.utf8EncodeChar := by
  have hbytes : text.toByteArray = text.toList.utf8Encode := by
    rw [← String.toByteArray_ofList, String.ofList_toList]
  rw [utf8, String.toUTF8, hbytes, List.utf8Encode, List.toList_data_toByteArray]

theorem utf8_append (s t : String) : utf8 (s ++ t) = utf8 s ++ utf8 t := by
  rw [utf8_eq_flatMap, utf8_eq_flatMap, utf8_eq_flatMap, String.toList_append, List.flatMap_append]

/-- The bytes of a character beyond ASCII are 128 or more, so that none is one of ASCII. -/
private theorem notMem_map_of_lt {n : Nat} (hn : n < 128) {ns : List Nat}
    (h : ∀ k ∈ ns, 128 ≤ k ∧ k < 256) : UInt8.ofNat n ∉ ns.map UInt8.ofNat := by
  intro hmem
  obtain ⟨k, hk, hbyte⟩ := List.mem_map.1 hmem
  obtain ⟨hlow, hhigh⟩ := h k hk
  have hvalue : k = n := by
    rw [← UInt8.toNat_ofNat_of_lt' hhigh, hbyte,
      UInt8.toNat_ofNat_of_lt' (Nat.lt_trans hn (by decide))]
  omega

/-- Only a character of ASCII itself is encoded with its byte. -/
private theorem mem_utf8EncodeChar_iff {a : Char} (ha : a.toNat < 128) (c : Char) :
    UInt8.ofNat a.toNat ∈ String.utf8EncodeChar c ↔ c = a := by
  constructor
  · intro h
    unfold String.utf8EncodeChar at h
    simp only at h
    split at h
    · next hascii =>
      have hbyte : (UInt8.ofNat c.toNat).toNat = (UInt8.ofNat a.toNat).toNat :=
        congrArg UInt8.toNat (List.mem_singleton.1 h).symm
      have hc : c.toNat < 256 := Nat.lt_of_le_of_lt hascii (by decide)
      rw [UInt8.toNat_ofNat_of_lt' hc, UInt8.toNat_ofNat_of_lt' (Nat.lt_trans ha (by decide))]
        at hbyte
      exact Char.toNat_inj.1 hbyte
    · split at h
      · refine absurd h (@notMem_map_of_lt _ ha [_, _] ?_)
        simp only [List.forall_mem_cons, List.not_mem_nil, false_imp_iff, implies_true, and_true]
        omega
      · split at h
        · refine absurd h (@notMem_map_of_lt _ ha [_, _, _] ?_)
          simp only [List.forall_mem_cons, List.not_mem_nil, false_imp_iff, implies_true, and_true]
          omega
        · refine absurd h (@notMem_map_of_lt _ ha [_, _, _, _] ?_)
          simp only [List.forall_mem_cons, List.not_mem_nil, false_imp_iff, implies_true, and_true]
          omega
  · rintro rfl
    have hascii : c.val.toNat ≤ 0x7F := Nat.le_of_lt_succ ha
    rw [String.utf8EncodeChar, if_pos hascii]
    exact .head []

/-- A byte of ASCII in the bytes of a text is its character in the text. -/
theorem mem_utf8_iff {a : Char} (ha : a.toNat < 128) {text : String} :
    UInt8.ofNat a.toNat ∈ utf8 text ↔ a ∈ text.toList := by
  rw [utf8_eq_flatMap, List.mem_flatMap]
  simp only [mem_utf8EncodeChar_iff ha, exists_eq_right]

theorem lineFeed_mem_utf8_iff {text : String} : lineFeed ∈ utf8 text ↔ '\n' ∈ text.toList :=
  mem_utf8_iff (show '\n'.toNat < 128 by decide)

theorem carriageReturn_mem_utf8_iff {text : String} :
    carriageReturn ∈ utf8 text ↔ '\r' ∈ text.toList :=
  mem_utf8_iff (show '\r'.toNat < 128 by decide)

/-- Bytes are decoded to the text that they encode, and to no other. -/
theorem fromUTF8?_eq_some_iff {bytes : Bytes} {text : String} :
    String.fromUTF8? ⟨bytes.toArray⟩ = some text ↔ utf8 text = bytes := by
  constructor
  · intro h
    rw [String.fromUTF8?] at h
    split at h
    · cases h
      rfl
    · contradiction
  · rintro rfl
    rw [utf8, Array.toArray_toList]
    exact dif_pos text.isValidUTF8

/-- Where the bytes of a text end with one of ASCII, the text ends with its character. -/
theorem exists_of_utf8_eq_concat {a : Char} (ha : a.toNat < 128) {text : String} {bytes : Bytes}
    (h : utf8 text = bytes ++ [UInt8.ofNat a.toNat]) :
    ∃ s, text = s ++ String.singleton a ∧ utf8 s = bytes := by
  have hascii : String.utf8EncodeChar a = [UInt8.ofNat a.toNat] := by
    have hle : a.val.toNat ≤ 0x7F := Nat.le_of_lt_succ ha
    rw [String.utf8EncodeChar, if_pos hle]
    rfl
  rw [utf8_eq_flatMap] at h
  rcases List.eq_nil_or_concat text.toList with hnil | ⟨cs, c, hcs⟩
  · rw [hnil] at h
    exact absurd h.symm (List.append_ne_nil_of_right_ne_nil _ (List.cons_ne_nil _ _))
  · rw [List.concat_eq_append] at hcs
    rw [hcs, List.flatMap_append, List.flatMap_singleton] at h
    -- the last byte belongs to the last character, which is of ASCII then
    have hmem : UInt8.ofNat a.toNat ∈ String.utf8EncodeChar c := by
      have hlast := congrArg List.getLast? h
      rw [List.getLast?_append, List.getLast?_eq_some_getLast String.utf8EncodeChar_ne_nil,
        Option.some_or, List.getLast?_concat] at hlast
      exact Option.some.inj hlast ▸ List.getLast_mem String.utf8EncodeChar_ne_nil
    obtain rfl := (mem_utf8EncodeChar_iff ha c).1 hmem
    rw [hascii] at h
    refine ⟨String.ofList cs, ?_, ?_⟩
    · rw [← String.toList_inj, hcs, String.toList_append, String.toList_ofList,
        String.toList_singleton]
    · rw [utf8_eq_flatMap, String.toList_ofList]
      exact List.append_cancel_right h

/-! ### Lines -/

theorem cutLines_cons (b : UInt8) (bytes : Bytes) :
    cutLines (b :: bytes) = consByte b (cutLines bytes) := rfl

/-- A byte that ends no line is put into the line behind it. -/
theorem consByte_cons {b : UInt8} (hb : b ≠ lineFeed) (line : Bytes) (lines : List Bytes) :
    consByte b (line :: lines) = (b :: line) :: lines := if_neg hb

/-- A line feed is a line of its own before all others. -/
theorem consByte_lineFeed (lines : List Bytes) :
    consByte lineFeed lines = [lineFeed] :: lines := by
  cases lines with
  | nil => rfl
  | cons line lines => rw [consByte, if_pos rfl]

/-- Bytes without a line feed are one line together with the line feed behind them. -/
theorem cutLines_append {line : Bytes} (hline : lineFeed ∉ line) (rest : Bytes) :
    cutLines (line ++ lineFeed :: rest) = (line ++ [lineFeed]) :: cutLines rest := by
  induction line with
  | nil => exact consByte_lineFeed (cutLines rest)
  | cons b line ih =>
    obtain ⟨hb, hline⟩ := List.ne_and_not_mem_of_not_mem_cons hline
    rw [List.cons_append, cutLines_cons, ih hline, consByte_cons (Ne.symm hb)]
    rfl

/-- Bytes without a line feed are one line, if there are any. -/
theorem cutLines_of_notMem {line : Bytes} (hline : lineFeed ∉ line) (hne : line ≠ []) :
    cutLines line = [line] := by
  induction line with
  | nil => contradiction
  | cons b line ih =>
    obtain ⟨hb, hline⟩ := List.ne_and_not_mem_of_not_mem_cons hline
    cases line with
    | nil => rfl
    | cons b' line =>
      rw [cutLines_cons, ih hline (List.cons_ne_nil b' line), consByte_cons (Ne.symm hb)]

/-- A byte that is put before some lines leaves the lines behind them as they are. -/
private theorem consByte_append {b : UInt8} {lines : List Bytes} (h : lines ≠ [])
    (rest : List Bytes) :
    consByte b (lines ++ rest) = consByte b lines ++ rest := by
  cases lines with
  | nil => contradiction
  | cons line lines =>
    simp only [consByte, List.cons_append]
    split <;> rfl

/-- Bytes that a line feed ends are cut into lines apart from what follows them. -/
theorem cutLines_append_of_getLast? {bytes : Bytes} (h : bytes.getLast? = some lineFeed)
    (rest : Bytes) : cutLines (bytes ++ rest) = cutLines bytes ++ cutLines rest := by
  induction bytes with
  | nil => contradiction
  | cons b bytes ih =>
    rw [List.cons_append, cutLines_cons]
    cases bytes with
    | nil =>
      obtain rfl : b = lineFeed := Option.some.inj h
      exact consByte_lineFeed (cutLines rest)
    | cons b' bytes =>
      rw [List.getLast?_cons_cons] at h
      have hne : cutLines (b' :: bytes) ≠ [] := fun hnil => by
        have hlost := flatten_cutLines (b' :: bytes)
        rw [hnil] at hlost
        contradiction
      rw [ih h, consByte_append hne]
      rfl

/-- Lines that are ended are read apart from what follows them. -/
theorem linesOf_append {bytes : Bytes} (h : bytes = [] ∨ bytes.getLast? = some lineFeed)
    (rest : Bytes) : linesOf (bytes ++ rest) = linesOf bytes ++ linesOf rest := by
  rcases h with rfl | h
  · rfl
  · rw [linesOf, cutLines_append_of_getLast? h, List.map_append]
    rfl

/-- Bytes that hold one line, which a line feed ends. -/
def IsLine (bytes : Bytes) : Prop := ∃ line, lineFeed ∉ line ∧ bytes = line ++ [lineFeed]

/-- A line is ended by its only line feed, or it has none. -/
theorem isLine_or_notMem_of_mem_cutLines {bytes line : Bytes} (h : line ∈ cutLines bytes) :
    IsLine line ∨ lineFeed ∉ line := by
  induction bytes generalizing line with
  | nil => contradiction
  | cons b bytes ih =>
    rw [cutLines_cons] at h
    by_cases hb : b = lineFeed
    · rw [hb, consByte_lineFeed] at h
      rcases List.mem_cons.1 h with rfl | h
      · exact .inl ⟨[], List.not_mem_nil, rfl⟩
      · exact ih h
    · cases hlines : cutLines bytes with
      | nil =>
        rw [hlines, consByte, List.mem_singleton] at h
        rw [h, List.mem_singleton]
        exact .inr (Ne.symm hb)
      | cons first lines =>
        rw [hlines, consByte_cons hb] at h
        rw [hlines] at ih
        rcases List.mem_cons.1 h with rfl | h
        · -- the byte becomes a part of the first line, which it does not end
          rcases ih (.head lines) with ⟨content, hcontent, rfl⟩ | hfirst
          · exact .inl ⟨b :: content, List.not_mem_cons_of_ne_of_not_mem (Ne.symm hb) hcontent, rfl⟩
          · exact .inr (List.not_mem_cons_of_ne_of_not_mem (Ne.symm hb) hfirst)
        · exact ih (.tail first h)

/-- Lines that are put one behind another are the lines of the whole. -/
theorem cutLines_flatten {lines : List Bytes} (h : ∀ line ∈ lines, IsLine line) :
    cutLines lines.flatten = lines := by
  induction lines with
  | nil => rfl
  | cons line lines ih =>
    obtain ⟨⟨content, hcontent, rfl⟩, hlines⟩ := List.forall_mem_cons.1 h
    rw [List.flatten_cons, List.append_assoc, List.singleton_append, cutLines_append hcontent,
      ih hlines]

/-! ### What a line holds -/

theorem dropEnd_concat (b : UInt8) (bytes : Bytes) : dropEnd b (bytes ++ [b]) = bytes := by
  rw [dropEnd, if_pos List.getLast?_concat, List.dropLast_concat]

/-- A line holds what stands before its line feed, without a carriage return at the end of that. -/
theorem lineContent_concat (content : Bytes) :
    lineContent (content ++ [lineFeed]) = dropEnd carriageReturn content := by
  rw [lineContent, if_pos List.getLast?_concat, List.dropLast_concat]

/-- A line without a line feed holds all of its bytes. -/
theorem lineContent_of_notMem {line : Bytes} (h : lineFeed ∉ line) : lineContent line = line :=
  if_neg fun hlast => h (List.mem_of_getLast? hlast)

/-- A line is read as the text that its content encodes. -/
theorem Line.ofBytes_eq_ok_iff {line : Bytes} {text : String} :
    Line.ofBytes line = .ok text ↔ utf8 text = lineContent line := by
  rw [← fromUTF8?_eq_some_iff, ofBytes]
  split
  · next text' htext =>
    rw [htext, Except.ok.injEq, Option.some.injEq]
  · next hnone =>
    rw [hnone]
    exact iff_of_false nofun nofun

/-- A line that cannot be read is no valid UTF-8. -/
theorem Line.ofBytes_eq_error {line : Bytes} {e : TransferError}
    (h : Line.ofBytes line = .error e) : e = .invalidUtf8 := by
  rw [ofBytes] at h
  split at h
  · contradiction
  · exact (Except.error.inj h).symm

/-- A text without a carriage return that is written as a line is read from it. -/
theorem Line.ofBytes_utf8 {text : String} (h : '\r' ∉ text.toList) :
    Line.ofBytes (utf8 (text ++ "\n")) = .ok text := by
  have hbytes : utf8 (text ++ "\n") = utf8 text ++ [lineFeed] := utf8_append text "\n"
  have hcontent : lineContent (utf8 (text ++ "\n")) = utf8 text := by
    have hend : (utf8 text).getLast? ≠ some carriageReturn :=
      fun hlast => h (carriageReturn_mem_utf8_iff.1 (List.mem_of_getLast? hlast))
    rw [hbytes, lineContent_concat, dropEnd, if_neg hend]
  rw [ofBytes_eq_ok_iff, hcontent]

end SparsePoly
