import ScriptTree.Command.Answer

/-!
# Encoded texts

UTF-8 as far as the command depends on it.

* `decodeUtf8?_eq_some_iff`: bytes decode to a text exactly if they are its encoding.
* `Text.LineEnd.lines_encode`: the lines of the bytes are the encoded lines of the text, so that
  cutting into lines and decoding can be done in either order.  A byte below 128 stands for itself
  alone (`Text.mem_utf8EncodeChar_iff`), and both signs of a line end are such bytes.
* `Text.LineEnd.isEncoded_iff_lines`: whether bytes are valid is a matter of their lines, one by one.
  An encoding that is broken off by a line end is not made whole behind it.
-/

namespace ScriptTree

namespace Text

/-- The bytes of a text in UTF-8. -/
def encode (text : List Char) : List UInt8 := text.flatMap String.utf8EncodeChar

@[simp] theorem encode_nil : encode [] = [] := rfl

@[simp] theorem encode_cons (c : Char) (text : List Char) :
    encode (c :: text) = String.utf8EncodeChar c ++ encode text :=
  List.flatMap_cons

@[simp] theorem encode_append (a b : List Char) : encode (a ++ b) = encode a ++ encode b :=
  List.flatMap_append

theorem encode_eq_nil_iff {text : List Char} : encode text = [] ↔ text = [] := by
  cases text with
  | nil => simp
  | cons c text => simp [String.utf8EncodeChar_ne_nil]

end Text

theorem decodeUtf8?_eq_some_iff {bytes : List UInt8} {text : List Char} :
    decodeUtf8? bytes = some text ↔ bytes = Text.encode text := by
  have hencode : (Text.encode text).toByteArray = (String.ofList text).toByteArray :=
    String.toByteArray_ofList.symm
  unfold decodeUtf8? String.fromUTF8?
  constructor
  · intro h
    split at h
    · next hvalid =>
      obtain rfl : (String.fromUTF8 bytes.toByteArray hvalid).toList = text := by simpa using h
      rw [String.ofList_toList] at hencode
      exact (List.toByteArray_inj.mp hencode).symm
    · cases h
  · rintro rfl
    have hvalid : (Text.encode text).toByteArray.IsValidUTF8 := ⟨text, rfl⟩
    rw [dif_pos hvalid]
    have hstring : String.fromUTF8 (Text.encode text).toByteArray hvalid = String.ofList text :=
      String.toByteArray_inj.mp hencode
    rw [hstring, Option.map_some, String.toList_ofList]

theorem decodeUtf8?_encode (text : List Char) : decodeUtf8? (Text.encode text) = some text :=
  decodeUtf8?_eq_some_iff.mpr rfl

namespace Text

/-- Every byte of a longer encoding has its highest bit set. -/
theorem le_toNat_of_mem_utf8EncodeChar {b : UInt8} {c : Char} (hc : 128 ≤ c.toNat)
    (hmem : b ∈ String.utf8EncodeChar c) : 128 ≤ b.toNat := by
  have hlong : ¬ c.val.toNat ≤ 127 := Nat.not_le_of_lt hc
  simp only [String.utf8EncodeChar, if_neg hlong] at hmem
  repeat' split at hmem
  all_goals
    simp only [List.mem_cons, List.not_mem_nil, or_false, ← UInt8.toNat_inj,
      UInt8.toNat_ofNat'] at hmem
    omega

/-- A byte below 128 stands for one character, and is part of no other. -/
theorem mem_utf8EncodeChar_iff {b : UInt8} {c : Char} (hb : b.toNat < 128) :
    b ∈ String.utf8EncodeChar c ↔ c.toNat = b.toNat := by
  by_cases hc : 128 ≤ c.toNat
  · have hhigh := mt (le_toNat_of_mem_utf8EncodeChar (b := b) hc) (Nat.not_le_of_lt hb)
    exact iff_of_false hhigh (by omega)
  · have hshort : c.val.toNat ≤ 127 := Nat.le_of_lt_succ (Nat.lt_of_not_le hc)
    have hval : c.toNat = c.val.toNat := rfl
    simp only [String.utf8EncodeChar, if_pos hshort, List.mem_singleton, ← UInt8.toNat_inj,
      UInt8.toNat_ofNat']
    omega

/-- A character below 128 is in a text exactly if its byte is in the encoding. -/
theorem mem_encode_iff {b : UInt8} {c : Char} {text : List Char} (hc : c.toNat = b.toNat)
    (hb : b.toNat < 128) : b ∈ encode text ↔ c ∈ text := by
  simp only [encode, List.mem_flatMap, mem_utf8EncodeChar_iff hb]
  constructor
  · rintro ⟨d, hd, heq⟩
    obtain rfl : d = c := Char.toNat_inj.mp (heq.trans hc.symm)
    exact hd
  · intro h
    exact ⟨c, h, hc⟩

theorem encode_singleton {b : UInt8} {c : Char} (hc : c.toNat = b.toNat) (hb : b.toNat < 128) :
    encode [c] = [b] := by
  have hval : c.toNat = c.val.toNat := rfl
  have hshort : c.val.toNat ≤ 127 := by omega
  rw [encode_cons, encode_nil, List.append_nil]
  simp only [String.utf8EncodeChar, if_pos hshort, List.cons.injEq, and_true, ← UInt8.toNat_inj,
    UInt8.toNat_ofNat']
  omega

/-- At a byte below 128 the bytes of a text can be parted as the text can. -/
theorem exists_of_encode_eq {text : List Char} {a b : List UInt8} {x : UInt8} (hx : x.toNat < 128)
    (h : encode text = a ++ x :: b) :
    ∃ u c v, text = u ++ c :: v ∧ encode u = a ∧ encode v = b := by
  induction text generalizing a with
  | nil => simp at h
  | cons c text ih =>
    have hchars : encode (c :: text) = encode [c] ++ encode text := encode_append [c] text
    rw [hchars] at h
    rcases List.append_eq_append_iff.mp h with ⟨as, rfl, htail⟩ | ⟨bs, hchar, htail⟩
    · obtain ⟨u, d, v, rfl, rfl, rfl⟩ := ih htail
      exact ⟨c :: u, d, v, rfl, encode_append [c] u, rfl⟩
    · cases bs with
      | nil =>
        obtain ⟨u, d, v, rfl, hu, rfl⟩ := ih (a := []) htail.symm
        rw [List.append_nil] at hchar
        exact ⟨c :: u, d, v, rfl, by rw [← hchar, ← List.append_nil (encode [c]), ← hu,
          ← encode_append, List.singleton_append], rfl⟩
      | cons y bs =>
        -- The byte belongs to this character, which is all that it can be.
        obtain ⟨rfl, rfl⟩ := List.cons.inj htail
        have hmem : x ∈ encode [c] := hchar ▸ List.mem_append_right a (List.mem_cons_self ..)
        rw [encode_cons, encode_nil, List.append_nil] at hmem
        rw [encode_singleton ((mem_utf8EncodeChar_iff hx).mp hmem) hx] at hchar
        obtain ⟨rfl, hlast⟩ := (List.append_eq_singleton_iff.mp hchar.symm).resolve_right (by simp)
        cases hlast
        exact ⟨[], c, text, rfl, rfl, rfl⟩

/-- The bytes of some text. -/
def IsEncoded (bytes : List UInt8) : Prop := ∃ text, bytes = encode text

theorem isEncoded_nil : IsEncoded [] := ⟨[], rfl⟩

/-- A character below 128 parts bytes into such as can be decoded by themselves. -/
theorem isEncoded_append_cons_iff {a b : List UInt8} {c : Char} {x : UInt8}
    (hc : c.toNat = x.toNat) (hx : x.toNat < 128) :
    IsEncoded (a ++ x :: b) ↔ IsEncoded a ∧ IsEncoded b := by
  constructor
  · rintro ⟨text, htext⟩
    obtain ⟨u, _, v, -, rfl, rfl⟩ := exists_of_encode_eq hx htext.symm
    exact ⟨⟨u, rfl⟩, ⟨v, rfl⟩⟩
  · rintro ⟨⟨u, rfl⟩, ⟨v, rfl⟩⟩
    refine ⟨u ++ ([c] ++ v), ?_⟩
    rw [encode_append, encode_append, encode_singleton hc hx]
    rfl

namespace LineEnd

theorem lineFeed_mem_encode_iff {text : List Char} :
    ofBytes.lineFeed ∈ encode text ↔ ofChars.lineFeed ∈ text :=
  mem_encode_iff rfl (by decide)

/-- Only a carriage return has the byte of one at its end. -/
theorem getLast?_of_encode {line : List Char}
    (h : (encode line).getLast? = some ofBytes.carriageReturn) :
    line.getLast? = some ofChars.carriageReturn := by
  rcases List.eq_nil_or_concat line with rfl | ⟨front, c, rfl⟩
  · cases h
  · rw [List.concat_eq_append, encode_append, List.getLast?_append] at h
    have hbytes : encode [c] ≠ [] := mt encode_eq_nil_iff.mp (List.cons_ne_nil c [])
    rw [List.getLast?_eq_some_getLast hbytes, Option.some_or, Option.some.injEq] at h
    have hmem : ofBytes.carriageReturn ∈ encode [c] := h ▸ List.getLast_mem hbytes
    obtain rfl : ofChars.carriageReturn = c :=
      List.mem_singleton.mp ((mem_encode_iff rfl (by decide)).mp hmem)
    rw [List.concat_eq_append, List.getLast?_concat]

theorem dropReturn_encode (line : List Char) :
    ofBytes.dropReturn (encode line) = encode (ofChars.dropReturn line) := by
  by_cases hlast : line.getLast? = some ofChars.carriageReturn
  · obtain ⟨front, rfl⟩ := List.getLast?_eq_some_iff.mp hlast
    have hreturn : encode [ofChars.carriageReturn] = [ofBytes.carriageReturn] := rfl
    rw [dropReturn_concat, encode_append, hreturn, dropReturn_concat]
  · rw [dropReturn_of_getLast?_ne _ hlast,
      dropReturn_of_getLast?_ne _ (mt getLast?_of_encode hlast)]

/-- Cutting into lines and encoding can be done in either order. -/
theorem lines_encode (text : List Char) :
    ofBytes.lines (encode text) = (ofChars.lines text).map encode := by
  induction text using ofChars.lines_induction with
  | nil => rw [encode_nil, lines_nil, lines_nil, List.map_nil]
  | unended line hne hline =>
    rw [lines_of_not_mem _ hne hline, List.map_singleton]
    exact lines_of_not_mem _ (mt encode_eq_nil_iff.mp hne) (mt lineFeed_mem_encode_iff.mp hline)
  | ended line rest hline ih =>
    have hsign : encode (ofChars.lineFeed :: rest) = ofBytes.lineFeed :: encode rest := rfl
    rw [lines_append_lineFeed _ rest hline, List.map_cons, ← ih, ← dropReturn_encode,
      encode_append, hsign, lines_append_lineFeed _ _ (mt lineFeed_mem_encode_iff.mp hline)]

/-- The byte of a carriage return counts for nothing. -/
theorem isEncoded_dropReturn_iff {line : List UInt8} :
    IsEncoded (ofBytes.dropReturn line) ↔ IsEncoded line := by
  by_cases hlast : line.getLast? = some ofBytes.carriageReturn
  · obtain ⟨front, rfl⟩ := List.getLast?_eq_some_iff.mp hlast
    have hparts : IsEncoded (front ++ [ofBytes.carriageReturn]) ↔ IsEncoded front ∧ IsEncoded [] :=
      isEncoded_append_cons_iff (c := ofChars.carriageReturn) rfl (by decide)
    rw [dropReturn_concat, hparts, and_iff_left isEncoded_nil]
  · rw [dropReturn_of_getLast?_ne _ hlast]

theorem isEncoded_append_lineFeed_iff {line rest : List UInt8} :
    IsEncoded (line ++ ofBytes.lineFeed :: rest) ↔ IsEncoded line ∧ IsEncoded rest :=
  isEncoded_append_cons_iff (c := ofChars.lineFeed) rfl (by decide)

/-- Bytes can be decoded as a whole exactly if every line of them can. -/
theorem isEncoded_iff_lines {bytes : List UInt8} :
    IsEncoded bytes ↔ ∀ line ∈ ofBytes.lines bytes, IsEncoded line := by
  induction bytes using ofBytes.lines_induction with
  | nil => simp [lines_nil, isEncoded_nil]
  | unended line hne hline => simp [lines_of_not_mem _ hne hline]
  | ended line rest hline ih =>
    rw [isEncoded_append_lineFeed_iff, lines_append_lineFeed _ rest hline, List.forall_mem_cons,
      isEncoded_dropReturn_iff, ih]

end LineEnd

end Text

theorem decodeUtf8?_eq_none_iff {bytes : List UInt8} :
    decodeUtf8? bytes = none ↔ ¬ Text.IsEncoded bytes := by
  simp only [Option.eq_none_iff_forall_ne_some, Ne, decodeUtf8?_eq_some_iff, Text.IsEncoded,
    not_exists]

end ScriptTree
