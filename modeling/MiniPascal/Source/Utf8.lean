namespace MiniPascal

theorem toList_loop (bytes : ByteArray) (i : Nat) (read : List UInt8) :
    ByteArray.toList.loop bytes i read = read.reverse ++ bytes.data.toList.drop i := by
  fun_induction ByteArray.toList.loop bytes i read with
  | case1 i read hi ih =>
    have hlength : i < bytes.data.toList.length := hi
    have hget : bytes.get! i = bytes.data.toList[i] := by
      show bytes.data[i]! = _
      rw [getElem!_pos bytes.data i hi, Array.getElem_toList]
    rw [ih, hget, List.reverse_cons, List.append_assoc, List.singleton_append,
      ← List.drop_eq_getElem_cons hlength]
  | case2 i read hi =>
    have hlength : bytes.data.toList.length ≤ i := Nat.le_of_not_lt hi
    rw [List.drop_eq_nil_of_le hlength, List.append_nil]

/-- The bytes of a text are those of its characters. -/
theorem toUTF8_toList (s : String) : s.toUTF8.toList = s.toList.flatMap String.utf8EncodeChar := by
  have hbytes : s.toUTF8.toList = s.toByteArray.data.toList := toList_loop _ 0 []
  rw [hbytes, ← String.utf8Encode_toList, List.utf8Encode, List.toList_data_toByteArray]

namespace Utf8

/-- Whether a byte goes on with a character. -/
def continues (b : UInt8) : Bool := 0x80 ≤ b && b ≤ 0xbf

/-- Whether a byte goes on with a character of three or four bytes behind its first one. -/
def follows (first b : UInt8) : Bool :=
  if first = 0xe0 then 0xa0 ≤ b && b ≤ 0xbf
  else if first = 0xed then 0x80 ≤ b && b ≤ 0x9f
  else if first = 0xf0 then 0x90 ≤ b && b ≤ 0xbf
  else if first = 0xf4 then 0x80 ≤ b && b ≤ 0x8f
  else 0xe1 ≤ first && first ≤ 0xf3 && continues b

/-- How many bytes behind a first one belong to a character that breaks off. -/
def broken (first : UInt8) : List UInt8 → Nat
  | b :: b' :: _ =>
    if follows first b then if 0xf0 ≤ first && continues b' then 2 else 1 else 0
  | [b] => if follows first b then 1 else 0
  | [] => 0

/-- The characters of some bytes; what is no character gives a replacement. -/
def lossy : List UInt8 → List Char
  | [] => []
  | b :: bs =>
    match (b :: bs.take 3).toByteArray.utf8DecodeChar? 0 with
    | some c => c :: lossy (bs.drop (c.utf8Size - 1))
    | none => '\uFFFD' :: lossy (bs.drop (broken b bs))
termination_by bs => bs.length
decreasing_by all_goals simp only [List.length_cons, List.length_drop]; omega

/-- A character is found in front of whatever follows its bytes. -/
theorem lossy_append (c : Char) (bs : List UInt8) :
    lossy (String.utf8EncodeChar c ++ bs) = c :: lossy bs := by
  obtain ⟨b, cs, hc⟩ := List.exists_cons_of_ne_nil (String.utf8EncodeChar_ne_nil (c := c))
  have hlength : cs.length + 1 = c.utf8Size := by
    rw [← String.length_utf8EncodeChar, hc, List.length_cons]
  have hsize := c.utf8Size_le_four
  have htake : b :: (cs ++ bs).take 3 = String.utf8EncodeChar c ++ bs.take (3 - cs.length) := by
    rw [hc, List.cons_append, List.take_append, List.take_of_length_le (by omega)]
  have hfirst : (b :: (cs ++ bs).take 3).toByteArray.utf8DecodeChar? 0 = some c := by
    rw [htake, List.toByteArray_append]
    exact ByteArray.utf8DecodeChar?_utf8EncodeChar_append
  rw [hc, List.cons_append, lossy, hfirst]
  show c :: lossy ((cs ++ bs).drop (c.utf8Size - 1)) = _
  rw [← hlength, Nat.add_sub_cancel, List.drop_left]

/-- The bytes of characters are read as these characters. -/
theorem lossy_encode (cs : List Char) : lossy (cs.flatMap String.utf8EncodeChar) = cs := by
  induction cs with
  | nil => rw [List.flatMap_nil, lossy]
  | cons c cs ih => rw [List.flatMap_cons, lossy_append, ih]

/-- The text of some bytes. -/
def text (bytes : List UInt8) : String := String.ofList (lossy bytes)

/-- The bytes of a text stand for the text. -/
theorem text_toUTF8 (s : String) : text s.toUTF8.toList = s := by
  rw [text, toUTF8_toList, lossy_encode, String.ofList_toList]

end Utf8

end MiniPascal
