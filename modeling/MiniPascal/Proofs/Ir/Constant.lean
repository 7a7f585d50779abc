import MiniPascal.Ir.Text
import MiniPascal.Proofs.Token.Automaton

/-! Constant texts are written without loss. -/

namespace MiniPascal.Ir

/-- The value of a digit of base sixteen. -/
def hexValue? (c : Char) : Option Nat :=
  if c.isDigit then some (c.toNat - '0'.toNat)
  else if 'A' ≤ c && c ≤ 'F' then some (c.toNat - 'A'.toNat + 10)
  else if 'a' ≤ c && c ≤ 'f' then some (c.toNat - 'a'.toNat + 10)
  else none

/-- The byte that two digits stand for. -/
def hexByte? (a b : Char) : Option UInt8 := do
  let high ← hexValue? a
  let low ← hexValue? b
  return UInt8.ofNat (16 * high + low)

/-- The byte that a character stands for; a quote and a backslash stand for none. -/
def plainByte? (c : Char) : Option UInt8 :=
  if c = '\\' || c = '\x22' || 128 ≤ c.toNat then none else some (UInt8.ofNat c.toNat)

/-- The bytes of a constant, from what stands between its quotes. -/
def unescape : List Char → Option (List UInt8)
  | [] => some []
  | '\\' :: a :: b :: cs => do return (← hexByte? a b) :: (← unescape cs)
  | c :: cs => do return (← plainByte? c) :: (← unescape cs)

/-- Whether some characters stand for one byte. -/
def standsFor (b : UInt8) : List Char → Bool
  | [c] => plainByte? c = some b
  | ['\\', x, y] => hexByte? x y = some b
  | _ => false

theorem forall_byte {P : UInt8 → Prop} (h : ∀ n < 256, P (UInt8.ofNat n)) (b : UInt8) : P b := by
  have := h b.toNat b.toNat_lt_size
  rwa [UInt8.ofNat_toNat] at this

theorem standsFor_escapeByte : ∀ b, standsFor b (escapeByte b) = true :=
  forall_byte (by decide +kernel)

theorem unescape_cons {c : Char} {b : UInt8} (h : plainByte? c = some b) (cs : List Char) :
    unescape (c :: cs) = (unescape cs).map (b :: ·) := by
  have hc : c ≠ '\\' := by
    rintro rfl
    cases h
  rw [unescape, h]
  · cases unescape cs <;> rfl
  · rintro _ _ _ rfl
    exact absurd rfl hc

/-- What stands for a byte is read as this byte. -/
theorem unescape_append {b : UInt8} {w : List Char} (h : standsFor b w = true) (cs : List Char) :
    unescape (w ++ cs) = (unescape cs).map (b :: ·) := by
  unfold standsFor at h
  split at h
  · exact unescape_cons (of_decide_eq_true h) cs
  · have hbyte := of_decide_eq_true h
    show unescape ('\\' :: _ :: _ :: cs) = _
    rw [unescape, hbyte]
    cases unescape cs <;> rfl
  · cases h

/-- The bytes of a constant can be read back. -/
theorem unescape_escape (bytes : List UInt8) : unescape (escape bytes).toList = some bytes := by
  rw [escape, String.toList_ofList]
  induction bytes with
  | nil => rfl
  | cons b bytes ih =>
    rw [List.flatMap_cons, unescape_append (standsFor_escapeByte b), ih]
    rfl

/-- A constant ends at its first quote. -/
theorem quote_notMem_escape (bytes : List UInt8) : '\x22' ∉ (escape bytes).toList := by
  have hbyte : ∀ b, '\x22' ∉ escapeByte b := forall_byte (by decide +kernel)
  rw [escape, String.toList_ofList, List.mem_flatMap]
  rintro ⟨b, -, hb⟩
  exact hbyte b hb

/-- The digits with which a byte is written. -/
def isEscapeDigit (c : Char) : Bool := c.isDigit || ('A' ≤ c && c ≤ 'F')

/-- The characters that may stand between the quotes of a constant. -/
def isPrinting (c : Char) : Bool := ' ' ≤ c && c ≤ '~' && c != '\x22'

/-- Whether some characters are a byte that is written as itself, or a backslash and two digits. -/
def isEscapedByte : List Char → Bool
  | [c] => c != '\\'
  | ['\\', x, y] => isEscapeDigit x && isEscapeDigit y
  | _ => false

theorem isEscapedByte_escapeByte : ∀ b, isEscapedByte (escapeByte b) = true :=
  forall_byte (by decide +kernel)

theorem isPrinting_of_mem_escape {bytes : List UInt8} {c : Char}
    (hc : c ∈ (escape bytes).toList) : isPrinting c = true := by
  have hbyte : ∀ b, (escapeByte b).all isPrinting = true := forall_byte (by decide +kernel)
  rw [escape, String.toList_ofList, List.mem_flatMap] at hc
  obtain ⟨b, -, hb⟩ := hc
  exact List.all_eq_true.1 (hbyte b) c hb

/-- A backslash within one written byte is its first character, and the digits are the others. -/
theorem isEscapedByte_backslash {u v : List Char} (h : isEscapedByte (u ++ '\\' :: v) = true) :
    ∃ x y, v = [x, y] ∧ isEscapeDigit x = true ∧ isEscapeDigit y = true := by
  generalize hw : u ++ '\\' :: v = w at h
  unfold isEscapedByte at h
  split at h
  · -- a single character is no backslash
    rename_i c
    have hlast : u = [] ∧ '\\' = c := by
      cases u with
      | nil => exact ⟨rfl, (List.cons.inj hw).1⟩
      | cons d u => simp at hw
    rw [← hlast.2] at h
    cases h
  · rename_i x y
    obtain ⟨hx, hy⟩ := Bool.and_eq_true_iff.1 h
    -- a digit is no backslash, so the backslash is the first of three characters
    have hdigit : ∀ d, isEscapeDigit d = true → d ≠ '\\' := by
      rintro _ hd rfl
      cases hd
    match u, hw with
    | [], hw => exact ⟨x, y, (List.cons.inj hw).2, hx, hy⟩
    | [_], hw =>
      simp only [List.cons_append, List.nil_append, List.cons.injEq] at hw
      exact absurd hw.2.1.symm (hdigit x hx)
    | [_, _], hw =>
      simp only [List.cons_append, List.nil_append, List.cons.injEq] at hw
      exact absurd hw.2.2.1.symm (hdigit y hy)
    | _ :: _ :: _ :: u, hw => simp at hw
  · cases h

/-- Two digits follow each backslash of a constant. -/
theorem digits_of_backslash {bytes : List UInt8} {u v : List Char}
    (h : (escape bytes).toList = u ++ '\\' :: v) :
    ∃ x y w, v = x :: y :: w ∧ isEscapeDigit x = true ∧ isEscapeDigit y = true := by
  rw [escape, String.toList_ofList] at h
  induction bytes generalizing u with
  | nil => simp at h
  | cons b bytes ih =>
    rw [List.flatMap_cons] at h
    rcases List.append_eq_append_iff.1 h with ⟨u', -, hrest⟩ | ⟨more, hbyte, hmore⟩
    · exact ih hrest
    · -- the backslash stands in the first byte, or that byte is all that stands in front of it
      cases more with
      | nil => exact ih (u := []) hmore.symm
      | cons d more =>
        obtain ⟨rfl, rfl⟩ := List.cons.inj hmore
        have hwritten := isEscapedByte_escapeByte b
        rw [hbyte] at hwritten
        obtain ⟨x, y, rfl, hx, hy⟩ := isEscapedByte_backslash hwritten
        exact ⟨x, y, _, rfl, hx, hy⟩

/-- The bytes of a constant are written in printing characters without a quote, each backslash has
two digits behind it, and reading gives back the bytes. So the length that stands in front of the
constant of a text is the number of bytes that are read. -/
theorem escape_reads_back (bytes : List UInt8) :
    (∀ c ∈ (escape bytes).toList, isPrinting c = true) ∧
      (∀ u v, (escape bytes).toList = u ++ '\\' :: v →
        ∃ x y w, v = x :: y :: w ∧ isEscapeDigit x = true ∧ isEscapeDigit y = true) ∧
      unescape (escape bytes).toList = some bytes ∧
      ∀ name, ∃ length, (unescape (escape bytes).toList).map List.length = some length ∧
        (Global.text name bytes).line = "@" ++ name ++ " = private unnamed_addr constant [" ++
          toString length ++ " x i8] c\"" ++ escape bytes ++ "\"" := by
  refine ⟨fun c hc => isPrinting_of_mem_escape hc, fun u v h => digits_of_backslash h,
    unescape_escape bytes, fun name => ⟨bytes.length, ?_, ?_⟩⟩
  · rw [unescape_escape]
    rfl
  · apply String.toList_inj.1
    simp [Global.line]

/-- A digit behind an escaped byte is a byte of its own. -/
example : escape [0x0a, 0x31] = "\\0A1" := by decide +kernel

/-- The bytes of the constant in a text: they stand between the quotes. -/
def constant? (text : String) : Option (List UInt8) :=
  unescape (((text.toList.dropWhile (· ≠ '\x22')).drop 1).takeWhile (· ≠ '\x22'))

/-- The type and the contents of a constant. -/
def describeConstant (bytes : List UInt8) : String :=
  "[" ++ toString bytes.length ++ " x i8] c\"" ++ escape bytes ++ "\""

theorem line_text (name : String) (bytes : List UInt8) :
    (Global.text name bytes).line =
      "@" ++ name ++ " = private unnamed_addr constant " ++ describeConstant bytes := by
  apply String.toList_inj.1
  simp [Global.line, describeConstant]

theorem constant?_describeConstant (bytes : List UInt8) :
    constant? (describeConstant bytes) = some bytes := by
  have htext : (describeConstant bytes).toList =
      ('[' :: Nat.toDigits 10 bytes.length ++ " x i8] c".toList) ++
        '\x22' :: ((escape bytes).toList ++ ['\x22']) := by
    simp [describeConstant]
  have hprefix : ∀ c ∈ '[' :: Nat.toDigits 10 bytes.length ++ " x i8] c".toList,
      decide (c ≠ '\x22') = true := by
    intro c hc
    apply decide_eq_true
    rintro rfl
    rcases List.mem_append.1 hc with hc | hc
    · rcases List.mem_cons.1 hc with hc | hc
      · cases hc
      · cases Nat.isDigit_of_mem_toDigits (by decide) (by decide) hc
    · exact absurd hc (by decide)
  have hcontents : ∀ c ∈ (escape bytes).toList, decide (c ≠ '\x22') = true := fun c hc =>
    decide_eq_true fun h => quote_notMem_escape bytes (h ▸ hc)
  rw [constant?, htext, List.dropWhile_append_of_pos hprefix, List.dropWhile_cons_of_neg (by simp),
    List.drop_one, List.tail_cons, List.takeWhile_append_of_pos hcontents,
    List.takeWhile_cons_of_neg (by simp), List.append_nil]
  exact unescape_escape bytes

/-! ### Texts in memory -/

/-- What C reads of a text in memory. -/
def readText (bytes : List UInt8) : List UInt8 := bytes.takeWhile (· ≠ 0)

theorem zero_notMem_utf8 {c : Char} (hc : c ≠ '\x00') : 0 ∉ String.utf8EncodeChar c := by
  intro h
  by_cases hlow : c.toNat < 128
  · rw [Token.State.utf8_ascii hlow, List.mem_singleton] at h
    have hzero : 0 = c.toNat := by
      have hbyte : c.toNat < UInt8.size := Nat.lt_trans hlow (by decide)
      simpa only [UInt8.toNat_ofNat_of_lt' hbyte, UInt8.toNat_zero] using congrArg UInt8.toNat h
    exact hc (Char.ext (UInt32.toNat_inj.1 hzero.symm))
  · obtain ⟨n, hn, hhigh, hzero⟩ := Token.State.utf8_high (Nat.le_of_not_lt hlow) 0 h
    have hn : 0 = n := by
      simpa only [UInt8.toNat_ofNat_of_lt' hn, UInt8.toNat_zero] using congrArg UInt8.toNat hzero
    omega

/-- What C reads of a text ends in front of the first character zero. -/
theorem readText_encode (cs : List Char) :
    readText (Token.encode cs ++ [0]) = Token.encode (cs.takeWhile (· ≠ '\x00')) := by
  induction cs with
  | nil => rfl
  | cons c cs ih =>
    have hcons : ∀ cs, Token.encode (c :: cs) = String.utf8EncodeChar c ++ Token.encode cs :=
      fun _ => rfl
    by_cases hc : c = '\x00'
    · subst hc
      rfl
    · have hne : ∀ b ∈ String.utf8EncodeChar c, decide (b ≠ 0) = true := by
        intro b hb
        exact decide_eq_true fun hzero => zero_notMem_utf8 hc (hzero ▸ hb)
      have hkeep : (c :: cs).takeWhile (· ≠ '\x00') = c :: cs.takeWhile (· ≠ '\x00') :=
        List.takeWhile_cons_of_pos (decide_eq_true hc)
      rw [hkeep, hcons, hcons, List.append_assoc, readText, List.takeWhile_append_of_pos hne]
      exact congrArg _ ih

end MiniPascal.Ir
