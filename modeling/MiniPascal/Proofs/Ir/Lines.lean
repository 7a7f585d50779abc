import MiniPascal.Proofs.Ir.Constant
import MiniPascal.Proofs.Ir.Typing

/-! The text of a program has the lines that were written. -/

namespace MiniPascal.Ir

/-- What stands between the line feeds of a text. -/
def textLines (text : String) : List String := (text.toList.splitOn '\n').map String.ofList

/-- Each line that is written ends with a line feed, and there is no other. -/
theorem Emission.textLines_text {e : Emission} (h : ∀ line ∈ e.lines, '\n' ∉ line.toList) :
    textLines e.text = e.lines ++ [""] := by
  obtain ⟨lines, failure⟩ := e
  rw [textLines, text, String.toList_join, List.flatMap_map]
  induction lines with
  | nil => rfl
  | cons line lines ih =>
    obtain ⟨hline, hlines⟩ := List.forall_mem_cons.1 h
    rw [List.flatMap_cons, String.toList_append, List.append_assoc]
    show ((line.toList ++ '\n' :: _).splitOn '\n').map String.ofList = _
    rw [List.splitOn_append_cons_self_of_not_mem hline, List.map_cons, String.ofList_toList,
      List.cons_append]
    exact congrArg (line :: ·) (ih hlines)

/-! ### What has no name -/

@[simp] theorem newline_notMem_digits (n : Nat) : '\n' ∉ Nat.toDigits 10 n := by
  intro h
  cases Nat.isDigit_of_mem_toDigits (by decide) (by decide) h

@[simp] theorem newline_notMem_int (z : Int) : '\n' ∉ (toString z).toList := by
  cases z with
  | ofNat n => simp [toString, Int.repr]
  | negSucc n => simp [toString, Int.repr]

theorem newline_ne_digitChar (d : Nat) (h : d < 16) : '\n' ≠ (Nat.digitChar d).toUpper := by
  decide +revert

theorem newline_notMem_hexDigits (n : Nat) : '\n' ∉ hexDigits n := by
  induction n using Nat.strongRecOn with
  | ind n ih =>
    rw [hexDigits]
    by_cases hn : n < 16
    · rw [Nat.toDigits_of_lt_base hn, List.map_singleton, List.mem_singleton]
      exact newline_ne_digitChar n hn
    · have hlast := newline_ne_digitChar (n % 16) (Nat.mod_lt n (by decide))
      rw [Nat.toDigits_of_base_le (by decide) (Nat.le_of_not_lt hn), List.map_append,
        List.map_singleton, List.mem_append, List.mem_singleton]
      exact not_or.2 ⟨ih (n / 16) (by omega), hlast⟩

@[simp] theorem newline_notMem_hex (width n : Nat) : '\n' ∉ (hex width n).toList := by
  rw [hex, String.toList_ofList, List.mem_append, List.mem_replicate]
  exact not_or.2 ⟨fun h => absurd h.2 (by decide), newline_notMem_hexDigits n⟩

/-- A line feed is no printing character, so its byte is written in base sixteen. -/
theorem newline_notMem_escapeByte (b : UInt8) : '\n' ∉ escapeByte b := by
  rw [escapeByte]
  split
  · rename_i hb
    have hlow : 0x20 ≤ b.toNat := by
      simp only [Bool.and_eq_true, decide_eq_true_eq] at hb
      exact hb.1.1.1
    have hvalid : b.toNat.isValidChar := .inl (Nat.lt_trans b.toNat_lt (by decide))
    intro h
    have hten : 10 = (Char.ofNat b.toNat).toNat := congrArg Char.toNat (List.mem_singleton.1 h)
    rw [Char.toNat_ofNat, if_pos hvalid] at hten
    omega
  · rw [List.mem_cons]
    exact not_or.2 ⟨by decide, newline_notMem_hex 2 b.toNat⟩

theorem newline_notMem_escape (bytes : List UInt8) : '\n' ∉ (escape bytes).toList := by
  rw [escape, String.toList_ofList, List.mem_flatMap]
  rintro ⟨b, -, hb⟩
  exact newline_notMem_escapeByte b hb

theorem newline_notMem_commas {texts : List String} (h : ∀ s ∈ texts, '\n' ∉ s.toList) :
    '\n' ∉ (commas texts).toList := by
  induction texts with
  | nil => exact List.not_mem_nil
  | cons s texts ih =>
    obtain ⟨hs, htexts⟩ := List.forall_mem_cons.1 h
    cases texts with
    | nil => simpa [commas] using hs
    | cons t texts =>
      have hmore := ih htexts
      simpa [commas, hs] using hmore

mutual

@[simp] theorem newline_notMem_type : ∀ t : Ty, '\n' ∉ t.describe.toList
  | .void | .i1 | .i32 | .double | .ptr => by simp [Ty.describe]
  | .array length element => by
    simp [Ty.describe, newline_notMem_type element]
  | .struct fields => by
    simp [Ty.describe, newline_notMem_commas (newline_notMem_types fields)]

theorem newline_notMem_types : ∀ ts : List Ty, ∀ s ∈ describeAll ts, '\n' ∉ s.toList
  | [] => List.forall_mem_nil _
  | t :: ts => List.forall_mem_cons.2 ⟨newline_notMem_type t, newline_notMem_types ts⟩

end

@[simp] theorem newline_notMem_opcode (op : Opcode) : '\n' ∉ op.describe.toList := by
  cases op <;> decide

@[simp] theorem newline_notMem_predicate (predicate : Predicate) :
    '\n' ∉ predicate.describe.toList := by
  cases predicate <;> decide

@[simp] theorem newline_notMem_cast (op : Cast) : '\n' ∉ op.describe.toList := by
  cases op <;> decide

@[simp] theorem newline_notMem_callee (returns : Ty) (variadic : Option (List Ty)) :
    '\n' ∉ (describeCallee returns variadic).toList := by
  cases variadic with
  | none => exact newline_notMem_type returns
  | some fixed => simp [describeCallee, newline_notMem_commas (newline_notMem_types fixed)]

/-! ### Names -/

/-- The name in an operand. -/
def Operand.name? : Operand → Option String
  | .local x | .global x => some x
  | _ => none

/-- The function that is called. -/
def Instr.target? : Instr → Option String
  | .call _ _ target _ _ => some target
  | _ => none

/-- The names in an instruction. -/
def Instr.mentions (i : Instr) : List String :=
  i.output.toList ++ i.target?.toList ++ i.operands.filterMap Operand.name?

/-- The names in a function. -/
def Function.mentions (f : Function) : List String :=
  f.name :: f.parameters.map Prod.fst ++ f.body.flatMap Instr.mentions

/-- The names in a program. -/
def Program.mentions (p : Program) : List String :=
  p.externals.map External.name ++ p.globals.map Global.name ++
    p.functions.flatMap Function.mentions

theorem newline_notMem_operand {v : Operand} (h : ∀ x ∈ v.name?, '\n' ∉ x.toList) :
    '\n' ∉ v.describe.toList := by
  cases v with
  | «local» x | global x => simpa [Operand.describe] using h x rfl
  | int value => exact newline_notMem_int value.toInt
  | double value => simp [Operand.describe]
  | widened value => simp [Operand.describe]
  | bool value => cases value <;> simp [Operand.describe]

/-- An instruction whose names are without line feeds is written in one line. -/
theorem newline_notMem_line {i : Instr} (h : ∀ x ∈ i.mentions, '\n' ∉ x.toList) :
    ∀ line ∈ i.line?, '\n' ∉ line.toList := by
  have houtput : ∀ x ∈ i.output, '\n' ∉ x.toList := fun x hx =>
    h x (List.mem_append_left _ (List.mem_append_left _ (Option.mem_toList.2 hx)))
  have htarget : ∀ x ∈ i.target?, '\n' ∉ x.toList := fun x hx =>
    h x (List.mem_append_left _ (List.mem_append_right _ (Option.mem_toList.2 hx)))
  have hoperand : ∀ v ∈ i.operands, '\n' ∉ v.describe.toList := fun v hv =>
    newline_notMem_operand fun x hx =>
      h x (List.mem_append_right _ (List.mem_filterMap.2 ⟨v, hv, hx⟩))
  cases i with
  | transition kind target =>
    cases target with
    | none => rintro _ ⟨⟩
    | some l =>
      rintro _ ⟨⟩
      simp [describeJump, describeLabel]
  | ret value =>
    cases value with
    | none =>
      rintro _ ⟨⟩
      simp
    | some value =>
      have hvalue := hoperand value.2 (List.mem_singleton_self _)
      rintro _ ⟨⟩
      simp [describeTyped, hvalue]
  | element output aggregate base indices =>
    have hindices : ∀ s ∈ indices.map fun v => "i32 " ++ v.describe, '\n' ∉ s.toList := by
      refine List.forall_mem_map.2 fun v hv => ?_
      simpa using hoperand v (List.mem_cons_of_mem base hv)
    rintro _ ⟨⟩
    simp [houtput output rfl, hoperand base List.mem_cons_self, newline_notMem_commas hindices]
  | call output returns target variadic arguments =>
    have harguments : ∀ s ∈ arguments.map describeTyped, '\n' ∉ s.toList := by
      refine List.forall_mem_map.2 fun a ha => ?_
      simpa [describeTyped] using hoperand a.2 (List.mem_map_of_mem ha)
    have harguments := newline_notMem_commas harguments
    rintro _ ⟨⟩
    cases output with
    | none => simp [htarget target rfl, harguments]
    | some output => simp [houtput output rfl, htarget target rfl, harguments]
  | compare output predicate =>
    rintro _ ⟨⟩
    cases predicate.isFloat <;> simp_all [describeTyped, Instr.output, Instr.operands]
  | _ =>
    rintro _ ⟨⟩
    simp_all [describeTyped, describeLabel, describeJump, Instr.output, Instr.operands]

theorem newline_notMem_external {e : External} (h : '\n' ∉ e.name.toList) :
    '\n' ∉ e.line.toList := by
  have hparameters := newline_notMem_commas (newline_notMem_types e.parameters)
  cases hvariadic : e.variadic <;> simp [External.line, h, hparameters, hvariadic]

theorem newline_notMem_global {g : Global} (h : '\n' ∉ g.name.toList) :
    '\n' ∉ g.line.toList := by
  cases g with
  | «variable» name t => simpa [Global.line, Global.name] using h
  | text name bytes => simpa [Global.line, Global.name, newline_notMem_escape] using h

end MiniPascal.Ir
