import MiniPascal.Proofs.Reading.Parts
import MiniPascal.Proofs.Semantics.Expression

/-! The lower bound is taken from an index in 32 bits, which is too few in an array of more than
2^31 elements. -/

namespace MiniPascal

open Ir (Value Config)
open Lowering

/-! ### Differences in 32 bits -/

/-- An index counted from the lower bound, as the machine holds it. -/
def counted (low : Int64) (i : Int32) : Int64 := (i.toInt64 - low).toInt32.toInt64

theorem counted_zero (i : Int32) : counted 0 i = i.toInt64 := by
  rw [counted, Int64.toInt32_sub, Int32.toInt32_toInt64, Int64.toInt32_ofNat, Int32.sub_zero]

theorem toInt_counted {low : Int64} (hl : Grammar.fitsWord low = true) (i : Int32) :
    (counted low i).toInt = (i.toInt - low.toInt).bmod (2 ^ 32) := by
  rw [counted, Int32.toInt_toInt64, Int64.toInt_toInt32, toInt_sub_word (fitsWord_toInt64 i) hl,
    Int32.toInt_toInt64]

/-- An index within the bounds is counted to less than the number of elements, except where 32 bits
do not hold the difference. -/
theorem counted_exact_iff {low high : Int64} (hl : Grammar.fitsWord low = true)
    (hh : Grammar.fitsWord high = true) {i : Int32} (hli : low.toInt ≤ i.toInt)
    (hih : i.toInt ≤ high.toInt) :
    ((counted low i).toInt = i.toInt - low.toInt ∧ 0 ≤ (counted low i).toInt ∧
      (counted low i).toInt < (high - low + 1).toUInt64.toNat) ↔
    i.toInt - low.toInt < 2 ^ 31 := by
  have hcount := toInt_counted hl i
  have hlength := toNat_toUInt64 (high - low + 1)
  rw [toInt_length_word hl hh, if_neg (by omega)] at hlength
  have hl := (Grammar.fitsWord_iff low).1 hl
  have hh := (Grammar.fitsWord_iff high).1 hh
  constructor
  · rintro ⟨hexact, -⟩
    have hlt := Int.bmod_lt (x := i.toInt - low.toInt) (m := 2 ^ 32) (by decide)
    rw [← hcount, hexact] at hlt
    omega
  · intro hsmall
    rw [Int.bmod_eq_of_le (by omega) (by omega)] at hcount
    omega

/-! ### The code -/

/-- The code of an index is that of the array, that of the index, and instructions that count the
index from the lower bound and find the element. -/
theorem lower_index_run {a e : Expr} {g g₁ g₂ : Generator} {base v : Ir.Operand}
    (hbase : place a g = (base, g₁)) (hv : value e g₁ = (v, g₂)) (pos : Position) (t : Ty) :
    ∃ c w x ν, lower (.index pos t a e) g = (.place (.local x),
        g₂.emit (c ++ [.element x (machineType a.type) base [.int 0, w]]) ν) ∧
      (lowBound a.type = 0 ∧ c = [] ∧ w = v ∨ ∃ y,
        c = [.binary y .sub .i32 v (.int (lowBound a.type))] ∧ w = .local y) := by
  rw [lower_index, bind_run hbase, bind_run hv]
  by_cases hl : lowBound a.type = 0
  · have hr : (rebase pos a.type v : Step Ir.Operand) = Pure.pure v := if_pos hl
    rw [hr, pure_bind]
    exact ⟨[], v, _, _, (emits_part pos a.type base v g₂).map Lowered.place, .inl ⟨hl, rfl, rfl⟩⟩
  · exact ⟨_, _, _, _, (emits_rebase pos a.type v g₂ hl).bind
      ((emits_part pos a.type base _ _).map Lowered.place), .inr ⟨_, rfl, rfl⟩⟩

/-- Those instructions leave the index as it is counted. -/
theorem execAll_counted {F : Floats} {P : Ir.Program} {k : Nat} {C : Config} {v w : Ir.Operand}
    {i : Int32} (hC : C.value F v = some (.int i.toInt64)) {low : Int64} {c : List Ir.Instr}
    (h : low = 0 ∧ c = [] ∧ w = v ∨ ∃ y, c = [.binary y .sub .i32 v (.int low)] ∧ w = .local y) :
    ∃ C', Ir.execAll F P k c C = some C' ∧ C'.value F w = some (.int (counted low i)) := by
  rcases h with ⟨rfl, rfl, rfl⟩ | ⟨y, rfl, rfl⟩
  · refine ⟨C, rfl, ?_⟩
    rw [hC, counted_zero]
  · refine ⟨_, ?_, C.value_define F y (.int (counted low i))⟩
    rw [Ir.execAll_single, exec_binary hC (w := .int low) rfl]
    rfl

/-- In a program that has been read, take any type of an array, an array of the type, and an index
within its bounds. The code of the indexing counts the index from the lower bound in the operand
that selects the element, and the count is exact, not negative and less than the number of elements
if and only if the difference is less than 2^31. -/
theorem Program.ofText_index {text name : String} {p : Program} (h : ofText text name = .ok p)
    {array : Ty} (hmem : .type array ∈ p.parts) {low high : Int64}
    (hb : array.bounds = some (low, high)) {i : Int32} (hli : low.toInt ≤ i.toInt)
    (hih : i.toInt ≤ high.toInt) {a e : Expr} (ha : a.type = array) {g g₁ g₂ : Generator}
    {base v : Ir.Operand} (hbase : place a g = (base, g₁)) (hv : value e g₁ = (v, g₂))
    (F : Floats) (P : Ir.Program) (k : Nat) {C : Config}
    (hC : C.value F v = some (.int i.toInt64)) (pos : Position) (t : Ty) :
    ∃ c w x ν C' n length,
      Lowering.lower (.index pos t a e) g = (.place (.local x),
        g₂.emit (c ++ [.element x (machineType array) base [.int 0, w]]) ν) ∧
      Ir.execAll F P k c C = some C' ∧ C'.value F w = some (.int n) ∧
      array.length? = some length ∧
      (n.toInt = i.toInt - low.toInt ∧ 0 ≤ n.toInt ∧ n.toInt < length.toNat ↔
        i.toInt - low.toInt < 2 ^ 31) := by
  subst ha
  have hlow : lowBound a.type = low := by
    rw [lowBound, hb]
    rfl
  have hlength : a.type.length? = some (high - low + 1).toUInt64 := by
    rw [Ty.length?, hb]
    rfl
  -- the bounds are numbers of 32 bits
  have hwords : Grammar.fitsWord low = true ∧ Grammar.fitsWord high = true := by
    have hregular : a.type.Regular text.length := (ofText_regular h).parts _ hmem
    cases htype : a.type with
    | array l u element =>
      rw [htype] at hregular hb
      obtain ⟨_, _, hb', hl, hh, -⟩ := hregular.wellFormed.bounds
      rw [hb] at hb'
      cases hb'
      exact ⟨hl, hh⟩
    | scalar | record =>
      rw [htype] at hb
      cases hb
  obtain ⟨c, w, x, ν, hrun, hc⟩ := lower_index_run hbase hv pos t
  rw [hlow] at hc
  obtain ⟨C', hexec, hw⟩ := execAll_counted (P := P) (k := k) hC hc
  exact ⟨c, w, x, ν, C', counted low i, _, hrun, hexec, hw, hlength,
    counted_exact_iff hwords.1 hwords.2 hli hih⟩

/-- The last index of an array from -1 to 2147483647 is counted to a negative number. -/
theorem Program.compile_index_wraps : ∃ ir,
    compile "var a: array[-1..2147483647] of boolean; begin a[2147483647] := true end." "t" =
      .ok ir ∧ ∃ f ∈ ir.functions, ∃ x y rest, f.body =
        .binary x .sub .i32 (.int 2147483647) (.int (-1)) ::
        .element y (.array 2147483649 .i1) (.global "global_a") [.int 0, .local x] :: rest ∧
      ∀ F P k C, ∃ C' n, Ir.execAll F P k (f.body.take 1) C = some C' ∧
        C'.value F (.local x) = some (.int n) ∧
        ¬(n.toInt = 2147483647 - -1 ∧ 0 ≤ n.toInt ∧ n.toInt < 2147483649) := by
  have hcompile :
      compile "var a: array[-1..2147483647] of boolean; begin a[2147483647] := true end." "t" =
      .ok ⟨[], [.variable "global_a" (.array 2147483649 .i1)], [⟨"main", .i32, [],
        [.binary "s1-49.idx" .sub .i32 (.int 2147483647) (.int (-1)),
          .element "s1-49.ptr" (.array 2147483649 .i1) (.global "global_a")
            [.int 0, .local "s1-49.idx"],
          .store .i1 (.bool true) (.local "s1-49.ptr"), .ret (some (.i32, .int 0))]⟩]⟩ := by
    cbv
  refine ⟨_, hcompile, _, List.mem_cons_self, "s1-49.idx", "s1-49.ptr", _, rfl, ?_⟩
  intro F P k C
  refine ⟨C.define "s1-49.idx" (.int (-2147483648)), -2147483648, rfl, ?_, by decide⟩
  exact C.value_define F _ _

/-- The element at 2 of an array that begins at -3. -/
theorem Program.ofText_index_negative : ∃ p array,
    ofText "var a: array[-3..5] of integer; begin a[2] := 7 end." "" = .ok p ∧
    .type array ∈ p.parts ∧ array.bounds = some (-3, 5) ∧
    ∀ F : Floats, ∃ c w x ν C' n length,
      Lowering.lower (.index ⟨1, 39⟩ .integer (.var ⟨1, 39⟩ array ⟨"a"⟩ .global) (.int ⟨1, 41⟩ 2))
        .empty = (.place (.local x), Generator.empty.emit
          (c ++ [.element x (machineType array) (.global "global_a") [.int 0, w]]) ν) ∧
      Ir.execAll F ⟨[], [], []⟩ 1 c ⟨fun _ => none, fun _ => none, ""⟩ = some C' ∧
      C'.value F w = some (.int n) ∧ array.length? = some length ∧
      (n.toInt = 2 - -3 ∧ 0 ≤ n.toInt ∧ n.toInt < length.toNat ↔ (2 - -3 : Int) < 2 ^ 31) := by
  obtain ⟨p, hp, harray⟩ := @exists_ofText
    "var a: array[-3..5] of integer; begin a[2] := 7 end." ""
    (fun p => p.parts.any fun x => match x with
      | .type t => t.bounds = some (-3, 5)
      | _ => false) (by cbv)
  obtain ⟨x, hx, hb⟩ := List.any_eq_true.1 harray
  cases x with
  | expr => cases hb
  | type array =>
    have hb : array.bounds = some (-3, 5) := of_decide_eq_true hb
    exact ⟨p, array, hp, hx, hb, fun F => ofText_index hp hx hb (i := 2) (by decide) (by decide)
      (a := .var ⟨1, 39⟩ array ⟨"a"⟩ .global) (e := .int ⟨1, 41⟩ 2) rfl rfl rfl F _ 1 rfl _ _⟩

end MiniPascal
