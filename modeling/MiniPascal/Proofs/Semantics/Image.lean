import MiniPascal.Proofs.Semantics.Typing

/-! Values as the machine holds them: an integer in 64 bits, wrapped to 32 after every operation. -/

namespace MiniPascal

open Ir (Value Config)
open Lowering (machineType)

mutual

/-- The value as the machine holds it. -/
def Val.image : Val → Value
  | .int n => .int n.toInt64
  | .double x => .double x
  | .bool b => .bool b
  | .parts vs => .aggregate (Val.images vs)

/-- The values as the machine holds them. -/
def Val.images : List Val → List Value
  | [] => []
  | v :: vs => v.image :: Val.images vs

end

namespace Val

theorem images_eq_map (vs : List Val) : images vs = vs.map image := by
  induction vs with
  | nil => rfl
  | cons v vs ih => rw [images, ih, List.map_cons]

theorem image_part (v : Val) (path : List UInt64) :
    v.image.part path = (v.part path).map image := by
  induction path generalizing v with
  | nil => rfl
  | cons i path ih =>
    cases v with
    | parts vs =>
      rw [image, Value.part, part, images_eq_map, List.getElem?_map]
      cases vs[i.toNat]? with
      | none => rfl
      | some w => exact ih w
    | int | double | bool => rfl

theorem image_replace (v w : Val) (path : List UInt64) :
    v.image.replace path w.image = (v.replace path w).map image := by
  induction path generalizing v with
  | nil => rfl
  | cons i path ih =>
    cases v with
    | parts vs =>
      rw [image, Value.replace, replace, images_eq_map, List.getElem?_map]
      cases vs[i.toNat]? with
      | none => rfl
      | some x =>
        show (x.image.replace path w.image).bind _ = _
        rw [ih x, Option.bind_eq_bind, Option.bind_some]
        cases x.replace path w with
        | none => rfl
        | some x' =>
          show some (Value.aggregate _) = some (Value.aggregate _)
          rw [images_eq_map, List.map_set]
    | int | double | bool => rfl

end Val

/-! ### Stores -/

/-- The address of a place. -/
def Place.pointer (q : Place) : Ir.Pointer := ⟨.global ("global_" ++ q.name), q.path⟩

/-- The memory holds the variables of a store. -/
def Ir.Config.Holds (C : Config) (S : Store) : Prop :=
  ∀ x, C.memory (.global ("global_" ++ x)) = (S x).map Val.image

namespace Ir.Config.Holds

variable {C : Config} {S : Store}

theorem read (h : C.Holds S) (q : Place) : C.read q.pointer = (S.read q).map Val.image := by
  rw [Config.read, Place.pointer, Store.read, h q.name]
  cases S q.name with
  | none => rfl
  | some v => exact v.image_part q.path

/-- Writing an image succeeds if and only if the store can be written, and then the memory holds the
new store. -/
theorem write (h : C.Holds S) (q : Place) (v : Val) :
    (S.write q v = none ∧ C.write q.pointer v.image = none) ∨
      ∃ S' C', S.write q v = some S' ∧ C.write q.pointer v.image = some C' ∧ C'.Holds S' ∧
        C'.locals = C.locals ∧ C'.output = C.output := by
  rw [Config.write, Store.write, Place.pointer, h q.name]
  cases hx : S q.name with
  | none => exact .inl ⟨rfl, rfl⟩
  | some old =>
    have hreplace := old.image_replace v q.path
    cases hw : old.replace q.path v with
    | none =>
      rw [hw] at hreplace
      refine .inl ⟨?_, ?_⟩
      · simp only [bind, Option.bind, hw]
      · simp only [bind, Option.bind, Option.map_some]
        rw [hreplace]
        rfl
    | some new =>
      rw [hw] at hreplace
      -- the new value is stored whole, at the path that leads into the old one
      refine .inr ⟨Function.update S q.name (some new), { C with
        memory := Function.update C.memory (.global ("global_" ++ q.name)) (some new.image) },
        ?_, ?_, fun x => ?_, rfl, rfl⟩
      · simp only [bind, Option.bind, hw, pure]
      · simp only [bind, Option.bind, Option.map_some]
        rw [hreplace]
        rfl
      · -- other names keep what they hold, since their globals have other names
        by_cases hxq : x = q.name
        · dsimp only
          rw [hxq, Function.update_self, Function.update_self]
          rfl
        · have hne : Ir.Root.global ("global_" ++ x) ≠ .global ("global_" ++ q.name) := by
            intro he
            injection he with he
            exact hxq ((String.append_right_inj "global_").1 he)
          rw [Function.update_of_ne hxq]
          exact (Function.update_of_ne hne _ _).trans (h x)

end Ir.Config.Holds

/-! ### Stores of routines -/

/-- The piece of memory that is a variable, in the call with the given number. -/
def Storage.root (k : Nat) : Storage → String → Ir.Root
  | .global, x => .global ("global_" ++ x)
  | .routine, x => .slot k (x ++ ".addr")

/-- The address of a site. -/
def Site.pointer (k : Nat) (s : Site) : Ir.Pointer := ⟨s.storage.root k s.place.name, s.place.path⟩

/-- The variables of both storages are in memory, and the names of the slots stand for the slots of
the call with the given number. -/
structure Ir.Config.Carries (C : Config) (k : Nat) (D : Layout) (ρ : Stores) : Prop where
  memory : ∀ st x t, D st x = some t → C.memory (st.root k x) = (ρ st x).map Val.image
  slot : ∀ x t, D .routine x = some t →
    C.locals (x ++ ".addr") = some (.ptr ⟨.slot k (x ++ ".addr"), []⟩)

theorem Ir.Config.Carries.read {C : Config} {k : Nat} {D : Layout} {ρ : Stores}
    (h : C.Carries k D ρ) {s : Site} {t : Ir.Ty} (hs : D s.storage s.place.name = some t) :
    C.read (s.pointer k) = (ρ.read s).map Val.image := by
  rw [Config.read, Site.pointer, Stores.read, Store.read, h.memory _ _ _ hs]
  cases ρ s.storage s.place.name with
  | none => rfl
  | some v => exact v.image_part s.place.path

theorem Ir.Config.Holds.carries {C : Config} {S : Store} (h : C.Holds S) (k : Nat) (D : Shapes) :
    C.Carries k (.ofMain D) fun _ => S := by
  refine ⟨fun st x t hx => ?_, fun x t hx => nomatch hx⟩
  cases st with
  | global => exact h x
  | routine => cases hx

/-! ### Operations -/

theorem div_wrap (m n : Int32) : (m.toInt64 / n.toInt64).toInt32 = m / n := by
  by_cases hn : n = -1
  · by_cases hm : m = .minValue
    · -- the quotient is the only one that 32 bits do not hold
      rw [hm, hn]
      decide
    · rw [← Int32.toInt64_div_of_ne_left m n hm, Int32.toInt32_toInt64]
  · rw [← Int32.toInt64_div_of_ne_right m n hn, Int32.toInt32_toInt64]

theorem mod_wrap (m n : Int32) : (m.toInt64 % n.toInt64).toInt32 = m % n := by
  rw [← Int32.toInt64_mod, Int32.toInt32_toInt64]

theorem toInt64_eq_zero {n : Int32} : n.toInt64 = 0 ↔ n = 0 := by
  constructor
  · intro h
    have := congrArg Int64.toInt32 h
    rwa [Int32.toInt32_toInt64] at this
  · rintro rfl
    rfl

/-- Dividing the images of integers is refused only where the divisor is zero. -/
theorem division_refused {m n : Int32} :
    (n.toInt64 = 0 ∨ m.toInt64 = .minValue ∧ n.toInt64 = -1) ↔ n = 0 := by
  rw [toInt64_eq_zero, or_iff_left]
  exact fun h => Int32.toInt64_ne_minValue m h.1

section

open Lowering (applied)

variable {F : Floats} {p : Ir.Program} {k : Nat} {C : Config} {v w : Ir.Operand}

/-- The result of an instruction that computes a value, if it has one. -/
def Ir.Config.output? (C : Config) (x : String) (r : Option Val) : Option Config :=
  r.map fun u => C.define x u.image

theorem exec_binary {a b : Value} (hv : C.value F v = some a) (hw : C.value F w = some b)
    (x : String) (op : Ir.Opcode) (t : Ir.Ty) :
    (Ir.Instr.binary x op t v w).exec F p k C = (op.apply F a b).map (C.define x) := by
  rw [Ir.Instr.exec, hv, hw]
  show (op.apply F a b).bind _ = _
  cases op.apply F a b <;> rfl

theorem exec_compare {a b : Value} (hv : C.value F v = some a) (hw : C.value F w = some b)
    (x : String) (predicate : Ir.Predicate) (t : Ir.Ty) :
    (Ir.Instr.compare x predicate t v w).exec F p k C =
      (a.compare F b).map fun o => C.define x (.bool (predicate.holds o)) := by
  rw [Ir.Instr.exec, hv, hw]
  show (a.compare F b).bind _ = _
  cases a.compare F b <;> rfl

/-- The instruction of an operator computes what the operator makes of two integers. -/
theorem applied_ints {m n : Int32} (hv : C.value F v = some (.int m.toInt64))
    (hw : C.value F w = some (.int n.toInt64)) (op : BinOp) (x : String) :
    (applied x op .integer v w).exec F p k C = C.output? x (op.onInts m n) := by
  cases op
  case div | mod =>
    refine (exec_binary hv hw x _ _).trans ?_
    rw [Ir.Opcode.apply, BinOp.onInts]
    by_cases hn : n = 0
    · rw [if_pos (division_refused.2 hn), if_pos hn]
      rfl
    · rw [if_neg (fun h => hn (division_refused.1 h)), if_neg hn, Value.wrap]
      first | rw [div_wrap] | rw [mod_wrap]
      rfl
  case equal | notEqual | less | lessEqual | greater | greaterEqual =>
    refine (exec_compare hv hw x _ _).trans ?_
    rw [Value.compare, Int32.toInt_toInt64, Int32.toInt_toInt64]
    rfl
  all_goals
    refine (exec_binary hv hw x _ _).trans ?_
    simp [Ir.Opcode.apply, Value.wrap, BinOp.onInts, BinOp.demand?, Config.output?, Val.image]

theorem applied_doubles {y z : Double} (hv : C.value F v = some (.double y))
    (hw : C.value F w = some (.double z)) (op : BinOp) (x : String) :
    (applied x op .double v w).exec F p k C = C.output? x (op.onDoubles F y z) := by
  cases op
  case equal | notEqual | less | lessEqual | greater | greaterEqual =>
    refine (exec_compare hv hw x _ _).trans ?_
    simp only [Value.compare, BinOp.onDoubles, BinOp.demand?]
    cases F.compare y z <;> rfl
  all_goals exact exec_binary hv hw x _ _

theorem applied_bools {a b : Bool} (hv : C.value F v = some (.bool a))
    (hw : C.value F w = some (.bool b)) (op : BinOp) (x : String) :
    (applied x op .boolean v w).exec F p k C = C.output? x (op.onBools a b) := by
  cases op
  case equal | notEqual | less | lessEqual | greater | greaterEqual =>
    exact exec_compare hv hw x _ _
  all_goals exact exec_binary hv hw x _ _

/-- The instruction of an operator computes what the operator makes of the values of its operands,
if these are there in the type in which both are evaluated. -/
theorem applied_apply {op : BinOp} {l r : Ty} {s t : Scalar} {a b : Val}
    (h : op.result? l r = some s)
    (ht : Lowering.operandType op l r (.scalar s) = .scalar t) (ha : a.HasType (machineType l))
    (hb : b.HasType (machineType r))
    (hv : C.value F v = some (a.convert F (.scalar t)).image)
    (hw : C.value F w = some (b.convert F (.scalar t)).image) (x : String) :
    (applied x op (.scalar t) v w).exec F p k C = C.output? x (op.apply F a b) := by
  have happly := BinOp.apply_convert F h ht ha hb
  cases t with
  | integer =>
    obtain ⟨m, n, rfl, rfl, happly⟩ := happly
    rw [happly]
    exact applied_ints hv hw op x
  | double =>
    obtain ⟨y, z, hy, hz, happly⟩ := happly
    rw [hy] at hv
    rw [hz] at hw
    rw [happly]
    exact applied_doubles hv hw op x
  | boolean =>
    obtain ⟨y, z, rfl, rfl, happly⟩ := happly
    rw [happly]
    exact applied_bools hv hw op x

/-- A sign looks at no more than 32 bits of its operand. -/
theorem exec_minus {m : Int64} (hv : C.value F v = some (.int m)) (x : String) (t : Ir.Ty) :
    (Ir.Instr.binary x .sub t (.int 0) v).exec F p k C =
      some (C.define x (Val.int (-m.toInt32)).image) := by
  have hneg : (0 - m).toInt32 = -m.toInt32 := by
    rw [Int64.toInt32_sub, Int64.toInt32_ofNat, Int32.zero_sub]
  refine (exec_binary (F := F) (v := .int 0) rfl hv x _ _).trans ?_
  rw [Ir.Opcode.apply, Value.wrap, hneg]
  rfl

theorem exec_complement {n : Int32} (hv : C.value F v = some (.int n.toInt64)) (x : String)
    (t : Ir.Ty) :
    (Ir.Instr.binary x .xor t v (.int (-1))).exec F p k C =
      some (C.define x (Val.int (~~~n)).image) := by
  have hnot : (n.toInt64 ^^^ -1).toInt32 = ~~~n := by
    rw [Int64.toInt32_xor, Int32.toInt32_toInt64]
    exact Int32.xor_neg_one
  refine (exec_binary hv (w := .int (-1)) rfl x _ _).trans ?_
  rw [Ir.Opcode.apply, Value.wrap, hnot]
  rfl

end

end MiniPascal
