import Mathlib
import MiniPascal.Proofs.Lowering.Counting
import MiniPascal.Proofs.Semantics.Assignment

/-! What a counting loop runs. The counter has 32 bits, so a loop up to the greatest number never
ends. -/

namespace MiniPascal

open Ir (Activation Comes Config Instr Operand Pointer State Value execAll fromLabel labelsSet)
open Lowering

/-! ### The numbers of a loop -/

/-- The numbers from one up to another in order, or none. -/
def upTo (a b : Int32) : List Int32 :=
  (List.range (b.toInt + 1 - a.toInt).toNat).map fun i => a + Int32.ofNat i

theorem toInt_succ {a b : Int32} (h : a ≤ b) (hb : b ≠ .maxValue) :
    (a + 1).toInt = a.toInt + 1 := by
  have hmax : b.toInt ≠ Int32.maxValue.toInt := fun h => hb (Int32.toInt_inj.1 h)
  have hle := Int32.le_iff_toInt_le.1 h
  have hlo := a.le_toInt
  have hhi := b.toInt_lt
  rw [Int32.toInt_maxValue] at hmax
  rw [Int32.toInt_add, Int32.toInt_one]
  exact Int.bmod_eq_of_le (by omega) (by omega)

theorem upTo_cons {a b : Int32} (h : a ≤ b) (hb : b ≠ .maxValue) :
    upTo a b = a :: upTo (a + 1) b := by
  have hle := Int32.le_iff_toInt_le.1 h
  have hlength : (b.toInt + 1 - a.toInt).toNat = (b.toInt + 1 - (a + 1).toInt).toNat + 1 := by
    rw [toInt_succ h hb]
    omega
  rw [upTo, upTo, hlength, List.range_succ_eq_map, List.map_cons, List.map_map]
  congr 1
  · exact Int32.add_zero a
  · refine List.map_congr_left fun i _ => ?_
    show a + Int32.ofNat (i + 1) = a + 1 + Int32.ofNat i
    rw [Int32.ofNat_add, Int32.add_assoc, Int32.add_comm (Int32.ofNat i)]
    rfl

theorem upTo_nil {a b : Int32} (h : ¬a ≤ b) : upTo a b = [] := by
  have hlt : ¬a.toInt ≤ b.toInt := fun hle => h (Int32.le_iff_toInt_le.2 hle)
  have hlength : (b.toInt + 1 - a.toInt).toNat = 0 := by omega
  rw [upTo, hlength]
  rfl

/-! ### Memory -/

/-- A part that can be read can be replaced, and then it is the new one. -/
theorem Ir.Value.part_replace {v u : Value} {path : List UInt64} (h : v.part path = some u)
    (w : Value) : ∃ v', v.replace path w = some v' ∧ v'.part path = some w := by
  induction path generalizing v with
  | nil => exact ⟨w, by cases v <;> rfl, by cases w <;> rfl⟩
  | cons i path ih =>
    cases v with
    | aggregate vs =>
      obtain ⟨x, hx, hpart⟩ := Option.bind_eq_some_iff.1 h
      obtain ⟨x', hx', hw⟩ := ih hpart
      refine ⟨.aggregate (vs.set i.toNat x'), ?_, ?_⟩
      · rw [replace, hx]
        show (x.replace path w).bind _ = _
        rw [hx']
        rfl
      · obtain ⟨hlt, -⟩ := List.getElem?_eq_some_iff.1 hx
        rw [part, List.getElem?_set_self hlt]
        exact hw
    | int | double | bool | ptr => cases h

/-- Where something can be read, something else can be written, and then that is read. -/
theorem Ir.Config.write_of_read {C : Config} {q : Pointer} {u : Value} (h : C.read q = some u)
    (w : Value) :
    ∃ C', C.write q w = some C' ∧ C'.read q = some w ∧ C'.locals = C.locals := by
  obtain ⟨v, hv, hpart⟩ := Option.bind_eq_some_iff.1 h
  obtain ⟨v', hreplace, hw⟩ := Value.part_replace hpart w
  refine ⟨{ C with memory := Function.update C.memory q.root (some v') }, ?_, ?_, rfl⟩
  · rw [Config.write, hv]
    show (v.replace q.path w).bind _ = _
    rw [hreplace]
    rfl
  · show (Function.update C.memory q.root (some v') q.root).bind _ = _
    rw [Function.update_self]
    exact hw

section

variable {F : Floats} {P : Ir.Program} {k : Nat} {C : Config}

/-- Instructions that load an integer, compute with one and store the result. -/
theorem exec_change (op : BinOp) {o : Ir.Opcode} {q : Pointer} {slot : Operand} {m n : Int32}
    {x y : String} (hslot : C.value F slot = some (.ptr q))
    (hread : C.read q = some (.int m.toInt64)) (hx : slot ≠ .local x) (hy : slot ≠ .local y)
    (hop : ∀ v w, applied y op .integer v w = .binary y o .i32 v w)
    (happly : op.onInts m 1 = some (.int n)) :
    ∃ C', execAll F P k [.load x .i32 slot, .binary y o .i32 (.local x) (.int 1),
        .store .i32 (.local y) slot] C = some C' ∧
      C'.read q = some (.int n.toInt64) ∧ C'.locals y = some (.int n.toInt64) := by
  let C₁ := C.define x (.int m.toInt64)
  let C₂ := C₁.define y (.int n.toInt64)
  have hload : (Instr.load x .i32 slot).exec F P k C = some C₁ := by
    rw [exec_load hslot, hread]
    rfl
  have hbinary : (Instr.binary y o .i32 (.local x) (.int 1)).exec F P k C₁ = some C₂ := by
    rw [← hop]
    exact exec_step op (C.value_define F x _) happly y
  have hslot₂ : C₂.value F slot = some (.ptr q) := by
    rw [Config.value_define_of_ne hy, Config.value_define_of_ne hx, hslot]
  obtain ⟨C₃, hwrite, hread₃, hlocals⟩ :=
    Config.write_of_read (C := C₂) hread (.int n.toInt64)
  have hstore : (Instr.store .i32 (.local y) slot).exec F P k C₂ = some C₃ := by
    rw [exec_store hslot₂ (C₁.value_define F y _), hwrite]
  refine ⟨C₃, ?_, hread₃, ?_⟩
  · rw [Ir.execAll_step hload, Ir.execAll_step hbinary, Ir.execAll_step hstore]
    rfl
  · rw [hlocals]
    exact C₁.value_define F y _

end

/-! ### The loop in a run -/

/-- The code of a call comes to its end, in a state with a certain property. -/
def Ir.Activation.Evaluates (F : Floats) (P : Ir.Program) (A : Activation) (c rest : List Instr)
    (C : Config) (n : Nat) (Q : Config → Nat → Prop) : Prop :=
  ∃ C' n', Comes F P (A.At rest) (A.state (c ++ rest) C n) (A.state rest C' n') ∧ Q C' n'

namespace Lowering.ForLoop

/-- The machine gets from one state to another. Meanwhile a call enters the body of a loop with
these values of the counter, one after another, and does not leave the loop. -/
inductive Visits (F : Floats) (P : Ir.Program) (L : ForLoop) (A : Activation) (q : Pointer) :
    State → List Int32 → State → Prop
  | stay {s : State} : Visits F P L A q s [] s
  | pass {s s' s'' : State} {vs : List Int32} (hentry : ¬A.At L.entryCode s)
    (hexit : ¬A.At L.exitCode s) (hstep : s.step F P = some s')
    (h : Visits F P L A q s' vs s'') : Visits F P L A q s vs s''
  | enter {C : Config} {n : Nat} {v : Int32} {s' s'' : State} {vs : List Int32}
    (hv : C.read q = some (.int v.toInt64))
    (hstep : (A.state L.entryCode C n).step F P = some s') (h : Visits F P L A q s' vs s'') :
    Visits F P L A q (A.state L.entryCode C n) (v :: vs) s''

/-- The body has come to its end, or to a `continue`. -/
def Completes (L : ForLoop) (rest : List Instr) : Prop :=
  ∃ c, rest = .jump L.check :: c ∨ rest = .transition .continueLoop (some L.check) :: c

/-- Nothing disturbs the counting of a loop that is started in some state: the first value is one
number and the bound is always another, the counter is always found at one address, and the body
always completes and leaves the counter as it is. -/
structure Undisturbed (F : Floats) (P : Ir.Program) (L : ForLoop) (A : Activation) (q : Pointer)
    (a b : Int32) (C₀ : Config) (n₀ : Nat) : Prop where
  first : A.Evaluates F P L.first (L.seek ++ L.startCode) C₀ n₀ fun C n =>
    C.value F L.value = some (.int a.toInt64) ∧
      A.Evaluates F P L.seek L.startCode C n fun C _ =>
        C.value F L.target = some (.ptr q) ∧ ∃ u, C.read q = some u
  find : ∀ vs C n (v : Int32),
    L.Visits F P A q (A.state L.code C₀ n₀) vs (A.state (L.find ++ L.countCode) C n) →
    C.read q = some (.int v.toInt64) →
    A.Evaluates F P L.find L.countCode C n fun C _ =>
      C.value F L.slot = some (.ptr q) ∧ C.read q = some (.int v.toInt64)
  bound : ∀ vs C n (v : Int32),
    L.Visits F P A q (A.state L.code C₀ n₀) vs (A.state (L.bound ++ L.compareCode) C n) →
    C.read q = some (.int v.toInt64) →
    A.Evaluates F P L.bound L.compareCode C n fun C _ =>
      C.value F L.limit = some (.int b.toInt64) ∧ C.read q = some (.int v.toInt64)
  body : ∀ vs C n (v : Int32),
    L.Visits F P A q (A.state L.code C₀ n₀) vs (A.state L.entryCode C n) →
    C.read q = some (.int v.toInt64) →
    ∃ rest C' n', L.Visits F P A q (A.state L.entryCode C n) [v] (A.state rest C' n') ∧
      L.Completes rest ∧ C'.read q = some (.int v.toInt64)

variable {F : Floats} {P : Ir.Program} {L : ForLoop} {A : Activation} {q : Pointer}
  {C : Config} {n : Nat} {c rest : List Instr} {s s' s'' : State} {vs ws : List Int32}

namespace Visits

theorem trans (h : L.Visits F P A q s vs s') (h' : L.Visits F P A q s' ws s'') :
    L.Visits F P A q s (vs ++ ws) s'' := by
  induction h with
  | stay => exact h'
  | pass hentry hexit hstep _ ih => exact .pass hentry hexit hstep (ih h')
  | enter hv hstep _ ih => exact .enter hv hstep (ih h')

/-- One step, of code that is neither the body nor behind the loop. -/
theorem single (hentry : rest ≠ L.entryCode) (hexit : rest ≠ L.exitCode)
    (hstep : (A.state rest C n).step F P = some s') :
    L.Visits F P A q (A.state rest C n) [] s' :=
  .pass (fun h => hentry (Activation.at_state.1 h)) (fun h => hexit (Activation.at_state.1 h))
    hstep .stay

/-- One step, by an instruction that is not a label. -/
theorem step {i : Instr} (hi : ∀ l, i ≠ .label l)
    (hstep : (A.state (i :: rest) C n).step F P = some s') :
    L.Visits F P A q (A.state (i :: rest) C n) [] s' :=
  .single (fun h => hi _ (List.cons.inj h).1) (fun h => hi _ (List.cons.inj h).1) hstep

/-- A run that leaves the loop is the only one there is. -/
theorem split {e : State} (h : L.Visits F P A q s vs s') (hs : L.Visits F P A q s ws e)
    (he : A.At L.exitCode e) : ∃ us, ws = vs ++ us ∧ L.Visits F P A q s' us e := by
  have hne : L.entryCode ≠ L.exitCode := by
    intro heq
    have := congrArg List.length heq
    simp [entryCode] at this
    omega
  induction h generalizing ws with
  | stay => exact ⟨ws, rfl, hs⟩
  | pass hentry hexit hstep _ ih =>
    cases hs with
    | stay => exact absurd he hexit
    | pass _ _ hstep' hs =>
      rw [hstep] at hstep'
      cases hstep'
      exact ih hs
    | enter => exact absurd ⟨_, _, rfl⟩ hentry
  | @enter C n v _ _ _ hv hstep _ ih =>
    generalize hentry : A.state L.entryCode C n = s at hs
    cases hs with
    | stay =>
      rw [← hentry] at he
      exact absurd (Activation.at_state.1 he) hne
    | pass h => exact absurd ⟨C, n, hentry.symm⟩ h
    | @enter C' n' v' _ _ _ hv' hstep' hs =>
      -- the state tells the counter
      have hread : C'.read q = C.read q := by
        have hmemory : C.memory = C'.memory := congrArg State.memory hentry
        rw [Config.read, Config.read, hmemory]
      rw [hread, hv] at hv'
      injection hv' with hv'
      injection hv' with hv'
      have hvv := congrArg Int64.toInt32 hv'
      rw [Int32.toInt32_toInt64, Int32.toInt32_toInt64] at hvv
      subst hvv
      rw [← hentry, hstep] at hstep'
      cases hstep'
      obtain ⟨us, rfl, hus⟩ := ih hs
      exact ⟨us, rfl, hus⟩

end Visits

/-- Code in front of the body is longer than what is left from the body on. -/
theorem ne_of_length (h : L.entryCode.length < rest.length) :
    rest ≠ L.entryCode ∧ rest ≠ L.exitCode := by
  have hle : L.exitCode.length ≤ L.entryCode.length := by
    simp [entryCode]
    omega
  constructor
  · rintro rfl
    exact Nat.lt_irrefl _ h
  · rintro rfl
    omega

theorem visits_exec {C' : Config} (hc : ∀ i ∈ c, i.isLocal = true)
    (h : execAll F P A.number c C = some C') :
    L.Visits F P A q (A.state (c ++ rest) C n) [] (A.state rest C' n) := by
  induction c generalizing C with
  | nil =>
    cases h
    exact .stay
  | cons i c ih =>
    obtain ⟨hi, hc⟩ := List.forall_mem_cons.1 hc
    obtain ⟨C₁, hexec, h⟩ := Option.bind_eq_some_iff.1 h
    have hstep : (A.state (i :: (c ++ rest)) C n).step F P = some (A.state (c ++ rest) C₁ n) := by
      rw [Activation.step_exec hi, hexec]
      rfl
    -- body and end of a loop begin with labels
    have hne : ∀ l d, i :: (c ++ rest) ≠ .label l :: d := by
      intro l d heq
      obtain ⟨rfl, -⟩ := List.cons.inj heq
      cases hi
    exact (Visits.single (hne _ _) (hne _ _) hstep).trans (ih hc h)

theorem visits_label {l : Ir.Label} (h : l ≠ L.entry ∧ l ≠ L.exit) :
    L.Visits F P A q (A.state (.label l :: c) C n) [] (A.state c C n) := by
  refine .single (fun heq => h.1 ?_) (fun heq => h.2 ?_) Activation.step_label
  · injection (List.cons.inj heq).1
  · injection (List.cons.inj heq).1

/-- The way to the end of some code does not lead through the loop. -/
theorem visits_comes {base : String → Option Value} (hplain : ∀ i ∈ c, i.isPlain = true)
    (hlen : L.entryCode.length < rest.length) (hc : Comes F P (A.At rest) s s')
    (h : A.Over c rest base s.frames) : L.Visits F P A q s [] s' := by
  induction hc with
  | here => exact .stay
  | @step s _ _ hs hstep _ ih =>
    have hlength : ∀ d, A.At d s → L.entryCode.length < d.length := by
      intro d hd
      obtain ⟨c', -, -, -, rfl, -⟩ := h.of_at hd
      rw [List.length_append]
      omega
    exact .pass (fun hd => (ne_of_length (hlength _ hd)).1 rfl)
      (fun hd => (ne_of_length (hlength _ hd)).2 rfl) hstep (ih (h.step hplain hs hstep))

theorem visits_evaluates (L : ForLoop) (q : Pointer) {Q : Config → Nat → Prop}
    (h : A.Evaluates F P c rest C n Q) (hplain : ∀ i ∈ c, i.isPlain = true)
    (hlen : L.entryCode.length < rest.length) :
    ∃ C' n', Q C' n' ∧ (∀ x ∉ Ir.outputs c, C'.locals x = C.locals x) ∧
      L.Visits F P A q (A.state (c ++ rest) C n) [] (A.state rest C' n') := by
  obtain ⟨C', n', hcomes, hQ⟩ := h
  have hover : A.Over c rest C.locals (A.state (c ++ rest) C n).frames :=
    .own List.suffix_rfl fun _ _ => rfl
  refine ⟨C', n', hQ, ?_, visits_comes hplain hlen hcomes hover⟩
  obtain ⟨C'', n'', hstate, hkept⟩ := Activation.Over.comes hplain hcomes hover
  injection hstate with hframes
  injection (List.cons.inj hframes).1 with _ _ _ hlocals
  rw [hlocals]
  exact hkept

/-! ### Where the labels lead -/

theorem testCode_suffix (L : ForLoop) : L.testCode <:+ L.code :=
  ⟨L.first ++ L.seek ++ L.startCode.take 5, by simp [code, startCode]⟩

theorem entryCode_suffix (L : ForLoop) : L.entryCode <:+ L.code :=
  .trans ⟨.label L.check :: (L.find ++ L.countCode.take 3 ++ L.bound ++ L.compareCode.take 2),
    by simp [testCode, countCode, compareCode]⟩ L.testCode_suffix

theorem exitCode_suffix (L : ForLoop) : L.exitCode <:+ L.code :=
  .trans ⟨.label L.entry :: L.body, rfl⟩ L.entryCode_suffix

/-! ### Rounds -/

theorem step_jump_test (hA : L.code <:+ A.code) (hnodup : (labelsSet A.code).Nodup)
    (h : L.Completes rest) :
    L.Visits F P A q (A.state rest C n) [] (A.state L.testCode C n) := by
  have hlabel : fromLabel L.check A.code = some L.testCode :=
    Ir.fromLabel_of_suffix hnodup (L.testCode_suffix.trans hA)
  obtain ⟨c, rfl | rfl⟩ := h
  · exact .step (by simp) (Activation.step_jump hlabel)
  · exact .step (by simp) (Activation.step_transition hlabel)

namespace Undisturbed

variable {a b v : Int32} {C₀ : Config} {n₀ : Nat}

/-- At the first test, the counter is one less than the first value. -/
theorem start (h : L.Undisturbed F P A q a b C₀ n₀) (hL : L.Apart) (hA : L.code <:+ A.code)
    (hnodup : (labelsSet A.code).Nodup) :
    ∃ C n, L.Visits F P A q (A.state L.code C₀ n₀) [] (A.state L.testCode C n) ∧
      C.read q = some (.int (a - 1).toInt64) := by
  have hlen : L.entryCode.length < L.testCode.length := by
    simp [testCode, countCode, compareCode]
    omega
  have hlen' : L.entryCode.length < L.startCode.length := by
    simp [startCode]
    omega
  obtain ⟨C₁, n₁, ⟨hvalue, hseek⟩, -, hfirst⟩ := visits_evaluates L q h.first hL.first
    (by rw [List.length_append]; omega)
  obtain ⟨C₂, n₂, ⟨htarget, u, hu⟩, hkept, hseek⟩ := visits_evaluates L q hseek hL.seek hlen'
  -- the first value is still there when the counter has been found
  have hvalue₂ : C₂.value F L.value = some (.int a.toInt64) := by
    rw [← hvalue]
    cases hx : L.value with
    | «local» x => exact hkept x (hL.value x hx)
    | _ => rfl
  obtain ⟨C₃, hwrite, hread, hlocals⟩ := Config.write_of_read hu (.int a.toInt64)
  have hstore : (Instr.store .i32 L.value L.target).exec F P A.number C₂ = some C₃ := by
    rw [exec_store htarget hvalue₂, hwrite]
  have htarget₃ : C₃.value F L.target = some (.ptr q) := by
    rw [Config.value_congr hlocals, htarget]
  obtain ⟨C₄, hexec, hread₄, -⟩ := exec_change (F := F) (P := P) (k := A.number) .sub
    (o := .sub) (n := a - 1) htarget₃ hread hL.target.1 hL.target.2 (fun _ _ => rfl) rfl
  have hstart : L.Visits F P A q (A.state L.startCode C₂ n₂) []
      (A.state (.jump L.check :: L.testCode) C₄ n₂) := by
    refine visits_exec (c := [_, _, _, _]) ?_ ((Ir.execAll_step hstore _).trans hexec)
    simp [Instr.isLocal, Instr.isPlain]
  exact ⟨C₄, n₂, ((hfirst.trans hseek).trans hstart).trans
    (step_jump_test hA hnodup ⟨_, .inl rfl⟩), hread₄⟩

/-- A test adds one to the counter and leads to the body or out of the loop. -/
theorem test (h : L.Undisturbed F P A q a b C₀ n₀) (hL : L.Apart) (hA : L.code <:+ A.code)
    (hnodup : (labelsSet A.code).Nodup)
    (hs : L.Visits F P A q (A.state L.code C₀ n₀) vs (A.state L.testCode C n))
    (hv : C.read q = some (.int v.toInt64)) :
    ∃ C' n', L.Visits F P A q (A.state L.testCode C n) []
        (A.state (if v + 1 ≤ b then L.entryCode else L.exitCode) C' n') ∧
      C'.read q = some (.int (v + 1).toInt64) := by
  have hlen : L.entryCode.length < L.compareCode.length := by simp [compareCode]
  have hlabel : L.Visits F P A q (A.state L.testCode C n) []
      (A.state (L.find ++ L.countCode) C n) := by
    have hne : L.testCode ≠ L.entryCode ∧ L.testCode ≠ L.exitCode :=
      ne_of_length (by simp [testCode, countCode]; omega)
    exact .single hne.1 hne.2 Activation.step_label
  obtain ⟨C₁, n₁, ⟨hslot, hread⟩, -, hfind⟩ := visits_evaluates L q
    (h.find _ _ _ v (hs.trans hlabel) hv) hL.find (by simp [countCode]; omega)
  obtain ⟨C₂, hexec, hread₂, hnext⟩ := exec_change (F := F) (P := P) (k := A.number) .add
    (o := .add) (n := v + 1) hslot hread hL.slot.1 hL.slot.2 (fun _ _ => rfl) rfl
  have hcount : L.Visits F P A q (A.state L.countCode C₁ n₁) []
      (A.state (L.bound ++ L.compareCode) C₂ n₁) := by
    refine visits_exec (c := [_, _, _]) ?_ hexec
    simp [Instr.isLocal, Instr.isPlain]
  obtain ⟨C₃, n₃, ⟨hlimit, hread₃⟩, hkept, hbound⟩ := visits_evaluates L q
    (h.bound _ _ _ (v + 1) (((hs.trans hlabel).trans hfind).trans hcount) hread₂) hL.bound hlen
  -- the sum is still there when the bound has been found
  have hnext₃ : C₃.value F (.local L.next) = some (.int (v + 1).toInt64) :=
    (hkept _ hL.next).trans hnext
  let C₄ := C₃.define L.compared (.bool (decide (v + 1 ≤ b)))
  have hcompare : (Instr.compare L.compared .sle .i32 (.local L.next) L.limit).exec F P A.number
      C₃ = some C₄ := by
    have happlied := applied_ints (p := P) (k := A.number) hnext₃ hlimit .lessEqual L.compared
    rw [compare_le] at happlied
    exact happlied
  have hdecide : L.Visits F P A q (A.state L.compareCode C₃ n₃) []
      (A.state (.jumpIf (.local L.compared) L.entry L.exit :: L.entryCode) C₄ n₃) :=
    visits_exec (c := [_]) (by simp [Instr.isLocal, Instr.isPlain])
      ((Ir.execAll_step hcompare _).trans rfl)
  have hjump : (A.state (.jumpIf (.local L.compared) L.entry L.exit :: L.entryCode) C₄ n₃).step
      F P = some (A.state (if v + 1 ≤ b then L.entryCode else L.exitCode) C₄ n₃) := by
    refine Activation.step_jumpIf (C₃.value_define F _ _) ?_
    by_cases hle : v + 1 ≤ b
    · rw [decide_eq_true hle, if_pos hle]
      exact Ir.fromLabel_of_suffix hnodup (L.entryCode_suffix.trans hA)
    · rw [decide_eq_false hle, if_neg hle]
      exact Ir.fromLabel_of_suffix hnodup (L.exitCode_suffix.trans hA)
  exact ⟨C₄, n₃, (((hlabel.trans hfind).trans hcount).trans (hbound.trans hdecide)).trans
    (.step (by simp) hjump), hread₃⟩

/-- A round of the loop enters the body with the next number and comes back to the test. -/
theorem round (h : L.Undisturbed F P A q a b C₀ n₀) (hL : L.Apart) (hA : L.code <:+ A.code)
    (hnodup : (labelsSet A.code).Nodup)
    (hs : L.Visits F P A q (A.state L.code C₀ n₀) vs (A.state L.testCode C n))
    (hv : C.read q = some (.int v.toInt64)) (hle : v + 1 ≤ b) :
    ∃ C' n', L.Visits F P A q (A.state L.testCode C n) [v + 1] (A.state L.testCode C' n') ∧
      C'.read q = some (.int (v + 1).toInt64) := by
  obtain ⟨C₁, n₁, htest, hread⟩ := h.test hL hA hnodup hs hv
  rw [if_pos hle] at htest
  obtain ⟨rest, C₂, n₂, hbody, hcompletes, hread₂⟩ := h.body _ _ _ _ (hs.trans htest) hread
  exact ⟨C₂, n₂, (htest.trans hbody).trans (step_jump_test hA hnodup hcompletes), hread₂⟩

/-- From a test on, the loop runs the numbers that are left, unless the bound is the greatest number
of all. -/
theorem runs (h : L.Undisturbed F P A q a b C₀ n₀) (hL : L.Apart) (hA : L.code <:+ A.code)
    (hnodup : (labelsSet A.code).Nodup) (hb : b ≠ .maxValue)
    (hs : L.Visits F P A q (A.state L.code C₀ n₀) vs (A.state L.testCode C n))
    (hv : C.read q = some (.int (v - 1).toInt64)) :
    ∃ C' n', L.Visits F P A q (A.state L.testCode C n) (upTo v b) (A.state L.exitCode C' n') := by
  have hsucc : v - 1 + 1 = v := Int32.sub_add_cancel v 1
  -- by the numbers that are left, which every round makes one less
  induction hk : upTo v b generalizing v vs C n with
  | nil =>
    have hle : ¬v ≤ b := by
      intro hle
      rw [upTo_cons hle hb] at hk
      cases hk
    obtain ⟨C', n', htest, -⟩ := h.test hL hA hnodup hs hv
    rw [hsucc, if_neg hle] at htest
    exact ⟨C', n', htest⟩
  | cons w ws ih =>
    have hle : v ≤ b := by
      by_contra hle
      rw [upTo_nil hle] at hk
      cases hk
    rw [upTo_cons hle hb] at hk
    obtain ⟨hw, hws⟩ := List.cons.inj hk
    subst hw hws
    obtain ⟨C₁, n₁, hround, hread⟩ := h.round hL hA hnodup hs hv (by rw [hsucc]; exact hle)
    rw [hsucc] at hround hread
    have hsub : v = v + 1 - 1 := (Int32.add_sub_cancel v 1).symm
    obtain ⟨C₂, n₂, hrest⟩ := ih (hs.trans hround) (by rw [← hsub]; exact hread)
      (Int32.sub_add_cancel (v + 1) 1) rfl
    exact ⟨C₂, n₂, hround.trans hrest⟩

/-- Up to the greatest number of all, no test leads out of the loop. -/
theorem endless (h : L.Undisturbed F P A q a .maxValue C₀ n₀) (hL : L.Apart)
    (hA : L.code <:+ A.code) (hnodup : (labelsSet A.code).Nodup)
    (hs : L.Visits F P A q (A.state L.code C₀ n₀) vs (A.state L.testCode C n))
    (hv : C.read q = some (.int v.toInt64)) {e : State} (he : A.At L.exitCode e) :
    ¬L.Visits F P A q (A.state L.testCode C n) ws e := by
  -- every round takes one number away from those with which the loop would be left
  induction ws generalizing v vs C n with
  | nil =>
    intro hrun
    obtain ⟨C₁, n₁, hround, -⟩ := h.round hL hA hnodup hs hv (Int32.le_maxValue _)
    obtain ⟨us, hus, -⟩ := hround.split hrun he
    cases hus
  | cons w ws ih =>
    intro hrun
    obtain ⟨C₁, n₁, hround, hread⟩ := h.round hL hA hnodup hs hv (Int32.le_maxValue _)
    obtain ⟨us, hus, hrest⟩ := hround.split hrun he
    cases hus
    exact ih (hs.trans hround) hread hrest

theorem never_left (h : L.Undisturbed F P A q a .maxValue C₀ n₀) (hL : L.Apart)
    (hA : L.code <:+ A.code) (hnodup : (labelsSet A.code).Nodup) {e : State}
    (he : A.At L.exitCode e) : ¬L.Visits F P A q (A.state L.code C₀ n₀) vs e := by
  intro hrun
  obtain ⟨C₁, n₁, hstart, hread⟩ := h.start hL hA hnodup
  obtain ⟨us, -, hrest⟩ := hstart.split hrun he
  exact h.endless hL hA hnodup hstart hread he hrest

/-- A loop over a global, with integer literals for both ends. -/
theorem of_literals {x : String} (hfirst : L.first = [] ∧ L.value = .int a.toInt64)
    (hseek : L.seek = [] ∧ L.target = .global x) (hfind : L.find = [] ∧ L.slot = .global x)
    (hbound : L.bound = [] ∧ L.limit = .int b.toInt64) {u : Value}
    (hu : C₀.read ⟨.global x, []⟩ = some u)
    (hbody : ∀ C n (v : Int32), C.read ⟨.global x, []⟩ = some (.int v.toInt64) →
      ∃ rest C' n', L.Visits F P A ⟨.global x, []⟩ (A.state L.entryCode C n) [v]
        (A.state rest C' n') ∧ L.Completes rest ∧
          C'.read ⟨.global x, []⟩ = some (.int v.toInt64)) :
    L.Undisturbed F P A ⟨.global x, []⟩ a b C₀ n₀ := by
  have hnil : ∀ {c rest : List Instr} {C : Config} {n : Nat} {Q : Config → Nat → Prop},
      c = [] → Q C n → A.Evaluates F P c rest C n Q := by
    rintro c rest C n Q rfl hQ
    exact ⟨C, n, .here ⟨C, n, rfl⟩, hQ⟩
  refine ⟨hnil hfirst.1 ⟨?_, hnil hseek.1 ⟨?_, u, hu⟩⟩, fun _ C n v _ hv => hnil hfind.1 ⟨?_, hv⟩,
    fun _ C n v _ hv => hnil hbound.1 ⟨?_, hv⟩, fun _ C n v _ hv => hbody C n v hv⟩
  · rw [hfirst.2]
    rfl
  · rw [hseek.2]
    rfl
  · rw [hfind.2]
    rfl
  · rw [hbound.2]
    rfl

end Undisturbed

end Lowering.ForLoop

/-- Take a counting loop that obeys the rules, and a function that ends with its code and whatever
follows. Where nothing disturbs the counting, the loop enters its body with the numbers from the
first value up to the bound, one after another, and is left, unless the bound is the greatest number
of 32 bits. Then it is never left. -/
theorem Lowering.forLoop_runs {Γ : Context} {inLoop : Bool} {p : Position}
    {counter first bound : Expr} {body : Stmt}
    (h : (Stmt.forTo p counter first bound body).Checked Γ inLoop) (after : List Instr)
    (g : Generator) :
    let L := forLoop p counter first bound body after g
    ∃ g', statement (.forTo p counter first bound body) g = ((), g') ∧
      g'.code ++ after = g.code ++ L.code ∧
      ∀ F P (A : Activation) q a b C n, L.code <:+ A.code → (labelsSet A.code).Nodup →
        L.Undisturbed F P A q a b C n →
        (b ≠ .maxValue → ∃ C' n',
          L.Visits F P A q (A.state L.code C n) (upTo a b) (A.state L.exitCode C' n')) ∧
        (b = .maxValue → ∀ vs C' n',
          ¬L.Visits F P A q (A.state L.code C n) vs (A.state L.exitCode C' n')) := by
  intro L
  obtain ⟨g', hrun, hcode, hL⟩ := statement_forLoop h after g
  refine ⟨g', hrun, hcode, fun F P A q a b C n hA hnodup hL' => ⟨fun hb => ?_, ?_⟩⟩
  · obtain ⟨C₁, n₁, hstart, hread⟩ := hL'.start hL hA hnodup
    obtain ⟨C₂, n₂, hruns⟩ := hL'.runs hL hA hnodup hb hstart hread
    exact ⟨C₂, n₂, hstart.trans hruns⟩
  · rintro rfl vs C' n'
    exact hL'.never_left hL hA hnodup ⟨C', n', rfl⟩

/-- A loop from 2 to 4 that goes on with `continue` at 3. -/
theorem Lowering.forLoop_runs_continue :
    let i : Expr := .var ⟨1, 30⟩ .integer ⟨"i"⟩ .global
    let body : Stmt := .ifElse (.binary ⟨1, 48⟩ .boolean .equal i (.int ⟨1, 50⟩ 3))
      (.transition .continueLoop ⟨1, 57⟩) none
    let s : Stmt := .forTo ⟨1, 26⟩ i (.int ⟨1, 35⟩ 2) (.int ⟨1, 40⟩ 4) body
    let L : ForLoop := forLoop ⟨1, 26⟩ i (.int ⟨1, 35⟩ 2) (.int ⟨1, 40⟩ 4) body [] .empty
    let A : Activation := ⟨1, L.code, none, []⟩
    let q : Pointer := ⟨.global "global_i", []⟩
    let C : Config := ⟨fun _ => none, fun _ => some (.int 0), ""⟩
    s.Checked ⟨fun _ n _ => n.canonical = "i", fun _ _ _ => False⟩ false ∧
      L.code <:+ A.code ∧ (labelsSet A.code).Nodup ∧ (4 : Int32) ≠ .maxValue ∧
      (∃ g' : Generator, statement s .empty = ((), g') ∧ g'.code = L.code) ∧
      ∀ F P, L.Undisturbed F P A q 2 4 C 1 ∧ ∃ C' n',
        L.Visits F P A q (A.state L.code C 1) [2, 3, 4] (A.state L.exitCode C' n') := by
  intro i body s L A q C
  have hchecked : s.Checked ⟨fun _ n _ => n.canonical = "i", fun _ _ _ => False⟩ false :=
    .forTo (.var rfl trivial) rfl rfl (.int (by decide)) rfl (.int (by decide)) rfl
      (.ifThen (.binary (.var rfl trivial) (.int (by decide)) rfl) rfl .transition)
  have hL : L = ⟨[], .int 2, [], .global "global_i", "s1-26.pre", "s1-26.dec", 0, 1, 2,
      [], .global "global_i", "s1-26.cur", "s1-26.next", [], .int 4, "s1-26.cmp",
      [.load "s1-30" .i32 (.global "global_i"),
        .compare "s1-48" .eq .i32 (.local "s1-30") (.int 3), .jumpIf (.local "s1-48") 3 4,
        .label 3, .transition .continueLoop (some 0), .label 4, .jump 0], []⟩ := by
    show forLoop ⟨1, 26⟩ (.var ⟨1, 30⟩ .integer ⟨"i"⟩ .global) (.int ⟨1, 35⟩ 2) (.int ⟨1, 40⟩ 4)
      (.ifElse (.binary ⟨1, 48⟩ .boolean .equal (.var ⟨1, 30⟩ .integer ⟨"i"⟩ .global)
        (.int ⟨1, 50⟩ 3)) (.transition .continueLoop ⟨1, 57⟩) none) [] .empty = _
    cbv
  have hnodup : (labelsSet A.code).Nodup := by
    show (labelsSet L.code).Nodup
    rw [hL]
    decide
  obtain ⟨g', hrun, hcode, hruns⟩ := forLoop_runs hchecked [] .empty
  rw [List.append_nil] at hcode
  refine ⟨hchecked, List.suffix_rfl, hnodup, by decide, ⟨g', hrun, hcode.trans (List.nil_append _)⟩,
    fun F P => ?_⟩
  have hundisturbed : L.Undisturbed F P A q 2 4 C 1 := by
    refine ForLoop.Undisturbed.of_literals ?_ ?_ ?_ ?_ (u := .int 0) rfl fun C n v hv => ?_
    · rw [hL]
      exact ⟨rfl, rfl⟩
    · rw [hL]
      exact ⟨rfl, rfl⟩
    · rw [hL]
      exact ⟨rfl, rfl⟩
    · rw [hL]
      exact ⟨rfl, rfl⟩
    · obtain ⟨c, hentry, hthen, hmerge⟩ : ∃ c, L.entryCode =
            .label 1 :: .load "s1-30" .i32 (.global "global_i") ::
              .compare "s1-48" .eq .i32 (.local "s1-30") (.int 3) ::
              .jumpIf (.local "s1-48") 3 4 :: .label 3 ::
              .transition .continueLoop (some L.check) :: .label 4 :: .jump L.check :: c ∧
          fromLabel 3 A.code = some (.label 3 :: .transition .continueLoop (some L.check) ::
            .label 4 :: .jump L.check :: c) ∧
          fromLabel 4 A.code = some (.label 4 :: .jump L.check :: c) := by
        show ∃ c, L.entryCode = _ ∧ fromLabel 3 L.code = _ ∧ fromLabel 4 L.code = _
        rw [hL]
        exact ⟨_, rfl, rfl, rfl⟩
      let C₁ := C.define "s1-30" (.int v.toInt64)
      let C₂ := C₁.define "s1-48" (.bool (decide (v = 3)))
      have hload : (Instr.load "s1-30" .i32 (.global "global_i")).exec F P 1 C = some C₁ := by
        rw [exec_load rfl, hv]
        rfl
      have hcompare : (Instr.compare "s1-48" .eq .i32 (.local "s1-30") (.int 3)).exec F P 1 C₁ =
          some C₂ := by
        have heq : (compare v.toInt (3 : Int32).toInt).isEq = decide (v = 3) := by
          rw [Bool.eq_iff_iff, decide_eq_true_iff, Ordering.isEq_iff_eq_eq, compare_eq_iff_eq,
            Int32.toInt_inj]
        have happlied := applied_ints (p := P) (k := 1) (F := F) (C := C₁) (n := 3)
          (w := .int 3) (C.value_define F "s1-30" _) rfl .equal "s1-48"
        refine happlied.trans ?_
        show some (C₁.define "s1-48" (.bool (compare v.toInt (3 : Int32).toInt).isEq)) = _
        rw [heq]
      -- the body makes its test and comes to one of its two ends
      have henter : L.Visits F P A q (A.state L.entryCode C n) [v]
          (A.state L.entryCode.tail C n) := .enter hv rfl .stay
      rw [hentry] at henter ⊢
      have htest := henter.trans (ForLoop.visits_exec (c := [_, _])
        (by simp [Instr.isLocal, Instr.isPlain])
        ((Ir.execAll_step hload _).trans ((Ir.execAll_step hcompare _).trans rfl)))
      have hvalue : C₂.value F (.local "s1-48") = some (.bool (decide (v = 3))) :=
        C₁.value_define F _ _
      by_cases h3 : v = 3
      · rw [decide_eq_true h3] at hvalue
        exact ⟨_, C₂, n, (htest.trans (.step (by simp)
          (Activation.step_jumpIf hvalue hthen))).trans
            (ForLoop.visits_label (by rw [hL]; decide)), ⟨_, .inr rfl⟩, hv⟩
      · rw [decide_eq_false h3] at hvalue
        exact ⟨_, C₂, n, (htest.trans (.step (by simp)
          (Activation.step_jumpIf hvalue hmerge))).trans
            (ForLoop.visits_label (by rw [hL]; decide)), ⟨_, .inl rfl⟩, hv⟩
  have hupTo : upTo 2 4 = [2, 3, 4] := by decide
  rw [← hupTo]
  exact ⟨hundisturbed, (hruns F P A q 2 4 C 1 List.suffix_rfl hnodup hundisturbed).1 (by decide)⟩

/-- A loop from 2147483647 to 2147483647 with an empty body is never left. -/
theorem Program.compile_forLoop_endless :
    let L : ForLoop := forLoop ⟨1, 23⟩ (.var ⟨1, 27⟩ .integer ⟨"i"⟩ .global)
      (.int ⟨1, 32⟩ 2147483647) (.int ⟨1, 46⟩ 2147483647) (.block [])
      [.ret (some (.i32, .int 0))] .empty
    let A : Activation := ⟨1, L.code, none, []⟩
    let q : Pointer := ⟨.global "global_i", []⟩
    upTo 2147483647 2147483647 = [2147483647] ∧ ∃ ir C,
      compile "var i: integer; begin for i := 2147483647 to 2147483647 do begin end end." "t" =
        .ok ir ∧ ir.functions = [⟨"main", .i32, [], L.code⟩] ∧
      ir.start = some (A.state L.code C 1) ∧
      ∀ F, L.Undisturbed F ir A q 2147483647 2147483647 C 1 ∧
        ∀ vs C' n', ¬L.Visits F ir A q (A.state L.code C 1) vs (A.state L.exitCode C' n') := by
  intro L A q
  -- the parts of the loop, as they are generated
  have hL : L = ⟨[], .int 2147483647, [], .global "global_i", "s1-23.pre", "s1-23.dec", 0, 1, 2,
      [], .global "global_i", "s1-23.cur", "s1-23.next", [], .int 2147483647, "s1-23.cmp",
      [.jump 0], [.ret (some (.i32, .int 0))]⟩ := by cbv
  have hchecked : (Stmt.forTo ⟨1, 23⟩ (.var ⟨1, 27⟩ .integer ⟨"i"⟩ .global)
      (.int ⟨1, 32⟩ 2147483647) (.int ⟨1, 46⟩ 2147483647) (.block [])).Checked
      ⟨fun _ _ _ => True, fun _ _ _ => True⟩ false :=
    .forTo (.var trivial trivial) rfl rfl (.int (by decide)) rfl (.int (by decide)) rfl
      (.block (List.forall_mem_nil _))
  obtain ⟨-, -, -, hapart⟩ := statement_forLoop hchecked [.ret (some (.i32, .int 0))] .empty
  have hnodup : (labelsSet A.code).Nodup := by
    show (labelsSet L.code).Nodup
    rw [hL]
    decide
  have hcode : L.code = _ := congrArg ForLoop.code hL
  have hcompile : compile
      "var i: integer; begin for i := 2147483647 to 2147483647 do begin end end." "t" =
      .ok ⟨[], [.variable "global_i" .i32], [⟨"main", .i32, [], L.code⟩]⟩ := by
    rw [hcode]
    cbv
  let C : Config :=
    ⟨fun _ => none, Function.update (fun _ => none) (.global "global_i") (some (.int 0)), ""⟩
  refine ⟨by decide, _, C, hcompile, rfl, rfl, fun F => ?_⟩
  -- both bounds are literals, and an empty body only goes back to the test
  have hundisturbed : L.Undisturbed F ⟨[], [.variable "global_i" .i32],
      [⟨"main", .i32, [], L.code⟩]⟩ A q 2147483647 2147483647 C 1 := by
    refine ForLoop.Undisturbed.of_literals ?_ ?_ ?_ ?_ (u := .int 0) rfl fun C n v hv => ?_
    · rw [hL]
      exact ⟨rfl, rfl⟩
    · rw [hL]
      exact ⟨rfl, rfl⟩
    · rw [hL]
      exact ⟨rfl, rfl⟩
    · rw [hL]
      exact ⟨rfl, rfl⟩
    · refine ⟨.jump L.check :: L.exitCode, C, n, .enter hv ?_ .stay, ⟨_, .inl rfl⟩, hv⟩
      have hentry : L.entryCode = .label 1 :: .jump L.check :: L.exitCode := by
        rw [hL]
        rfl
      rw [hentry]
      rfl
  exact ⟨hundisturbed, fun vs C' n' =>
    hundisturbed.never_left hapart List.suffix_rfl hnodup ⟨C', n', rfl⟩⟩

end MiniPascal
