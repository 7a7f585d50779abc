import MiniPascal.Ir.Basic

/-! Completing a loop: giving its transitions their targets, and dropping what cannot be reached. -/

namespace MiniPascal.Ir

/-- Where a transition of a loop goes. -/
def Transition.target (kind : Transition) (exit next : Label) : Label :=
  match kind with
  | .breakLoop => exit
  | .continueLoop => next

/-- Whether the instruction is a transition without a target. -/
def Instr.isUnresolved : Instr → Bool
  | .transition _ none => true
  | _ => false

theorem Instr.isUnresolved_iff {i : Instr} :
    i.isUnresolved = true ↔ ∃ kind, i = .transition kind none := by
  unfold Instr.isUnresolved
  split
  · exact ⟨fun _ => ⟨_, rfl⟩, fun _ => rfl⟩
  · rename_i hne
    exact ⟨nofun, fun ⟨kind, h⟩ => absurd h (hne kind)⟩

/-- The index of the first transition without a target. -/
def firstUnresolved? (code : List Instr) : Option Nat :=
  code.findIdx? Instr.isUnresolved

/-- Sends a transition to the exit of the loop or to its next test. -/
def Instr.sent (exit next : Label) : Instr → Instr
  | .transition kind _ => .transition kind (some (Transition.target kind exit next))
  | i => i

/-- Gives the first transition without a target the exit of the loop or its next test. -/
def resolveFirst? (exit next : Label) (code : List Instr) : Option (List Instr) :=
  (firstUnresolved? code).map fun index => code.modify index (Instr.sent exit next)

/-- The first transition without a target gets one, and what stands around it stays. -/
theorem exists_of_resolveFirst? {exit next : Label} {code code' : List Instr}
    (h : resolveFirst? exit next code = some code') :
    ∃ before kind after, (∀ i ∈ before, i.isUnresolved = false) ∧
      code = before ++ .transition kind none :: after ∧
      code' = before ++ .transition kind (some (Transition.target kind exit next)) :: after := by
  obtain ⟨index, hindex, rfl⟩ := Option.map_eq_some_iff.1 h
  obtain ⟨hlt, hfound, hbefore⟩ := List.findIdx?_eq_some_iff_getElem.1 hindex
  obtain ⟨kind, hkind⟩ := Instr.isUnresolved_iff.1 hfound
  refine ⟨code.take index, kind, code.drop (index + 1), fun i hi => ?_, ?_, ?_⟩
  · obtain ⟨j, hj, rfl⟩ := List.mem_take_iff_getElem.1 hi
    exact Bool.eq_false_iff.2 (hbefore j (by omega))
  · rw [← hkind, ← List.drop_eq_getElem_cons hlt, List.take_append_drop]
  · rw [List.modify_eq_take_cons_drop hlt, hkind]
    rfl

/-- Afterwards one transition fewer is without a target. -/
theorem countP_resolveFirst? {exit next : Label} {code code' : List Instr}
    (h : resolveFirst? exit next code = some code') :
    code.countP Instr.isUnresolved = code'.countP Instr.isUnresolved + 1 := by
  obtain ⟨before, kind, after, -, rfl, rfl⟩ := exists_of_resolveFirst? h
  rw [List.countP_append, List.countP_append, List.countP_cons_of_pos rfl,
    List.countP_cons_of_neg Bool.false_ne_true]
  rfl

theorem resolveFirst?_lt {exit next : Label} {code code' : List Instr}
    (h : resolveFirst? exit next code = some code') :
    code'.countP Instr.isUnresolved < code.countP Instr.isUnresolved :=
  Nat.lt_of_lt_of_eq (Nat.lt_succ_self _) (countP_resolveFirst? h).symm

/-- Gives every transition without a target the exit of the loop or its next test, always the first
one that is left, and counts them. -/
def resolveTransitions (exit next : Label) (code : List Instr) : List Instr × Nat :=
  match _h : resolveFirst? exit next code with
  | none => (code, 0)
  | some code' =>
    let (done, n) := resolveTransitions exit next code'
    (done, n + 1)
termination_by code.countP Instr.isUnresolved
decreasing_by exact resolveFirst?_lt _h

/-- Drops what lies between a transition with a target and the next label. The flag tells whether
such a transition has come last. -/
def dropDead (skipping : Bool) : List Instr → List Instr
  | [] => []
  | .label l :: code => .label l :: dropDead false code
  | .transition kind (some target) :: code =>
    if skipping then dropDead true code
    else .transition kind (some target) :: dropDead true code
  | i :: code => if skipping then dropDead true code else i :: dropDead false code

/-- Drops dead code from an index on, and counts the dropped instructions. -/
def eliminateDeadCode (code : List Instr) (start : Nat) : List Instr × Nat :=
  let kept := code.take start ++ dropDead false (code.drop start)
  (kept, code.length - kept.length)

end MiniPascal.Ir
