import MiniPascal.Proofs.Ir.Patch

/-! Code with its labels shifted and its globals under other names. -/

namespace MiniPascal.Ir

variable (k : Nat) (ρ : String → String)

/-- An operand with its global under another name. -/
def Operand.renamed : Operand → Operand
  | .global x => .global (ρ x)
  | v => v

/-- An argument with its global under another name. -/
def renamedArgument (v : Ty × Operand) : Ty × Operand := (v.1, v.2.renamed ρ)

/-- An instruction with its labels shifted and its globals under other names. -/
def Instr.renamed : Instr → Instr
  | .alloca slot t => .alloca slot t
  | .load output t slot => .load output t (slot.renamed ρ)
  | .store t value slot => .store t (value.renamed ρ) (slot.renamed ρ)
  | .binary output op t lhs rhs => .binary output op t (lhs.renamed ρ) (rhs.renamed ρ)
  | .compare output predicate t lhs rhs =>
    .compare output predicate t (lhs.renamed ρ) (rhs.renamed ρ)
  | .negate output value => .negate output (value.renamed ρ)
  | .cast output op source value target => .cast output op source (value.renamed ρ) target
  | .element output aggregate base indices =>
    .element output aggregate (base.renamed ρ) (indices.map (Operand.renamed ρ))
  | .call output returns target variadic arguments =>
    .call output returns target variadic (arguments.map (renamedArgument ρ))
  | .label l => .label (l + k)
  | .jump l => .jump (l + k)
  | .jumpIf condition yes no => .jumpIf (condition.renamed ρ) (yes + k) (no + k)
  | .transition kind target => .transition kind (target.map (· + k))
  | .ret value => .ret (value.map (renamedArgument ρ))

/-- A function with the labels of its body shifted and the globals under other names. -/
def Function.renamed (f : Function) : Function := { f with body := f.body.map (Instr.renamed k ρ) }

/-- The globals that hold texts have other names in another program and the same contents; literals
stay apart from formats, and no other name changes. -/
structure Relocates (ρ : String → String) (p q : Program) : Prop where
  contents : ∀ x bytes, .text x bytes ∈ p.globals → .text (ρ x) bytes ∈ q.globals
  literal : ∀ (m : Nat) bytes, .text (".str." ++ toString m) bytes ∈ p.globals →
    ∃ n : Nat, ρ (".str." ++ toString m) = ".str." ++ toString n
  format : ∀ (m : Nat) bytes, .text (".fmt." ++ toString m) bytes ∈ p.globals →
    ∃ n : Nat, ρ (".fmt." ++ toString m) = ".fmt." ++ toString n
  inj : ∀ x y, (∃ bytes, .text x bytes ∈ p.globals) → (∃ bytes, .text y bytes ∈ p.globals) →
    ρ x = ρ y → x = y
  rest : ∀ x, (∀ bytes, .text x bytes ∉ p.globals) → ρ x = x

variable {k ρ}

@[simp] theorem Operand.renamed_local (x : String) : (Operand.local x).renamed ρ = .local x := rfl

@[simp] theorem Operand.renamed_int (n : Int64) : (Operand.int n).renamed ρ = .int n := rfl

@[simp] theorem Operand.renamed_bool (b : Bool) : (Operand.bool b).renamed ρ = .bool b := rfl

theorem Instr.renamed_resolved (exit next : Label) (i : Instr) :
    (i.resolved exit next).renamed k ρ = (i.renamed k ρ).resolved (exit + k) (next + k) := by
  cases i with
  | transition kind target => cases target <;> cases kind <;> rfl
  | _ => rfl

theorem resolveTransitions_renamed (exit next : Label) (c : List Instr) :
    (resolveTransitions (exit + k) (next + k) (c.map (Instr.renamed k ρ))).1 =
      (resolveTransitions exit next c).1.map (Instr.renamed k ρ) := by
  rw [resolveTransitions_eq, resolveTransitions_eq, List.map_map, List.map_map]
  exact List.map_congr_left fun i _ => (i.renamed_resolved exit next).symm

theorem Instr.left_renamed (b : Bool) (i : Instr) :
    (i.renamed k ρ).left b = (i.left b).map (renamed k ρ) := by
  cases i <;> cases b <;> rfl

theorem Instr.skips_renamed (b : Bool) (i : Instr) : (i.renamed k ρ).skips b = i.skips b := by
  cases i with
  | transition kind target => cases target <;> rfl
  | _ => rfl

theorem dropDead_renamed (b : Bool) (c : List Instr) :
    dropDead b (c.map (Instr.renamed k ρ)) = (dropDead b c).map (Instr.renamed k ρ) := by
  induction c generalizing b with
  | nil => rfl
  | cons i c ih =>
    rw [List.map_cons, dropDead_cons, dropDead_cons, i.left_renamed, i.skips_renamed, ih,
      List.map_append]

theorem eliminateDeadCode_renamed (c : List Instr) (start : Nat) :
    (eliminateDeadCode (c.map (Instr.renamed k ρ)) start).1 =
      (eliminateDeadCode c start).1.map (Instr.renamed k ρ) := by
  simp only [eliminateDeadCode, List.map_append, List.map_take, ← List.map_drop, dropDead_renamed]

end MiniPascal.Ir
