import MiniPascal.Proofs.Ir.Typing

/-! Programs that are closed under names. -/

namespace MiniPascal.Ir

/-- What a call of a function has to agree with. -/
structure Header where
  name : String
  returns : Ty
  parameters : List Ty

/-- The header of a function. -/
def Function.header (f : Function) : Header := ⟨f.name, f.returns, f.parameters.map Prod.snd⟩

namespace Instr

/-- The header that a call asks for, unless the number of its arguments varies. -/
def callee? : Instr → Option Header
  | .call _ returns target none args => some ⟨target, returns, args.map Prod.fst⟩
  | _ => none

/-- The external that a call with a variable number of arguments asks for. -/
def external? : Instr → Option External
  | .call _ returns target (some fixed) _ => some ⟨target, returns, fixed, true⟩
  | _ => none

end Instr

/-- All names are different, and all that is used is there. -/
structure Program.Linked (ir : Program) : Prop where
  functions : (ir.functions.map Function.name).Nodup
  globals : (ir.globals.map Global.name).Nodup
  callees : ∀ f ∈ ir.functions, ∀ i ∈ f.body, ∀ h ∈ i.callee?, h ∈ ir.functions.map Function.header
  externals : ∀ f ∈ ir.functions, ∀ i ∈ f.body, ∀ e ∈ i.external?, e ∈ ir.externals
  operands : ∀ f ∈ ir.functions, ∀ i ∈ f.body, ∀ x, .global x ∈ i.operands →
    x ∈ ir.globals.map Global.name

section

variable {G : List Global} {returns t : Ty} {env : Env} {x : String}

theorem Operand.HasValue.global_mem {v : Operand} (h : v.HasValue G env t) (hv : v = .global x) :
    x ∈ G.map Global.name := by
  subst hv
  cases h with | text h => exact List.mem_map.2 ⟨_, h, rfl⟩

theorem Operand.Points.global_mem {v : Operand} (h : v.Points G env t) (hv : v = .global x) :
    x ∈ G.map Global.name := by
  subst hv
  cases h with | global h => exact List.mem_map.2 ⟨_, h, rfl⟩

/-- Instructions that fit use globals that are there. -/
theorem Instr.Fits.global_mem {i : Instr} (h : i.Fits G returns env)
    (hx : .global x ∈ i.operands) : x ∈ G.map Global.name := by
  cases i with
  | alloca | label | jump | transition => cases hx
  | load => exact Operand.Points.global_mem h (List.mem_singleton.1 hx).symm
  | store =>
    rcases List.mem_cons.1 hx with hx | hx
    · exact h.1.global_mem hx.symm
    · exact h.2.global_mem (List.mem_singleton.1 hx).symm
  | binary | compare =>
    rcases List.mem_cons.1 hx with hx | hx
    · exact h.2.1.global_mem hx.symm
    · exact h.2.2.global_mem (List.mem_singleton.1 hx).symm
  | negate | jumpIf => exact Operand.HasValue.global_mem h (List.mem_singleton.1 hx).symm
  | cast => exact h.2.global_mem (List.mem_singleton.1 hx).symm
  | element =>
    rcases List.mem_cons.1 hx with hx | hx
    · exact h.1.global_mem hx.symm
    · exact (h.2.1 _ hx).global_mem rfl
  | call =>
    obtain ⟨a, ha, hax⟩ := List.mem_map.1 hx
    exact (h a ha).global_mem hax
  | ret value =>
    cases value with
    | none => cases hx
    | some a => exact h.2.global_mem (List.mem_singleton.1 hx).symm

end

end MiniPascal.Ir
