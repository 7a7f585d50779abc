import Mathlib.Data.List.Induction
import MiniPascal.Proofs.Ir.Patch

/-! Code is typed from left to right: an instruction may use what the function starts with and what
has been defined since the last label. -/

namespace MiniPascal.Ir

/-- What a name stands for. -/
inductive Kind where
  | value (type : Ty)
  /-- The address of a place for values of the type. -/
  | address (type : Ty)

/-- What names stand for. -/
abbrev Env := String → Kind → Prop

/-- The part of an aggregate that some indices lead to: an element has any index, and a field the
number of its place. -/
inductive Ty.PartOf : Ty → List Operand → Ty → Prop
  | whole {t} : PartOf t [] t
  | element {n t u i is} (h : PartOf t is u) : PartOf (.array n t) (i :: is) u
  | field {ts t u k is} (hk : ts[k]? = some t) (h : PartOf t is u) :
    PartOf (.struct ts) (.int (Int64.ofNat k) :: is) u

/-- What an instruction defines its output as. -/
inductive Instr.Defines : Instr → String → Kind → Prop
  | alloca {x t} : Defines (.alloca x t) x (.address t)
  | load {x t slot} : Defines (.load x t slot) x (.value t)
  | binary {x op t lhs rhs} : Defines (.binary x op t lhs rhs) x (.value t)
  | compare {x p t lhs rhs} : Defines (.compare x p t lhs rhs) x (.value .i1)
  | negate {x v} : Defines (.negate x v) x (.value .double)
  | cast {x op s v t} : Defines (.cast x op s v t) x (.value t)
  | element {x t base i is u} (h : t.PartOf is u) :
    Defines (.element x t base (i :: is)) x (.address u)
  | call {x t f fixed args} : Defines (.call (some x) t f fixed args) x (.value t)

/-- The operands that are values of a type. Integer literals are of 32 bits, and a text is known by
its address. -/
inductive Operand.HasValue (G : List Global) (env : Env) : Operand → Ty → Prop
  | local {x t} (h : env x (.value t)) : HasValue G env (.local x) t
  | text {x bytes} (h : .text x bytes ∈ G) : HasValue G env (.global x) .ptr
  | int {v} : HasValue G env (.int v) .i32
  | double {x} : HasValue G env (.double x) .double
  | widened {v} : HasValue G env (.widened v) .double
  | bool {b} : HasValue G env (.bool b) .i1

/-- The operands that are addresses of places for values of a type. -/
inductive Operand.Points (G : List Global) (env : Env) : Operand → Ty → Prop
  | local {x t} (h : env x (.address t)) : Points G env (.local x) t
  | global {x t} (h : .variable x t ∈ G) : Points G env (.global x) t

/-- The types that an operation works on. -/
def Opcode.Accepts : Opcode → Ty → Prop
  | .add, t | .sub, t | .mul, t | .sdiv, t | .srem, t => t = .i32
  | .fadd, t | .fsub, t | .fmul, t | .fdiv, t => t = .double
  | .and, t | .or, t | .xor, t => t = .i1 ∨ t = .i32

/-- The types that a predicate compares. -/
def Predicate.Accepts : Predicate → Ty → Prop
  | .eq, t | .ne, t => t = .i1 ∨ t = .i32
  | .slt, t | .sle, t | .sgt, t | .sge, t => t = .i32
  | .oeq, t | .one, t | .olt, t | .ole, t | .ogt, t | .oge, t => t = .double

/-- The types that a conversion leads from and to. -/
def Cast.Accepts : Cast → Ty → Ty → Prop
  | .sitofp, s, t => s = .i32 ∧ t = .double
  | .zext, s, t => s = .i1 ∧ t = .i32

/-- The instruction fits what its operands stand for, in a function that returns values of the
type. -/
def Instr.Fits (G : List Global) (returns : Ty) (env : Env) : Instr → Prop
  | .alloca .. | .label _ | .jump _ | .transition .. => True
  | .load _ t slot => slot.Points G env t
  | .store t v slot => v.HasValue G env t ∧ slot.Points G env t
  | .binary _ op t lhs rhs => op.Accepts t ∧ lhs.HasValue G env t ∧ rhs.HasValue G env t
  | .compare _ p t lhs rhs => p.Accepts t ∧ lhs.HasValue G env t ∧ rhs.HasValue G env t
  | .negate _ v => v.HasValue G env .double
  | .cast _ op s v t => op.Accepts s t ∧ v.HasValue G env s
  | .element _ t base indices => base.Points G env t ∧ (∀ i ∈ indices, i.HasValue G env .i32) ∧
    ∃ u, t.PartOf indices.tail u
  | .call _ _ _ _ args => ∀ a ∈ args, a.2.HasValue G env a.1
  | .jumpIf c _ _ => c.HasValue G env .i1
  | .ret none => returns = .void
  | .ret (some (t, v)) => t = returns ∧ v.HasValue G env t

/-- The operands of an instruction. -/
def Instr.operands : Instr → List Operand
  | .alloca .. | .label _ | .jump _ | .transition .. | .ret none => []
  | .load _ _ slot => [slot]
  | .store _ v slot => [v, slot]
  | .binary _ _ _ lhs rhs | .compare _ _ _ lhs rhs => [lhs, rhs]
  | .negate _ v | .cast _ _ _ v _ | .jumpIf v _ _ | .ret (some (_, v)) => [v]
  | .element _ _ base indices => base :: indices
  | .call _ _ _ _ args => args.map Prod.snd

/-- The name that an instruction defines. -/
def Instr.output : Instr → Option String
  | .alloca x _ | .load x _ _ | .binary x _ _ _ _ | .compare x _ _ _ _ | .negate x _
  | .cast x _ _ _ _ | .element x _ _ _ => some x
  | .call x _ _ _ _ => x
  | .store .. | .label _ | .jump _ | .jumpIf .. | .transition .. | .ret _ => none

/-- The names that some code defines, in order. -/
def outputs (c : List Instr) : List String := c.filterMap Instr.output

@[simp] theorem outputs_append (c d : List Instr) : outputs (c ++ d) = outputs c ++ outputs d :=
  List.filterMap_append

@[simp] theorem outputs_nil : outputs [] = [] := rfl

@[simp] theorem outputs_cons (i : Instr) (c : List Instr) :
    outputs (i :: c) = i.output.toList ++ outputs c := by
  rw [outputs, List.filterMap_cons]
  cases i.output <;> rfl

theorem Instr.Defines.output_eq {i : Instr} {x : String} {k : Kind} (h : i.Defines x k) :
    i.output = some x := by
  cases h <;> rfl

/-- What one environment has, another has too. -/
def Env.Le (env env' : Env) : Prop := ∀ x k, env x k → env' x k

/-- What is in one environment or in another. -/
def Env.or (env env' : Env) : Env := fun x k => env x k ∨ env' x k

/-- No names. -/
def Env.none : Env := fun _ _ => False

namespace Env

variable {base env env' : Env}

theorem le_refl (env : Env) : env.Le env := fun _ _ h => h

theorem none_le (env : Env) : none.Le env := fun _ _ h => h.elim

theorem or_mono (h : env.Le env') : (base.or env).Le (base.or env') :=
  fun x k => Or.imp_right (h x k)

end Env

section

variable {G : List Global} {returns : Ty} {base env env' : Env}

theorem Operand.HasValue.mono (h : env.Le env') {v : Operand} {t : Ty} (hv : v.HasValue G env t) :
    v.HasValue G env' t := by
  cases hv with
  | «local» hx => exact .local (h _ _ hx)
  | text hx => exact .text hx
  | int => exact .int
  | double => exact .double
  | widened => exact .widened
  | bool => exact .bool

theorem Operand.Points.mono (h : env.Le env') {v : Operand} {t : Ty} (hv : v.Points G env t) :
    v.Points G env' t := by
  cases hv with
  | «local» hx => exact .local (h _ _ hx)
  | global hx => exact .global hx

theorem Instr.Fits.mono (h : env.Le env') {i : Instr} (hi : i.Fits G returns env) :
    i.Fits G returns env' := by
  cases i with
  | alloca | label | jump | transition => trivial
  | load => exact Operand.Points.mono h hi
  | store => exact ⟨hi.1.mono h, hi.2.mono h⟩
  | binary | compare => exact ⟨hi.1, hi.2.1.mono h, hi.2.2.mono h⟩
  | negate | jumpIf => exact Operand.HasValue.mono h hi
  | cast => exact ⟨hi.1, hi.2.mono h⟩
  | element => exact ⟨hi.1.mono h, fun i hm => (hi.2.1 i hm).mono h, hi.2.2⟩
  | call => exact fun a ha => (hi a ha).mono h
  | ret v =>
    cases v with
    | none => exact hi
    | some v => exact ⟨hi.1, hi.2.mono h⟩

theorem Operand.HasValue.exists_kind {x : String} {t : Ty}
    (h : (Operand.local x).HasValue G env t) : ∃ k, env x k := by
  cases h with
  | «local» h => exact ⟨_, h⟩

theorem Operand.Points.exists_kind {x : String} {t : Ty}
    (h : (Operand.local x).Points G env t) : ∃ k, env x k := by
  cases h with
  | «local» h => exact ⟨_, h⟩

/-- The names that a fitting instruction uses stand for something. -/
theorem Instr.Fits.exists_kind {i : Instr} (hi : i.Fits G returns env) {x : String}
    (hx : .local x ∈ i.operands) : ∃ k, env x k := by
  cases i with
  | alloca | label | jump | transition => cases hx
  | load =>
    cases List.mem_singleton.1 hx
    exact Operand.Points.exists_kind hi
  | negate | jumpIf =>
    cases List.mem_singleton.1 hx
    exact Operand.HasValue.exists_kind hi
  | cast =>
    cases List.mem_singleton.1 hx
    exact hi.2.exists_kind
  | store t v slot =>
    simp only [operands, List.mem_cons, List.not_mem_nil, or_false] at hx
    rcases hx with rfl | rfl
    · exact hi.1.exists_kind
    · exact hi.2.exists_kind
  | binary | compare =>
    simp only [operands, List.mem_cons, List.not_mem_nil, or_false] at hx
    rcases hx with rfl | rfl
    · exact hi.2.1.exists_kind
    · exact hi.2.2.exists_kind
  | element =>
    rcases List.mem_cons.1 hx with rfl | hx
    · exact hi.1.exists_kind
    · exact (hi.2.1 _ hx).exists_kind
  | call =>
    obtain ⟨a, ha, hx⟩ := List.mem_map.1 hx
    have := hi a ha
    rw [hx] at this
    exact this.exists_kind
  | ret v =>
    cases v with
    | none => cases hx
    | some v =>
      have := hi.2
      rw [← List.mem_singleton.1 hx] at this
      exact this.exists_kind

/-- What has been defined since the last label, behind an instruction. -/
def Env.after (env : Env) (i : Instr) : Env :=
  fun x k => (∀ l, i ≠ .label l) ∧ (env x k ∨ i.Defines x k)

/-- What has been defined since the last label, behind some code. -/
def Env.afterAll (env : Env) (c : List Instr) : Env := c.foldl Env.after env

/-- Every instruction fits what the function starts with and what has been defined since the last
label. -/
def Typed (G : List Global) (returns : Ty) (base : Env) : Env → List Instr → Prop
  | _, [] => True
  | env, i :: c => i.Fits G returns (base.or env) ∧ Typed G returns base (env.after i) c

namespace Env

theorem after_mono (h : env.Le env') (i : Instr) : (env.after i).Le (env'.after i) :=
  fun x k => And.imp_right (Or.imp_left (h x k))

theorem afterAll_append (env : Env) (c d : List Instr) :
    env.afterAll (c ++ d) = (env.afterAll c).afterAll d := List.foldl_append

theorem le_after (env : Env) {i : Instr} (hi : i.isPlain = true) : env.Le (env.after i) := by
  intro x k h
  refine ⟨fun l hl => ?_, .inl h⟩
  rw [hl] at hi
  cases hi

theorem le_afterAll (env : Env) {c : List Instr} (hc : ∀ i ∈ c, i.isPlain = true) :
    env.Le (env.afterAll c) := by
  induction c generalizing env with
  | nil => exact env.le_refl
  | cons i c ih =>
    obtain ⟨hi, hc⟩ := List.forall_mem_cons.1 hc
    exact fun x k h => ih (env.after i) hc x k (env.le_after hi x k h)

theorem afterAll_snoc (env : Env) (c : List Instr) {i : Instr} (hi : i.isPlain = true) {x : String}
    {k : Kind} (h : i.Defines x k) : env.afterAll (c ++ [i]) x k := by
  rw [afterAll_append]
  refine ⟨fun l hl => ?_, .inr h⟩
  rw [hl] at hi
  cases hi

end Env

namespace Typed

variable {c d : List Instr}

theorem append_iff : Typed G returns base env (c ++ d) ↔
    Typed G returns base env c ∧ Typed G returns base (env.afterAll c) d := by
  induction c generalizing env with
  | nil => exact (true_and _).symm ▸ Iff.rfl
  | cons i c ih =>
    simp only [List.cons_append, Typed, ih, and_assoc]
    exact Iff.rfl

theorem mono (h : Typed G returns base env c) (hle : env.Le env') :
    Typed G returns base env' c := by
  induction c generalizing env env' with
  | nil => trivial
  | cons i c ih => exact ⟨h.1.mono (Env.or_mono hle), ih h.2 (Env.after_mono hle i)⟩

/-- Dropping dead code keeps types: what is left behind a gap starts with a label. -/
theorem dropDead (h : Typed G returns base env c) (b : Bool) (hb : b = false → env.Le env') :
    Typed G returns base env' (Ir.dropDead b c) := by
  induction c generalizing env env' b with
  | nil => trivial
  | cons i c ih =>
    rw [dropDead_cons]
    by_cases hl : ∃ l, i = .label l
    · obtain ⟨l, rfl⟩ := hl
      refine ⟨trivial, ih h.2 false fun _ x k hx => ?_⟩
      exact absurd rfl (hx.1 l)
    · have hleft : i.left b = if b then [] else [i] := by
        cases i with
        | label l => exact absurd ⟨l, rfl⟩ hl
        | _ => rfl
      rw [hleft]
      cases b with
      | false =>
        have hle := hb rfl
        exact ⟨h.1.mono (Env.or_mono hle), ih h.2 _ fun _ => Env.after_mono hle i⟩
      | true =>
        refine ih h.2 _ fun hs => ?_
        cases i with
        | label l => exact absurd ⟨l, rfl⟩ hl
        | transition _ target => cases target <;> cases hs
        | _ => cases hs

/-- In a larger environment of all definitions, every instruction fits. -/
theorem fits {D : Env} (h : Typed G returns base env c) (hbase : base.Le D) (henv : env.Le D)
    (hc : ∀ i ∈ c, ∀ x k, i.Defines x k → D x k) : ∀ i ∈ c, i.Fits G returns D := by
  induction c generalizing env with
  | nil => exact List.forall_mem_nil _
  | cons i c ih =>
    obtain ⟨hi, hc⟩ := List.forall_mem_cons.1 hc
    refine List.forall_mem_cons.2 ⟨h.1.mono fun x k hx => hx.elim (hbase x k) (henv x k), ?_⟩
    exact ih h.2 (fun x k hx => hx.2.elim (henv x k) (hi x k)) hc

end Typed

/-- A name that is known behind some code has been known before and no label follows, or has been
defined behind the last label. -/
theorem Env.afterAll_cases {c : List Instr} {x : String} {k : Kind} (h : env.afterAll c x k) :
    env x k ∨ ∃ pre i post, c = pre ++ i :: post ∧ i.Defines x k ∧ ∀ l, .label l ∉ post := by
  induction c using List.reverseRecOn generalizing k with
  | nil => exact .inl h
  | append_singleton c j ih =>
    rw [afterAll_append] at h
    obtain ⟨hl, h | h⟩ := h
    · refine (ih h).imp_right fun ⟨pre, i, post, hc, hi, hpost⟩ => ?_
      refine ⟨pre, i, post ++ [j], by rw [hc]; simp, hi, fun l hm => ?_⟩
      rcases List.mem_append.1 hm with hm | hm
      · exact hpost l hm
      · exact hl l (List.mem_singleton.1 hm).symm
    · exact .inr ⟨c, j, [], rfl, h, fun l => List.not_mem_nil⟩

/-- A name that an instruction of typed code uses is one of those the function starts with, or an
earlier instruction has defined it with no label between the two. -/
theorem Typed.used {c pre post : List Instr} {i : Instr} {x : String}
    (h : Typed G returns base .none c) (hc : c = pre ++ i :: post) (hx : .local x ∈ i.operands) :
    (∃ k, base x k) ∨ ∃ k pre' j mid, pre = pre' ++ j :: mid ∧ j.Defines x k ∧
      ∀ l, .label l ∉ mid := by
  rw [hc] at h
  obtain ⟨k, hk | hk⟩ := (append_iff.1 h).2.1.exists_kind hx
  · exact .inl ⟨k, hk⟩
  · rcases Env.afterAll_cases hk with hk | ⟨pre', j, mid, hpre, hj, hmid⟩
    · exact hk.elim
    · exact .inr ⟨k, pre', j, mid, hpre, hj, hmid⟩

end

/-! ### Functions -/

/-- What the names of a function stand for: those of its parameters and those that its instructions
define. -/
def Function.Defines (f : Function) : Env :=
  fun x k => (∃ t, (x, t) ∈ f.parameters ∧ k = .value t) ∨ ∃ i ∈ f.body, i.Defines x k

/-- The names of a function: those of its parameters and those that its instructions define. -/
def Function.names (f : Function) : List String := f.parameters.map Prod.fst ++ outputs f.body

/-- Each name of a function is defined once, its slots come first, and an instruction uses only
parameters, slots and what has been defined before it with no label between the two. -/
structure Function.SingleAssignment (f : Function) : Prop where
  nodup : f.names.Nodup
  slots : ∃ slots code, f.body = slots ++ code ∧ (∀ i ∈ slots, ∃ x t, i = .alloca x t) ∧
    ∀ x t, .alloca x t ∉ code
  used : ∀ pre i post, f.body = pre ++ i :: post → ∀ x, .local x ∈ i.operands →
    x ∈ f.parameters.map Prod.fst ∨ (∃ t, .alloca x t ∈ f.body) ∨
    ∃ pre' j mid, pre = pre' ++ j :: mid ∧ j.output = some x ∧ ∀ l, .label l ∉ mid

/-- Each name of a global and each name of a function stands for one thing, and every instruction
fits what its operands stand for. -/
structure Program.WellTyped (p : Program) : Prop where
  globals : ∀ x ∈ p.globals, ∀ y ∈ p.globals, x.name = y.name → x = y
  names : ∀ f ∈ p.functions, f.names.Nodup
  fits : ∀ f ∈ p.functions, ∀ i ∈ f.body, i.Fits p.globals f.returns f.Defines

end MiniPascal.Ir
