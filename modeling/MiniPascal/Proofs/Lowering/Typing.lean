import MiniPascal.Proofs.Ir.Typing
import MiniPascal.Proofs.Lowering.Function

namespace MiniPascal

namespace Lowering

open Ir (Env Kind Typed)

/-- The globals and the names that a function starts with hold the variables of a context. -/
structure Covers (G : List Ir.Global) (base : Env) (Γ : Context) : Prop where
  global : ∀ n t, Γ.var .global n t → .variable (globalName n) (machineType t) ∈ G
  routine : ∀ n t, Γ.var .routine n t → base (slotName n) (.address (machineType t))

/-- The types of a binary operation that obeys the rules: both operands can be had in one scalar
type, which the instruction works on. -/
structure OperandsFit (op : BinOp) (l r : Ty) (s u : Scalar) : Prop where
  type_eq : operandType op l r (.scalar s) = .scalar u
  left : Typing.assignable (.scalar u) l = true
  right : Typing.assignable (.scalar u) r = true
  result : match operationOf op (isDouble (.scalar u)) with
    | .arithmetic o => o.Accepts (machineType (.scalar u)) ∧ u = s
    | .comparison p => p.Accepts (machineType (.scalar u)) ∧ s = .boolean

theorem scalars_of_result {op : BinOp} {l r : Ty} {s : Scalar} (h : op.result? l r = some s) :
    (∃ a, l = .scalar a) ∧ ∃ b, r = .scalar b := by
  rcases l with a | _ | _ <;> rcases r with b | _ | _ <;> cases op <;>
    simp [BinOp.result?, Ty.scalar?, Ty.isNumeric] at h ⊢

theorem operands_fit {op : BinOp} {l r : Ty} {s : Scalar} (h : op.result? l r = some s) :
    ∃ u, OperandsFit op l r s u := by
  obtain ⟨⟨a, rfl⟩, b, rfl⟩ := scalars_of_result h
  cases op <;> cases a <;> cases b <;> cases h
  all_goals
    exact ⟨_, rfl, rfl, rfl, by simp [operationOf, isDouble, Ty.scalar?, machineType,
      Ir.Opcode.Accepts, Ir.Predicate.Accepts]⟩

theorem operands_of_checked {Γ : Context} {p : Position} {t : Ty} {op : BinOp} {l r : Expr}
    (h : (Expr.binary p t op l r).Checked Γ) : l.Checked Γ ∧ r.Checked Γ ∧
      ∃ s u, t = .scalar s ∧ OperandsFit op l.type r.type s u := by
  cases h with
  | binary hl hr ht =>
    obtain ⟨u, hu⟩ := operands_fit ht
    exact ⟨hl, hr, _, u, rfl, hu⟩

/-- The operand of a sign obeys the rules, or is the literal of the least integer's negation. -/
theorem operand_of_checked {Γ : Context} {p : Position} {t : Ty} {op : UnaryOp} {e : Expr}
    (h : (Expr.unary p t op e).Checked Γ) :
    t = e.type ∧ (e.Checked Γ ∨ ∃ q v, e = .int q v) := by
  cases h with
  | negative hv => exact ⟨rfl, .inr ⟨_, _, rfl⟩⟩
  | unary he ht => exact ⟨rfl, .inl he⟩

theorem eq_double_of_isDouble {t : Ty} (h : isDouble t = true) : t = .double := by
  rcases t with (_ | _ | _) | _ | _ <;> first | rfl | cases h

/-- A value that is stored without a conversion has the machine type of its place. -/
theorem machineType_of_assignable {t u : Ty} (h : Typing.assignable t u = true)
    (hc : (isDouble t && u.isInteger) = false) : machineType u = machineType t := by
  rcases t with a | _ | _ <;> rcases u with b | _ | _ <;>
    simp only [Typing.assignable, Ty.scalar?, Ty.sameShape] at h <;> try cases h
  · cases a <;> cases b <;> simp [isDouble, Ty.scalar?, Ty.isInteger] at h hc ⊢
  · exact (machineType_eq (by rwa [Ty.sameShape])).symm
  · exact (machineType_eq (by rwa [Ty.sameShape])).symm

theorem machineTypes_eq_map (fields : List (Name × Ty)) :
    machineTypes fields = fields.map fun f => machineType f.2 := by
  induction fields with
  | nil => rfl
  | cons f fields ih => rw [machineTypes, ih, List.map_cons]

theorem machineTypes_findField {n : Name} {fields : List (Name × Ty)} {slot : Nat} {t : Ty}
    (h : Ty.findField n fields = some (slot, t)) :
    (machineTypes fields)[slot]? = some (machineType t) := by
  obtain ⟨m, hget, -⟩ := Ty.findField_getElem h
  rw [machineTypes_eq_map, List.getElem?_map, hget, Option.map_some]

section

variable {G : List Ir.Global} {returns : Ir.Ty} {base : Env} {Γ : Context}

theorem applied_plain (output : String) (op : BinOp) (t : Ty) (v w : Ir.Operand) :
    (applied output op t v w).isPlain = true := by
  unfold applied
  split <;> rfl

/-- The instruction of an operator fits its operands and defines a value of the result's type. -/
theorem applied_fits {op : BinOp} {l r : Ty} {s u : Scalar} (h : OperandsFit op l r s u)
    {env : Env} {v w : Ir.Operand} (hv : v.HasValue G env (machineType (.scalar u)))
    (hw : w.HasValue G env (machineType (.scalar u))) (output : String) :
    (applied output op (.scalar u) v w).Fits G returns env ∧
      (applied output op (.scalar u) v w).Defines output (.value (machineType (.scalar s))) := by
  have hresult := h.result
  split at hresult
  · rename_i o ho
    obtain ⟨ha, rfl⟩ := hresult
    rw [applied_arithmetic ho]
    exact ⟨⟨ha, hv, hw⟩, .binary⟩
  · rename_i p hp
    obtain ⟨ha, rfl⟩ := hresult
    rw [applied_comparison hp]
    exact ⟨⟨ha, hv, hw⟩, .compare⟩

/-- Plain code with one more instruction that fits and defines its output. -/
theorem typed_snoc {env : Env} {c : List Ir.Instr} {i : Ir.Instr} {x : String} {k : Kind}
    (hc : Typed G returns base env c) (hi : i.Fits G returns (base.or (env.afterAll c)))
    (hp : i.isPlain = true) (hk : i.Defines x k) :
    Typed G returns base env (c ++ [i]) ∧ (base.or (env.afterAll (c ++ [i]))) x k :=
  ⟨Typed.append_iff.2 ⟨hc, hi, trivial⟩, .inr (env.afterAll_snoc c hp hk)⟩

/-- What is known behind some code is known behind more plain code too. -/
theorem known_append (env : Env) (c : List Ir.Instr) {d : List Ir.Instr}
    (hd : ∀ i ∈ d, i.isPlain = true) :
    (base.or (env.afterAll c)).Le (base.or (env.afterAll (c ++ d))) := by
  rw [Env.afterAll_append]
  exact Env.or_mono ((env.afterAll c).le_afterAll hd)

theorem partOf_element {a : Ty} {low high : Expr} {t : Ty} (h : a = .array low high t)
    (i : Ir.Operand) : (machineType a).PartOf [i] (machineType t) := by
  rw [h, machineType]
  exact .element .whole

theorem partOf_field {r : Ty} {fields : List (Name × Ty)} {n : Name} {slot : Nat} {t : Ty}
    (h : r = .record fields) (hf : Ty.findField n fields = some (slot, t)) :
    (machineType r).PartOf [.int (Int64.ofNat slot)] (machineType t) := by
  rw [h, machineType]
  exact .field (machineTypes_findField hf) .whole

/-- The code of a part of an aggregate. -/
theorem typed_part {env : Env} {c : List Ir.Instr} {slot index : Ir.Operand} {t u : Ir.Ty}
    (hc : Typed G returns base env c) (hs : slot.Points G (base.or (env.afterAll c)) t)
    (hi : index.HasValue G (base.or (env.afterAll c)) .i32) (hp : t.PartOf [index] u)
    (x : String) : Typed G returns base env (c ++ [.element x t slot [.int 0, index]]) ∧
      (Ir.Operand.local x).Points G
        (base.or (env.afterAll (c ++ [.element x t slot [.int 0, index]]))) u := by
  have hindices : ∀ i ∈ [.int 0, index], i.HasValue G (base.or (env.afterAll c)) .i32 := by
    simpa using ⟨.int, hi⟩
  obtain ⟨hc', hk⟩ := typed_snoc hc (show Ir.Instr.Fits _ _ _ (.element x t slot [.int 0, index])
    from ⟨hs, hindices, u, hp⟩) rfl (.element hp)
  exact ⟨hc', .local hk⟩

/-- Code for a value, followed by an instruction that computes another from it. -/
theorem typed_value {env : Env} {c : List Ir.Instr} {i : Ir.Instr} {x : String} {t : Ir.Ty}
    (hc : Typed G returns base env c) (hi : i.Fits G returns (base.or (env.afterAll c)))
    (hp : i.isPlain = true) (hk : i.Defines x (.value t)) :
    Typed G returns base env (c ++ [i]) ∧
      (Ir.Operand.local x).HasValue G (base.or (env.afterAll (c ++ [i]))) t :=
  (typed_snoc hc hi hp hk).imp_right .local

theorem literal_typed {q : Position} {n : UInt64} {e : Expr} {ν₁ ν₂ : Names} {v : Ir.Operand}
    {c : List Ir.Instr} (h : ValueCode e ν₁ v c ν₂) (he : e = .int q n) (env : Env) :
    Typed G returns base env c ∧
      v.HasValue G (base.or (env.afterAll c)) (machineType e.type) := by
  subst he
  cases h with
  | int => exact ⟨trivial, .int⟩
  | load hs => cases hs

/-- The operand of a unary operator is checked, or it is a literal that only its sign makes a number
of 32 bits. Its code is typed in both cases. -/
theorem typed_operand {p : Position} {t : Ty} {op : UnaryOp} {e : Expr} {ν₁ ν₂ : Names}
    {v : Ir.Operand} {c : List Ir.Instr} (he : (Expr.unary p t op e).Checked Γ)
    (h : ValueCode e ν₁ v c ν₂) (env : Env)
    (hc : e.Checked Γ → Typed G returns base env c ∧
      v.HasValue G (base.or (env.afterAll c)) (machineType e.type)) :
    t = e.type ∧ Typed G returns base env c ∧
      v.HasValue G (base.or (env.afterAll c)) (machineType e.type) := by
  obtain ⟨ht, he'⟩ := operand_of_checked he
  refine ⟨ht, ?_⟩
  rcases he' with he' | ⟨q, n, he'⟩
  · exact hc he'
  · exact literal_typed h he' env

mutual

theorem PlaceCode.typed (hΓ : Covers G base Γ) {e ν₁ slot c ν₂} (h : PlaceCode e ν₁ slot c ν₂)
    (he : e.Checked Γ) (env : Env) : Typed G returns base env c ∧
      slot.Points G (base.or (env.afterAll c)) (machineType e.type) := by
  match h with
  | .global => cases he with | var hn => exact ⟨trivial, .global (hΓ.global _ _ hn)⟩
  | .routine => cases he with | var hn => exact ⟨trivial, .local (.inl (hΓ.routine _ _ hn))⟩
  | @PlaceCode.index _ _ _ _ _ _ _ _ _ c₁ c₂ ha hi hl =>
    cases he with | index ha' hd ht hi' hit =>
    obtain ⟨hc₁, hbase⟩ := ha.typed hΓ ha' env
    obtain ⟨hc₂, hv⟩ := hi.typed hΓ hi' (env.afterAll c₁)
    rw [← Env.afterAll_append, hit, machineType] at hv
    have hbase := hbase.mono (known_append env c₁ hi.plain)
    exact typed_part (Typed.append_iff.2 ⟨hc₁, hc₂⟩) hbase hv (partOf_element ht _) _
  | @PlaceCode.rebased p _ a _ _ _ ν₃ _ v c₁ c₂ ha hi hl =>
    cases he with | index ha' hd ht hi' hit =>
    obtain ⟨hc₁, hbase⟩ := ha.typed hΓ ha' env
    obtain ⟨hc₂, hv⟩ := hi.typed hΓ hi' (env.afterAll c₁)
    rw [← Env.afterAll_append, hit, machineType] at hv
    have hbase := hbase.mono (known_append env c₁ hi.plain)
    -- the lower bound is taken off in an instruction of its own
    let rebase : Ir.Instr := .binary (fresh p ".idx" ν₃) .sub .i32 v (.int (lowBound a.type))
    obtain ⟨hc₃, hw⟩ := typed_value (Typed.append_iff.2 ⟨hc₁, hc₂⟩)
      (show Ir.Instr.Fits _ _ _ rebase from ⟨rfl, hv, .int⟩) rfl .binary
    have hplain : ∀ i ∈ [rebase], i.isPlain = true := by simp [rebase, Ir.Instr.isPlain]
    have hbase := hbase.mono (known_append env (c₁ ++ c₂) hplain)
    have := typed_part hc₃ hbase hw (partOf_element ht _) (fresh p ".ptr" (spend p ".idx" ν₃))
    rw [List.append_assoc (c₁ ++ c₂)] at this
    exact this
  | .field hr =>
    cases he with | field hr' hd ht hf =>
    obtain ⟨hc, hbase⟩ := hr.typed hΓ hr' env
    exact typed_part hc hbase .int (partOf_field ht hf) _
termination_by structural h

theorem ValueCode.typed (hΓ : Covers G base Γ) {e ν₁ v c ν₂} (h : ValueCode e ν₁ v c ν₂)
    (he : e.Checked Γ) (env : Env) : Typed G returns base env c ∧
      v.HasValue G (base.or (env.afterAll c)) (machineType e.type) := by
  match h with
  | .int => exact ⟨trivial, .int⟩
  | .double => exact ⟨trivial, .double⟩
  | .bool => exact ⟨trivial, .bool⟩
  | .load hs =>
    obtain ⟨hc, hp⟩ := hs.typed hΓ he env
    exact typed_value hc hp rfl .load
  | .plus hv =>
    obtain ⟨ht, hc, hv⟩ := typed_operand he hv env fun he' => hv.typed hΓ he' env
    rw [← ht] at hv
    exact ⟨hc, hv⟩
  | .negate hv het =>
    obtain ⟨ht, hc, hv⟩ := typed_operand he hv env fun he' => hv.typed hΓ he' env
    rw [het, machineType] at hv
    rw [Expr.type, ht, het, machineType]
    exact typed_value hc hv rfl .negate
  | .minus hv het =>
    obtain ⟨ht, hc, hv⟩ := typed_operand he hv env fun he' => hv.typed hΓ he' env
    rw [het, machineType] at hv
    rw [Expr.type, ht, het, machineType]
    exact typed_value hc ⟨rfl, .int, hv⟩ rfl .binary
  | .not hv het =>
    obtain ⟨ht, hc, hv⟩ := typed_operand he hv env fun he' => hv.typed hΓ he' env
    rw [het, machineType] at hv
    rw [Expr.type, ht, het, machineType]
    exact typed_value hc ⟨.inl rfl, hv, .bool⟩ rfl .binary
  | .complement hv het =>
    obtain ⟨ht, hc, hv⟩ := typed_operand he hv env fun he' => hv.typed hΓ he' env
    rw [het, machineType] at hv
    rw [Expr.type, ht, het, machineType]
    exact typed_value hc ⟨.inr rfl, hv, .int⟩ rfl .binary
  | @ValueCode.binary _ _ _ _ _ _ _ _ _ _ c₁ _ hl hr =>
    obtain ⟨hl', hr', s, u, ht, hu⟩ := operands_of_checked he
    obtain ⟨hc₁, hv⟩ := hl.typed hΓ hl' (by rw [ht, hu.type_eq]; exact hu.left) env
    obtain ⟨hc₂, hw⟩ := hr.typed hΓ hr' (by rw [ht, hu.type_eq]; exact hu.right)
      (env.afterAll c₁)
    rw [← Env.afterAll_append, ht, hu.type_eq] at hw
    rw [ht, hu.type_eq] at hv ⊢
    -- the code of the right operand defines new names, so the left one keeps its type
    have hv := hv.mono (known_append env c₁ hr.plain)
    obtain ⟨hfits, hdefines⟩ := applied_fits hu hv hw _
    exact typed_value (Typed.append_iff.2 ⟨hc₁, hc₂⟩) hfits (applied_plain _ _ _ _ _) hdefines
  | .call ha =>
    cases he with | call hs ha' hp =>
    obtain ⟨hc, hvs⟩ := ha.typed hΓ ha' hp env
    exact typed_value hc hvs rfl .call
termination_by structural h

theorem TypedCode.typed (hΓ : Covers G base Γ) {e t ν₁ v c ν₂} (h : TypedCode e t ν₁ v c ν₂)
    (he : e.Checked Γ) (ha : Typing.assignable t e.type = true) (env : Env) :
    Typed G returns base env c ∧ v.HasValue G (base.or (env.afterAll c)) (machineType t) := by
  match h with
  | .widened ht =>
    rw [eq_double_of_isDouble ht, machineType]
    exact ⟨trivial, .widened⟩
  | .cast ht het hv =>
    obtain ⟨hc, hv⟩ := hv.typed hΓ he env
    rw [het, machineType] at hv
    rw [eq_double_of_isDouble ht, machineType]
    exact typed_value hc ⟨⟨rfl, rfl⟩, hv⟩ rfl .cast
  | .same ht hv =>
    obtain ⟨hc, hv⟩ := hv.typed hΓ he env
    rw [machineType_of_assignable ha ht] at hv
    exact ⟨hc, hv⟩
termination_by structural h

theorem ArgsCode.typed (hΓ : Covers G base Γ) {es ts ν₁ vs c ν₂} (h : ArgsCode es ts ν₁ vs c ν₂)
    (hes : ∀ e ∈ es, e.Checked Γ) (hp : Passable es ts) (env : Env) :
    Typed G returns base env c ∧ ∀ a ∈ vs, a.2.HasValue G (base.or (env.afterAll c)) a.1 := by
  match h with
  | .nil => exact ⟨trivial, List.forall_mem_nil _⟩
  | @ArgsCode.cons _ _ _ _ _ _ _ _ _ c₁ _ he hes' =>
    obtain ⟨h₁, h₂⟩ := List.forall_mem_cons.1 hes
    cases hp with | cons hp₁ hp₂ =>
    obtain ⟨hc₁, hv⟩ := he.typed hΓ h₁ hp₁ env
    obtain ⟨hc₂, hvs⟩ := hes'.typed hΓ h₂ hp₂ (env.afterAll c₁)
    rw [← Env.afterAll_append] at hvs
    exact ⟨Typed.append_iff.2 ⟨hc₁, hc₂⟩, List.forall_mem_cons.2
      ⟨hv.mono (known_append env c₁ hes'.plain), hvs⟩⟩
termination_by structural h

end

/-! ### Statements -/

theorem WriteCode.typed {T : Pool} (hΓ : Covers G base Γ) (hT : ∀ x, T.Holds x → x ∈ G)
    {args ν₁ f vs c ν₂} (h : WriteCode T args ν₁ f vs c ν₂) (ha : ∀ a ∈ args, a.Checked Γ)
    (env : Env) : Typed G returns base env c ∧
      ∀ a ∈ vs, a.2.HasValue G (base.or (env.afterAll c)) a.1 := by
  induction h generalizing env with
  | nil => exact ⟨trivial, List.forall_mem_nil _⟩
  | text hs h ih =>
    obtain ⟨hc, hvs⟩ := ih (List.forall_mem_cons.1 ha).2 env
    exact ⟨hc, List.forall_mem_cons.2 ⟨.text (hT _ (.inl ⟨_, hs, rfl⟩)), hvs⟩⟩
  | @integer e args _ _ _ _ _ _ c₁ c₂ ht he h ih | @double e args _ _ _ _ _ _ c₁ c₂ ht he h ih =>
    obtain ⟨⟨he', -⟩, ha⟩ := List.forall_mem_cons.1 ha
    obtain ⟨hc₁, hv⟩ := he.typed hΓ he' env
    obtain ⟨hc₂, hvs⟩ := ih ha (env.afterAll c₁)
    rw [← Env.afterAll_append] at hvs
    rw [ht, machineType] at hv
    exact ⟨Typed.append_iff.2 ⟨hc₁, hc₂⟩, List.forall_mem_cons.2
      ⟨hv.mono (known_append env c₁ h.plain), hvs⟩⟩
  | @boolean e args _ ν₂ _ _ v _ c₁ c₂ ht he h ih =>
    obtain ⟨⟨he', -⟩, ha⟩ := List.forall_mem_cons.1 ha
    obtain ⟨hc₁, hv⟩ := he.typed hΓ he' env
    rw [ht, machineType] at hv
    obtain ⟨hc₁, hw⟩ := typed_value hc₁ (show Ir.Instr.Fits _ _ _
      (.cast (fresh e.position ".cast" ν₂) .zext .i1 v .i32) from ⟨⟨rfl, rfl⟩, hv⟩) rfl .cast
    obtain ⟨hc₂, hvs⟩ := ih ha (env.afterAll _)
    rw [← Env.afterAll_append] at hvs
    exact ⟨Typed.append_iff.2 ⟨hc₁, hc₂⟩, List.forall_mem_cons.2
      ⟨hw.mono (known_append env _ h.plain), hvs⟩⟩

/-- Code that is typed wherever it stands. -/
theorem typed_anywhere {c : List Ir.Instr} (h : Typed G returns base .none c) (env : Env) :
    Typed G returns base env c := h.mono (Env.none_le env)

theorem typed_condition (hΓ : Covers G base Γ) {e : Expr} {ν₁ ν₂ : Names} {v : Ir.Operand}
    {c : List Ir.Instr} (h : ValueCode e ν₁ v c ν₂) (he : e.Checked Γ) (ht : e.type = .boolean)
    (env : Env) : Typed G returns base env c ∧ v.HasValue G (base.or (env.afterAll c)) .i1 := by
  have hv : Typed G returns base env c ∧
      v.HasValue G (base.or (env.afterAll c)) (machineType e.type) := h.typed hΓ he env
  rwa [ht, machineType] at hv

/-- What is known before an instruction that only computes is known behind it. -/
theorem known_after (env : Env) {i : Ir.Instr} (hi : i.isPlain = true) :
    (base.or env).Le (base.or (env.after i)) := Env.or_mono (env.le_after hi)

/-- An instruction that only computes defines its output. -/
theorem known_output (env : Env) {i : Ir.Instr} (hi : i.isPlain = true) {x : String} {k : Kind}
    (hk : i.Defines x k) : (base.or (env.after i)) x k :=
  .inr (env.afterAll_snoc [] hi hk)

theorem typed_startCode {env : Env} {v slot : Ir.Operand} (hv : v.HasValue G (base.or env) .i32)
    (hs : slot.Points G (base.or env) .i32) (p : Position) (ν : Names) :
    Typed G returns base env (startCode p v slot ν) := by
  have hload := hs.mono (known_after env (i := .store .i32 v slot) rfl)
  have hsub := hload.mono (known_after _ (i := .load (fresh p ".pre" ν) .i32 slot) rfl)
  have hstore := hsub.mono (known_after _ (i := .binary (fresh p ".dec" (spend p ".pre" ν)) .sub
    .i32 (.local (fresh p ".pre" ν)) (.int 1)) rfl)
  exact ⟨⟨hv, hs⟩, hload, ⟨rfl, .local (known_output _ rfl .load), .int⟩,
    ⟨.local (known_output _ rfl .binary), hstore⟩, trivial⟩

theorem typed_countCode {env : Env} {slot : Ir.Operand} (hs : slot.Points G (base.or env) .i32)
    (p : Position) (ν : Names) : Typed G returns base env (countCode p slot ν) ∧
      (Ir.Operand.local (fresh p ".next" (spend p ".cur" ν))).HasValue G
        (base.or (env.afterAll (countCode p slot ν))) .i32 := by
  let load : Ir.Instr := .load (fresh p ".cur" ν) .i32 slot
  let add : Ir.Instr := .binary (fresh p ".next" (spend p ".cur" ν)) .add .i32
    (.local (fresh p ".cur" ν)) (.int 1)
  have hadd := hs.mono (known_after env (i := load) rfl)
  have hstore := hadd.mono (known_after _ (i := add) rfl)
  have hnext : (Ir.Operand.local (fresh p ".next" (spend p ".cur" ν))).HasValue G
      (base.or ((env.after load).after add)) .i32 := .local (known_output _ rfl .binary)
  exact ⟨⟨hs, ⟨rfl, .local (known_output _ rfl .load), .int⟩, ⟨hnext, hstore⟩, trivial⟩,
    hnext.mono (known_after _ rfl)⟩

/-- The direct code of a statement that obeys the rules is typed. -/
theorem StmtCode.typed {T : Pool} (hΓ : Covers G base Γ) (hT : ∀ x, T.Holds x → x ∈ G)
    {exit next s σ d σ'} (h : StmtCode T exit next s σ d σ') {b : Bool} (hs : s.Checked Γ b) :
    Typed G returns base .none d := by
  -- every part but the first is typed behind a label, where the environment does not matter
  induction h generalizing b with
  | blockNil | writeNothing => trivial
  | blockCons _ _ ih₁ ih₂ =>
    cases hs with | block hs =>
    obtain ⟨h₁, h₂⟩ := List.forall_mem_cons.1 hs
    exact Typed.append_iff.2 ⟨ih₁ h₁, typed_anywhere (ih₂ (.block h₂)) _⟩
  | ifThen ht hy ih =>
    cases hs with | ifThen hc hct hy' =>
    obtain ⟨hc, hv⟩ := typed_condition hΓ ht hc hct .none
    have hd := ih hy'
    simp only [Typed.append_iff]
    exact ⟨⟨⟨hc, hv, trivial, trivial⟩, typed_anywhere hd _⟩, trivial, trivial, trivial⟩
  | ifElse ht hy hn ihy ihn =>
    cases hs with | ifElse hc hct hy' hn' =>
    obtain ⟨hc, hv⟩ := typed_condition hΓ ht hc hct .none
    have hd₁ := ihy hy'
    have hd₂ := ihn hn'
    simp only [Typed.append_iff]
    exact ⟨⟨⟨⟨⟨hc, hv, trivial, trivial⟩, typed_anywhere hd₁ _⟩, trivial, trivial, trivial⟩,
      typed_anywhere hd₂ _⟩, trivial, trivial, trivial⟩
  | @«while» _ _ _ _ l _ _ _ _ _ _ ht hb ih =>
    cases hs with | «while» hc hct hb' =>
    obtain ⟨hc, hv⟩ := typed_condition hΓ ht hc hct (Env.none.afterAll [.jump l, .label l])
    rw [← Env.afterAll_append] at hv
    have hd := ih hb'
    simp only [Typed.append_iff]
    exact ⟨⟨⟨⟨trivial, trivial, trivial⟩, hc⟩, hv, trivial⟩, trivial,
      Typed.append_iff.2 ⟨typed_anywhere hd _, trivial, trivial, trivial⟩⟩
  | @repeatUntil _ _ _ _ l _ _ _ _ v c d hb ht ih =>
    cases hs with | repeatUntil hb' hc hct =>
    have hd := ih hb'
    -- behind a label nothing is known but what the function starts with, so any environment will do
    have htest : ∀ env, Typed G returns base env ([.jump (l + 1), .label (l + 1)] ++ c ++
        [.jumpIf v (l + 2) l, .label (l + 2)]) := by
      intro env
      obtain ⟨hc, hv⟩ := typed_condition hΓ ht hc hct
        (env.afterAll [.jump (l + 1), .label (l + 1)])
      rw [← Env.afterAll_append] at hv
      simp only [Typed.append_iff]
      exact ⟨⟨⟨trivial, trivial, trivial⟩, hc⟩, hv, trivial, trivial⟩
    exact ⟨trivial, trivial, Typed.append_iff.2 ⟨typed_anywhere hd _, htest _⟩⟩
  | @forTo _ _ p _ _ _ _ l _ _ ν₃ ν₄ ν₅ _ v w slot slot' c₁ c₂ c₃ c₄ d hf ht ht' hb _ ih =>
    cases hs with | forTo htc htd htt hfc hft hbc hbt hs' =>
    have hd := ih hs'
    obtain ⟨hc₁, hv⟩ := hf.typed hΓ hfc .none
    obtain ⟨hc₂, hs⟩ := ht.typed hΓ htc (Env.none.afterAll c₁)
    rw [hft, machineType] at hv
    rw [← Env.afterAll_append, htt, machineType] at hs
    -- the value found first is still known behind the code of the place
    have hstart : ∀ ν, Typed G returns base _ (startCode p v slot ν) :=
      typed_startCode (hv.mono (known_append _ c₁ ht.plain)) hs p
    have htest : ∀ env, Typed G returns base env (c₃ ++ countCode p slot' ν₄ ++ c₄ ++
        [.compare (fresh p ".cmp" ν₅) .sle .i32 (.local (fresh p ".next" (spend p ".cur" ν₄))) w,
          .jumpIf (.local (fresh p ".cmp" ν₅)) (l + 1) (l + 2)]) := by
      intro env
      obtain ⟨hc₃, hs'⟩ := ht'.typed hΓ htc env
      rw [htt, machineType] at hs'
      obtain ⟨hcount, hnext⟩ := typed_countCode hs' p ν₄
      rw [← Env.afterAll_append] at hnext
      obtain ⟨hc₄, hw⟩ := hb.typed hΓ hbc (env.afterAll (c₃ ++ countCode p slot' ν₄))
      rw [← Env.afterAll_append, hbt, machineType] at hw
      refine Typed.append_iff.2 ⟨Typed.append_iff.2 ⟨Typed.append_iff.2 ⟨hc₃, hcount⟩, hc₄⟩, ?_⟩
      exact ⟨⟨rfl, hnext.mono (known_append _ _ hb.plain), hw⟩,
        .local (known_output _ rfl .compare), trivial⟩
    have hhead : Typed G returns base .none (c₁ ++ c₂ ++ startCode p v slot ν₃) :=
      Typed.append_iff.2 ⟨Typed.append_iff.2 ⟨hc₁, hc₂⟩, hstart ν₃⟩
    have hbody : ∀ env, Typed G returns base env (.label (l + 1) :: (d ++
        [.jump l, .label (l + 2)])) := fun env =>
      ⟨trivial, Typed.append_iff.2 ⟨typed_anywhere hd _, trivial, trivial, trivial⟩⟩
    have hloop := Typed.append_iff.2 ⟨Typed.append_iff.2 ⟨Typed.append_iff.2
      ⟨hhead, show Typed _ _ _ _ [.jump l, .label l] from ⟨trivial, trivial, trivial⟩⟩, htest _⟩,
      hbody _⟩
    simpa only [List.append_assoc] using hloop
  | assign he ht =>
    cases hs with | assign htc htd hec ha =>
    obtain ⟨hc₁, hv⟩ := he.typed hΓ hec ha .none
    obtain ⟨hc₂, hs⟩ := ht.typed hΓ htc (Env.none.afterAll _)
    rw [← Env.afterAll_append] at hs
    exact Typed.append_iff.2 ⟨Typed.append_iff.2 ⟨hc₁, hc₂⟩,
      ⟨hv.mono (known_append _ _ ht.plain), hs⟩, trivial⟩
  | call h =>
    cases hs with | call _ ha hp =>
    obtain ⟨hc, hvs⟩ := h.typed hΓ ha hp .none
    exact Typed.append_iff.2 ⟨hc, hvs, trivial⟩
  | write h hf =>
    cases hs with | write ha =>
    obtain ⟨hc, hvs⟩ := h.typed hΓ hT ha .none
    refine Typed.append_iff.2 ⟨hc, List.forall_mem_cons.2 ⟨?_, hvs⟩, trivial⟩
    exact .text (hT _ (.inr ⟨_, hf, rfl⟩))
  | transition => exact ⟨trivial, trivial⟩

end

end Lowering

end MiniPascal
