import Mathlib.Algebra.Ring.Nat
import MiniPascal.Proofs.Lowering.Function
import MiniPascal.Proofs.Lowering.Width
import MiniPascal.Proofs.Reading.Size

/-! For a text of fewer than 2^30 characters, 32 bits are enough to count with. -/

namespace MiniPascal

namespace Lowering

/-! ### How often a name is asked for -/

/-- How often a base name is the one for a position and a suffix. -/
def asked (b : String) (p : Position) (s : String) : Nat := if baseName p s = b then 1 else 0

theorem countOf_asked (b : String) (p : Position) (s : String) (ν : Names) :
    countOf b (spend p s ν) = countOf b ν + asked b p s := countOf_spend b p s ν

/-- A base name has one suffix only. -/
theorem asked_sum_le (b : String) (p : Position) (suffixes : List String) (h : suffixes.Nodup) :
    (suffixes.map (asked b p)).sum ≤ 1 := by
  induction suffixes with
  | nil => exact Nat.zero_le 1
  | cons s suffixes ih =>
    obtain ⟨hs, hrest⟩ := List.nodup_cons.1 h
    rw [List.map_cons, List.sum_cons]
    by_cases hb : baseName p s = b
    · -- no later suffix gives the same name, since they differ
      have hzero : (suffixes.map (asked b p)).sum = 0 := by
        refine List.sum_eq_zero_iff_forall_eq_nat.2 fun n hn => ?_
        obtain ⟨s', hs', rfl⟩ := List.mem_map.1 hn
        refine if_neg fun hb' => hs ?_
        have heq : baseName p s' = baseName p s := hb'.trans hb.symm
        rw [baseName, baseName, String.append_right_inj] at heq
        exact heq ▸ hs'
      have hone : asked b p s = 1 := if_pos hb
      omega
    · rw [asked, if_neg hb, Nat.zero_add]
      exact ih hrest

theorem asked_suffixes (b : String) (p : Position) :
    asked b p "" + asked b p ".cast" + asked b p ".ptr" + asked b p ".idx" + asked b p ".pre" +
      asked b p ".dec" + asked b p ".cur" + asked b p ".next" + asked b p ".cmp" ≤ 1 := by
  have h := asked_sum_le b p suffixes (by decide)
  simpa [suffixes, Nat.add_assoc] using h

mutual

/-- The place of a designator can still be loaded from and converted. -/
theorem PlaceCode.asked_le {e ν₁ slot c ν₂} (h : PlaceCode e ν₁ slot c ν₂) (b : String) :
    countOf b ν₂ + asked b e.position "" + asked b e.position ".cast" ≤
      countOf b ν₁ + e.size := by
  match h with
  | @PlaceCode.global p _ _ _ | @PlaceCode.routine p _ _ _ =>
    have := asked_suffixes b p
    simp only [Expr.position, Expr.size]
    omega
  | @PlaceCode.index p _ _ _ _ _ _ _ _ _ _ ha hi _ =>
    have := asked_suffixes b p
    have := ha.asked_le b
    have := hi.asked_le b
    simp only [Expr.position, Expr.size, countOf_asked]
    omega
  | @PlaceCode.rebased p _ _ _ _ _ _ _ _ _ _ ha hi _ =>
    have := asked_suffixes b p
    have := ha.asked_le b
    have := hi.asked_le b
    simp only [Expr.position, Expr.size, countOf_asked]
    omega
  | @PlaceCode.field p _ _ _ _ _ _ _ _ hr =>
    have := asked_suffixes b p
    have := hr.asked_le b
    simp only [Expr.position, Expr.size, countOf_asked]
    omega
termination_by structural h

/-- The value of an expression can still be converted. -/
theorem ValueCode.asked_le {e ν₁ v c ν₂} (h : ValueCode e ν₁ v c ν₂) (b : String) :
    countOf b ν₂ + asked b e.position ".cast" ≤ countOf b ν₁ + e.size := by
  match h with
  | @ValueCode.int p _ _ | @ValueCode.double p _ _ | @ValueCode.bool p _ _ =>
    have := asked_suffixes b p
    simp only [Expr.position, Expr.size]
    omega
  | .load h =>
    have := h.asked_le b
    rw [countOf_asked]
    exact this
  | @ValueCode.plus p _ _ _ _ _ _ h =>
    have := asked_suffixes b p
    have := h.asked_le b
    simp only [Expr.position, Expr.size]
    omega
  | @ValueCode.negate p _ _ _ _ _ _ h _ | @ValueCode.minus p _ _ _ _ _ _ h _
  | @ValueCode.not p _ _ _ _ _ _ h _ | @ValueCode.complement p _ _ _ _ _ _ h _ =>
    have := asked_suffixes b p
    have := h.asked_le b
    simp only [Expr.position, Expr.size, countOf_asked]
    omega
  | @ValueCode.binary p _ _ _ _ _ _ _ _ _ _ _ hl hr =>
    have := asked_suffixes b p
    have := hl.asked_le b
    have := hr.asked_le b
    simp only [Expr.position, Expr.size, countOf_asked]
    omega
  | @ValueCode.call p _ _ _ _ _ _ _ _ _ h =>
    have := asked_suffixes b p
    have := h.asked_le b
    simp only [Expr.position, Expr.size, countOf_asked] at *
    omega
termination_by structural h

theorem TypedCode.asked_le {e t ν₁ v c ν₂} (h : TypedCode e t ν₁ v c ν₂) (b : String) :
    countOf b ν₂ ≤ countOf b ν₁ + e.size := by
  match h with
  | .widened _ => exact Nat.le_add_right _ _
  | .cast _ _ h =>
    have := h.asked_le b
    rw [countOf_asked]
    exact this
  | .same _ h => exact Nat.le_of_add_right_le (h.asked_le b)
termination_by structural h

theorem ArgsCode.asked_le {es ts ν₁ vs c ν₂} (h : ArgsCode es ts ν₁ vs c ν₂) (b : String) :
    countOf b ν₂ ≤ countOf b ν₁ + Expr.sizeOfAll es := by
  match h with
  | .nil => exact Nat.le_refl _
  | .cons he hes =>
    have := he.asked_le b
    have := hes.asked_le b
    rw [Expr.sizeOfAll]
    omega
termination_by structural h

end

theorem WriteCode.asked_le {T : Pool} {args ν₁ f vs c ν₂} (h : WriteCode T args ν₁ f vs c ν₂)
    (b : String) : countOf b ν₂ ≤ countOf b ν₁ + WriteArg.sizeOfAll args := by
  induction h with
  | nil => exact Nat.le_refl _
  | text _ _ ih => exact ih
  | integer _ he _ ih | double _ he _ ih =>
    have := he.asked_le b
    rw [WriteArg.sizeOfAll]
    omega
  | boolean _ he _ ih =>
    have := he.asked_le b
    rw [countOf_asked] at ih
    rw [WriteArg.sizeOfAll]
    omega

/-- The direct code of a statement asks for a name no more often than it evaluates expressions. -/
theorem StmtCode.asked_le {T : Pool} {exit next : Ir.Label} {s : Stmt} {σ σ' : Supply}
    {d : List Ir.Instr} (h : StmtCode T exit next s σ d σ') (b : String) :
    countOf b σ'.names ≤ countOf b σ.names + s.size := by
  induction h with
  | blockNil | writeNothing | transition => exact Nat.le_add_right _ _
  | blockCons _ _ ihs ihss =>
    simp only [Stmt.size, Stmt.sizeOfAll] at *
    omega
  | ifThen ht _ ih | «while» ht _ ih =>
    have := ht.asked_le b
    simp only [Stmt.size] at *
    omega
  | ifElse ht _ _ ihy ihn =>
    have := ht.asked_le b
    simp only [Stmt.size] at *
    omega
  | repeatUntil _ ht ih =>
    have := ht.asked_le b
    simp only [Stmt.size] at *
    omega
  | @forTo _ _ p _ _ _ _ _ _ _ _ _ _ _ _ _ _ _ _ _ _ _ _ hf ht ht' hb _ ih =>
    -- the names of the loop itself differ by their suffixes, so one of them at most is `b`
    have := asked_suffixes b p
    have := hf.asked_le b
    have := ht.asked_le b
    have := ht'.asked_le b
    have := hb.asked_le b
    simp only [Stmt.size, countOf_asked] at *
    omega
  | assign he ht =>
    have := he.asked_le b
    have := ht.asked_le b
    simp only [Stmt.size]
    omega
  | call h => exact h.asked_le b
  | write h => exact h.asked_le b

/-! ### Functions -/

/-- A step that counts nothing. -/
structure Idle {α : Type} (m : StepOf UInt32 α) : Prop where
  labels : ∀ g, (m g).2.labels = g.labels
  names : ∀ g, (m g).2.names = g.names
  overflowed : ∀ g, (m g).2.overflowed = g.overflowed

theorem Idle.bind {α β : Type} {m : StepOf UInt32 α} {f : α → StepOf UInt32 β} (hm : Idle m)
    (hf : ∀ a, Idle (f a)) : Idle (m >>= f) where
  labels g := ((hf _).labels _).trans (hm.labels g)
  names g := ((hf _).names _).trans (hm.names g)
  overflowed g := ((hf _).overflowed _).trans (hm.overflowed g)

theorem idle_pure {α : Type} (a : α) : Idle (pure a) := ⟨fun _ => rfl, fun _ => rfl, fun _ => rfl⟩

theorem idle_push (i : Ir.Instr) : Idle (push i) := ⟨fun _ => rfl, fun _ => rfl, fun _ => rfl⟩

theorem idle_alloca (slot : String) (t : Ir.Ty) : Idle (alloca slot t) :=
  ⟨fun _ => rfl, fun _ => rfl, fun _ => rfl⟩

theorem idle_parameterSlots (params : List (Name × Ty)) : Idle (parameterSlots params) := by
  induction params with
  | nil => exact idle_pure _
  | cons v params ih =>
    exact (idle_alloca _ _).bind fun _ => (idle_push _).bind fun _ => ih.bind fun _ => idle_pure _

theorem idle_variableSlots (vars : List (Name × Ty)) : Idle (variableSlots vars) := by
  induction vars with
  | nil => exact idle_pure _
  | cons v vars ih => exact (idle_alloca _ _).bind fun _ => ih

theorem idle_returnFrom (symbol : String) (returns : Option Ty) :
    Idle (returnFrom symbol returns) := by
  cases returns with
  | none => exact (idle_push _).bind fun _ => idle_pure _
  | some t => exact (idle_push _).bind fun _ => (idle_push _).bind fun _ => idle_pure _

theorem mirrors_beginFunction : Mirrors beginFunction beginFunction :=
  ⟨fun _ hg => hg, fun _ _ => rfl⟩

theorem mirrors_endFunction (name : String) (returns : Ir.Ty)
    (parameters : List (String × Ir.Ty)) :
    Mirrors (endFunction name returns parameters) (endFunction name returns parameters) :=
  ⟨fun _ hg => hg, fun _ _ => rfl⟩

theorem mirrors_parameterSlots (params : List (Name × Ty)) :
    Mirrors (parameterSlots params) (parameterSlots params) := by
  induction params with
  | nil => exact (Narrows.pure _).toMirrors
  | cons v params ih =>
    exact (Narrows.alloca _ _).toMirrors.bind fun _ => (Narrows.push _).toMirrors.bind fun _ =>
      ih.bind fun _ => (Narrows.pure _).toMirrors

theorem mirrors_variableSlots (vars : List (Name × Ty)) :
    Mirrors (variableSlots vars) (variableSlots vars) := by
  induction vars with
  | nil => exact (Narrows.pure _).toMirrors
  | cons v vars ih => exact (Narrows.alloca _ _).toMirrors.bind fun _ => ih

theorem mirrors_returnFrom (symbol : String) (returns : Option Ty) :
    Mirrors (returnFrom symbol returns) (returnFrom symbol returns) := by
  cases returns with
  | none => exact (Narrows.push _).toMirrors.bind fun _ => (Narrows.pure _).toMirrors
  | some t =>
    exact (Narrows.push _).toMirrors.bind fun _ => (Narrows.push _).toMirrors.bind fun _ =>
      (Narrows.pure _).toMirrors

theorem mirrors_routineFunction (symbol : String) (params : Scope) (returns : Option Ty)
    (vars : List (Name × Ty)) (body : List Stmt) :
    Mirrors (routineFunction symbol params returns vars body)
      (routineFunction symbol params returns vars body) :=
  mirrors_beginFunction.bind fun _ => (mirrors_parameterSlots _).bind fun _ =>
    (mirrors_variableSlots vars).bind fun _ => (narrows_statements body).toMirrors.bind fun _ =>
    (mirrors_returnFrom symbol returns).bind fun _ => mirrors_endFunction _ _ _

mutual

theorem mirrors_routine : ∀ r : Routine, Mirrors (routine r) (routine r)
  | ⟨_, symbol, params, returns, none, _⟩ => by
    rw [routine, routine]
    exact mirrors_routineFunction _ _ _ _ _
  | ⟨_, symbol, params, returns, some ⟨⟨entries⟩, body⟩, _⟩ => by
    rw [routine, routine]
    exact (mirrors_routineFunction _ _ _ _ _).bind fun _ => mirrors_routines entries

theorem mirrors_routines : ∀ entries : List (Name × Declaration),
    Mirrors (routines entries) (routines entries)
  | [] => by
    rw [routines, routines]
    exact (Narrows.pure _).toMirrors
  | (_, d) :: entries => by
    rw [routines, routines]
    exact (mirrors_declared d).bind fun _ => mirrors_routines entries

theorem mirrors_declared : ∀ d : Declaration, Mirrors (declared d) (declared d)
  | .routine r => by
    rw [declared, declared]
    exact mirrors_routine r
  | .var .. | .const .. | .type .. => by
    rw [declared, declared]
    exact (Narrows.pure _).toMirrors

end

theorem mirrors_mainFunction (body : List Stmt) :
    Mirrors (mainFunction body) (mainFunction body) :=
  mirrors_beginFunction.bind fun _ => (narrows_statements body).toMirrors.bind fun _ =>
    (Narrows.push _).toMirrors.bind fun _ => mirrors_endFunction _ _ _

theorem mirrors_program (p : Program) : Mirrors (program p) (program p) := by
  refine .bind ⟨fun _ hg => hg, fun _ _ => rfl⟩ fun _ => ?_
  exact (mirrors_routines _).bind fun _ => mirrors_mainFunction _

/-! ### Enough for a text -/

/-- No count has overflowed, and so many labels more still fit. -/
structure Generator.Room (g : Generator UInt32) (n : Nat) : Prop where
  within : g.overflowed = false
  labels : g.labels.toNat + n < 2 ^ 32

/-- The statements of a function overflow no count where their labels fit and their size does. -/
theorem statements_room {Γ : Context} {body : List Stmt} (h : ∀ s ∈ body, s.Checked Γ false)
    (hsize : Stmt.sizeOfAll body < 2 ^ 32) {g : Generator UInt32} {n : Nat} (hnames : g.names = [])
    (hg : g.Room (Stmt.labelsOfAll body + n)) : (statements body g).2.Room n := by
  obtain ⟨g', c, hp⟩ := statement_produces (.block h) g.unbounded
  obtain ⟨d, hd, -⟩ := hp.direct g'.pool (.refl _) 0 0
  have hrun : statements body g.unbounded = ((), g') := by rw [← hp.run, statement]
  have hl : g'.labels = g.labels.toNat + Stmt.labelsOfAll body := by
    have := hd.labels_eq
    rwa [Stmt.labels] at this
  have hnone : g.unbounded.names = [] := by
    rw [Generator.unbounded, hnames]
    rfl
  have hroom := hg.labels
  have hfits : (statements body g.unbounded).2.Fits := by
    rw [hrun]
    have hwidth : g'.labels < 2 ^ 32 := by omega
    refine ⟨hwidth, fun name => ?_⟩
    have hasked : countOf name g'.names ≤ countOf name g.unbounded.names + Stmt.sizeOfAll body :=
      hd.asked_le name
    rw [hnone, countOf, Counter.zero_nat, Nat.zero_add] at hasked
    exact Nat.lt_of_le_of_lt hasked hsize
  have hwithin := (narrows_statements body).fits g hg.within hfits
  refine ⟨hwithin, ?_⟩
  have hlabels : (statements body g).2.unbounded.labels = g'.labels := by
    have hagrees := (narrows_statements body).agrees g hwithin
    rw [hrun] at hagrees
    rw [← (Prod.mk.inj hagrees).2]
  have hwidth : (statements body g).2.labels.toNat = g'.labels := hlabels
  omega

theorem Idle.room {α : Type} {m : StepOf UInt32 α} (h : Idle m) {g : Generator UInt32} {n : Nat}
    (hg : g.Room n) : (m g).2.Room n :=
  ⟨(h.overflowed g).trans hg.within, by rw [h.labels]; exact hg.labels⟩

theorem routineFunction_room {Γ : Context} (symbol : String) (params : Scope)
    (returns : Option Ty) (vars : List (Name × Ty)) {body : List Stmt}
    (h : ∀ s ∈ body, s.Checked Γ false) (hsize : Stmt.sizeOfAll body < 2 ^ 32)
    {g : Generator UInt32} {n : Nat} (hg : g.Room (Stmt.labelsOfAll body + n)) :
    (routineFunction symbol params returns vars body g).2.Room n := by
  let g₁ := (beginFunction g).2
  let g₂ := (parameterSlots params.vars g₁).2
  let g₃ := (variableSlots vars g₂).2
  let g₄ := (statements body g₃).2
  have h₁ : g₁.Room (Stmt.labelsOfAll body + n) := ⟨hg.within, hg.labels⟩
  have h₃ : g₃.Room (Stmt.labelsOfAll body + n) :=
    (idle_variableSlots vars).room ((idle_parameterSlots params.vars).room h₁)
  have hnames : g₃.names = [] :=
    ((idle_variableSlots vars).names g₂).trans ((idle_parameterSlots params.vars).names g₁)
  have h₄ : g₄.Room n := statements_room h hsize hnames h₃
  have h₅ := (idle_returnFrom symbol returns).room h₄
  exact ⟨h₅.within, h₅.labels⟩

theorem routines_room {entries : List (Name × Declaration)}
    (h : ∀ n r, (n, .routine r) ∈ entries → ∀ (g : Generator UInt32) k,
      g.Room (r.labels + k) → (routine r g).2.Room k)
    {g : Generator UInt32} {k : Nat} (hg : g.Room (labelsOfEntries entries + k)) :
    (routines entries g).2.Room k := by
  induction entries generalizing g with
  | nil =>
    rw [labelsOfEntries, Nat.zero_add] at hg
    rw [routines]
    exact hg
  | cons e entries ih =>
    obtain ⟨n, d⟩ := e
    rw [labelsOfEntries, Nat.add_assoc] at hg
    have hd : (declared d g).2.Room (labelsOfEntries entries + k) := by
      cases d with
      | routine r =>
        rw [declared]
        exact h n r List.mem_cons_self g _ hg
      | var | const | type =>
        rw [Declaration.labels, Nat.zero_add] at hg
        rw [declared]
        exact hg
    rw [routines]
    exact ih (fun n r hm => h n r (List.mem_cons_of_mem _ hm)) hd

theorem routine_room {E : Environment} {path : List String} {r : Routine} (h : r.Checked E path)
    (hsize : ∀ e ∈ r.preorder path, ∀ body, e.2.body = some body →
      Stmt.sizeOfAll body.statements < 2 ^ 32)
    {g : Generator UInt32} {k : Nat} (hg : g.Room (r.labels + k)) : (routine r g).2.Room k := by
  induction h generalizing g k with
  | @intro E path r body hp hb hv hl hret hs _ ih =>
    obtain ⟨p, symbol, params, returns, body', forward⟩ := r
    cases hb
    obtain ⟨⟨entries⟩, statements⟩ := body
    rw [Routine.preorder, List.forall_mem_cons] at hsize
    rw [Routine.labels, Nat.add_assoc] at hg
    have hown := routineFunction_room symbol params returns (Scope.vars ⟨entries⟩) hs
      (hsize.1 _ rfl) hg
    rw [routine]
    exact routines_room (fun n q (hq : _ ∈ entries) g k hg => ih n q hq
      (fun e he => hsize.2 e (mem_preorderOfEntries.2 ⟨n, q, hq, he⟩)) hg) hown

theorem mainFunction_room {Γ : Context} {body : List Stmt} (h : ∀ s ∈ body, s.Checked Γ false)
    (hsize : Stmt.sizeOfAll body < 2 ^ 32) {g : Generator UInt32}
    (hg : g.Room (Stmt.labelsOfAll body)) : (mainFunction body g).2.overflowed = false := by
  have hbegun : (beginFunction g).2.Room (Stmt.labelsOfAll body + 0) := ⟨hg.within, hg.labels⟩
  exact (statements_room h hsize rfl hbegun).within

end Lowering

namespace Program

open Lowering

/-- What has been generated for a program in the end. -/
def generated (κ : Type) [Counter κ] (p : Program) : Generator κ :=
  ((Lowering.program p).run .empty).2

/-- A program that obeys the rules is the same with 32-bit counts, if those suffice for its labels
and for the size of each of its bodies. -/
theorem Checked.generated_width {p : Program} (h : p.Checked) (hlabels : p.labels < 2 ^ 32)
    (hsize : ∀ locals body, p.HasBody locals body → Stmt.sizeOfAll body < 2 ^ 32) :
    (p.generated UInt32).overflowed = false ∧ (p.generated UInt32).finish = p.lower := by
  let vars := globalVariables p.scope.vars
  let g : Generator UInt32 := { Generator.empty with globals := [] ++ vars }
  have hg : g.Room (labelsOfEntries p.scope.entries + Stmt.labelsOfAll p.statements) := by
    refine ⟨rfl, ?_⟩
    show 0 + p.labels < 2 ^ 32
    omega
  have hroutines := routines_room (fun n r hm g k => routine_room (h.routines n r hm)
    fun e he _ hb => hsize _ _ (.routine (mem_preorderOfEntries.2 ⟨n, r, hm, he⟩) hb)) hg
  have hwithin : (p.generated UInt32).overflowed = false :=
    mainFunction_room h.main (hsize _ _ .main) hroutines
  refine ⟨hwithin, ?_⟩
  have hagrees := (mirrors_program p).agrees .empty hwithin
  have hlower : p.lower = (p.generated UInt32).unbounded.finish :=
    congrArg (fun r : Unit × Generator => r.2.finish) hagrees
  rw [hlower]
  rfl

/-- A text of fewer than 2^30 characters uses no label and no name so often that 32 bits would not
suffice to count it, and counting with 32 bits gives the same program. -/
theorem ofText_generated {text name : String} {p : Program} (h : ofText text name = .ok p)
    (hlen : text.length < 2 ^ 30) :
    (p.generated UInt32).overflowed = false ∧ (p.generated UInt32).finish = p.lower := by
  obtain ⟨hp, hlabels⟩ := ofText_checked h
  refine hp.generated_width (by omega) fun locals body hb => ?_
  have hsize : Stmt.sizeOfAll body ≤ 4 * text.length := (ofText_sizes h).body hb
  omega

end Program

end MiniPascal
