import MiniPascal.Proofs.Lowering.Function

/-! Types of one structure: bounds count by their values and fields by their names. -/

namespace MiniPascal

open Lowering (machineType machineType_eq)

namespace Ty

mutual

theorem sameShape_comm : ∀ t u : Ty, t.sameShape u = u.sameShape t
  | .scalar s, .scalar s' => by
    simp only [sameShape]
    exact decide_eq_decide.2 eq_comm
  | .array low high t, .array low' high' u => by
    simp only [sameShape]
    rw [sameShape_comm t u, decide_eq_decide.2 eq_comm]
  | .record fields, .record fields' => by
    rw [sameShape, sameShape, sameFields_comm]
  | .scalar _, .array .. | .scalar _, .record _ | .array .., .scalar _ | .array .., .record _
  | .record _, .scalar _ | .record _, .array .. => by simp only [sameShape]

theorem sameFields_comm : ∀ fs gs : List (Name × Ty), sameFields fs gs = sameFields gs fs
  | [], [] => rfl
  | (m, t) :: fs, (n, u) :: gs => by
    rw [sameFields, sameFields, sameShape_comm t u, sameFields_comm fs gs, BEq.comm]
  | [], _ :: _ | _ :: _, [] => by simp only [sameFields]

end

mutual

theorem sameShape_trans : ∀ {t u v : Ty}, t.sameShape u = true → u.sameShape v = true →
    t.sameShape v = true
  | .scalar _, .scalar _, .scalar _, h, h' => by
    simp only [sameShape, decide_eq_true_eq] at h h' ⊢
    exact h.trans h'
  | .array .., .array .., .array .., h, h' => by
    simp only [sameShape, Bool.and_eq_true, decide_eq_true_eq] at h h' ⊢
    exact ⟨h.1.trans h'.1, sameShape_trans h.2 h'.2⟩
  | .record _, .record _, .record _, h, h' => by
    rw [sameShape] at h h' ⊢
    exact sameFields_trans h h'
  | .scalar _, .array .., _, h, _ | .scalar _, .record _, _, h, _ | .array .., .scalar _, _, h, _
  | .array .., .record _, _, h, _ | .record _, .scalar _, _, h, _
  | .record _, .array .., _, h, _ => by simp [sameShape] at h
  | .scalar _, .scalar _, .array .., _, h | .scalar _, .scalar _, .record _, _, h
  | .array .., .array .., .scalar _, _, h | .array .., .array .., .record _, _, h
  | .record _, .record _, .scalar _, _, h | .record _, .record _, .array .., _, h => by
    simp [sameShape] at h

theorem sameFields_trans : ∀ {fs gs hs : List (Name × Ty)}, sameFields fs gs = true →
    sameFields gs hs = true → sameFields fs hs = true
  | [], [], [], _, _ => rfl
  | (_, _) :: _, (_, _) :: _, (_, _) :: _, h, h' => by
    simp only [sameFields, Bool.and_eq_true] at h h' ⊢
    exact ⟨⟨BEq.trans h.1.1 h'.1.1, sameShape_trans h.1.2 h'.1.2⟩, sameFields_trans h.2 h'.2⟩
  | [], _ :: _, _, h, _ | _ :: _, [], _, h, _ => by simp [sameFields] at h
  | [], [], _ :: _, _, h | _ :: _, _ :: _, [], _, h => by simp [sameFields] at h

end

theorem sameShape_symm {t u : Ty} (h : t.sameShape u = true) : u.sameShape t = true := by
  rwa [sameShape_comm]

theorem sameShape_equivalence : Equivalence fun t u : Ty => t.sameShape u = true :=
  ⟨sameShape_refl, sameShape_symm, sameShape_trans⟩

/-- Only scalars have the structure of a scalar. -/
theorem scalar?_eq_of_sameShape {t u : Ty} (h : t.sameShape u = true) : t.scalar? = u.scalar? := by
  cases t <;> cases u <;> simp_all [sameShape, scalar?]

end Ty

namespace Typing

/-- An integer can be stored as a double, and else nothing but the structure counts. -/
theorem assignable_iff {t u : Ty} : assignable t u = true ↔
    t.sameShape u = true ∨ t = .double ∧ u = .integer := by
  rcases t with a | _ | _ <;> rcases u with b | _ | _ <;>
    simp only [assignable, Ty.scalar?, Ty.sameShape]
  · cases a <;> cases b <;> simp
  all_goals simp

theorem assignable_refl (t : Ty) : assignable t t = true := assignable_iff.2 (.inl t.sameShape_refl)

theorem assignable_trans {t u v : Ty} (h : assignable t u = true) (h' : assignable u v = true) :
    assignable t v = true := by
  rw [assignable_iff] at h h' ⊢
  rcases h with h | ⟨rfl, rfl⟩
  · rcases h' with h' | ⟨rfl, rfl⟩
    · exact .inl (Ty.sameShape_trans h h')
    · have hscalar : t.scalar? = some .double := Ty.scalar?_eq_of_sameShape h
      cases t <;> cases hscalar
      exact .inr ⟨rfl, rfl⟩
  · rcases h' with h' | ⟨h', -⟩
    · have hscalar : some .integer = v.scalar? := Ty.scalar?_eq_of_sameShape h'
      cases v <;> cases hscalar
      exact .inr ⟨rfl, rfl⟩
    · cases h'

/-- Two types can stand for each other, as the type of a place and as that of a value. -/
structure Interchangeable (t u : Ty) : Prop where
  target : ∀ v, assignable t v = assignable u v
  value : ∀ v, assignable v t = assignable v u

theorem interchangeable {t u : Ty} (h : t.sameShape u = true) : Interchangeable t u := by
  have htu : assignable t u = true := assignable_iff.2 (.inl h)
  have hut : assignable u t = true := assignable_iff.2 (.inl (Ty.sameShape_symm h))
  refine ⟨fun v => Bool.eq_iff_iff.2 ⟨?_, ?_⟩, fun v => Bool.eq_iff_iff.2 ⟨?_, ?_⟩⟩
  · exact assignable_trans hut
  · exact assignable_trans htu
  · exact fun hv => assignable_trans hv htu
  · exact fun hv => assignable_trans hv hut

end Typing

/-! ### Headings -/

theorem SameVars.symm {vs ws : List (Name × Ty)} (h : SameVars vs ws) : SameVars ws vs :=
  List.Forall₂.flip (h.imp fun _ _ h => ⟨h.1.symm, Ty.sameShape_symm h.2⟩)

theorem SameVars.trans {us vs ws : List (Name × Ty)} (h : SameVars us vs) (h' : SameVars vs ws) :
    SameVars us ws := by
  induction h generalizing ws with
  | nil => exact h'
  | cons h _ ih =>
    cases h' with
    | cons hw hws => exact .cons ⟨h.1.trans hw.1, Ty.sameShape_trans h.2 hw.2⟩ (ih hws)

theorem SameVars.machineTypes {vs ws : List (Name × Ty)} (h : SameVars vs ws) :
    vs.map (fun v => machineType v.2) = ws.map fun v => machineType v.2 := by
  induction h with
  | nil => rfl
  | cons h _ ih => rw [List.map_cons, List.map_cons, machineType_eq h.2, ih]

namespace Routine.Matches

variable {r q s : Routine}

theorem refl (r : Routine) : r.Matches r := by
  refine ⟨sameVars_refl _, ?_⟩
  cases r.returns with
  | none => exact .none
  | some t => exact .some t.sameShape_refl

theorem symm (h : r.Matches q) : q.Matches r := by
  refine ⟨h.params.symm, ?_⟩
  obtain ⟨-, hreturns⟩ := h
  generalize r.returns = t at hreturns ⊢
  generalize q.returns = u at hreturns ⊢
  cases hreturns with
  | none => exact .none
  | some ht => exact .some (Ty.sameShape_symm ht)

theorem trans (h : r.Matches q) (h' : q.Matches s) : r.Matches s := by
  refine ⟨h.params.trans h'.params, ?_⟩
  obtain ⟨-, hreturns⟩ := h
  obtain ⟨-, hreturns'⟩ := h'
  generalize r.returns = t at hreturns ⊢
  generalize q.returns = u at hreturns hreturns'
  generalize s.returns = v at hreturns' ⊢
  cases hreturns with
  | none => exact hreturns'
  | some ht =>
    cases hreturns' with
    | some hu => exact .some (Ty.sameShape_trans ht hu)

/-- Headings that match have the same machine types. -/
theorem machineTypes (h : r.Matches q) :
    r.paramTypes.map machineType = q.paramTypes.map machineType ∧
      r.returns.map machineType = q.returns.map machineType := by
  obtain ⟨hparams, hreturns⟩ := h
  constructor
  · rw [paramTypes, paramTypes, List.map_map, List.map_map]
    exact hparams.machineTypes
  · generalize r.returns = t at hreturns ⊢
    generalize q.returns = u at hreturns ⊢
    cases hreturns with
    | none => rfl
    | some ht => exact congrArg some (machineType_eq ht)

end Routine.Matches

/-- A routine whose parameters are all variables. -/
def Routine.OfVars : Type := { r : Routine // r.params.All Declaration.IsVar }

theorem Routine.sameSignature_equivalence :
    Equivalence fun r q : Routine.OfVars => r.1.sameSignature q.1 = true := by
  refine ⟨fun r => ?_, fun {r q} h => ?_, fun {r q s} h h' => ?_⟩
  · exact (sameSignature_iff r.2 r.2).2 (.refl r.1)
  · exact (sameSignature_iff q.2 r.2).2 ((sameSignature_iff r.2 q.2).1 h).symm
  · have hq := (sameSignature_iff r.2 q.2).1 h
    exact (sameSignature_iff r.2 s.2).2 (hq.trans ((sameSignature_iff q.2 s.2).1 h'))

/-- Having one structure is an equivalence of types that neither machine types nor assignments tell
apart, and what can be stored where is an order that goes beyond it only in that doubles take
integers. On routines whose parameters are variables, having one signature is an equivalence too,
and gives the same machine types to parameters and results. -/
theorem Ty.sameShape_congruence :
    (Equivalence fun t u : Ty => t.sameShape u = true) ∧
    (∀ t u : Ty, t.sameShape u = true →
      machineType t = machineType u ∧ Typing.Interchangeable t u) ∧
    (∀ t : Ty, Typing.assignable t t = true) ∧
    (∀ t u v : Ty, Typing.assignable t u = true → Typing.assignable u v = true →
      Typing.assignable t v = true) ∧
    (∀ t u : Ty, Typing.assignable t u = true ↔
      t.sameShape u = true ∨ t = .double ∧ u = .integer) ∧
    (Equivalence fun r q : Routine.OfVars => r.1.sameSignature q.1 = true) ∧
    ∀ r q : Routine.OfVars, r.1.sameSignature q.1 = true →
      r.1.paramTypes.map machineType = q.1.paramTypes.map machineType ∧
        r.1.returns.map machineType = q.1.returns.map machineType := by
  refine ⟨sameShape_equivalence, fun t u h => ⟨machineType_eq h, Typing.interchangeable h⟩,
    Typing.assignable_refl, fun t u v => Typing.assignable_trans, fun t u => Typing.assignable_iff,
    Routine.sameSignature_equivalence, fun r q h => ?_⟩
  exact ((Routine.sameSignature_iff r.2 q.2).1 h).machineTypes

/-- Two headings of a function of an array of records. The bounds stand at other places, and the
names are in other letters. -/
theorem Ty.sameShape_congruence_recased :
    ∃ (t u : Ty) (r q : Routine.OfVars), t ≠ u ∧ t.sameShape u = true ∧
      machineType t = machineType u ∧ Typing.Interchangeable t u ∧
      r.1.sameSignature q.1 = true ∧
      r.1.paramTypes.map machineType = q.1.paramTypes.map machineType ∧
      r.1.returns.map machineType = q.1.returns.map machineType := by
  let t : Ty := .array (.int .start 1) (.int .start 3) (.record [(⟨"X"⟩, .double)])
  let u : Ty := .array (.int ⟨2, 1⟩ 1) (.int ⟨2, 4⟩ 3) (.record [(⟨"x"⟩, .double)])
  let r : Routine := ⟨.start, "f", ⟨[(⟨"A"⟩, .var .start t)]⟩, some .double, none, true⟩
  let q : Routine := ⟨⟨2, 1⟩, "f", ⟨[(⟨"a"⟩, .var .start u)]⟩, some .double, none, false⟩
  have hne : t ≠ u := by simp [t, u, Position.start]
  have hshape : t.sameShape u = true := by rfl
  have hsignature : r.sameSignature q = true := by rfl
  have hr : r.params.All Declaration.IsVar := List.forall_mem_singleton.2 ⟨_, _, rfl⟩
  have hq : q.params.All Declaration.IsVar := List.forall_mem_singleton.2 ⟨_, _, rfl⟩
  obtain ⟨-, hsame, -, -, -, -, hheadings⟩ := sameShape_congruence
  obtain ⟨hmachine, hinterchangeable⟩ := hsame t u hshape
  exact ⟨t, u, ⟨r, hr⟩, ⟨q, hq⟩, hne, hshape, hmachine, hinterchangeable, hsignature,
    hheadings ⟨r, hr⟩ ⟨q, hq⟩ hsignature⟩

end MiniPascal
