import MiniPascal.Proofs.Checked.Syntax

/-! Types as they occur in programs. -/

namespace MiniPascal

mutual

/-- A type whose records have at most so many fields, the names of which differ. -/
def Ty.Tidy (N : Nat) : Ty → Prop
  | .scalar _ => True
  | .array _ _ element => element.Tidy N
  | .record fields =>
    fields.length ≤ N ∧ (fields.map fun f => f.1.canonical).Nodup ∧ Ty.AllTidy N fields

/-- Fields of types whose records have at most so many fields, the names of which differ. -/
def Ty.AllTidy (N : Nat) : List (Name × Ty) → Prop
  | [] => True
  | (_, t) :: fields => t.Tidy N ∧ Ty.AllTidy N fields

end

/-- A well-formed type whose records have at most so many fields, the names of which differ. -/
structure Ty.Regular (N : Nat) (t : Ty) : Prop where
  wellFormed : t.WellFormed
  tidy : t.Tidy N

namespace Ty

variable {N : Nat}

theorem allTidy_append {fs gs : List (Name × Ty)} :
    AllTidy N (fs ++ gs) ↔ AllTidy N fs ∧ AllTidy N gs := by
  induction fs with
  | nil => simp [AllTidy]
  | cons f fs ih => simp only [List.cons_append, AllTidy, ih, and_assoc]

mutual

theorem Tidy.narrow : {t : Ty} → t.Tidy N → t.Narrow N
  | .scalar _, _ => by simp [Narrow]
  | .array _ _ element, h => by
    rw [Tidy] at h
    rw [Narrow]
    exact h.narrow
  | .record fields, h => by
    rw [Tidy] at h
    rw [Narrow]
    exact ⟨h.1, allNarrow_of_allTidy h.2.2⟩

theorem allNarrow_of_allTidy : {fields : List (Name × Ty)} → AllTidy N fields → AllNarrow N fields
  | [], _ => trivial
  | _ :: _, h => ⟨h.1.narrow, allNarrow_of_allTidy h.2⟩

end

theorem AllTidy.mem {fs : List (Name × Ty)} (h : AllTidy N fs) : ∀ f ∈ fs, f.2.Tidy N := by
  induction fs with
  | nil => exact List.forall_mem_nil _
  | cons f fs ih => exact List.forall_mem_cons.2 ⟨h.1, ih h.2⟩

theorem scalar_regular (s : Scalar) : (Ty.scalar s).Regular N :=
  ⟨by simp [WellFormed], by simp [Tidy]⟩

namespace Regular

variable {low high : Expr} {t : Ty} {fs : List (Name × Ty)}

theorem element (h : (Ty.array low high t).Regular N) : t.Regular N := by
  obtain ⟨hw, ht⟩ := h
  rw [WellFormed] at hw
  rw [Tidy] at ht
  exact ⟨hw.2, ht⟩

theorem fields (h : (Ty.record fs).Regular N) : ∀ f ∈ fs, f.2.Regular N := by
  obtain ⟨hw, ht⟩ := h
  rw [WellFormed] at hw
  rw [Tidy] at ht
  exact fun f hf => ⟨AllWellFormed.mem hw f hf, ht.2.2.mem f hf⟩

theorem length_le (h : (Ty.record fs).Regular N) : fs.length ≤ N := by
  have ht := h.tidy
  rw [Tidy] at ht
  exact ht.1

theorem nodup (h : (Ty.record fs).Regular N) : (fs.map fun f => f.1.canonical).Nodup := by
  have ht := h.tidy
  rw [Tidy] at ht
  exact ht.2.1

end Regular

end Ty

/-- All variables and routines are of regular types. -/
structure Context.Regular (N : Nat) (Γ : Context) : Prop where
  var : ∀ st n t, Γ.var st n t → t.Regular N
  params : ∀ symbol params returns, Γ.routine symbol params returns → ∀ t ∈ params, t.Regular N
  returns : ∀ symbol params returns, Γ.routine symbol params returns → ∀ t ∈ returns, t.Regular N

theorem Expr.Checked.type_regular {N : Nat} {Γ : Context} (hΓ : Γ.Regular N) {e : Expr}
    (h : e.Checked Γ) : e.type.Regular N := by
  induction h with
  | int | double | bool | negative | binary => exact Ty.scalar_regular _
  | var hn => exact hΓ.var _ _ _ hn
  | unary _ _ ih => exact ih
  | call hs => exact hΓ.returns _ _ _ hs _ rfl
  | index _ _ ht _ _ iha =>
    rw [ht] at iha
    exact iha.element
  | field _ _ ht hf ih =>
    rw [ht] at ih
    obtain ⟨m, hget, -⟩ := Ty.findField_getElem hf
    exact ih.fields _ (List.mem_of_getElem? hget)

/-- A statement that obeys the rules where all variables and routines are of regular types. -/
def Stmt.Regular (N : Nat) (st : Stmt) : Prop :=
  ∃ Γ : Context, Γ.Regular N ∧ st.Checked Γ false

end MiniPascal
