import MiniPascal.Proofs.Ir.Flow

/-! Code with one text: two lists of instructions that are written alike wherever they stand. -/

namespace MiniPascal.Ir

namespace Emission

theorem append_assoc (e₁ e₂ e₃ : Emission) : e₁ ++ e₂ ++ e₃ = e₁ ++ (e₂ ++ e₃) := by
  obtain ⟨lines₁, failure₁⟩ := e₁
  obtain ⟨lines₂, failure₂⟩ := e₂
  show append (append _ _) e₃ = append _ (append _ e₃)
  cases failure₁ with
  | some u => rfl
  | none => cases failure₂ <;> simp only [append, List.append_assoc]

end Emission

theorem ends_append (b : Bool) (c d : List Instr) : ends b (c ++ d) = ends (ends b c) d :=
  List.foldl_append

theorem ends_cons (b : Bool) (i : Instr) (c : List Instr) : ends b (i :: c) = ends (i.ends b) c :=
  rfl

/-- What is written for one instruction, behind a complete block or not. -/
def Instr.written (function : String) (terminated : Bool) (i : Instr) : Emission :=
  emitBody function terminated [i]

theorem emitBody_cons (function : String) (b : Bool) (i : Instr) (c : List Instr) :
    emitBody function b (i :: c) = i.written function b ++ emitBody function (i.ends b) c := by
  unfold Instr.written
  by_cases hl : ∃ l, i = .label l
  · obtain ⟨l, rfl⟩ := hl
    simp only [emitBody, Instr.ends, Emission.append_assoc]
    rfl
  · have hl : ∀ l, i ≠ .label l := fun l h => hl ⟨l, h⟩
    cases b with
    | true =>
      -- behind a terminator nothing is written before the next label
      have hends : i.ends true = true := by
        cases i with
        | label l => exact absurd rfl (hl l)
        | _ => rfl
      rw [emitBody_terminated function hl, emitBody_terminated function hl, hends]
      rfl
    | false =>
      have hends : i.ends false = i.isTerminator := by
        cases i with
        | label l => exact absurd rfl (hl l)
        | _ => rfl
      by_cases ht : ∃ kind, i = .transition kind none
      · obtain ⟨kind, rfl⟩ := ht
        rfl
      · have ht : ∀ kind, i ≠ .transition kind none := fun kind h => ht ⟨kind, h⟩
        rw [emitBody_line function hl ht, emitBody_line function hl ht, hends,
          Emission.append_assoc]
        rfl

theorem emitBody_append (function : String) (b : Bool) (c d : List Instr) :
    emitBody function b (c ++ d) = emitBody function b c ++ emitBody function (ends b c) d := by
  induction c generalizing b with
  | nil => rfl
  | cons i c ih =>
    rw [List.cons_append, emitBody_cons, emitBody_cons, ih, Emission.append_assoc, ends_cons]

/-- Two lists of instructions that are written alike wherever they stand. -/
structure SameText (c d : List Instr) : Prop where
  written : ∀ function b, emitBody function b c = emitBody function b d
  ends : ∀ b, ends b c = ends b d

namespace SameText

variable {c c' d d' : List Instr}

theorem refl (c : List Instr) : SameText c c := ⟨fun _ _ => rfl, fun _ => rfl⟩

theorem symm (h : SameText c d) : SameText d c :=
  ⟨fun f b => (h.written f b).symm, fun b => (h.ends b).symm⟩

theorem trans (h : SameText c d) (h' : SameText d d') : SameText c d' :=
  ⟨fun f b => (h.written f b).trans (h'.written f b), fun b => (h.ends b).trans (h'.ends b)⟩

theorem append (h : SameText c d) (h' : SameText c' d') : SameText (c ++ c') (d ++ d') where
  written f b := by rw [emitBody_append, emitBody_append, h.written, h.ends, h'.written]
  ends b := by rw [ends_append, ends_append, h.ends, h'.ends]

/-- A transition with a target is written as a jump. -/
theorem transition (kind : Transition) (l : Label) :
    SameText [.jump l] [.transition kind (some l)] :=
  ⟨fun _ b => by cases b <;> rfl, fun _ => rfl⟩

/-- Code that is dropped is not written. The block is complete wherever instructions are dropped:
`b` is the state of the writer, which stops at every terminator, and `skipping` that of the pass,
which stops at transitions only. -/
theorem dropDead (c : List Instr) : SameText (dropDead false c) c := by
  have h : ∀ skipping b, (skipping = true → b = true) →
      (∀ f, emitBody f b (Ir.dropDead skipping c) = emitBody f b c) ∧
        Ir.ends b (Ir.dropDead skipping c) = Ir.ends b c := by
    induction c with
    | nil => exact fun _ _ _ => ⟨fun _ => rfl, rfl⟩
    | cons i c ih =>
      intro skipping b hb
      rw [dropDead_cons]
      rcases i.left_cases skipping with hl | ⟨hl, hskip, hs⟩
      · -- the instruction stays: the writer has seen a terminator if the pass goes on skipping
        have hnext : i.skips skipping = true → i.ends b = true := by
          intro hs
          cases i with
          | label => cases hs
          | transition kind target => exact Bool.or_true _
          | _ => exact Bool.or_eq_true_iff.2 (.inl (hb hs))
        obtain ⟨hw, he⟩ := ih (i.skips skipping) (i.ends b) hnext
        rw [hl, List.singleton_append]
        exact ⟨fun f => by rw [emitBody_cons, hw, ← emitBody_cons], he⟩
      · -- the instruction is dropped: the block is complete, so the writer leaves it out too
        have hlabel : ∀ l, i ≠ .label l := by
          rintro l rfl
          cases hs
        have hends : i.ends true = true := by
          cases i with
          | label l => exact absurd rfl (hlabel l)
          | _ => rfl
        cases hskip
        cases hb rfl
        obtain ⟨hw, he⟩ := ih true true id
        rw [hl, hs, List.nil_append]
        refine ⟨fun f => ?_, ?_⟩
        · rw [hw, emitBody_terminated f hlabel]
        · rw [he, ends_cons, hends]
  exact ⟨fun f b => (h false b nofun).1 f, fun b => (h false b nofun).2⟩

end SameText

/-- Functions whose bodies are written alike are written alike. -/
theorem Function.emit_eq {name : String} {returns : Ty} {parameters : List (String × Ty)}
    {c d : List Instr} (h : SameText c d) :
    (⟨name, returns, parameters, c⟩ : Function).emit =
      (⟨name, returns, parameters, d⟩ : Function).emit := by
  rw [emit, emit, h.written]

end MiniPascal.Ir
