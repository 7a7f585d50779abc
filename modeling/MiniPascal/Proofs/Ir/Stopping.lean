import MiniPascal.Proofs.Ir.Blocks

/-! Where the writing of a program stops. -/

namespace MiniPascal.Ir

/-! ### Transitions that are reached, and targets for them -/

/-- The kind of a transition without a target. -/
def Instr.pending? : Instr → Option Transition
  | .transition kind none => some kind
  | _ => none

/-- The transitions without a target in front of which no terminator stands in their block. -/
def Function.live (f : Function) : List Unresolved :=
  f.body.zipIdx.filterMap fun (i, k) =>
    if Complete f.body k then none else i.pending?.map fun kind => ⟨kind, f.name⟩

/-- The transitions of all functions at which writing would have to stop, in order. -/
def Program.live (p : Program) : List Unresolved := p.functions.flatMap Function.live

/-- The instruction with a target, if it is a transition without one. -/
def Instr.withTarget (l : Label) : Instr → Instr
  | .transition kind none => .transition kind (some l)
  | i => i

/-- The code in which every transition without a target has the one for its place. -/
def withTargets (target : Nat → Label) (code : List Instr) : List Instr :=
  code.mapIdx fun k i => i.withTarget (target k)

/-- The program in which every transition without a target has got one, chosen by the places of its
function and of itself. -/
def Program.withTargets (target : Nat → Nat → Label) (p : Program) : Program :=
  { p with functions :=
      p.functions.mapIdx fun n f => { f with body := Ir.withTargets (target n) f.body } }

/-- One emission is another as far as that one has not been stopped: without a failure it is the
same, and behind a failure it goes on with a jump. -/
inductive Emission.Reaches : Emission → Emission → Prop
  | whole (lines : List String) : Reaches ⟨lines, none⟩ ⟨lines, none⟩
  | stopped (lines : List String) (u : Unresolved) (l : Label) (more : List String) :
    Reaches ⟨lines, some u⟩ ⟨lines ++ describeJump l :: more, none⟩

variable {e e' d d' : Emission} {code c : List Instr} {function : String}

/-! ### Emissions one behind the other -/

@[simp] theorem Emission.failure_append (e d : Emission) :
    (e ++ d).failure = e.failure.or d.failure := by
  obtain ⟨lines, failure⟩ := e
  cases failure <;> rfl

@[simp] theorem Emission.failure_ofLines (lines : List String) :
    (Emission.ofLines lines).failure = none := rfl

namespace Emission.Reaches

theorem refl (h : e.failure = none) : Reaches e e := by
  obtain ⟨lines, failure⟩ := e
  cases h
  exact .whole lines

/-- What stands behind a failure is not written, so it does not matter there. -/
theorem append (h : Reaches e d) (h' : Reaches e' d') : Reaches (e ++ e') (d ++ d') := by
  cases h with
  | whole lines =>
    cases h' with
    | whole lines' => exact .whole (lines ++ lines')
    | stopped lines' u l more =>
      have hstopped := Reaches.stopped (lines ++ lines') u l more
      rwa [List.append_assoc] at hstopped
  | stopped lines u l more =>
    have hdone : ∃ lines', d' = ⟨lines', none⟩ := by
      cases h' <;> exact ⟨_, rfl⟩
    obtain ⟨lines', rfl⟩ := hdone
    have hmore : (⟨lines ++ describeJump l :: more, none⟩ : Emission) ++ ⟨lines', none⟩ =
        ⟨lines ++ describeJump l :: (more ++ lines'), none⟩ := by
      show Emission.mk (lines ++ describeJump l :: more ++ lines') none = _
      rw [List.append_assoc, List.cons_append]
    rw [hmore]
    exact .stopped lines u l (more ++ lines')

/-- The texts of the two emissions. -/
theorem text (h : Reaches e d) :
    d.failure = none ∧ (e.failure = none → d.text = e.text) ∧
      (e.failure ≠ none → ∃ l more, d.text = e.text ++ (describeJump l ++ "\n") ++ more) := by
  cases h with
  | whole lines => exact ⟨rfl, fun _ => rfl, fun h => absurd rfl h⟩
  | stopped lines u l more =>
    refine ⟨rfl, nofun, fun _ => ⟨l, (ofLines more).text, ?_⟩⟩
    apply String.toList_inj.1
    simp [Emission.text, ofLines]

end Emission.Reaches

/-! ### One instruction -/

/-- Only a transition without a target stops the writing, and not in a complete block. -/
theorem Instr.failure_written (function : String) (b : Bool) (i : Instr) :
    (i.written function b).failure =
      if b then none else i.pending?.map fun kind => ⟨kind, function⟩ := by
  cases i with
  | transition kind target => cases target <;> cases b <;> rfl
  | _ => cases b <;> rfl

theorem Instr.reaches_written (function : String) (b : Bool) (l : Label) (i : Instr) :
    (i.written function b).Reaches ((i.withTarget l).written function b) := by
  by_cases ht : ∃ kind, i = .transition kind none
  · obtain ⟨kind, rfl⟩ := ht
    cases b with
    | true => exact .whole []
    | false => exact .stopped [] ⟨kind, function⟩ l []
  · -- every other instruction is as it was, and can be written
    have hsame : i.withTarget l = i ∧ i.pending? = none := by
      cases i with
      | transition kind target =>
        cases target with
        | none => exact absurd ⟨kind, rfl⟩ ht
        | some target => exact ⟨rfl, rfl⟩
      | _ => exact ⟨rfl, rfl⟩
    rw [hsame.1]
    apply Emission.Reaches.refl
    rw [failure_written, hsame.2]
    exact ite_self none

theorem Instr.ends_withTarget (b : Bool) (l : Label) (i : Instr) :
    (i.withTarget l).ends b = i.ends b := by
  cases i with
  | transition kind target => cases target <;> rfl
  | _ => rfl

/-! ### The body of a function -/

theorem emitBody_reaches (target : Nat → Label) (b : Bool) (c : List Instr) :
    (emitBody function b c).Reaches (emitBody function b (withTargets target c)) := by
  induction c generalizing b target with
  | nil => exact .whole []
  | cons i c ih =>
    have hcons : withTargets target (i :: c) =
        i.withTarget (target 0) :: withTargets (fun k => target (k + 1)) c := List.mapIdx_cons
    rw [hcons, emitBody_cons, emitBody_cons, Instr.ends_withTarget]
    exact (i.reaches_written function b (target 0)).append (ih _ _)

/-- Writing stops at the first transition that is reached without a target. The flag of the writer
says at each place whether the block is complete. -/
theorem failure_emitBody (function : String) (pre : List Instr) (hcode : code = pre ++ c) :
    (emitBody function (Complete code pre.length) c).failure =
      ((c.zipIdx pre.length).filterMap fun (i, k) =>
        if Complete code k then none
        else i.pending?.map fun kind => (⟨kind, function⟩ : Unresolved)).head? := by
  induction c generalizing pre with
  | nil => rfl
  | cons i c ih =>
    have hi : code[pre.length]? = some i := by
      rw [hcode]
      simp
    have hnext : decide (Complete code (pre.length + 1)) =
        i.ends (Complete code pre.length) := raises_ends.decide_succ hi (Nat.zero_le _)
    have ih := ih (pre ++ [i]) (by rw [hcode, List.append_assoc]; rfl)
    rw [List.length_append, List.length_singleton, hnext] at ih
    rw [emitBody_cons, Emission.failure_append, ih, Instr.failure_written, List.zipIdx_cons,
      List.head?_filterMap, List.head?_filterMap, List.findSome?_cons]
    simp only [decide_eq_true_eq]
    by_cases hcomplete : Complete code pre.length
    · rw [if_pos hcomplete]
      rfl
    · rw [if_neg hcomplete]
      cases i.pending? <;> rfl

/-! ### Functions and programs -/

theorem Function.failure_emit (f : Function) : f.emit.failure = f.live.head? := by
  have hstart : decide (Complete f.body 0) = false :=
    decide_eq_false (not_behind_of_le (Nat.le_refl 0))
  have hbody := failure_emitBody f.name [] (rfl : f.body = [] ++ f.body)
  rw [List.length_nil, hstart] at hbody
  rw [emit, Emission.failure_append, Emission.failure_append, hbody]
  simp [live]

theorem Function.reaches_emit (target : Nat → Label) (f : Function) :
    f.emit.Reaches { f with body := withTargets target f.body }.emit :=
  (Emission.Reaches.append (.whole _) (emitBody_reaches target false f.body)).append (.whole _)

theorem Function.mem_live {f : Function} {u : Unresolved} :
    u ∈ f.live ↔ u.function = f.name ∧ ∃ k,
      f.body[k]? = some (.transition u.kind none) ∧ ¬Complete f.body k := by
  obtain ⟨kind, name⟩ := u
  constructor
  · intro hu
    obtain ⟨⟨i, k⟩, hi, hlive⟩ := List.mem_filterMap.1 hu
    have hplace := List.mem_zipIdx_iff_getElem?.1 hi
    dsimp only at hlive hplace
    split at hlive
    · cases hlive
    · rename_i hcomplete
      cases i with
      | transition kind' target =>
        cases target with
        | none =>
          cases hlive
          exact ⟨rfl, k, hplace, hcomplete⟩
        | some target => cases hlive
      | _ => cases hlive
  · rintro ⟨rfl, k, hplace, hcomplete⟩
    refine List.mem_filterMap.2 ⟨(.transition kind none, k), ?_, ?_⟩
    · exact List.mem_zipIdx_iff_getElem?.2 hplace
    · exact if_neg hcomplete

theorem failure_emitFunctions (fs : List Function) :
    (emitFunctions fs).failure = (fs.flatMap Function.live).head? := by
  induction fs with
  | nil => rfl
  | cons f fs ih =>
    rw [emitFunctions, Emission.failure_append, f.failure_emit, ih, List.flatMap_cons,
      List.head?_append]

theorem reaches_emitFunctions (target : Nat → Nat → Label) (fs : List Function) :
    (emitFunctions fs).Reaches (emitFunctions
      (fs.mapIdx fun n f => { f with body := withTargets (target n) f.body })) := by
  induction fs generalizing target with
  | nil => exact .whole []
  | cons f fs ih =>
    rw [List.mapIdx_cons, emitFunctions, emitFunctions]
    exact (f.reaches_emit (target 0)).append (ih _)

theorem Program.failure_emit (p : Program) : p.emit.failure = p.live.head? := by
  rw [emit, Emission.failure_append, failure_emitFunctions]
  rfl

theorem Program.reaches_emit (target : Nat → Nat → Label) (p : Program) :
    p.emit.Reaches (p.withTargets target).emit :=
  Emission.Reaches.append (.whole _) (reaches_emitFunctions target p.functions)

/-- Writing a program fails exactly if some body has a transition without a target in front of which
no terminator stands in its block, and the failure is the first of them. With any targets in their
place the whole program is written: its text is the same if nothing has failed, and else it starts
with all that had been written by then and goes on with the jump that had been missing. -/
theorem Program.emit_stops (p : Program) :
    (p.emit.failure ≠ none ↔ ∃ f ∈ p.functions, ∃ k kind,
      f.body[k]? = some (.transition kind none) ∧ ¬Complete f.body k) ∧
    p.emit.failure = p.live.head? ∧
    ∀ target, (p.withTargets target).emit.failure = none ∧
      (p.emit.failure = none → (p.withTargets target).emit.text = p.emit.text) ∧
      (p.emit.failure ≠ none → ∃ l more,
        (p.withTargets target).emit.text = p.emit.text ++ (describeJump l ++ "\n") ++ more) := by
  refine ⟨?_, p.failure_emit, fun target => (p.reaches_emit target).text⟩
  rw [p.failure_emit, ne_eq, List.head?_eq_none_iff]
  constructor
  · intro hlive
    obtain ⟨u, us, hu⟩ := List.exists_cons_of_ne_nil hlive
    have hmem : u ∈ p.live := hu ▸ List.mem_cons_self
    obtain ⟨f, hf, huf⟩ := List.mem_flatMap.1 hmem
    obtain ⟨-, k, hplace, hcomplete⟩ := Function.mem_live.1 huf
    exact ⟨f, hf, k, u.kind, hplace, hcomplete⟩
  · rintro ⟨f, hf, k, kind, hplace, hcomplete⟩
    have hmem : ⟨kind, f.name⟩ ∈ p.live :=
      List.mem_flatMap.2 ⟨f, hf, Function.mem_live.2 ⟨rfl, k, hplace, hcomplete⟩⟩
    exact List.ne_nil_of_mem hmem

end MiniPascal.Ir
