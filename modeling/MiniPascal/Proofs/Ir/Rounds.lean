import MiniPascal.Proofs.Ir.Patch

/-! Every round of resolving searches from the front again, yet the rounds go over the code only
once. -/

namespace MiniPascal.Ir

variable {exit next : Label} {n : Nat} {code code' code'' : List Instr}

/-- A round of the loop that resolves transitions. -/
def Round (exit next : Label) (code code' : List Instr) : Prop :=
  resolveFirst? exit next code = some code'

/-- There are no endless rounds: the transitions without a target become fewer. -/
theorem acc_round (exit next : Label) (code : List Instr) :
    Acc (fun later earlier => Round exit next earlier later) code := by
  have hfewer : ∀ {later earlier}, Round exit next earlier later →
      later.countP Instr.isUnresolved < earlier.countP Instr.isUnresolved :=
    fun h => resolveFirst?_lt h
  exact (Subrelation.wf hfewer (measure (List.countP Instr.isUnresolved)).wf).apply code

/-- A round passes over a front in which nothing is left to resolve. -/
theorem Round.behind {front : List Instr} (hfront : Settled front)
    (h : Round exit next (front ++ code) code') :
    ∃ middle kind rest, Settled middle ∧ code = middle ++ .transition kind none :: rest ∧
      code' = front ++ middle ++
        .transition kind (some (Transition.target kind exit next)) :: rest := by
  obtain ⟨before, kind, rest, hbefore, hcode, rfl⟩ := exists_of_resolveFirst? h
  rcases List.append_eq_append_iff.1 hcode with ⟨middle, rfl, hmiddle⟩ | ⟨extra, rfl, hextra⟩
  · have hsettled := (settled_append.1 (settled_iff.2 hbefore)).2
    exact ⟨middle, kind, rest, hsettled, hmiddle, rfl⟩
  · cases extra with
    | nil => exact ⟨[], kind, rest, nofun, hextra.symm, by rw [List.append_nil, List.append_nil]⟩
    | cons i extra =>
      -- the front would hold the transition that the round resolves
      obtain ⟨rfl, -⟩ := List.cons.inj hextra
      exact absurd (List.mem_append_right before List.mem_cons_self) (hfront kind)

/-- A number of rounds. -/
inductive Rounds (exit next : Label) : Nat → List Instr → List Instr → Prop
  | start (code : List Instr) : Rounds exit next 0 code code
  | more {n : Nat} {code code' code'' : List Instr} : Rounds exit next n code code' →
    Round exit next code' code'' → Rounds exit next (n + 1) code code''

namespace Rounds

theorem head (hround : Round exit next code code') (h : Rounds exit next n code' code'') :
    Rounds exit next (n + 1) code code'' := by
  induction h with
  | start => exact (Rounds.start code).more hround
  | more _ hlast ih => exact (ih hround).more hlast

/-- After some rounds the code is completed up to a place and untouched from there on. -/
theorem passes (h : Rounds exit next n code code') :
    ∃ done rest, code = done ++ rest ∧ code' = done.map (Instr.resolved exit next) ++ rest ∧
      done.countP Instr.isUnresolved = n := by
  induction h with
  | start code => exact ⟨[], code, rfl, rfl, rfl⟩
  | more _ hround ih =>
    obtain ⟨done, rest, hcode, rfl, hcount⟩ := ih
    -- nothing is left to resolve in the front, so the round finds its transition behind it
    obtain ⟨middle, kind, rest, hmiddle, rfl, rfl⟩ :=
      hround.behind (settled_resolved exit next done)
    refine ⟨done ++ middle ++ [.transition kind none], rest, ?_, ?_, ?_⟩
    · rw [hcode, List.append_assoc, List.append_assoc, List.singleton_append]
    · rw [List.map_append, List.map_append, hmiddle.resolved, List.append_assoc,
        List.append_assoc, List.append_assoc]
      rfl
    · rw [List.countP_append, List.countP_append, hmiddle.countP, hcount]
      rfl

end Rounds

/-- What is returned is the outcome of the rounds, and how many they were. -/
theorem rounds_resolveTransitions (exit next : Label) (code : List Instr) :
    Rounds exit next (resolveTransitions exit next code).2 code
      (resolveTransitions exit next code).1 := by
  fun_induction resolveTransitions exit next code with
  | case1 code h => exact .start code
  | case2 code code₁ h code₂ n hrest ih =>
    rw [hrest] at ih
    exact ih.head h

theorem settled_resolveTransitions (exit next : Label) (code : List Instr) :
    Settled (resolveTransitions exit next code).1 := by
  rw [resolveTransitions_eq]
  exact settled_resolved exit next code

theorem resolveTransitions_count (exit next : Label) (code : List Instr) :
    (resolveTransitions exit next code).2 = code.countP Instr.isUnresolved := by
  obtain ⟨done, rest, hcode, hresult, hcount⟩ := (rounds_resolveTransitions exit next code).passes
  -- the rounds have ended, so the untouched rest has nothing to resolve either
  have hrest : Settled rest :=
    (settled_append.1 (hresult ▸ settled_resolveTransitions exit next code)).2
  calc (resolveTransitions exit next code).2
      = done.countP Instr.isUnresolved := hcount.symm
    _ = (done ++ rest).countP Instr.isUnresolved := by
      rw [List.countP_append, hrest.countP, Nat.add_zero]
    _ = code.countP Instr.isUnresolved := by rw [hcode]

/-- Where nothing is left to resolve, nothing is done. -/
theorem Settled.resolveTransitions (h : Settled code) (exit next : Label) :
    Ir.resolveTransitions exit next code = (code, 0) := by
  refine Prod.ext ?_ ?_
  · exact (resolveTransitions_eq exit next code).trans (h.resolved exit next)
  · exact (resolveTransitions_count exit next code).trans h.countP

/-- The code of a loop with its transitions completed: of the same length, and the same but for
the transitions that had no target. -/
structure Completes (exit next : Label) (code code' : List Instr) : Prop where
  length : code'.length = code.length
  breaks : ∀ k : Nat, code[k]? = some (.transition .breakLoop none) →
    code'[k]? = some (.transition .breakLoop (some exit))
  continues : ∀ k : Nat, code[k]? = some (.transition .continueLoop none) →
    code'[k]? = some (.transition .continueLoop (some next))
  others : ∀ (k : Nat) i, code[k]? = some i → (∀ kind, i ≠ .transition kind none) →
    code'[k]? = some i

theorem completes_resolved (exit next : Label) (code : List Instr) :
    Completes exit next code (code.map (Instr.resolved exit next)) where
  length := List.length_map _
  breaks k h := by rw [List.getElem?_map, h]; rfl
  continues k h := by rw [List.getElem?_map, h]; rfl
  others k i h hi := by rw [List.getElem?_map, h, Option.map_some, Instr.resolved_of_ne hi]

/-- The loop that resolves transitions comes to an end and goes over the code once. It completes the
code, with as many rounds as there were transitions without a target, and returns their number; a
second time, for whatever loop, it does nothing. -/
theorem resolveTransitions_exact (exit next : Label) (code : List Instr) :
    Acc (fun later earlier => Round exit next earlier later) code ∧
    Rounds exit next (resolveTransitions exit next code).2 code
      (resolveTransitions exit next code).1 ∧
    (∀ n code', Rounds exit next n code code' →
      ∃ done rest, code = done ++ rest ∧ code' = done.map (Instr.resolved exit next) ++ rest ∧
        done.countP Instr.isUnresolved = n) ∧
    (resolveTransitions exit next code).2 = code.countP Instr.isUnresolved ∧
    Completes exit next code (resolveTransitions exit next code).1 ∧
    ∀ exit' next', resolveTransitions exit' next' (resolveTransitions exit next code).1 =
      ((resolveTransitions exit next code).1, 0) := by
  have hcompletes : Completes exit next code (resolveTransitions exit next code).1 := by
    rw [resolveTransitions_eq]
    exact completes_resolved exit next code
  exact ⟨acc_round exit next code, rounds_resolveTransitions exit next code,
    fun _ _ => Rounds.passes, resolveTransitions_count exit next code, hcompletes,
    (settled_resolveTransitions exit next code).resolveTransitions⟩

/-- A `break` that has its target between two transitions that have none. -/
theorem resolveTransitions_exact_mixed :
    let code : List Instr := [.transition .continueLoop none, .label 5,
      .transition .breakLoop (some 7), .transition .breakLoop none]
    let result := resolveTransitions 1 2 code
    result.2 = 2 ∧ result.1[0]? = some (.transition .continueLoop (some 2)) ∧
      result.1[2]? = some (.transition .breakLoop (some 7)) ∧
      result.1[3]? = some (.transition .breakLoop (some 1)) ∧
      resolveTransitions 8 9 result.1 = (result.1, 0) := by
  intro code result
  obtain ⟨-, -, -, hcount, hcompletes, hagain⟩ := resolveTransitions_exact 1 2 code
  exact ⟨hcount, hcompletes.continues 0 rfl, hcompletes.others 2 _ rfl nofun,
    hcompletes.breaks 3 rfl, hagain 8 9⟩

end MiniPascal.Ir
