import MiniPascal.Proofs.Machine.Activation

/-! A machine whose code has no dead instructions behaves as if they were all there. -/

namespace MiniPascal.Ir

variable {F : Floats} {p : Program} {k : Nat}

/-! ### Code without jumps -/

/-- Runs instructions one after another. -/
def execAll (F : Floats) (p : Program) (k : Nat) : List Instr → Config → Option Config
  | [], C => some C
  | i :: c, C => (i.exec F p k C).bind (execAll F p k c)

theorem execAll_append (c d : List Instr) (C : Config) :
    execAll F p k (c ++ d) C = (execAll F p k c C).bind (execAll F p k d) := by
  induction c generalizing C with
  | nil => rfl
  | cons i c ih =>
    rw [List.cons_append, execAll, execAll, Option.bind_assoc]
    congr 1
    funext C
    exact ih C

theorem execAll_single (i : Instr) (C : Config) : execAll F p k [i] C = i.exec F p k C := by
  rw [execAll]
  cases i.exec F p k C <;> rfl

theorem execAll_step {i : Instr} {C C' : Config} (h : i.exec F p k C = some C') (c : List Instr) :
    execAll F p k (i :: c) C = execAll F p k c C' := by
  rw [execAll, h, Option.bind_some]

/-! ### Labels -/

theorem fromLabel_eq_none {l : Label} {c : List Instr} (h : l ∉ labelsSet c) :
    fromLabel l c = none := by
  induction c with
  | nil => rfl
  | cons i c ih =>
    rw [labelsSet_cons, List.mem_append, not_or] at h
    have hi : i.sets ≠ some l := by
      intro hi
      apply h.1
      rw [hi]
      exact List.mem_cons_self
    rw [fromLabel, ih h.2, if_neg hi]
    rfl

theorem fromLabel_append {l : Label} {d e : List Instr} (h : fromLabel l d = some e)
    (c : List Instr) : fromLabel l (c ++ d) = some e := by
  induction c with
  | nil => exact h
  | cons i c ih =>
    rw [List.cons_append, fromLabel, ih]
    rfl

/-- Where each label is set once, a label leads to the place where it is set. -/
theorem fromLabel_of_suffix {l : Label} {c code : List Instr} (hcode : (labelsSet code).Nodup)
    (h : .label l :: c <:+ code) : fromLabel l code = some (.label l :: c) := by
  obtain ⟨pre, rfl⟩ := h
  apply fromLabel_append
  rw [labelsSet_append, List.nodup_append] at hcode
  have hl : l ∉ labelsSet c := (List.nodup_cons.1 hcode.2.1).1
  rw [fromLabel, fromLabel_eq_none hl]
  exact if_pos rfl

theorem dropDead_local {i : Instr} (hi : i.skips false = false) (c : List Instr) :
    dropDead false (i :: c) = i :: dropDead false c := by
  rw [dropDead_cons, hi]
  cases i <;> rfl

/-- A label leads to the same place when dead code has been dropped. -/
theorem fromLabel_dropDead {tail : List Instr} (ht : labelsSet tail = []) (l : Label) (b : Bool)
    (c : List Instr) :
    fromLabel l (dropDead b c ++ tail) = (fromLabel l c).map (dropDead false · ++ tail) := by
  induction c generalizing b with
  | nil =>
    have hl : l ∉ labelsSet tail := by
      rw [ht]
      exact List.not_mem_nil
    exact fromLabel_eq_none hl
  | cons i c ih =>
    rw [dropDead_cons, List.append_assoc, fromLabel]
    by_cases hi : i.sets = some l
    · -- what is dropped is no label
      obtain rfl : i = .label l := by cases i <;> cases hi; rfl
      show fromLabel l (.label l :: (dropDead false c ++ tail)) = _
      rw [fromLabel, ih, if_pos hi, if_pos hi]
      cases fromLabel l c <;> rfl
    · rw [if_neg hi, Option.or_none, ← ih (i.skips b)]
      rcases i.left_cases b with hleft | ⟨hleft, -, -⟩
      · rw [hleft, List.singleton_append, fromLabel, if_neg hi, Option.or_none]
      · rw [hleft, List.nil_append]

/-! ### Steps -/

namespace State

variable {main tail c c' : List Instr} {C : Config} {l : Label}

/-- The state in the only call, of a function whose body is what dropping dead code leaves of some
code, and a tail; the rest of the code and the tail come next. -/
def running (main tail c : List Instr) (C : Config) : State where
  frames := [⟨1, dropDead false main ++ tail, dropDead false c ++ tail, C.locals, none⟩]
  memory := C.memory
  calls := 1
  output := C.output

/-- The only call. -/
def only (main tail : List Instr) : Activation := ⟨1, dropDead false main ++ tail, none, []⟩

theorem step_local {i : Instr} (hi : i.isLocal = true) :
    (running main tail (i :: c) C).step F p = (i.exec F p 1 C).map (running main tail c) := by
  have hskips : i.skips false = false := by
    cases i with
    | transition => cases hi
    | _ => rfl
  rw [running, dropDead_local hskips, List.cons_append]
  exact Activation.step_exec (A := only main tail) hi

theorem step_label : (running main tail (.label l :: c) C).step F p =
    some (running main tail c C) := rfl

section

variable (ht : labelsSet tail = [])
include ht

/-- A label leads where it does before dead code has been dropped. -/
theorem fromLabel_only (h : fromLabel l main = some c') :
    fromLabel l (only main tail).code = some (dropDead false c' ++ tail) := by
  rw [only, fromLabel_dropDead ht, h]
  rfl

theorem step_jump (h : fromLabel l main = some c') :
    (running main tail (.jump l :: c) C).step F p = some (running main tail c' C) :=
  Activation.step_jump (fromLabel_only ht h)

theorem step_transition {kind : Transition} (h : fromLabel l main = some c') :
    (running main tail (.transition kind (some l) :: c) C).step F p =
      some (running main tail c' C) :=
  Activation.step_transition (fromLabel_only ht h)

theorem step_jumpIf {v : Operand} {b : Bool} (hv : C.value F v = some (.bool b)) {yes no : Label}
    (h : fromLabel (if b then yes else no) main = some c') :
    (running main tail (.jumpIf v yes no :: c) C).step F p = some (running main tail c' C) :=
  Activation.step_jumpIf hv (fromLabel_only ht h)

end

theorem step_pending {kind : Transition} :
    (running main tail (.transition kind none :: c) C).step F p = none := rfl

theorem halts_iff {s : State} (hs : s.frames ≠ []) {n : Nat} {o : String} :
    s.Halts F p n o ↔ ∃ m s', n = m + 1 ∧ s.step F p = some s' ∧ s'.Halts F p m o := by
  constructor
  · intro h
    cases h with
    | done hdone => exact absurd hdone hs
    | step hstep h => exact ⟨_, _, rfl, hstep, h⟩
  · rintro ⟨m, s', rfl, hstep, h⟩
    exact .step hstep h

end State

end MiniPascal.Ir
