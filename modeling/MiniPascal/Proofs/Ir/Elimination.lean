import MiniPascal.Proofs.Ir.Behind
import MiniPascal.Proofs.Ir.Emission

/-! What dropping dead code does to a list, place by place. -/

namespace MiniPascal.Ir

/-- What dropping dead code from a place on leaves. -/
def pruned (code : List Instr) (start : Nat) : List Instr :=
  code.take start ++ dropDead false (code.drop start)

variable {code : List Instr} {start k : Nat}

theorem eliminateDeadCode_eq (code : List Instr) (start : Nat) :
    eliminateDeadCode code start =
      (pruned code start, code.length - (pruned code start).length) := rfl

theorem pruned_of_length_le (h : code.length ≤ start) : pruned code start = code := by
  rw [pruned, List.take_of_length_le h, List.drop_eq_nil_of_le h]
  exact List.append_nil code

theorem pruned_nil (start : Nat) : pruned [] start = [] := pruned_of_length_le (Nat.zero_le start)

theorem take_pruned (code : List Instr) (start : Nat) :
    (pruned code start).take start = code.take start := by
  rw [pruned]
  by_cases h : start ≤ code.length
  · exact List.take_left' (List.length_take_of_le h)
  · -- nothing follows such a place
    rw [List.drop_eq_nil_of_le (by omega), dropDead, List.append_nil, List.take_take, Nat.min_self]

theorem drop_pruned (code : List Instr) (start : Nat) :
    (pruned code start).drop start = dropDead false (code.drop start) := by
  have h := List.take_append_drop start (pruned code start)
  rw [take_pruned] at h
  exact List.append_cancel_left h

theorem labelsSet_pruned (code : List Instr) (start : Nat) :
    labelsSet (pruned code start) = labelsSet code := by
  rw [pruned, labelsSet_append, labelsSet_dropDead, ← labelsSet_append, List.take_append_drop]

theorem pruned_pruned (code : List Instr) (start : Nat) :
    pruned (pruned code start) start = pruned code start := by
  show (pruned code start).take start ++ dropDead false ((pruned code start).drop start) = _
  rw [take_pruned, drop_pruned, (SameLive.dropDead _).drop]
  rfl

theorem SameText.pruned (code : List Instr) (start : Nat) : SameText (pruned code start) code := by
  have h := (SameText.refl (code.take start)).append (SameText.dropDead (code.drop start))
  rwa [List.take_append_drop] at h

/-! ### The places that are dropped -/

/-- The instruction at the place `k` follows a transition with a target, which is not in front of
`start`, and no label is between them. -/
def Dead (code : List Instr) (start k : Nat) : Prop :=
  Behind Instr.isResolved code start k ∧ code[k]?.bind Instr.sets = none

instance : Decidable (Dead code start k) :=
  inferInstanceAs (Decidable (Behind Instr.isResolved code start k ∧ _))

theorem pruned_append_of_le {d : List Instr} (h : start ≤ code.length) :
    pruned (code ++ d) start =
      pruned code start ++ dropDead (skips false (code.drop start)) d := by
  rw [pruned, List.take_append_of_le_length h, List.drop_append_of_le_length h, dropDead_append,
    ← List.append_assoc]
  rfl

/-- The next instruction is left unless it is dead. -/
theorem pruned_take_succ (h : k < code.length) :
    pruned (code.take (k + 1)) start =
      pruned (code.take k) start ++ if Dead code start k then [] else [code[k]] := by
  have hlength : (code.take k).length = k := List.length_take_of_le (Nat.le_of_lt h)
  have hbehind : skips false ((code.take k).drop start) = _ :=
    raises_skips.foldl_eq (Nat.le_of_lt h)
  rw [List.take_succ_eq_append_getElem h]
  by_cases hs : start ≤ k
  · rw [pruned_append_of_le (by omega), dropDead_cons, dropDead, List.append_nil]
    congr 1
    by_cases hb : Behind Instr.isResolved code start k
    · rw [hbehind, decide_eq_true hb]
      have hdead : Dead code start k ↔ code[k].sets = none := by
        rw [Dead, List.getElem?_eq_getElem h]
        exact and_iff_right hb
      cases hi : code[k] with
      | label l => exact (if_neg (by rw [hdead, hi]; exact Option.some_ne_none l)).symm
      | _ => exact (if_pos (by rw [hdead, hi]; rfl)).symm
    · rw [hbehind, decide_eq_false hb, if_neg fun hd => hb hd.1]
      cases code[k] <;> rfl
  · have hnot : ¬Dead code start k := fun hd => not_behind_of_le (by omega) hd.1
    have hlong : (code.take k ++ [code[k]]).length ≤ start := by
      rw [List.length_append, hlength]
      exact Nat.lt_of_not_le hs
    rw [if_neg hnot, pruned_of_length_le hlong, pruned_of_length_le (by omega)]

theorem pruned_take (h : k ≤ code.length) : pruned (code.take k) start =
    (List.range k).filterMap fun j => if Dead code start j then none else code[j]? := by
  induction k with
  | zero => exact pruned_nil start
  | succ k ih =>
    rw [pruned_take_succ h, ih (Nat.le_of_lt h), List.range_succ, List.filterMap_append]
    congr 1
    have hk : code[k]? = some code[k] := List.getElem?_eq_getElem h
    by_cases hd : Dead code start k <;> simp [hd, hk]

/-- What is left is what stands at the places that are not dead. -/
theorem pruned_eq (code : List Instr) (start : Nat) : pruned code start =
    (List.range code.length).filterMap fun k => if Dead code start k then none else code[k]? := by
  rw [← pruned_take (Nat.le_refl _), List.take_length]

/-- As many instructions are missing as places are dead. -/
theorem length_pruned (code : List Instr) (start : Nat) :
    code.length - (pruned code start).length =
      (List.range code.length).countP fun k => Dead code start k := by
  -- the places that are not dead are counted by what is left
  have hcount : (pruned code start).length =
      (List.range code.length).countP fun k => ¬Dead code start k := by
    rw [pruned_eq, List.length_filterMap_eq_countP]
    refine List.countP_congr fun k hk => ?_
    rw [List.getElem?_eq_getElem (List.mem_range.1 hk)]
    by_cases hd : Dead code start k <;> simp [hd]
  have htotal := List.length_eq_countP_add_countP (fun k => decide (Dead code start k))
    (l := List.range code.length)
  simp only [List.length_range, decide_eq_true_eq] at htotal
  rw [hcount]
  omega

/-- Dropping dead code and writing agree on it. A function is written as before, in its program too;
what is in front of the start stays, all labels stay in order, and else those instructions are gone,
and counted, that follow a transition with a target with no label between. Doing it once more drops
nothing. -/
theorem eliminateDeadCode_exact (f : Function) (start : Nat) :
    let (code, dropped) := eliminateDeadCode f.body start
    let g : Function := { f with body := code }
    g.emit = f.emit ∧
    (∀ externals globals fs fs',
      (⟨externals, globals, fs ++ g :: fs'⟩ : Program).emit =
        (⟨externals, globals, fs ++ f :: fs'⟩ : Program).emit) ∧
    code.take start = f.body.take start ∧
    labelsSet code = labelsSet f.body ∧
    code = ((List.range f.body.length).filterMap fun k =>
      if Dead f.body start k then none else f.body[k]?) ∧
    dropped = ((List.range f.body.length).countP fun k => Dead f.body start k) ∧
    eliminateDeadCode code start = (code, 0) := by
  rw [eliminateDeadCode_eq]
  dsimp only
  have hemit : ({ f with body := pruned f.body start } : Function).emit = f.emit :=
    Function.emit_eq (SameText.pruned f.body start)
  refine ⟨hemit, ?_, take_pruned f.body start, labelsSet_pruned f.body start,
    pruned_eq f.body start, length_pruned f.body start, ?_⟩
  · intro externals globals fs fs'
    rw [Program.emit, Program.emit]
    congr 1
    induction fs with
    | nil => rw [List.nil_append, List.nil_append, emitFunctions, emitFunctions, hemit]
    | cons _ fs ih => rw [List.cons_append, List.cons_append, emitFunctions, emitFunctions, ih]
  · rw [eliminateDeadCode_eq, pruned_pruned, Nat.sub_self]

/-- Code behind a jump of a loop is dropped up to the label of its exit. -/
example :
    let code : List Instr :=
      [.label 0, .transition .breakLoop (some 3), .ret none, .jump 0, .label 3, .ret none]
    eliminateDeadCode code 0 =
        ([.label 0, .transition .breakLoop (some 3), .label 3, .ret none], 2) ∧
      eliminateDeadCode code 2 = (code, 0) := ⟨rfl, rfl⟩

end MiniPascal.Ir
