import MiniPascal.Proofs.Ir.Flow

/-! What stands in front of an instruction in its block. -/

namespace MiniPascal.Ir

/-- An instruction of a kind stands in front of the place `k`, but not in front of `start`, and
there is no label from it on up to `k`. -/
def Behind (stops : Instr → Bool) (code : List Instr) (start k : Nat) : Prop :=
  ∃ j, j < k ∧ start ≤ j ∧ code[j]?.any stops = true ∧
    ∀ m, m < k → j ≤ m → code[m]?.bind Instr.sets = none

variable {stops : Instr → Bool} {code : List Instr} {start k : Nat}

instance : Decidable (Behind stops code start k) :=
  inferInstanceAs (Decidable (∃ j, j < k ∧ start ≤ j ∧ code[j]?.any stops = true ∧
    ∀ m, m < k → j ≤ m → code[m]?.bind Instr.sets = none))

theorem not_behind_of_le (h : k ≤ start) : ¬Behind stops code start k := by
  rintro ⟨j, hj, hs, -⟩
  omega

/-- What is behind an instruction is behind what that one is behind, or behind it, unless it is a
label. -/
theorem behind_succ : Behind stops code start (k + 1) ↔
    code[k]?.bind Instr.sets = none ∧
      (Behind stops code start k ∨ start ≤ k ∧ code[k]?.any stops = true) := by
  constructor
  · rintro ⟨j, hj, hs, hstop, hlabel⟩
    refine ⟨hlabel k (Nat.lt_succ_self k) (Nat.le_of_lt_succ hj), ?_⟩
    by_cases hjk : j = k
    · subst hjk
      exact .inr ⟨hs, hstop⟩
    · exact .inl ⟨j, by omega, hs, hstop, fun m hm => hlabel m (by omega)⟩
  · rintro ⟨hk, ⟨j, hj, hs, hstop, hlabel⟩ | ⟨hs, hstop⟩⟩
    · refine ⟨j, by omega, hs, hstop, fun m hm hjm => ?_⟩
      by_cases hmk : m = k
      · rwa [hmk]
      · exact hlabel m (by omega) hjm
    · refine ⟨k, Nat.lt_succ_self k, hs, hstop, fun m hm hkm => ?_⟩
      rwa [show m = k by omega]

/-- A flag that instructions of a kind raise and labels lower. -/
def Raises (stops : Instr → Bool) (next : Bool → Instr → Bool) : Prop :=
  ∀ b i, next b i = (i.sets.isNone && (b || stops i))

/-- An instruction takes the flag from its place to the next. -/
theorem Raises.decide_succ {next : Bool → Instr → Bool} (h : Raises stops next) {i : Instr}
    (hi : code[k]? = some i) (hs : start ≤ k) :
    decide (Behind stops code start (k + 1)) = next (decide (Behind stops code start k)) i := by
  rw [h, Bool.eq_iff_iff, decide_eq_true_eq, behind_succ, hi]
  simp [hs]

/-- The flag is up where such an instruction stands in front in the same block. -/
theorem Raises.foldl_eq {next : Bool → Instr → Bool} (h : Raises stops next)
    (hk : k ≤ code.length) :
    ((code.take k).drop start).foldl next false = decide (Behind stops code start k) := by
  induction k with
  | zero =>
    rw [List.take_zero, List.drop_nil]
    exact (decide_eq_false (not_behind_of_le (Nat.zero_le start))).symm
  | succ k ih =>
    by_cases hs : start ≤ k
    · have htake : (code.take (k + 1)).drop start = (code.take k).drop start ++ [code[k]] := by
        rw [List.take_succ_eq_append_getElem hk, List.drop_append_of_le_length]
        rw [List.length_take]
        omega
      rw [htake, List.foldl_append, ih (Nat.le_of_succ_le hk)]
      exact (h.decide_succ (List.getElem?_eq_getElem hk) hs).symm
    · have hdrop : (code.take (k + 1)).drop start = [] := by
        rw [List.drop_eq_nil_iff, List.length_take]
        omega
      rw [hdrop]
      exact (decide_eq_false (not_behind_of_le (by omega))).symm

/-- Whether the instruction is a transition with a target. -/
def Instr.isResolved : Instr → Bool
  | .transition _ (some _) => true
  | _ => false

theorem raises_skips : Raises Instr.isResolved fun b i => i.skips b := by
  intro b i
  cases i with
  | transition kind target => cases target <;> simp [Instr.skips, Instr.isResolved, Instr.sets]
  | _ => simp [Instr.skips, Instr.isResolved, Instr.sets]

theorem raises_ends : Raises Instr.isTerminator Instr.ends := by
  intro b i
  cases i <;> simp [Instr.ends, Instr.sets]

end MiniPascal.Ir
