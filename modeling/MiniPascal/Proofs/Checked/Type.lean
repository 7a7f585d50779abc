import MiniPascal.Grammar.TypeName

/-! Types as the grammar builds them, and the literals of constants. Only the least number of 64
bits has no literal. -/

namespace MiniPascal

theorem Grammar.fitsWord_iff (n : Int64) :
    fitsWord n = true ↔ -0x80000000 ≤ n.toInt ∧ n.toInt ≤ 0x7fffffff := by
  simp [fitsWord]

theorem toNat_toUInt64 (n : Int64) :
    (n.toUInt64.toNat : Int) = if n.toInt < 0 then n.toInt + 0x10000000000000000 else n.toInt := by
  have h : n.toInt = if 2 * n.toUInt64.toNat < 2 ^ 64 then (n.toUInt64.toNat : Int)
      else n.toUInt64.toNat - 2 ^ 64 := by
    have := n.toBitVec.toInt_eq_toNat_cond
    rw [← Int64.toNat_toBitVec]
    exact_mod_cast this
  have hlt := n.toUInt64.toNat_lt
  split at h <;> split <;> omega

/-- A literal that 63 bits hold is not negative as a signed number. -/
theorem toInt_toInt64 {n : UInt64} (h : n.toNat ≤ 0x7fffffffffffffff) :
    n.toInt64.toInt = n.toNat := by
  have hn : n.toInt64 = Int64.ofNat n.toNat := by
    rw [← UInt64.toInt64_ofNat', UInt64.ofNat_toNat]
  rw [hn, Int64.toInt_ofNat_of_lt (by omega)]

theorem toInt_sub_word {m n : Int64} (hm : Grammar.fitsWord m = true)
    (hn : Grammar.fitsWord n = true) : (m - n).toInt = m.toInt - n.toInt := by
  have hm := (Grammar.fitsWord_iff m).1 hm
  have hn := (Grammar.fitsWord_iff n).1 hn
  rw [Int64.toInt_sub, Int.bmod_eq_of_le] <;> omega

/-- The number of integers between bounds of 32 bits does not wrap around. -/
theorem toInt_length_word {low high : Int64} (hl : Grammar.fitsWord low = true)
    (hh : Grammar.fitsWord high = true) :
    (high - low + 1).toInt = high.toInt - low.toInt + 1 := by
  have hsub := toInt_sub_word hh hl
  have hl := (Grammar.fitsWord_iff low).1 hl
  have hh := (Grammar.fitsWord_iff high).1 hh
  rw [Int64.toInt_add, hsub, Int64.toInt_one, Int.bmod_eq_of_le] <;> omega

/-- The least number is the only one of 64 bits whose negation needs more. -/
theorem neg_lt_toInt {n : Int64} (h : n ≠ .minValue) : -0x8000000000000000 < n.toInt := by
  have hle := n.le_toInt
  have hne : n.toInt ≠ Int64.minValue.toInt := mt Int64.toInt_inj.1 h
  rw [Int64.toInt_minValue] at hne
  omega

theorem toInt_neg {n : Int64} (h : n ≠ .minValue) : (-n).toInt = -n.toInt := by
  have hl := neg_lt_toInt h
  have hh := n.toInt_lt
  rw [Int64.toInt_neg, Int.bmod_eq_of_le] <;> omega

namespace Constant

/-- An integer that 64 bits hold. -/
def FitsLong (n : Int) : Prop := -0x8000000000000000 ≤ n ∧ n ≤ 0x7fffffffffffffff

theorem fitsLong_toInt (m : Int64) : FitsLong m.toInt := by
  have hle := m.le_toInt
  have hlt := m.toInt_lt
  unfold FitsLong
  omega

theorem checked_toInt (m : Int64) (p : Position) : checked m.toInt p = .ok (.int m) := by
  have hsome : ofInt? m.toInt = some (.int m) := by
    rw [ofInt?, Int64.ofInt_toInt]
    exact if_pos (fitsLong_toInt m)
  rw [checked, hsome]

/-- A constant whose integers fit into 32 bits. -/
def Fits : Constant → Prop
  | .int n => Grammar.fitsWord n = true
  | _ => True

end Constant

namespace Expr

theorem toNat_ofNat_word {k : Nat} (h : k ≤ 0x80000000) : (UInt64.ofNat k).toNat = k :=
  UInt64.toNat_ofNat_of_lt' (Nat.lt_of_le_of_lt h (by decide))

theorem signed?_ofNat {k : Nat} (h : k ≤ 0x7fffffffffffffff) :
    signed? (UInt64.ofNat k) = some (Int64.ofNat k) := by
  have hk : (UInt64.ofNat k).toNat = k :=
    UInt64.toNat_ofNat_of_lt' (Nat.lt_of_le_of_lt h (by decide))
  rw [signed?, hk, if_pos h, UInt64.toInt64_ofNat']

theorem toInt_signed {v : UInt64} {n : Int64} (h : signed? v = some n) : n.toInt = v.toNat := by
  rw [signed?] at h
  split at h
  · cases h
    exact toInt_toInt64 ‹_›
  · cases h

/-- A number other than the least one is the literal of its size, or such a literal negated. -/
theorem literal_cases {n : Int64} (h : n ≠ .minValue) :
    (∃ k : Nat, k ≤ 0x7fffffffffffffff ∧ ¬ n < 0 ∧ n = Int64.ofNat k ∧
      n.toUInt64 = UInt64.ofNat k) ∨
    (∃ k : Nat, k ≤ 0x7fffffffffffffff ∧ n < 0 ∧ n = -Int64.ofNat k ∧ n.toInt.natAbs = k) := by
  have hl := neg_lt_toInt h
  have hh := n.toInt_lt
  by_cases hn : n < 0
  · have hn' := Int64.lt_iff_toInt_lt.1 hn
    rw [Int64.toInt_zero] at hn'
    refine .inr ⟨n.toInt.natAbs, by omega, hn, ?_, rfl⟩
    apply Int64.toInt_inj.1
    rw [Int64.toInt_neg_ofNat_of_le (by omega)]
    omega
  · have hn' : 0 ≤ n.toInt := by
      rw [Int64.lt_iff_toInt_lt, Int64.toInt_zero] at hn
      omega
    have he : n = Int64.ofNat n.toInt.toNat := by
      apply Int64.toInt_inj.1
      rw [Int64.toInt_ofNat_of_lt (by omega)]
      omega
    refine .inl ⟨n.toInt.toNat, by omega, hn, he, ?_⟩
    rw [he, Int64.toUInt64_ofNat', ← he]

theorem ne_minValue_of_word {n : Int64} (h : Grammar.fitsWord n = true) : n ≠ .minValue := by
  rintro rfl
  exact absurd h (by decide)

/-- A number of 32 bits is the literal of its size, or such a literal negated. -/
theorem word_cases {n : Int64} (h : Grammar.fitsWord n = true) :
    (∃ k : Nat, k ≤ 0x7fffffff ∧ ¬ n < 0 ∧ n = Int64.ofNat k ∧ n.toUInt64 = UInt64.ofNat k) ∨
    (∃ k : Nat, k ≤ 0x80000000 ∧ n < 0 ∧ n = -Int64.ofNat k ∧ n.toInt.natAbs = k) := by
  obtain ⟨hl, hh⟩ := (Grammar.fitsWord_iff n).1 h
  rcases literal_cases (ne_minValue_of_word h) with ⟨k, hk, hn, he, hu⟩ | ⟨k, hk, hn, he, hu⟩
  · rw [he, Int64.toInt_ofNat_of_lt (by omega)] at hh
    exact .inl ⟨k, by omega, hn, he, hu⟩
  · exact .inr ⟨k, by omega, hn, he, hu⟩

/-- The number that a literal was made of is read off it again, but for the least one: the size of
that one is no number of 64 bits with a sign. -/
theorem asConstant_literal {n : Int64} (h : n ≠ .minValue) (p : Position) :
    (ofConstant (.int n) p).asConstant = some n := by
  rcases literal_cases h with ⟨k, hk, hn, he, hu⟩ | ⟨k, hk, hn, he, hu⟩
  · rw [ofConstant, if_neg hn, asConstant, hu, signed?_ofNat hk, he]
  · rw [ofConstant, if_pos hn, asConstant, asConstant, hu, signed?_ofNat hk, he]
    rfl

theorem asConstant_ofConstant {n : Int64} (h : Grammar.fitsWord n = true) (p : Position) :
    (ofConstant (.int n) p).asConstant = some n :=
  asConstant_literal (ne_minValue_of_word h) p

/-- What is read off a literal with signs is never the least number, so no minus in front of it
overflows, and folding gives the same. -/
theorem fold_of_asConstant {e : Expr} {n : Int64} (h : e.asConstant = some n) :
    n ≠ .minValue ∧ e.fold = .ok (.int n) := by
  fun_induction asConstant e generalizing n with
  | case1 p v =>
    constructor
    · rintro rfl
      have hn := toInt_signed h
      rw [Int64.toInt_minValue] at hn
      omega
    · rw [fold, h]
  | case2 p t a ih =>
    obtain ⟨m, hm, rfl⟩ := Option.map_eq_some_iff.1 h
    obtain ⟨hne, hfold⟩ := ih hm
    -- the minus does not overflow, and its result is not the least number either
    have hneg := toInt_neg hne
    constructor
    · intro hmin
      have hlt := m.toInt_lt
      rw [hmin, Int64.toInt_minValue] at hneg
      omega
    · rw [fold, hfold]
      show Constant.checked (-m.toInt) p = _
      rw [← hneg, Constant.checked_toInt]
  | case3 p t a ih =>
    obtain ⟨hne, hfold⟩ := ih h
    refine ⟨hne, ?_⟩
    rw [fold, hfold]
    rfl
  | case4 => cases h

/-- The literal of a constant of 32 bits evaluates to the constant. -/
theorem fold_ofConstant {c : Constant} (h : c.Fits) (p : Position) :
    (ofConstant c p).fold = .ok c := by
  rcases c with n | x | b
  · exact (fold_of_asConstant (asConstant_ofConstant h p)).2
  · rfl
  · rfl

end Expr

mutual

/-- A type whose arrays have literal bounds of 32 bits that are in order. -/
def Ty.WellFormed : Ty → Prop
  | .scalar _ => True
  | .array low high element =>
    (∃ (l h : Int64) (p q : Position), low = .ofConstant (.int l) p ∧
      high = .ofConstant (.int h) q ∧ Grammar.fitsWord l = true ∧ Grammar.fitsWord h = true ∧
      l.toInt ≤ h.toInt) ∧
    element.WellFormed
  | .record fields => Ty.AllWellFormed fields

/-- Fields of well-formed types. -/
def Ty.AllWellFormed : List (Name × Ty) → Prop
  | [] => True
  | (_, t) :: fields => t.WellFormed ∧ Ty.AllWellFormed fields

end

mutual

/-- A type whose records have at most so many fields. -/
def Ty.Narrow (N : Nat) : Ty → Prop
  | .scalar _ => True
  | .array _ _ element => element.Narrow N
  | .record fields => fields.length ≤ N ∧ Ty.AllNarrow N fields

/-- Fields of types whose records have at most so many fields. -/
def Ty.AllNarrow (N : Nat) : List (Name × Ty) → Prop
  | [] => True
  | (_, t) :: fields => t.Narrow N ∧ Ty.AllNarrow N fields

end

namespace Ty

theorem allWellFormed_append (fs gs : List (Name × Ty)) :
    AllWellFormed (fs ++ gs) ↔ AllWellFormed fs ∧ AllWellFormed gs := by
  induction fs with
  | nil => simp [AllWellFormed]
  | cons f fs ih => simp only [List.cons_append, AllWellFormed, ih, and_assoc]

/-- The place of a field is that of its name in the list. -/
theorem findField_getElem {n : Name} {fields : List (Name × Ty)} {slot : Nat} {t : Ty}
    (h : findField n fields = some (slot, t)) :
    ∃ m, fields[slot]? = some (m, t) ∧ m.canonical = n.canonical := by
  induction fields generalizing slot with
  | nil => cases h
  | cons f fields ih =>
    obtain ⟨m, u⟩ := f
    rw [findField] at h
    split at h
    · rename_i hm
      cases h
      exact ⟨m, rfl, (Name.beq_iff m n).1 hm⟩
    · obtain ⟨⟨k, u'⟩, hk, he⟩ := Option.map_eq_some_iff.1 h
      cases he
      obtain ⟨m', hget, hm'⟩ := ih hk
      exact ⟨m', by rwa [List.getElem?_cons_succ], hm'⟩

theorem findField_mem {n : Name} {fields : List (Name × Ty)} {slot : Nat} {t : Ty}
    (h : findField n fields = some (slot, t)) : slot < fields.length ∧ ∃ m, (m, t) ∈ fields := by
  obtain ⟨m, hget, -⟩ := findField_getElem h
  exact ⟨(List.getElem?_eq_some_iff.1 hget).1, m, List.mem_of_getElem? hget⟩

theorem AllWellFormed.mem {fields : List (Name × Ty)} (h : AllWellFormed fields) :
    ∀ f ∈ fields, f.2.WellFormed := by
  induction fields with
  | nil => exact List.forall_mem_nil _
  | cons f fields ih => exact List.forall_mem_cons.2 ⟨h.1, ih h.2⟩

theorem AllNarrow.mem {N : Nat} {fields : List (Name × Ty)} (h : AllNarrow N fields) :
    ∀ f ∈ fields, f.2.Narrow N := by
  induction fields with
  | nil => exact List.forall_mem_nil _
  | cons f fields ih => exact List.forall_mem_cons.2 ⟨h.1, ih h.2⟩

theorem findField_wellFormed {n : Name} {fields : List (Name × Ty)} {slot : Nat} {t : Ty}
    (hf : AllWellFormed fields) (h : findField n fields = some (slot, t)) : t.WellFormed := by
  obtain ⟨-, m, hm⟩ := findField_mem h
  exact hf.mem (m, t) hm

/-- The bounds of a well-formed array are numbers of 32 bits in order. -/
theorem WellFormed.bounds {low high : Expr} {element : Ty}
    (h : (array low high element).WellFormed) : ∃ l h : Int64,
      (array low high element).bounds = some (l, h) ∧ Grammar.fitsWord l = true ∧
        Grammar.fitsWord h = true ∧ l.toInt ≤ h.toInt := by
  simp only [WellFormed] at h
  obtain ⟨⟨l, h, p, q, rfl, rfl, hl, hh, hle⟩, -⟩ := h
  refine ⟨l, h, ?_, hl, hh, hle⟩
  simp only [Ty.bounds, Expr.asConstant_ofConstant hl, Expr.asConstant_ofConstant hh]
  rfl

end Ty

end MiniPascal
