import MiniPascal.Proofs.Checked.Program
import MiniPascal.Proofs.Ir.Typing
import MiniPascal.Proofs.Lowering.Direct

/-! A temporary is named after a position, a suffix, and how often that name has been asked for
before; the three can be read off. -/

namespace MiniPascal

namespace Lowering

/-! ### Reading a name -/

theorem isDigit_of_mem_toDigits {n : Nat} {ch : Char} (h : ch ∈ Nat.toDigits 10 n) :
    ch.isDigit = true := Nat.isDigit_of_mem_toDigits (by decide) (by decide) h

theorem dot_notMem_toDigits (n : Nat) : '.' ∉ Nat.toDigits 10 n :=
  fun h => absurd (isDigit_of_mem_toDigits h) (by decide)

/-- The suffixes of temporaries. -/
def suffixes : List String :=
  ["", ".cast", ".ptr", ".idx", ".pre", ".dec", ".cur", ".next", ".cmp"]

/-- What may follow the position in a name: nothing, or a word behind a dot. -/
def IsSuffix (s : List Char) : Prop :=
  s = [] ∨ ∃ ch w, s = '.' :: ch :: w ∧ ch.isDigit = false ∧ '.' ∉ ch :: w

theorem isSuffix_of_mem {s : String} (h : s ∈ suffixes) : IsSuffix s.toList := by
  simp only [suffixes, List.mem_cons, List.not_mem_nil, or_false] at h
  rcases h with rfl | rfl | rfl | rfl | rfl | rfl | rfl | rfl | rfl
  · exact .inl rfl
  all_goals exact .inr ⟨_, _, rfl, by decide, by decide⟩

/-- What stands for the count at the end of a name. -/
def countDigits (n : Nat) : List Char := if n = 0 then [] else '.' :: Nat.toDigits 10 n

theorem takeWhile_dot {q r : List Char} (hq : '.' ∉ q) (hr : r = [] ∨ ∃ w, r = '.' :: w) :
    (q ++ r).takeWhile (· ≠ '.') = q := by
  have hpos : ∀ ch ∈ q, decide (ch ≠ '.') = true := by
    intro ch hch
    exact decide_eq_true fun hdot => hq (hdot ▸ hch)
  rw [List.takeWhile_append_of_pos hpos]
  rcases hr with rfl | ⟨w, rfl⟩ <;> simp

theorem countDigits_cases (n : Nat) : countDigits n = [] ∨ ∃ w, countDigits n = '.' :: w := by
  unfold countDigits
  split
  · exact .inl rfl
  · exact .inr ⟨_, rfl⟩

theorem countDigits_inj {m n : Nat} (h : countDigits m = countDigits n) : m = n := by
  unfold countDigits at h
  split at h <;> split at h
  · omega
  · cases h
  · cases h
  · exact toDigits_inj (List.cons.inj h).2

/-- A suffix and a count can be told apart. -/
theorem suffix_count_inj {s s' : List Char} (hs : IsSuffix s) (hs' : IsSuffix s') {m n : Nat}
    (h : s ++ countDigits m = s' ++ countDigits n) : s = s' ∧ m = n := by
  -- a word is no number, so a suffix is never taken for a count
  have hne : ∀ {ch : Char} {w : List Char} {m n : Nat}, ch.isDigit = false →
      countDigits m ≠ '.' :: ch :: w ++ countDigits n := by
    intro ch w m n hd h
    unfold countDigits at h
    split at h
    · cases h
    · have hmem : ch ∈ Nat.toDigits 10 m := by
        rw [(List.cons.inj h).2]
        exact List.mem_cons_self
      rw [isDigit_of_mem_toDigits hmem] at hd
      cases hd
  rcases hs with rfl | ⟨ch, w, rfl, hd, hw⟩ <;> rcases hs' with rfl | ⟨ch', w', rfl, hd', hw'⟩
  · exact ⟨rfl, countDigits_inj h⟩
  · exact absurd h (hne hd')
  · exact absurd h.symm (hne hd)
  · have htail := (List.cons.inj h).2
    have hword : ch :: w = ch' :: w' := by
      rw [← takeWhile_dot hw (countDigits_cases m), ← takeWhile_dot hw' (countDigits_cases n)]
      exact congrArg _ htail
    rw [hword] at h ⊢
    exact ⟨rfl, countDigits_inj (List.append_cancel_left h)⟩

/-- The position in a name. -/
def placeChars (p : Position) : List Char :=
  's' :: (Nat.toDigits 10 p.line ++ '-' :: Nat.toDigits 10 p.column)

theorem dot_notMem_placeChars (p : Position) : '.' ∉ placeChars p := by
  simp [placeChars, dot_notMem_toDigits]

theorem toList_numbered (p : Position) (s : String) (n : Nat) :
    (numbered (baseName p s) n).toList = placeChars p ++ (s.toList ++ countDigits n) := by
  unfold numbered countDigits
  split <;> simp [baseName, placeChars]

/-- Position, suffix and count can be read off a name. -/
theorem numbered_inj {p p' : Position} {s s' : String} (hs : s ∈ suffixes) (hs' : s' ∈ suffixes)
    {m n : Nat} (h : numbered (baseName p s) m = numbered (baseName p' s') n) :
    baseName p s = baseName p' s' ∧ m = n := by
  have hlist := congrArg String.toList h
  rw [toList_numbered, toList_numbered] at hlist
  have hrest : ∀ {s : String} (n : Nat), s ∈ suffixes →
      s.toList ++ countDigits n = [] ∨ ∃ w, s.toList ++ countDigits n = '.' :: w := by
    intro s n hs
    rcases isSuffix_of_mem hs with h | ⟨ch, w, h, -, -⟩
    · rw [h]
      exact countDigits_cases n
    · rw [h]
      exact .inr ⟨_, rfl⟩
  have hplace : placeChars p = placeChars p' := by
    rw [← takeWhile_dot (dot_notMem_placeChars p) (hrest m hs),
      ← takeWhile_dot (dot_notMem_placeChars p') (hrest n hs'), hlist]
  rw [hplace] at hlist
  obtain ⟨hsuffix, hn⟩ := suffix_count_inj (isSuffix_of_mem hs) (isSuffix_of_mem hs')
    (List.append_cancel_left hlist)
  refine ⟨String.toList_injective ?_, hn⟩
  have hbase : ∀ (p : Position) (s : String), (baseName p s).toList = placeChars p ++ s.toList := by
    intro p s
    simp [baseName, placeChars]
  rw [hbase, hbase, hplace, hsuffix]

/-- The name of a slot is no name for a position. -/
theorem numbered_ne_addr {s : String} (hs : s ∈ suffixes) (p : Position) (k : Nat) (x : String) :
    numbered (baseName p s) k ≠ x ++ ".addr" := by
  intro h
  have hlist := congrArg (fun x => x.toList.reverse) h
  simp only [toList_numbered, String.toList_append, List.reverse_append] at hlist
  -- both are read from their ends: a slot ends in a letter, a numbered name in a digit
  have haddr : ".addr".toList.reverse = ['r', 'd', 'd', 'a', '.'] := by decide
  rw [haddr] at hlist
  have hdigits : ∀ {m : Nat} {r l : List Char}, (Nat.toDigits 10 m).reverse ++ r ≠ 'r' :: l := by
    intro m r l h
    cases hm : (Nat.toDigits 10 m).reverse with
    | nil => exact Nat.toDigits_ne_nil (List.reverse_eq_nil_iff.1 hm)
    | cons ch w =>
      rw [hm] at h
      cases h
      have hmem : 'r' ∈ Nat.toDigits 10 m := by
        rw [← List.mem_reverse, hm]
        exact List.mem_cons_self
      exact absurd (isDigit_of_mem_toDigits hmem) (by decide)
  by_cases hk : k = 0
  · -- the name ends like its suffix, or like the number of its column
    subst hk
    simp only [suffixes, List.mem_cons, List.not_mem_nil, or_false] at hs
    rcases hs with rfl | rfl | rfl | rfl | rfl | rfl | rfl | rfl | rfl
    · simp [countDigits, placeChars] at hlist
      exact hdigits hlist
    all_goals simp [countDigits] at hlist
  · rw [countDigits, if_neg hk, List.reverse_cons, List.append_assoc, List.append_assoc] at hlist
    exact hdigits hlist

/-! ### Giving out names -/

theorem countOf_countUp {κ : Type} [Counter κ] (b b' : String) (ν : List (String × κ)) :
    countOf b (countUp b' ν) = if b' = b then Counter.next (countOf b ν) else countOf b ν := by
  induction ν with
  | nil => rfl
  | cons n ν ih =>
    obtain ⟨n, k⟩ := n
    simp only [countUp, countOf]
    split
    · rename_i h
      subst h
      simp only [countOf]
      split <;> rfl
    · rename_i hne
      simp only [countOf, ih]
      split
      · rename_i h
        rw [if_neg fun hb => hne (h.trans hb.symm)]
      · rfl

theorem countOf_spend (b : String) (p : Position) (s : String) (ν : Names) :
    countOf b (spend p s ν) = countOf b ν + if baseName p s = b then 1 else 0 := by
  rw [spend, countOf_countUp]
  split <;> rfl

/-- A name has been given out. -/
def Given (ν : Names) (x : String) : Prop :=
  ∃ p s k, s ∈ suffixes ∧ k < countOf (baseName p s) ν ∧ x = numbered (baseName p s) k

/-- A name that has been given out, or that never is. -/
def Fixed (ν : Names) (x : String) : Prop := Given ν x ∨ ∀ μ, ¬Given μ x

theorem fixed_addr (x : String) (ν : Names) : Fixed ν (x ++ ".addr") := by
  refine .inr ?_
  rintro μ ⟨p, s, k, hs, -, h⟩
  exact numbered_ne_addr hs p k x h.symm

theorem Fixed.mono {ν μ : Names} (h : ∀ x, Given ν x → Given μ x) {x : String} (hx : Fixed ν x) :
    Fixed μ x := hx.imp_left (h x)

/-- Different names that are given out, and that have not been before. -/
structure New (ν : Names) (names : List String) (ν' : Names) : Prop where
  nodup : names.Nodup
  given : ∀ x ∈ names, Given ν' x ∧ ¬Given ν x
  mono : ∀ x, Given ν x → Given ν' x

namespace New

variable {ν ν₁ ν₂ ν₃ : Names} {xs ys : List String}

theorem nil (ν : Names) : New ν [] ν := ⟨.nil, List.forall_mem_nil _, fun _ h => h⟩

theorem append (h : New ν₁ xs ν₂) (h' : New ν₂ ys ν₃) : New ν₁ (xs ++ ys) ν₃ := by
  refine ⟨List.nodup_append.2 ⟨h.nodup, h'.nodup, ?_⟩, ?_, fun x hx => h'.mono x (h.mono x hx)⟩
  · rintro x hx _ hy rfl
    exact (h'.given x hy).2 (h.given x hx).1
  · intro x hx
    rcases List.mem_append.1 hx with hx | hx
    · exact ⟨h'.mono x (h.given x hx).1, (h.given x hx).2⟩
    · exact ⟨(h'.given x hx).1, fun hg => (h'.given x hx).2 (h.mono x hg)⟩

theorem perm (h : New ν₁ xs ν₂) (hp : xs.Perm ys) : New ν₁ ys ν₂ :=
  ⟨hp.nodup_iff.1 h.nodup, fun x hx => h.given x (hp.mem_iff.2 hx), h.mono⟩

theorem single {s : String} (hs : s ∈ suffixes) (p : Position) (ν : Names) :
    New ν [fresh p s ν] (spend p s ν) := by
  refine ⟨by simp, ?_, ?_⟩
  · simp only [List.mem_singleton, forall_eq]
    refine ⟨⟨p, s, _, hs, ?_, rfl⟩, ?_⟩
    · rw [countOf_spend, if_pos rfl]
      omega
    · rintro ⟨p', s', k, hs', hk, hx⟩
      obtain ⟨hb, hn⟩ := numbered_inj hs hs' hx
      rw [← hb] at hk
      omega
  · rintro x ⟨p', s', k, hs', hk, hx⟩
    refine ⟨p', s', k, hs', ?_, hx⟩
    rw [countOf_spend]
    omega

/-- Code, followed by an instruction that defines the next name. -/
theorem snoc {c : List Ir.Instr} {i : Ir.Instr} {s : String} {p : Position}
    (h : New ν₁ (Ir.outputs c) ν₂) (hs : s ∈ suffixes) (hi : i.output = some (fresh p s ν₂)) :
    New ν₁ (Ir.outputs (c ++ [i])) (spend p s ν₂) := by
  have : Ir.outputs [i] = [fresh p s ν₂] := by
    rw [Ir.outputs_cons, hi]
    rfl
  rw [Ir.outputs_append, this]
  exact h.append (.single hs p ν₂)

end New

theorem applied_output (output : String) (op : BinOp) (t : Ty) (v w : Ir.Operand) :
    (applied output op t v w).output = some output := by
  unfold applied
  split <;> rfl

mutual

theorem PlaceCode.new {e ν₁ slot c ν₂} (h : PlaceCode e ν₁ slot c ν₂) :
    New ν₁ (Ir.outputs c) ν₂ := by
  match h with
  | .global | .routine => exact .nil _
  | .index ha hi _ => exact .snoc (by simpa using ha.new.append hi.new) (by decide) rfl
  | @PlaceCode.rebased p _ _ _ _ _ ν₃ _ _ _ _ ha hi _ =>
    have hptr : New ν₃ ([fresh p ".idx" ν₃] ++ [fresh p ".ptr" (spend p ".idx" ν₃)]) _ :=
      .append (.single (by decide) p ν₃) (.single (by decide) p _)
    simpa [Ir.Instr.output] using (ha.new.append hi.new).append hptr
  | .field hr => exact hr.new.snoc (by decide) rfl
termination_by structural h

theorem ValueCode.new {e ν₁ v c ν₂} (h : ValueCode e ν₁ v c ν₂) : New ν₁ (Ir.outputs c) ν₂ := by
  match h with
  | .int | .double | .bool => exact .nil _
  | .load h | .negate h _ | .minus h _ | .not h _ | .complement h _ =>
    exact h.new.snoc (by decide) rfl
  | .plus h => exact h.new
  | .binary hl hr =>
    exact .snoc (by simpa using hl.new.append hr.new) (by decide) (applied_output _ _ _ _ _)
  | .call h =>
    rw [Ir.outputs_append]
    exact ((New.single (by decide) _ _).append h.new).perm List.perm_append_comm
termination_by structural h

theorem TypedCode.new {e t ν₁ v c ν₂} (h : TypedCode e t ν₁ v c ν₂) :
    New ν₁ (Ir.outputs c) ν₂ := by
  match h with
  | .widened _ => exact .nil _
  | .cast _ _ h => exact h.new.snoc (by decide) rfl
  | .same _ h => exact h.new
termination_by structural h

theorem ArgsCode.new {es ts ν₁ vs c ν₂} (h : ArgsCode es ts ν₁ vs c ν₂) :
    New ν₁ (Ir.outputs c) ν₂ := by
  match h with
  | .nil => exact .nil _
  | .cons he hes =>
    rw [Ir.outputs_append]
    exact he.new.append hes.new
termination_by structural h

end

theorem WriteCode.new {T : Pool} {args ν₁ f vs c ν₂} (h : WriteCode T args ν₁ f vs c ν₂) :
    New ν₁ (Ir.outputs c) ν₂ := by
  induction h with
  | nil => exact .nil _
  | text _ _ ih => exact ih
  | integer _ he _ ih | double _ he _ ih =>
    rw [Ir.outputs_append]
    exact he.new.append ih
  | boolean _ he _ ih =>
    rw [Ir.outputs_append]
    exact (he.new.snoc (by decide) rfl).append ih

theorem new_startCode (p : Position) (v slot : Ir.Operand) (ν : Names) :
    New ν (Ir.outputs (startCode p v slot ν)) (spend p ".dec" (spend p ".pre" ν)) :=
  New.append (.single (s := ".pre") (by decide) p ν) (.single (s := ".dec") (by decide) p _)

theorem new_countCode (p : Position) (slot : Ir.Operand) (ν : Names) :
    New ν (Ir.outputs (countCode p slot ν)) (spend p ".next" (spend p ".cur" ν)) :=
  New.append (.single (s := ".cur") (by decide) p ν) (.single (s := ".next") (by decide) p _)

/-- The direct code of a statement defines new names only, each once. -/
theorem StmtCode.new {T : Pool} {exit next s σ d σ'} (h : StmtCode T exit next s σ d σ') :
    New σ.names (Ir.outputs d) σ'.names := by
  induction h with
  | blockNil | writeNothing | transition => exact .nil _
  | blockCons _ _ ih₁ ih₂ =>
    rw [Ir.outputs_append]
    exact ih₁.append ih₂
  | ifThen ht _ ih => simpa [Ir.Instr.output] using ht.new.append ih
  | ifElse ht _ _ ihy ihn => simpa [Ir.Instr.output] using (ht.new.append ihy).append ihn
  | «while» ht _ ih => simpa [Ir.Instr.output] using ht.new.append ih
  | repeatUntil _ ht ih => simpa [Ir.Instr.output] using ih.append ht.new
  | @forTo _ _ p _ _ _ _ l _ _ ν₃ ν₄ ν₅ _ v w slot slot' _ _ _ _ _ hf ht ht' hb _ ih =>
    have hstart := (hf.new.append ht.new).append (new_startCode p v slot ν₃)
    have hcount := (ht'.new.append (new_countCode p slot' ν₄)).append hb.new
    have hcmp := New.single (s := ".cmp") (by decide) p ν₅
    simpa [Ir.Instr.output] using ((hstart.append hcount).append hcmp).append ih
  | assign he ht => simpa [Ir.Instr.output] using he.new.append ht.new
  | call h => simpa [Ir.Instr.output] using h.new
  | write h => simpa [Ir.Instr.output] using h.new

end Lowering

end MiniPascal
