import Mathlib
import MiniPascal.Proofs.Ir.Flow
import MiniPascal.Proofs.Lowering.Function

/-! The flow of control in lowered programs. -/

namespace MiniPascal

namespace Lowering

open Ir (labelsSet SetsRange JumpsTo labelsSet_plain)

section

variable {T : Pool} {exit next : Ir.Label} {s : Stmt} {σ σ' : Supply} {d : List Ir.Instr}

theorem StmtCode.labels_le (h : StmtCode T exit next s σ d σ') : σ.labels ≤ σ'.labels :=
  h.labels_eq ▸ Nat.le_add_right _ _

/-- The direct code of a statement sets the labels that it uses up. -/
theorem StmtCode.setsRange (h : StmtCode T exit next s σ d σ') :
    SetsRange d σ.labels σ'.labels := by
  induction h with
  | blockNil | writeNothing => exact .plain (List.forall_mem_nil _) _
  | assign he ht =>
    refine .plain (List.forall_mem_append.2 ⟨List.forall_mem_append.2 ⟨he.plain, ht.plain⟩, ?_⟩) _
    simp [Ir.Instr.isPlain]
  | call ha => exact .plain (List.forall_mem_append.2 ⟨ha.plain, by simp [Ir.Instr.isPlain]⟩) _
  | write hw => exact .plain (List.forall_mem_append.2 ⟨hw.plain, by simp [Ir.Instr.isPlain]⟩) _
  | transition => exact ⟨.nil, fun x => by simp [labelsSet, Ir.Instr.sets]⟩
  | blockCons hs hss ihs ihss => exact ihs.append ihss hs.labels_le hss.labels_le
  | ifThen ht hy ih =>
    -- a conditional sets two labels around the code of its branch, in the order of their numbers
    refine .of_count (n := 2) (fun x => ?_) ih hy.labels_le
    simp [labelsSet_plain ht.plain, Ir.Instr.sets, List.range', List.count_cons]
    omega
  | ifElse ht hy hn ihy ihn =>
    refine .of_count (n := 3) (fun x => ?_) (ihy.append ihn hy.labels_le hn.labels_le)
      (Nat.le_trans hy.labels_le hn.labels_le)
    simp [labelsSet_plain ht.plain, Ir.Instr.sets, List.range', List.count_cons, Nat.add_assoc]
    omega
  | «while» ht hb ih =>
    refine .of_count (n := 3) (fun x => ?_) ih hb.labels_le
    simp [labelsSet_plain ht.plain, Ir.Instr.sets, List.range', List.count_cons, Nat.add_assoc]
    omega
  | repeatUntil hb ht ih =>
    refine .of_count (n := 3) (fun x => ?_) ih hb.labels_le
    simp [labelsSet_plain ht.plain, Ir.Instr.sets, List.range', List.count_cons, Nat.add_assoc]
    omega
  | forTo hf ht ht' hb hs ih =>
    refine .of_count (n := 3) (fun x => ?_) ih hs.labels_le
    simp [labelsSet_plain hf.plain, labelsSet_plain ht.plain,
      labelsSet_plain (plain_startCode _ _ _ _), labelsSet_plain ht'.plain,
      labelsSet_plain (plain_countCode _ _ _), labelsSet_plain hb.plain, Ir.Instr.sets,
      List.range', List.count_cons, Nat.add_assoc]
    omega

/-- The direct code of a statement jumps to the labels that it uses up, and to those of a loop
around it only if there is one. -/
theorem StmtCode.jumpsTo {Γ : Context} {b : Bool} (h : StmtCode T exit next s σ d σ')
    (hs : s.Checked Γ b) :
    JumpsTo d (fun t => b = true ∧ (t = exit ∨ t = next)) σ.labels σ'.labels := by
  induction h generalizing b with
  | blockNil | writeNothing => exact .nil
  | assign he ht =>
    refine .plain (List.forall_mem_append.2 ⟨List.forall_mem_append.2 ⟨he.plain, ht.plain⟩, ?_⟩)
    simp [Ir.Instr.isPlain]
  | call ha => exact .plain (List.forall_mem_append.2 ⟨ha.plain, by simp [Ir.Instr.isPlain]⟩)
  | write hw => exact .plain (List.forall_mem_append.2 ⟨hw.plain, by simp [Ir.Instr.isPlain]⟩)
  | @transition _ _ kind =>
    cases hs
    cases kind <;> simp [Ir.Instr.targets, Ir.Transition.target]
  | blockCons hs₁ hs₂ ih₁ ih₂ =>
    cases hs with | block hs =>
    obtain ⟨h₁, h₂⟩ := List.forall_mem_cons.1 hs
    exact JumpsTo.append_iff.2 ⟨(ih₁ h₁).mono (Nat.le_refl _) hs₂.labels_le fun t => .inr,
      (ih₂ (.block h₂)).mono hs₁.labels_le (Nat.le_refl _) fun t => .inr⟩
  | ifThen ht hy ih =>
    cases hs with | ifThen _ _ hy' =>
    have hle := hy.labels_le
    dsimp only at hle ⊢
    have hd := (ih hy').mono (Nat.le_add_right _ 2) (Nat.le_refl _) fun t => .inr
    simp [JumpsTo.plain ht.plain, hd, Ir.Instr.targets]
    omega
  | ifElse ht hy hn ihy ihn =>
    cases hs with | ifElse _ _ hy' hn' =>
    have hle := hy.labels_le
    have hle' := hn.labels_le
    dsimp only at hle hle' ⊢
    have hd₁ := (ihy hy').mono (Nat.le_add_right _ 3) hle' fun t => .inr
    have hd₂ := (ihn hn').mono (Nat.le_trans (Nat.le_add_right _ 3) hle) (Nat.le_refl _)
      fun t => .inr
    simp [JumpsTo.plain ht.plain, hd₁, hd₂, Ir.Instr.targets]
    omega
  | @«while» exit next _ _ _ _ _ _ _ _ _ ht hb ih =>
    cases hs with | «while» _ _ hb' =>
    have hle := hb.labels_le
    dsimp only at hle ⊢
    -- the exit and the next test of the body are labels of this loop
    have hd := (ih hb').mono (B := fun t => b = true ∧ (t = exit ∨ t = next))
      (Nat.le_add_right _ 3) (Nat.le_refl _) fun t ht => .inl (by omega)
    simp [JumpsTo.plain ht.plain, hd, Ir.Instr.targets]
    omega
  | @repeatUntil exit next _ _ _ _ _ _ _ _ _ _ hb ht ih =>
    cases hs with | repeatUntil hb' =>
    have hle := hb.labels_le
    dsimp only at hle ⊢
    have hd := (ih hb').mono (B := fun t => b = true ∧ (t = exit ∨ t = next))
      (Nat.le_add_right _ 3) (Nat.le_refl _) fun t ht => .inl (by dsimp only; omega)
    simp [JumpsTo.plain ht.plain, hd, Ir.Instr.targets]
    omega
  | @forTo exit next _ _ _ _ _ _ _ _ _ _ _ _ _ _ _ _ _ _ _ _ _ hf ht ht' hb hs' ih =>
    cases hs with | forTo _ _ _ _ _ _ _ hs =>
    have hle := hs'.labels_le
    dsimp only at hle ⊢
    have hd := (ih hs).mono (B := fun t => b = true ∧ (t = exit ∨ t = next))
      (Nat.le_add_right _ 3) (Nat.le_refl _) fun t ht => .inl (by omega)
    simp [JumpsTo.plain hf.plain, JumpsTo.plain ht.plain, JumpsTo.plain ht'.plain,
      JumpsTo.plain hb.plain, JumpsTo.plain (plain_startCode _ _ _ _),
      JumpsTo.plain (plain_countCode _ _ _), hd, Ir.Instr.targets]
    omega

end

/-! ### Functions -/

/-- The control flow of a function: it sets each label of a range once and jumps to no others, no
transition is without a target, and the last block is complete. -/
structure Flows (f : Ir.Function) (l l' : Nat) : Prop where
  sets : SetsRange f.body l l'
  jumps : JumpsTo f.body (fun _ => False) l l'
  settled : Ir.Settled f.body
  ends : Ir.ends false f.body = true

/-- Code without labels and jumps. -/
structure Straight (c : List Ir.Instr) : Prop where
  sets : labelsSet c = []
  targets : ∀ i ∈ c, i.targets = []
  settled : Ir.Settled c

theorem Straight.append {c d : List Ir.Instr} (hc : Straight c) (hd : Straight d) :
    Straight (c ++ d) where
  sets := by rw [Ir.labelsSet_append, hc.sets, hd.sets, List.append_nil]
  targets := List.forall_mem_append.2 ⟨hc.targets, hd.targets⟩
  settled := Ir.settled_append.2 ⟨hc.settled, hd.settled⟩

theorem Straight.setsRange {c : List Ir.Instr} (h : Straight c) (l : Nat) : SetsRange c l l := by
  refine ⟨by rw [h.sets]; exact .nil, fun x => ?_⟩
  rw [h.sets, List.mem_nil_iff, false_iff]
  omega

theorem Straight.jumpsTo {c : List Ir.Instr} (h : Straight c) (A : Nat → Prop) (l l' : Nat) :
    JumpsTo c A l l' := by
  intro i hi t ht
  rw [h.targets i hi] at ht
  cases ht

theorem straight_slots (vars : List (Name × Ty)) : Straight (slots vars) := by
  induction vars with
  | nil => exact ⟨rfl, List.forall_mem_nil _, nofun⟩
  | cons v vars ih =>
    refine Straight.append (c := [.alloca (slotName v.1) (machineType v.2)]) ⟨rfl, ?_, ?_⟩ ih
    · simp [Ir.Instr.targets]
    · simp [Ir.Settled]

theorem straight_argumentStores (params : List (Name × Ty)) : Straight (argumentStores params) := by
  have hplain : ∀ i ∈ argumentStores params, i.isPlain = true := by
    intro i hi
    obtain ⟨v, -, rfl⟩ := List.mem_map.1 hi
    rfl
  exact ⟨Ir.labelsSet_plain hplain, Ir.targets_plain hplain, (Ir.steady_of_plain hplain).settled⟩

theorem straight_returnCode {vars : List (Name × Ty)} {t : Ir.Ty} {tail : List Ir.Instr}
    (h : ReturnCode vars t tail) : Straight tail := by
  cases h <;> exact ⟨rfl, by simp [Ir.Instr.targets], by simp [Ir.Settled]⟩

theorem ReturnCode.ends {vars : List (Name × Ty)} {t : Ir.Ty} {tail : List Ir.Instr}
    (h : ReturnCode vars t tail) (c : List Ir.Instr) : Ir.ends false (c ++ tail) = true := by
  cases h with
  | nothing | zero => exact Ir.ends_snoc rfl false c
  | @result v hv =>
    have := Ir.ends_snoc (i := .ret (some (machineType v.2, .local "retval"))) rfl false
      (c ++ [.load "retval" (machineType v.2) (.local (slotName v.1))])
    rwa [List.append_assoc] at this

theorem FunctionCode.flows {T : Pool} {E : Environment} {l l' : Nat} {f : Ir.Function}
    (h : FunctionCode T (Obeys E) l f l') : l ≤ l' ∧ Flows f l l' := by
  obtain @⟨name, returns, params, vars, body, d, tail, _, -, hs, hb, ht⟩ := h
  obtain ⟨ν, hd⟩ := hb.code
  have hle : l ≤ l' := hd.labels_le
  have hhead := (straight_slots (params ++ vars)).append (straight_argumentStores params)
  have htail := straight_returnCode ht
  have hsets : SetsRange (Ir.dropDead false d) l l' := by
    have := hd.setsRange
    exact ⟨Ir.labelsSet_dropDead false d ▸ this.nodup, Ir.labelsSet_dropDead false d ▸ this.mem⟩
  have hjumps : JumpsTo (Ir.dropDead false d) (fun _ => False) l l' :=
    ((hd.jumpsTo (.block hs)).sublist (Ir.dropDead_sublist false d)).mono (Nat.le_refl _)
      (Nat.le_refl _) fun t ht => by cases ht.1
  have hbody : slots (params ++ vars) ++ (argumentStores params ++ Ir.dropDead false d ++ tail) =
      slots (params ++ vars) ++ argumentStores params ++ Ir.dropDead false d ++ tail := by
    simp only [List.append_assoc]
  refine ⟨hle, ?_⟩
  rw [hbody]
  refine ⟨?_, ?_, ?_, ht.ends _⟩
  · exact ((hhead.setsRange l).append hsets (Nat.le_refl _) hle).append (htail.setsRange l') hle
      (Nat.le_refl _)
  · exact JumpsTo.append_iff.2 ⟨JumpsTo.append_iff.2 ⟨hhead.jumpsTo _ _ _, hjumps⟩,
      htail.jumpsTo _ _ _⟩
  · exact Ir.settled_append.2 ⟨Ir.settled_append.2 ⟨hhead.settled, hb.settled⟩, htail.settled⟩

/-- The functions of a program share out its labels. -/
theorem FunctionsCode.flows {T : Pool} {E : Environment} {l l' : Nat}
    {fs : List Ir.Function} (h : FunctionsCode T (Obeys E) l fs l') :
    l ≤ l' ∧ (fs.flatMap fun f => labelsSet f.body).Nodup ∧
      (∀ f ∈ fs, ∃ m m', l ≤ m ∧ m' ≤ l' ∧ Flows f m m') := by
  induction h with
  | nil => exact ⟨Nat.le_refl _, .nil, List.forall_mem_nil _⟩
  | @cons l l' l'' f fs hf _ ih =>
    obtain ⟨hle, hflow⟩ := hf.flows
    obtain ⟨hle', hnodup, hflows⟩ := ih
    refine ⟨Nat.le_trans hle hle', ?_, List.forall_mem_cons.2 ⟨⟨l, l', Nat.le_refl _, hle', hflow⟩,
      fun f hm => ?_⟩⟩
    · rw [List.flatMap_cons, List.nodup_append]
      refine ⟨hflow.sets.nodup, hnodup, fun x hx y hy => ?_⟩
      obtain ⟨f', hf', hy⟩ := List.mem_flatMap.1 hy
      obtain ⟨m, m', hm, -, hflow'⟩ := hflows f' hf'
      have hx := (hflow.sets.mem x).1 hx
      have hy := (hflow'.sets.mem y).1 hy
      omega
    · obtain ⟨m, m', hm, hm', hflow'⟩ := hflows f hm
      exact ⟨m, m', Nat.le_trans hle hm, hm', hflow'⟩

end Lowering

/-- The control flow of every compiled program is closed, and its labels are numbers of 32 bits. -/
theorem Program.compile_closed {text name : String} {ir : Ir.Program}
    (h : compile text name = .ok ir) (hlength : text.length < 2 ^ 30) :
    ir.Closed ∧ ∀ f ∈ ir.functions, ∀ l ∈ Ir.labelsSet f.body, l < 2 ^ 32 := by
  obtain ⟨p, -, rfl, hp, hlabels⟩ := compile_eq_ok h
  obtain ⟨T, hcode, -⟩ := hp.functionsCode
  obtain ⟨-, hnodup, hflows⟩ := hcode.flows
  have hemit : ∀ f ∈ p.lower.functions, f.emit.failure = none ∧ f.EndsBlocks := by
    intro f hf
    obtain ⟨m, m', -, -, hflow⟩ := hflows f hf
    exact Ir.Function.emit_ends hflow.settled hflow.ends
  refine ⟨⟨fun f hf => ?_, hnodup, fun f hf i hi t ht => ?_, ?_, fun f hf => (hemit f hf).2⟩,
    fun f hf l hl => ?_⟩
  · obtain ⟨m, m', -, -, hflow⟩ := hflows f hf
    exact hflow.settled
  · obtain ⟨m, m', -, -, hflow⟩ := hflows f hf
    rcases hflow.jumps i hi t ht with h | h
    · exact (hflow.sets.mem t).2 h
    · cases h
  · exact Ir.Program.emit_lines fun f hf => (hemit f hf).1
  · obtain ⟨m, m', -, hm', hflow⟩ := hflows f hf
    have := (hflow.sets.mem l).1 hl
    omega

theorem Program.compile_closed_break :
    ∃ ir, compile "program t; procedure p; begin while true do break end; begin p end." "t" =
        .ok ir ∧
      ir.Closed ∧ ∀ f ∈ ir.functions, ∀ l ∈ Ir.labelsSet f.body, l < 2 ^ 32 := by
  obtain ⟨ir, h⟩ := exists_compile
    "program t; procedure p; begin while true do break end; begin p end." "t" (by cbv)
  exact ⟨ir, h, compile_closed h (by decide)⟩

end MiniPascal
