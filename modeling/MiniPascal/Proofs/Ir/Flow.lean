import Mathlib.Data.List.Basic
import MiniPascal.Ir.Text
import MiniPascal.Proofs.Ir.Patch

/-! The flow of control: labels, jumps, and the blocks of the textual form. -/

namespace MiniPascal.Ir

/-! ### Labels -/

/-- The label that an instruction sets. -/
def Instr.sets : Instr → Option Nat
  | .label l => some l
  | _ => none

/-- The labels that an instruction may go on with. -/
def Instr.targets : Instr → List Nat
  | .jump target => [target]
  | .jumpIf _ yes no => [yes, no]
  | .transition _ (some target) => [target]
  | _ => []

/-- The labels that some code sets, in order. -/
def labelsSet (code : List Instr) : List Nat := code.filterMap Instr.sets

@[simp] theorem labelsSet_nil : labelsSet [] = [] := rfl

@[simp] theorem labelsSet_append (c d : List Instr) :
    labelsSet (c ++ d) = labelsSet c ++ labelsSet d :=
  List.filterMap_append

@[simp] theorem labelsSet_cons (i : Instr) (c : List Instr) :
    labelsSet (i :: c) = i.sets.toList ++ labelsSet c := by
  cases i <;> rfl

theorem labelsSet_plain {c : List Instr} (h : ∀ i ∈ c, i.isPlain = true) : labelsSet c = [] := by
  refine List.filterMap_eq_nil_iff.2 fun i hi => ?_
  have := h i hi
  cases i with
  | label => cases this
  | _ => rfl

theorem targets_plain {c : List Instr} (h : ∀ i ∈ c, i.isPlain = true) :
    ∀ i ∈ c, i.targets = [] := by
  intro i hi
  have := h i hi
  cases i with
  | jump | jumpIf | transition => cases this
  | _ => rfl

theorem labelsSet_dropDead (b : Bool) (c : List Instr) :
    labelsSet (dropDead b c) = labelsSet c := by
  induction c generalizing b with
  | nil => rfl
  | cons i c ih =>
    rw [dropDead_cons, labelsSet_append, ih, labelsSet_cons]
    cases i with
    | label => rfl
    | _ => cases b <;> rfl

/-- The code sets the labels from one number up to another, each once. -/
structure SetsRange (c : List Instr) (l l' : Nat) : Prop where
  nodup : (labelsSet c).Nodup
  mem : ∀ x, x ∈ labelsSet c ↔ l ≤ x ∧ x < l'

theorem SetsRange.plain {c : List Instr} (h : ∀ i ∈ c, i.isPlain = true) (l : Nat) :
    SetsRange c l l := by
  refine ⟨by rw [labelsSet_plain h]; exact .nil, fun x => ?_⟩
  rw [labelsSet_plain h, List.mem_nil_iff, false_iff]
  omega

theorem SetsRange.append {c d : List Instr} {l m n : Nat} (hc : SetsRange c l m)
    (hd : SetsRange d m n) (hl : l ≤ m) (hm : m ≤ n) : SetsRange (c ++ d) l n := by
  refine ⟨?_, fun x => ?_⟩
  · rw [labelsSet_append, List.nodup_append]
    refine ⟨hc.nodup, hd.nodup, fun x hx y hy => ?_⟩
    have hx := (hc.mem x).1 hx
    have hy := (hd.mem y).1 hy
    omega
  · rw [labelsSet_append, List.mem_append, hc.mem, hd.mem]
    omega

/-- Some labels in front of a range make a longer one, in whatever order the code sets them. -/
theorem SetsRange.of_count {c d : List Instr} {l n m : Nat}
    (hc : ∀ x, (labelsSet c).count x = (List.range' l n).count x + (labelsSet d).count x)
    (hd : SetsRange d (l + n) m) (hm : l + n ≤ m) : SetsRange c l m := by
  have hp : (labelsSet c).Perm (List.range' l n ++ labelsSet d) :=
    List.perm_iff_count.2 fun x => by rw [hc, List.count_append]
  refine ⟨hp.nodup_iff.2 (List.nodup_append.2 ⟨List.nodup_range', hd.nodup, ?_⟩), fun x => ?_⟩
  · intro x hx y hy
    have hx := List.mem_range'_1.1 hx
    have hy := (hd.mem y).1 hy
    omega
  · rw [hp.mem_iff, List.mem_append, List.mem_range'_1, hd.mem]
    omega

/-- Jumps go to labels of a range, or to others that are allowed. -/
def JumpsTo (c : List Instr) (allowed : Nat → Prop) (l l' : Nat) : Prop :=
  ∀ i ∈ c, ∀ t ∈ i.targets, l ≤ t ∧ t < l' ∨ allowed t

namespace JumpsTo

variable {c d : List Instr} {A B : Nat → Prop} {l l' m m' : Nat}

@[simp] theorem append_iff : JumpsTo (c ++ d) A l l' ↔ JumpsTo c A l l' ∧ JumpsTo d A l l' :=
  List.forall_mem_append

@[simp] theorem cons_iff {i : Instr} : JumpsTo (i :: c) A l l' ↔
    (∀ t ∈ i.targets, l ≤ t ∧ t < l' ∨ A t) ∧ JumpsTo c A l l' := List.forall_mem_cons

@[simp] theorem nil : JumpsTo [] A l l' := List.forall_mem_nil _

theorem plain (h : ∀ i ∈ c, i.isPlain = true) : JumpsTo c A l l' := by
  intro i hi t ht
  rw [targets_plain h i hi] at ht
  cases ht

theorem mono (h : JumpsTo c A m m') (hl : l ≤ m) (hl' : m' ≤ l')
    (hA : ∀ t, A t → l ≤ t ∧ t < l' ∨ B t) : JumpsTo c B l l' := by
  intro i hi t ht
  rcases h i hi t ht with h | h
  · exact .inl (by omega)
  · exact hA t h

theorem sublist (h : JumpsTo d A l l') (hs : c.Sublist d) : JumpsTo c A l l' :=
  fun i hi => h i (hs.subset hi)

end JumpsTo

/-! ### Writing functions -/

/-- Whether a line starts a block. -/
def isLabelLine (line : String) : Bool :=
  line.toList.head? ≠ some ' ' && line.toList.getLast? = some ':'

/-- Whether a line ends a block. -/
def isTerminatorLine (line : String) : Bool :=
  "  br ".toList.isPrefixOf line.toList || "  ret ".toList.isPrefixOf line.toList

/-- The last line of the block is its only terminator. -/
def Terminated (block : List String) : Prop :=
  ∃ init last, block = init ++ [last] ∧ isTerminatorLine last = true ∧
    ∀ line ∈ init, isTerminatorLine line = false

/-- The lines of a function: the block called `entry` and those behind label lines end with their
only terminators. -/
def Function.EndsBlocks (f : Function) : Prop :=
  ∃ header body, f.emit.lines = ["", header, "entry:"] ++ body ++ ["\x7d"] ∧
    ∀ block ∈ body.splitOnP isLabelLine, Terminated block

theorem isLabelLine_label (l : Label) : isLabelLine (describeLabel l ++ ":") = true := by
  simp [isLabelLine, describeLabel, List.getLast?_cons]

theorem isLabelLine_indented {line : String} (h : line.toList.head? = some ' ') :
    isLabelLine line = false := by
  simp [isLabelLine, h]

/-- A line that is written is indented, and ends a block if it is one of a terminator. -/
theorem line_layout {i : Instr} (hi : ∀ l, i ≠ .label l) :
    ∀ line ∈ i.line?, line.toList.head? = some ' ' ∧ isTerminatorLine line = i.isTerminator := by
  intro line h
  cases i with
  | label l => exact absurd rfl (hi l)
  | transition kind target =>
    cases target <;> simp only [Instr.line?, Option.mem_def, reduceCtorEq, Option.some.injEq] at h
    subst h
    simp [isTerminatorLine, describeJump, Instr.isTerminator, List.isPrefixOf]
  | ret value =>
    cases value <;> simp only [Instr.line?, Option.mem_def, Option.some.injEq] at h <;> subst h <;>
      simp [isTerminatorLine, Instr.isTerminator, List.isPrefixOf]
  | call output =>
    simp only [Instr.line?, Option.mem_def, Option.some.injEq] at h
    subst h
    cases output <;> simp [isTerminatorLine, Instr.isTerminator, List.isPrefixOf]
  | _ =>
    simp only [Instr.line?, Option.mem_def, Option.some.injEq] at h
    subst h
    simp [isTerminatorLine, describeJump, Instr.isTerminator, List.isPrefixOf]

theorem line_indented {i : Instr} (hi : ∀ l, i ≠ .label l) :
    ∀ line ∈ i.line?, line.toList.head? = some ' ' :=
  fun line h => (line_layout hi line h).1

theorem isTerminatorLine_line {i : Instr} (hi : ∀ l, i ≠ .label l) :
    ∀ line ∈ i.line?, isTerminatorLine line = i.isTerminator :=
  fun line h => (line_layout hi line h).2

/-- Whether the block is complete behind an instruction, if it was or was not before. -/
def Instr.ends (terminated : Bool) : Instr → Bool
  | .label _ => false
  | i => terminated || i.isTerminator

/-- Whether the last block of some code is complete. -/
def ends (terminated : Bool) (code : List Instr) : Bool := code.foldl Instr.ends terminated

theorem ends_snoc {i : Instr} (hi : i.isTerminator = true) (b : Bool) (c : List Instr) :
    ends b (c ++ [i]) = true := by
  rw [ends, List.foldl_append, List.foldl_cons, List.foldl_nil]
  cases i with
  | jump | jumpIf | transition | ret => exact Bool.or_true _
  | _ => cases hi

/-- The lines of the rest of a function, behind a complete block or not: all blocks that end in them
end with their only terminators. -/
def EndsFrom (terminated : Bool) (lines : List String) : Prop :=
  ∃ init rest, lines.splitOnP isLabelLine = init :: rest ∧
    (if terminated then init = [] else Terminated init) ∧ ∀ block ∈ rest, Terminated block

namespace EndsFrom

variable {lines : List String}

theorem nil : EndsFrom true [] := ⟨[], [], rfl, rfl, List.forall_mem_nil _⟩

theorem label {line : String} (hl : isLabelLine line = true) (h : EndsFrom false lines) :
    EndsFrom true (line :: lines) := by
  obtain ⟨init, rest, hsplit, hinit, hrest⟩ := h
  refine ⟨[], init :: rest, ?_, rfl, List.forall_mem_cons.2 ⟨hinit, hrest⟩⟩
  rw [List.splitOnP_cons_eq_if_modifyHead, if_pos hl, hsplit]

theorem terminator {line : String} (hl : isLabelLine line = false)
    (ht : isTerminatorLine line = true) (h : EndsFrom true lines) :
    EndsFrom false (line :: lines) := by
  obtain ⟨init, rest, hsplit, rfl, hrest⟩ := h
  refine ⟨[line], rest, ?_, ⟨[], line, rfl, ht, List.forall_mem_nil _⟩, hrest⟩
  rw [List.splitOnP_cons_eq_if_modifyHead, if_neg (by simp [hl]), hsplit, List.modifyHead_cons]

theorem other {line : String} (hl : isLabelLine line = false)
    (ht : isTerminatorLine line = false) (h : EndsFrom false lines) :
    EndsFrom false (line :: lines) := by
  obtain ⟨_, rest, hsplit, ⟨init, last, rfl, hlast, hinit⟩, hrest⟩ := h
  refine ⟨line :: init ++ [last], rest, ?_, ⟨line :: init, last, rfl, hlast, ?_⟩, hrest⟩
  · rw [List.splitOnP_cons_eq_if_modifyHead, if_neg (by simp [hl]), hsplit, List.modifyHead_cons,
      List.cons_append]
  · exact List.forall_mem_cons.2 ⟨ht, hinit⟩

end EndsFrom

theorem line_isSome {i : Instr} (h : ∀ kind, i ≠ .transition kind none) :
    ∃ line, i.line? = some line := by
  cases i with
  | transition kind target =>
    cases target with
    | none => exact absurd rfl (h kind)
    | some => exact ⟨_, rfl⟩
  | ret value => cases value <;> exact ⟨_, rfl⟩
  | _ => exact ⟨_, rfl⟩

theorem Emission.ofLines_append (lines : List String) (e : Emission) :
    .ofLines lines ++ e = ⟨lines ++ e.lines, e.failure⟩ := rfl

theorem emitBody_terminated (function : String) {i : Instr} (hi : ∀ l, i ≠ .label l)
    (code : List Instr) : emitBody function true (i :: code) = emitBody function true code := by
  cases i with
  | label l => exact absurd rfl (hi l)
  | transition kind target => cases target <;> simp [emitBody]
  | _ => simp [emitBody]

theorem emitBody_line (function : String) {i : Instr} (hi : ∀ l, i ≠ .label l)
    (ht : ∀ kind, i ≠ .transition kind none) (code : List Instr) :
    emitBody function false (i :: code) =
      .ofLines i.line?.toList ++ emitBody function i.isTerminator code := by
  cases i with
  | label l => exact absurd rfl (hi l)
  | transition kind target =>
    cases target with
    | none => exact absurd rfl (ht kind)
    | some => simp [emitBody]
  | _ => simp [emitBody]

/-- Code without pending transitions can be written, and its blocks end with their only
terminators. -/
theorem emitBody_ends (function : String) {code : List Instr} (hs : Settled code) {b : Bool}
    (he : ends b code = true) :
    (emitBody function b code).failure = none ∧ EndsFrom b (emitBody function b code).lines := by
  induction code generalizing b with
  | nil =>
    cases b
    · cases he
    · exact ⟨by simp [emitBody, Emission.ofLines], by simpa [emitBody, Emission.ofLines] using .nil⟩
  | cons i code ih =>
    have hs' : Settled code := fun kind hm => hs kind (List.mem_cons_of_mem i hm)
    have ht : ∀ kind, i ≠ .transition kind none := fun kind h => hs kind (h ▸ List.mem_cons_self)
    by_cases hl : ∃ l, i = .label l
    · obtain ⟨l, rfl⟩ := hl
      obtain ⟨hf, hlines⟩ := ih hs' (b := false) he
      have hlabel := EndsFrom.label (isLabelLine_label l) hlines
      rw [emitBody]
      -- where control would run into the label, a jump to it is written first
      cases b
      · exact ⟨hf, .terminator (isLabelLine_indented (by simp [describeJump]))
          (by simp [isTerminatorLine, describeJump, List.isPrefixOf]) hlabel⟩
      · exact ⟨hf, hlabel⟩
    · have hl : ∀ l, i ≠ .label l := fun l h => hl ⟨l, h⟩
      have hends : i.ends b = (b || i.isTerminator) := by
        cases i with
        | label l => exact absurd rfl (hl l)
        | _ => rfl
      obtain ⟨hf, hlines⟩ := ih hs' (b := i.ends b) he
      rw [hends] at hf hlines
      cases b
      · obtain ⟨line, hline⟩ := line_isSome ht
        have hindent := isLabelLine_indented (line_indented hl line hline)
        have hterm := isTerminatorLine_line hl line hline
        rw [Bool.false_or] at hf hlines
        rw [emitBody_line function hl ht, hline, Emission.ofLines_append]
        refine ⟨hf, ?_⟩
        cases hi : i.isTerminator with
        | false =>
          rw [hi] at hlines hterm
          exact .other hindent hterm hlines
        | true =>
          rw [hi] at hlines hterm
          exact .terminator hindent hterm hlines
      · rw [emitBody_terminated function hl]
        exact ⟨hf, hlines⟩

/-- A function without pending transitions that ends with a terminator can be written. -/
theorem Function.emit_ends {f : Function} (hs : Settled f.body) (he : ends false f.body = true) :
    f.emit.failure = none ∧ f.EndsBlocks := by
  obtain ⟨hf, init, rest, hsplit, hinit, hrest⟩ := emitBody_ends f.name hs he
  have hemit : ∃ header, f.emit = .ofLines ["", header, "entry:"] ++
      emitBody f.name false f.body ++ .ofLines ["\x7d"] := ⟨_, rfl⟩
  obtain ⟨header, hemit⟩ := hemit
  have happend : (Emission.ofLines ["", header, "entry:"] ++ emitBody f.name false f.body ++
      .ofLines ["\x7d"]) = ⟨["", header, "entry:"] ++ (emitBody f.name false f.body).lines ++
        ["\x7d"], none⟩ := by
    rw [Emission.ofLines_append, hf]
    rfl
  rw [EndsBlocks, hemit, happend]
  refine ⟨rfl, header, _, rfl, ?_⟩
  rw [hsplit, List.forall_mem_cons]
  exact ⟨hinit, hrest⟩

/-- A program can be written if all its functions can; their lines come last. -/
theorem Program.emit_lines {p : Program} (h : ∀ f ∈ p.functions, f.emit.failure = none) :
    ∃ prelude, p.emit = .ofLines (prelude ++ p.functions.flatMap fun f => f.emit.lines) := by
  have hfs : ∀ fs : List Function, (∀ f ∈ fs, f.emit.failure = none) →
      emitFunctions fs = .ofLines (fs.flatMap fun f => f.emit.lines) := by
    intro fs
    induction fs with
    | nil => exact fun _ => rfl
    | cons f fs ih =>
      intro h
      obtain ⟨hf, hfs⟩ := List.forall_mem_cons.1 h
      rw [emitFunctions, ih hfs]
      show Emission.append _ _ = _
      rw [Emission.append, hf]
      rfl
  exact ⟨_, by rw [Program.emit, hfs p.functions h]; rfl⟩

/-- A program with closed control flow: no transition is without a target, each label is set at most
once in the whole program, a label that is used is set in the same function, and the program can be
written with blocks that end with their only terminators. -/
structure Program.Closed (p : Program) : Prop where
  settled : ∀ f ∈ p.functions, ∀ kind, .transition kind none ∉ f.body
  nodup : (p.functions.flatMap fun f => labelsSet f.body).Nodup
  targets : ∀ f ∈ p.functions, ∀ i ∈ f.body, ∀ l ∈ i.targets, l ∈ labelsSet f.body
  emits : ∃ prelude, p.emit = .ofLines (prelude ++ p.functions.flatMap fun f => f.emit.lines)
  blocks : ∀ f ∈ p.functions, f.EndsBlocks

end MiniPascal.Ir
