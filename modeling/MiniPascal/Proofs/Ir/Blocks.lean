import MiniPascal.Proofs.Ir.Behind
import MiniPascal.Proofs.Ir.Emission
import MiniPascal.Proofs.Ir.Lines

/-! The blocks in the text of a program. -/

namespace MiniPascal.Ir

/-! ### What is written of a program -/

/-- A terminator stands in front of the place `k`, and no label is between them. -/
def Complete (code : List Instr) (k : Nat) : Prop := Behind Instr.isTerminator code 0 k

instance {code : List Instr} {k : Nat} : Decidable (Complete code k) :=
  inferInstanceAs (Decidable (Behind Instr.isTerminator code 0 k))

/-- The lines of an instruction, behind a terminator of its block or not. -/
def Instr.lines (complete : Bool) : Instr → List String
  | .label l => (if complete then [] else [describeJump l]) ++ [describeLabel l ++ ":"]
  | i => if complete then [] else i.line?.toList

/-- The lines of the body of a function, by the places of its instructions. -/
def Function.written (f : Function) : List String :=
  f.body.zipIdx.flatMap fun (i, k) => i.lines (Complete f.body k)

/-- The line that opens a function. -/
def Function.opening (f : Function) : String :=
  "define " ++ f.returns.describe ++ " @" ++ f.name ++ "(" ++
    commas (f.parameters.map fun (name, t) => t.describe ++ " %" ++ name) ++ ") \x7b"

/-- The lines of a function. -/
def Function.lines (f : Function) : List String :=
  ["", f.opening, "entry:"] ++ f.written ++ ["\x7d"]

/-- The lines in front of the functions of a program. -/
def Program.prelude (p : Program) : List String :=
  p.externals.map External.line ++ (if p.externals.isEmpty then [] else [""]) ++
    p.globals.map Global.line

/-- A line starts a block just if the line in front of it ends one. -/
def Follows (line next : String) : Prop := isLabelLine next = isTerminatorLine line

variable {code c : List Instr} {i : Instr} {b : Bool} {function last : String}

/-! ### One instruction -/

theorem Emission.append_eq_none {e₁ e₂ : Emission} (h : (e₁ ++ e₂).failure = none) :
    e₁.failure = none ∧ e₂.failure = none ∧ (e₁ ++ e₂).lines = e₁.lines ++ e₂.lines := by
  obtain ⟨lines, failure⟩ := e₁
  cases failure with
  | some u => cases h
  | none => exact ⟨rfl, h, rfl⟩

theorem isTerminatorLine_label (l : Label) : isTerminatorLine (describeLabel l ++ ":") = false := by
  simp [isTerminatorLine, describeLabel, List.isPrefixOf]

theorem isLabelLine_jump (l : Label) : isLabelLine (describeJump l) = false :=
  isLabelLine_indented (by simp [describeJump])

theorem isTerminatorLine_jump (l : Label) : isTerminatorLine (describeJump l) = true := by
  simp [isTerminatorLine, describeJump, List.isPrefixOf]

/-- An instruction is a label, or its line does not look like one and is left out of a complete
block. -/
theorem Instr.label_or_line (i : Instr) : (∃ l, i = .label l) ∨ i.sets = none ∧
    (∀ b, i.lines b = if b then [] else i.line?.toList) ∧
    (∀ b, i.ends b = (b || i.isTerminator)) ∧
    ∀ line ∈ i.line?, isLabelLine line = false ∧ isTerminatorLine line = i.isTerminator := by
  by_cases hl : ∃ l, i = .label l
  · exact .inl hl
  · have hl : ∀ l, i ≠ .label l := fun l h => hl ⟨l, h⟩
    have hline : ∀ line ∈ i.line?, isLabelLine line = false ∧
        isTerminatorLine line = i.isTerminator := fun line h =>
      ⟨isLabelLine_indented (line_indented hl line h), isTerminatorLine_line hl line h⟩
    refine .inr ⟨?_, ?_, ?_, hline⟩ <;> cases i with
      | label l => exact absurd rfl (hl l)
      | _ => first | rfl | exact fun _ => rfl

/-- What can be written of an instruction is its lines. -/
theorem Instr.written_lines (h : (i.written function b).failure = none) :
    (i.written function b).lines = i.lines b ∧ (b = true ∨ i.line?.isSome = true) := by
  cases i with
  | label l => exact ⟨List.append_nil _, .inr rfl⟩
  | transition kind target =>
    cases b <;> cases target
    · cases h
    · exact ⟨rfl, .inr rfl⟩
    · exact ⟨rfl, .inl rfl⟩
    · exact ⟨rfl, .inl rfl⟩
  | ret value => cases b <;> cases value <;> exact ⟨rfl, .inr rfl⟩
  | _ => cases b <;> exact ⟨rfl, .inr rfl⟩

/-- The lines of an instruction follow each other, and what is next follows them. -/
theorem Instr.isChain_lines (hi : b = true ∨ i.line?.isSome = true)
    (hlast : isTerminatorLine last = b) {rest : List String}
    (h : ∀ line, isTerminatorLine line = i.ends b → (line :: rest).IsChain Follows) :
    (last :: (i.lines b ++ rest)).IsChain Follows := by
  rcases i.label_or_line with ⟨l, rfl⟩ | ⟨-, hlines, hends, hline⟩
  · have hlabel := isLabelLine_label l
    have hrest := h (describeLabel l ++ ":") (isTerminatorLine_label l)
    cases b with
    | true => exact .cons_cons (hlabel.trans hlast.symm) hrest
    | false =>
      have hentered := hlabel.trans (isTerminatorLine_jump l).symm
      exact .cons_cons ((isLabelLine_jump l).trans hlast.symm) (.cons_cons hentered hrest)
  · rw [hlines]
    rw [hends] at h
    cases b with
    | true => exact h last hlast
    | false =>
      obtain ⟨line, hsome⟩ := Option.isSome_iff_exists.1 (hi.resolve_left Bool.false_ne_true)
      obtain ⟨hlabel, hterminator⟩ := hline line hsome
      rw [hsome]
      exact .cons_cons (hlabel.trans hlast.symm) (h line hterminator)

/-- A label is written once, and no other line looks like a label. -/
theorem Instr.filter_lines (i : Instr) (b : Bool) : (i.lines b).filter isLabelLine =
    i.sets.toList.map fun l => describeLabel l ++ ":" := by
  rcases i.label_or_line with ⟨l, rfl⟩ | ⟨hsets, hlines, -, hline⟩
  · cases b <;> simp [lines, sets, isLabelLine_label, isLabelLine_jump]
  · rw [hlines, hsets]
    cases b with
    | true => rfl
    | false =>
      exact List.filter_eq_nil_iff.2 fun line h => by simp [hline line (Option.mem_toList.1 h)]

/-! ### The body of a function -/

/-- The flag of the writer says whether the block is complete. -/
theorem emitBody_written (function : String) (pre : List Instr) (hcode : code = pre ++ c)
    (h : (emitBody function (Complete code pre.length) c).failure = none) :
    (emitBody function (Complete code pre.length) c).lines =
        (c.zipIdx pre.length).flatMap (fun (i, k) => i.lines (Complete code k)) ∧
      ∀ p ∈ c.zipIdx pre.length, Complete code p.2 ∨ p.1.line?.isSome = true := by
  induction c generalizing pre with
  | nil => exact ⟨rfl, List.forall_mem_nil _⟩
  | cons i c ih =>
    have hi : code[pre.length]? = some i := by
      rw [hcode]
      simp
    -- the flag behind the instruction is that of the next place
    have hnext : decide (Complete code (pre.length + 1)) =
        i.ends (Complete code pre.length) := raises_ends.decide_succ hi (Nat.zero_le _)
    rw [emitBody_cons] at h ⊢
    obtain ⟨hfirst, hrest, hlines⟩ := Emission.append_eq_none h
    obtain ⟨hwritten, hsome⟩ := Instr.written_lines hfirst
    have ih := ih (pre ++ [i]) (by rw [hcode, List.append_assoc]; rfl)
    rw [List.length_append, List.length_singleton, hnext] at ih
    obtain ⟨ihlines, ihsome⟩ := ih hrest
    rw [List.zipIdx_cons, List.flatMap_cons, hlines, hwritten, ihlines]
    exact ⟨rfl, List.forall_mem_cons.2 ⟨hsome.imp_left of_decide_eq_true, ihsome⟩⟩

theorem isChain_emitBody (h : (emitBody function b c).failure = none)
    (hlast : isTerminatorLine last = b) :
    (last :: (emitBody function b c).lines).IsChain Follows := by
  induction c generalizing b last with
  | nil => exact .singleton last
  | cons i c ih =>
    rw [emitBody_cons] at h ⊢
    obtain ⟨hfirst, hrest, hlines⟩ := Emission.append_eq_none h
    obtain ⟨hwritten, hsome⟩ := Instr.written_lines hfirst
    rw [hlines, hwritten]
    exact Instr.isChain_lines hsome hlast fun line hline => ih hrest hline

theorem filter_written (f : Function) : f.written.filter isLabelLine =
    (labelsSet f.body).map fun l => describeLabel l ++ ":" := by
  -- the places do not matter for the labels
  have hfst : ∀ g : Instr → List String,
      (f.body.zipIdx.flatMap fun p => g p.1) = f.body.flatMap g := by
    intro g
    rw [← List.flatMap_map Prod.fst g, List.zipIdx_map_fst]
  rw [Function.written, List.filter_flatMap]
  simp only [Instr.filter_lines]
  rw [labelsSet, List.filterMap_eq_flatMap_toList, List.map_flatMap]
  exact hfst fun i => i.sets.toList.map fun l => describeLabel l ++ ":"

/-! ### Functions and programs -/

/-- A function that can be written has its lines. -/
theorem Function.emit_lines {f : Function} (h : f.emit.failure = none) :
    f.emit.lines = f.lines ∧ ("entry:" :: f.written).IsChain Follows ∧
      ∀ k i, f.body[k]? = some i → Complete f.body k ∨ i.line?.isSome = true := by
  have hemit : f.emit = .ofLines ["", f.opening, "entry:"] ++ emitBody f.name false f.body ++
    .ofLines ["\x7d"] := rfl
  have hstart : decide (Complete f.body 0) = false :=
    decide_eq_false (not_behind_of_le (Nat.le_refl 0))
  rw [hemit] at h ⊢
  obtain ⟨hfront, -, hlines⟩ := Emission.append_eq_none h
  obtain ⟨-, hbody, hfront⟩ := Emission.append_eq_none hfront
  have hwritten := emitBody_written f.name [] (rfl : f.body = [] ++ f.body)
  rw [List.length_nil, hstart] at hwritten
  obtain ⟨hwritten, hsome⟩ := hwritten hbody
  have hchain := isChain_emitBody hbody (show isTerminatorLine "entry:" = false by decide)
  rw [hwritten] at hchain
  refine ⟨?_, hchain, fun k i hi => hsome (i, k) ?_⟩
  · rw [hlines, hfront, hwritten]
    rfl
  · exact List.mem_zipIdx_iff_getElem?.2 hi

/-- Functions that can be written one behind the other can be written each. -/
theorem emitFunctions_lines {fs : List Function} (h : (emitFunctions fs).failure = none) :
    (emitFunctions fs).lines = fs.flatMap Function.lines ∧ ∀ f ∈ fs, f.emit.failure = none := by
  induction fs with
  | nil => exact ⟨rfl, List.forall_mem_nil _⟩
  | cons f fs ih =>
    obtain ⟨hf, hfs, hlines⟩ := Emission.append_eq_none h
    obtain ⟨ihlines, ihfs⟩ := ih hfs
    refine ⟨?_, List.forall_mem_cons.2 ⟨hf, ihfs⟩⟩
    rw [emitFunctions, hlines, (Function.emit_lines hf).1, ihlines]
    rfl

theorem Program.emit_eq {p : Program} (h : p.emit.failure = none) :
    p.emit.lines = p.prelude ++ p.functions.flatMap Function.lines ∧
      ∀ f ∈ p.functions, f.emit.failure = none := by
  obtain ⟨-, hfs, hlines⟩ := Emission.append_eq_none h
  obtain ⟨hfunctions, hf⟩ := emitFunctions_lines hfs
  refine ⟨hlines.trans ?_, hf⟩
  rw [hfunctions, prelude, List.isEmpty_map]
  rfl

/-! ### The lines of the text -/

theorem Instr.newline_notMem_lines (h : ∀ x ∈ i.mentions, '\n' ∉ x.toList) (b : Bool) :
    ∀ line ∈ i.lines b, '\n' ∉ line.toList := by
  rcases i.label_or_line with ⟨l, rfl⟩ | ⟨-, hlines, -, -⟩
  · cases b <;> simp [lines, describeJump, describeLabel]
  · rw [hlines]
    cases b with
    | true => exact List.forall_mem_nil _
    | false => exact fun line hline => newline_notMem_line h line (Option.mem_toList.1 hline)

theorem Function.newline_notMem_lines {f : Function} (h : ∀ x ∈ f.mentions, '\n' ∉ x.toList) :
    ∀ line ∈ f.lines, '\n' ∉ line.toList := by
  have hparameters : ∀ s ∈ f.parameters.map (fun (name, t) => t.describe ++ " %" ++ name),
      '\n' ∉ s.toList := by
    refine List.forall_mem_map.2 fun a ha => ?_
    have hname := h a.1 (List.mem_append_left _ (List.mem_cons_of_mem _ (List.mem_map_of_mem ha)))
    simpa using hname
  have hopening : '\n' ∉ f.opening.toList := by
    simp [opening, h f.name List.mem_cons_self, newline_notMem_commas hparameters]
  have hwritten : ∀ line ∈ f.written, '\n' ∉ line.toList := by
    intro line hline
    obtain ⟨⟨i, k⟩, hi, hline⟩ := List.mem_flatMap.1 hline
    have hbody : i ∈ f.body := List.mem_of_getElem? (List.mem_zipIdx_iff_getElem?.1 hi)
    refine Instr.newline_notMem_lines (fun x hx => h x ?_) _ line hline
    exact List.mem_append_right _ (List.mem_flatMap.2 ⟨i, hbody, hx⟩)
  intro line hline
  rcases List.mem_append.1 hline with hline | hline
  · rcases List.mem_append.1 hline with hline | hline
    · simp only [List.mem_cons, List.not_mem_nil, or_false] at hline
      rcases hline with rfl | rfl | rfl
      · decide
      · exact hopening
      · decide
    · exact hwritten line hline
  · rw [List.mem_singleton.1 hline]
    decide

theorem Program.newline_notMem_prelude {p : Program} (h : ∀ x ∈ p.mentions, '\n' ∉ x.toList) :
    ∀ line ∈ p.prelude, '\n' ∉ line.toList := by
  intro line hline
  rcases List.mem_append.1 hline with hline | hline
  · rcases List.mem_append.1 hline with hline | hline
    · obtain ⟨e, he, rfl⟩ := List.mem_map.1 hline
      exact newline_notMem_external
        (h _ (List.mem_append_left _ (List.mem_append_left _ (List.mem_map_of_mem he))))
    · split at hline
      · cases hline
      · rw [List.mem_singleton.1 hline]
        exact List.not_mem_nil
  · obtain ⟨g, hg, rfl⟩ := List.mem_map.1 hline
    exact newline_notMem_global
      (h _ (List.mem_append_left _ (List.mem_append_right _ (List.mem_map_of_mem hg))))

/-- The text of a program whose names are without line feeds, if it can be written, has these lines:
what is in front of the functions, and for each function its opening, the lines of its instructions
at their places, and its end. In a function a line starts a block just if the line in front of it
ends one; the lines that start a block are the labels that its body sets, in order; and every
instruction has its line unless a terminator stands in front of it in its block. -/
theorem Program.text_blocks (p : Program) (h : ∀ x ∈ p.mentions, '\n' ∉ x.toList)
    (hp : p.emit.failure = none) :
    textLines p.emit.text = p.prelude ++
        (p.functions.flatMap fun f => ["", f.opening, "entry:"] ++ f.written ++ ["\x7d"]) ++ [""] ∧
      ∀ f ∈ p.functions,
        ("entry:" :: f.written).IsChain Follows ∧
        f.written.filter isLabelLine = (labelsSet f.body).map (fun l => describeLabel l ++ ":") ∧
        ∀ k i, f.body[k]? = some i → Complete f.body k ∨ i.line?.isSome = true := by
  obtain ⟨hlines, hfs⟩ := Program.emit_eq hp
  have hnewline : ∀ line ∈ p.emit.lines, '\n' ∉ line.toList := by
    rw [hlines, List.forall_mem_append, List.forall_mem_flatMap]
    refine ⟨newline_notMem_prelude h, fun f hf => Function.newline_notMem_lines fun x hx => ?_⟩
    exact h x (List.mem_append_right _ (List.mem_flatMap.2 ⟨f, hf, hx⟩))
  constructor
  · rw [Emission.textLines_text hnewline, hlines]
    rfl
  · intro f hf
    obtain ⟨-, hchain, hsome⟩ := Function.emit_lines (hfs f hf)
    exact ⟨hchain, filter_written f, hsome⟩

/-- Labels come first, next to each other, behind a terminator and behind a call; a terminator comes
behind a terminator, and a transition that is not reached has no target; and the body ends with a
label. -/
theorem Program.text_blocks_labels :
    let f : Function := ⟨"main", .i32, [("x", .i32)], [.label 0, .label 1, .jump 0, .ret none,
      .transition .breakLoop none, .label 2, .call none .void "write" none [(.i32, .local "x")],
      .label 3]⟩
    let p : Program := ⟨[⟨"write", .void, [.i32], false⟩], [.variable "y" .double], [f]⟩
    (∀ x ∈ p.mentions, '\n' ∉ x.toList) ∧ p.emit.failure = none ∧
      textLines p.emit.text = ["declare void @write(i32)", "", "@y = global double zeroinitializer",
        "", "define i32 @main(i32 %x) \x7b", "entry:", "  br label %L0", "L0:", "  br label %L1",
        "L1:", "  br label %L0", "L2:", "  call void @write(i32 %x)", "  br label %L3", "L3:",
        "\x7d", ""] := by
  intro f p
  have h : ∀ x ∈ p.mentions, '\n' ∉ x.toList := by decide
  have hp : p.emit.failure = none := rfl
  exact ⟨h, hp, (Program.text_blocks p h hp).1.trans (by decide +kernel)⟩

end MiniPascal.Ir
