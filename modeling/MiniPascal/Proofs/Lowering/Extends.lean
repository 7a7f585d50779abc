import MiniPascal.Proofs.Lowering.Reference
import MiniPascal.Proofs.Lowering.Width

/-! Lowering a statement only adds to the state, whatever the state and the statement are. -/

namespace MiniPascal.Lowering

/-! ### Adding to a state -/

/-- One state comes from another by adding to it: code, slots, texts, formats and globals stay and
keep their places. No count has got lower, unless one has overflowed; a build that checks for that
has stopped there. -/
structure Generator.Extends (g g' : Generator UInt32) : Prop where
  code : g.code <+: g'.code
  allocas : g.allocas <+: g'.allocas
  overflowed : g.overflowed = true → g'.overflowed = true
  labels : g'.overflowed = false → g.labels ≤ g'.labels
  names : g'.overflowed = false → ∀ name, countOf name g.names ≤ countOf name g'.names
  texts : g.texts <+: g'.texts
  formats : g.formats <+: g'.formats
  globals : g.globals <+: g'.globals
  functions : g'.functions = g.functions
  usesPrintf : g.usesPrintf = true → g'.usesPrintf = true

namespace Generator.Extends

variable {g g' g'' : Generator UInt32}

theorem refl (g : Generator UInt32) : g.Extends g where
  code := List.prefix_rfl
  allocas := List.prefix_rfl
  overflowed := id
  labels _ := UInt32.le_refl _
  names _ _ := UInt32.le_refl _
  texts := List.prefix_rfl
  formats := List.prefix_rfl
  globals := List.prefix_rfl
  functions := rfl
  usesPrintf := id

theorem not_overflowed (h : g.Extends g') (hg : g'.overflowed = false) : g.overflowed = false :=
  Bool.eq_false_iff.2 fun ho => Bool.false_ne_true (hg.symm.trans (h.overflowed ho))

theorem trans (h : g.Extends g') (h' : g'.Extends g'') : g.Extends g'' where
  code := h.code.trans h'.code
  allocas := h.allocas.trans h'.allocas
  overflowed := h'.overflowed ∘ h.overflowed
  labels ho := UInt32.le_trans (h.labels (h'.not_overflowed ho)) (h'.labels ho)
  names ho name := UInt32.le_trans (h.names (h'.not_overflowed ho) name) (h'.names ho name)
  texts := h.texts.trans h'.texts
  formats := h.formats.trans h'.formats
  globals := h.globals.trans h'.globals
  functions := h'.functions.trans h.functions
  usesPrintf := h'.usesPrintf ∘ h.usesPrintf

/-- The code may be other code, as long as it still begins with the first. -/
theorem with_code (h : g.Extends g') {code : List Ir.Instr} (hc : g.code <+: code) :
    g.Extends { g' with code } := { h with code := hc }

end Generator.Extends

/-- A step only adds to every state. -/
def Extending {α : Type} (m : StepOf UInt32 α) : Prop :=
  ∀ g : Generator UInt32, g.Extends (m g).2

theorem Extending.bind {α β : Type} {m : StepOf UInt32 α} {f : α → StepOf UInt32 β}
    (hm : Extending m) (hf : ∀ a, Extending (f a)) : Extending (m >>= f) :=
  fun g => (hm g).trans (hf _ _)

theorem extending_push (i : Ir.Instr) : Extending (push i) :=
  fun g => (Generator.Extends.refl g).with_code (List.prefix_append _ _)

theorem extending_newLabel : Extending newLabel := by
  intro g
  have hkept : g.overflowed = true → (newLabel g).2.overflowed = true := fun ho => by
    show (_ || g.overflowed) = true
    rw [ho, Bool.or_true]
  exact { Generator.Extends.refl g with
    overflowed := hkept
    labels := fun ho => le_next (Bool.or_eq_false_iff.1 ho).1
    names := fun _ _ => UInt32.le_refl _ }

theorem extending_newName (p : Position) (suffix : String) : Extending (newName p suffix) := by
  intro g
  have hkept : g.overflowed = true → (newName p suffix g).2.overflowed = true := fun ho => by
    show (_ || g.overflowed) = true
    rw [ho, Bool.or_true]
  refine { Generator.Extends.refl g with
    overflowed := hkept
    labels := fun _ => UInt32.le_refl _
    names := fun ho name => ?_ }
  show _ ≤ countOf name (countUp (baseName p suffix) g.names)
  rw [countOf_countUp]
  split
  · rename_i hname
    subst hname
    exact le_next (Bool.or_eq_false_iff.1 ho).1
  · exact UInt32.le_refl _

theorem extending_textGlobal (s : String) : Extending (textGlobal s) := by
  intro g
  obtain ⟨-, hrun⟩ | ⟨-, hrun⟩ := g.textGlobal_cases s <;> rw [hrun]
  · exact .refl g
  · exact { Generator.Extends.refl g with
      texts := List.prefix_append _ _
      globals := List.prefix_append _ _ }

theorem extending_formatGlobal (s : String) : Extending (formatGlobal s) := by
  intro g
  obtain ⟨-, hrun⟩ | ⟨-, hrun⟩ := g.formatGlobal_cases s <;> rw [hrun]
  · exact .refl g
  · exact { Generator.Extends.refl g with
      formats := List.prefix_append _ _
      globals := List.prefix_append _ _ }

/-- The elementary steps only add, so what is put together from them does. -/
theorem Composed.extending {α : Type} {m m' : StepOf UInt32 α} (h : Composed m m') :
    Extending m := by
  induction h with
  | pure a => exact fun g => .refl g
  | bind _ _ ihm ihf => exact ihm.bind ihf
  | push => exact extending_push _
  | newName p suffix => exact extending_newName p suffix
  | newLabel => exact extending_newLabel
  | alloca slot t =>
    exact fun g => { Generator.Extends.refl g with allocas := List.prefix_append _ _ }
  | usesPrintf => exact fun g => { Generator.Extends.refl g with usesPrintf := fun _ => rfl }
  | textGlobal s => exact extending_textGlobal s
  | formatGlobal s => exact extending_formatGlobal s

theorem extending_value (e : Expr) : Extending (value e) := (composed_value e).extending

/-! ### Loops -/

/-- The labels of a loop: of its body, behind it, and of its next test. -/
structure LoopLabels where
  start : Ir.Label
  exit : Ir.Label
  next : Ir.Label

/-- A loop in parts: what comes before the label of its body, its body, and what comes behind. -/
structure LoopParts where
  before : StepOf UInt32 LoopLabels
  body : Stmt
  after : LoopLabels → StepOf UInt32 Unit

/-- Lowers all of a loop and saves the index of the label of its body, but does not close it. -/
def LoopParts.opened (l : LoopParts) : StepOf UInt32 (Nat × LoopLabels) := do
  let labels ← l.before
  let index ← here
  push (.label labels.start)
  statement l.body
  l.after labels
  return (index, labels)

/-- The parts of a statement that is a loop. -/
def loopParts : Stmt → Option LoopParts
  | .while condition body => some {
      before := do
        let check ← newLabel
        let start ← newLabel
        let exit ← newLabel
        push (.jump check)
        push (.label check)
        let test ← value condition
        push (.jumpIf test start exit)
        return ⟨start, exit, check⟩
      body
      after := fun labels => do
        push (.jump labels.next)
        push (.label labels.exit) }
  | .repeatUntil body condition => some {
      before := do
        let start ← newLabel
        let check ← newLabel
        let exit ← newLabel
        push (.jump start)
        return ⟨start, exit, check⟩
      body
      after := fun labels => do
        push (.jump labels.next)
        push (.label labels.next)
        let test ← value condition
        push (.jumpIf test labels.exit labels.start)
        push (.label labels.exit) }
  | .forTo p target first bound body => some {
      before := do
        loopStart p target first
        let check ← newLabel
        let start ← newLabel
        let exit ← newLabel
        push (.jump check)
        push (.label check)
        let test ← loopTest p target bound
        push (.jumpIf test start exit)
        return ⟨start, exit, check⟩
      body
      after := fun labels => do
        push (.jump labels.next)
        push (.label labels.exit) }
  | _ => none

/-- A loop is closed when all of it has been lowered, at the index that it has saved. -/
theorem statement_loop {s : Stmt} {l : LoopParts} (h : loopParts s = some l) :
    statement s = l.opened >>= fun r => closeLoop r.1 r.2.exit r.2.next := by
  cases s with
  | «while» condition body => cases h; rw [statement]; rfl
  | repeatUntil body condition => cases h; rw [statement]; rfl
  | forTo p target first bound body => cases h; rw [statement]; rfl
  | _ => cases h

/-- What comes before the body of a loop only adds, and so does what comes behind it. -/
theorem LoopParts.extending {s : Stmt} {l : LoopParts} (h : loopParts s = some l) :
    Extending l.before ∧ ∀ labels, Extending (l.after labels) := by
  have hpure (labels : LoopLabels) : Extending (pure labels) := fun g => .refl g
  cases s with
  | «while» condition body =>
    cases h
    refine ⟨?_, fun labels => (extending_push _).bind fun _ => extending_push _⟩
    refine extending_newLabel.bind fun _ => extending_newLabel.bind fun _ =>
      extending_newLabel.bind fun _ => ?_
    refine (extending_push _).bind fun _ => (extending_push _).bind fun _ => ?_
    exact (extending_value condition).bind fun _ => (extending_push _).bind fun _ => hpure _
  | repeatUntil body condition =>
    cases h
    refine ⟨?_, fun labels => ?_⟩
    · refine extending_newLabel.bind fun _ => extending_newLabel.bind fun _ =>
        extending_newLabel.bind fun _ => ?_
      exact (extending_push _).bind fun _ => hpure _
    · refine (extending_push _).bind fun _ => (extending_push _).bind fun _ => ?_
      exact (extending_value condition).bind fun _ => (extending_push _).bind fun _ =>
        extending_push _
  | forTo p target first bound body =>
    cases h
    refine ⟨?_, fun labels => (extending_push _).bind fun _ => extending_push _⟩
    have hstart : Extending (loopStart p target first) :=
      (composed_loopStart p target first).extending
    have htest : Extending (loopTest p target bound) := (composed_loopTest p target bound).extending
    refine hstart.bind fun _ => extending_newLabel.bind fun _ => extending_newLabel.bind fun _ =>
      extending_newLabel.bind fun _ => ?_
    refine (extending_push _).bind fun _ => (extending_push _).bind fun _ => ?_
    exact htest.bind fun _ => (extending_push _).bind fun _ => hpure _
  | _ => cases h

/-- A loop that is to be closed: the index it has saved lies behind all code from before the loop,
and the label of its body stands there. -/
structure Generator.Closing (g g' : Generator UInt32) (index : Nat) (start : Ir.Label) : Prop where
  kept : g.Extends g'
  outside : g.code.length ≤ index
  within : index < g'.code.length
  label : g'.code[index]? = some (.label start)

/-- When a loop is to be closed, the label of its body still stands at the saved index. -/
theorem LoopParts.closing {l : LoopParts} (hbefore : Extending l.before)
    (hbody : Extending (statement l.body)) (hafter : ∀ labels, Extending (l.after labels))
    (g : Generator UInt32) :
    ∃ index labels g', l.opened g = ((index, labels), g') ∧ g.Closing g' index labels.start := by
  let labels := (l.before g).1
  let g₁ := (l.before g).2
  let g₂ := (push (.label labels.start) g₁).2
  let g₃ := (l.after labels (statement l.body g₂).2).2
  have h₁ : g.Extends g₁ := hbefore g
  -- the label is appended where the index points, and the rest only adds code behind it
  have hlabel : g₂.code = g₁.code ++ [.label labels.start] := rfl
  have h₂ : g₁.Extends g₂ := extending_push _ g₁
  have h₃ : g₂.Extends g₃ := hbody.bind (fun _ => hafter labels) g₂
  have hindex : g₁.code.length < g₂.code.length := by
    rw [hlabel, List.length_append, List.length_singleton]
    exact Nat.lt_succ_self _
  refine ⟨g₁.code.length, labels, g₃, rfl, h₁.trans (h₂.trans h₃), h₁.code.length_le,
    Nat.lt_of_lt_of_le hindex h₃.code.length_le, ?_⟩
  obtain ⟨c, hc⟩ := h₃.code
  rw [← hc, List.getElem?_append_left hindex, hlabel, List.getElem?_concat_length]

/-- Closing a loop changes nothing before the index, and leaves nothing pending from there on. -/
theorem Generator.Closing.closeLoop {g g' : Generator UInt32} {index : Nat} {start : Ir.Label}
    (h : g.Closing g' index start) (exit next : Ir.Label) :
    g.Extends (closeLoop index exit next g').2 ∧
      Ir.Settled ((Lowering.closeLoop index exit next g').2.code.drop index) := by
  have hlength : (g'.code.take index).length = index :=
    List.length_take_of_le (Nat.le_of_lt h.within)
  obtain ⟨before, behind, hcode, rfl⟩ :
      ∃ before behind, g'.code = before ++ behind ∧ before.length = index :=
    ⟨_, _, (List.take_append_drop index g'.code).symm, hlength⟩
  let closed := before ++ Ir.dropDead false (behind.map (Ir.Instr.resolved exit next))
  have hrun : Lowering.closeLoop before.length exit next g' = ((), { g' with code := closed }) := by
    have := closeLoop_over g' before behind g'.functions exit next
    rwa [← hcode] at this
  rw [hrun]
  constructor
  · -- the code from before the loop is a prefix of what lies before the index
    have hbefore : g.code <+: before :=
      List.prefix_of_prefix_length_le h.kept.code (hcode ▸ List.prefix_append _ _) h.outside
    exact h.kept.with_code (hbefore.trans (List.prefix_append _ _))
  · show Ir.Settled (closed.drop before.length)
    rw [List.drop_left]
    exact (Ir.settled_resolved exit next _).sublist (Ir.dropDead_sublist false _)

/-! ### Statements -/

/-- A loop gets to its closing with the label of its body at the saved index, if its body only
adds. -/
theorem closing_opened {s : Stmt} {l : LoopParts} (h : loopParts s = some l)
    (hbody : Extending (statement l.body)) (g : Generator UInt32) :
    ∃ index labels g', l.opened g = ((index, labels), g') ∧ g.Closing g' index labels.start ∧
      statement s g = closeLoop index labels.exit labels.next g' := by
  obtain ⟨hbefore, hafter⟩ := LoopParts.extending h
  obtain ⟨index, labels, g', hrun, hclosing⟩ := LoopParts.closing hbefore hbody hafter g
  refine ⟨index, labels, g', hrun, hclosing, ?_⟩
  rw [statement_loop h, bind_run hrun]

theorem extending_loop {s : Stmt} {l : LoopParts} (h : loopParts s = some l)
    (hbody : Extending (statement l.body)) : Extending (statement s) := by
  intro g
  obtain ⟨index, labels, g', -, hclosing, hrun⟩ := closing_opened h hbody g
  rw [hrun]
  exact (hclosing.closeLoop labels.exit labels.next).1

mutual

theorem extending_statement : ∀ s : Stmt, Extending (statement s)
  | .block ss => by
    rw [statement]
    exact extending_statements ss
  | .ifElse condition yes none => by
    rw [statement]
    refine (extending_value condition).bind fun _ => ?_
    refine extending_newLabel.bind fun _ => extending_newLabel.bind fun _ => ?_
    refine (extending_push _).bind fun _ => (extending_push _).bind fun _ => ?_
    refine (extending_statement yes).bind fun _ => ?_
    exact (extending_push _).bind fun _ => extending_push _
  | .ifElse condition yes (some no) => by
    rw [statement]
    refine (extending_value condition).bind fun _ => ?_
    refine extending_newLabel.bind fun _ => extending_newLabel.bind fun _ =>
      extending_newLabel.bind fun _ => ?_
    refine (extending_push _).bind fun _ => (extending_push _).bind fun _ => ?_
    refine (extending_statement yes).bind fun _ => ?_
    refine (extending_push _).bind fun _ => (extending_push _).bind fun _ => ?_
    refine (extending_statement no).bind fun _ => ?_
    exact (extending_push _).bind fun _ => extending_push _
  -- all three loops are closed at an index behind the code that was there before
  | .while condition body => extending_loop rfl (extending_statement body)
  | .repeatUntil body condition => extending_loop rfl (extending_statement body)
  | .forTo p target first bound body => extending_loop rfl (extending_statement body)
  | .assign target e => by
    rw [statement]
    exact (composed_assign target e).extending
  | .call p symbol args params returns => by
    rw [statement]
    have hargs : Extending (lowerArguments args params) :=
      (composed_lowerArguments args params).extending
    exact hargs.bind fun _ => extending_push _
  | .write newline args => by
    rw [statement]
    exact (composed_write newline args).extending
  | .transition kind p => by
    rw [statement]
    exact extending_push _

theorem extending_statements : ∀ ss : List Stmt, Extending (statements ss)
  | [] => by
    rw [statements]
    exact fun g => .refl g
  | s :: ss => by
    rw [statements]
    exact (extending_statement s).bind fun _ => extending_statements ss

end

/-- Whatever has been generated, lowering a statement only adds to it; a count overflows exactly if
it would need more than 32 bits. Every loop is closed at an index in the code, where the label of
its body stands; all code from before the loop lies before that index, and behind it nothing is left
pending. -/
theorem statement_extends (s : Stmt) (g : Generator UInt32) :
    g.Extends (statement s g).2 ∧
      ((statement s g).2.overflowed = true ↔
        g.overflowed = true ∨ ¬(statement s g.unbounded).2.Fits) ∧
      ∀ l, loopParts s = some l → ∃ index labels g',
        l.opened g = ((index, labels), g') ∧ g.Closing g' index labels.start ∧
        statement s g = closeLoop index labels.exit labels.next g' ∧
        Ir.Settled ((statement s g).2.code.drop index) := by
  refine ⟨extending_statement s g, (narrows_statement s).overflowed_iff g, fun l h => ?_⟩
  obtain ⟨index, labels, g', hopened, hclosing, hrun⟩ :=
    closing_opened h (extending_statement l.body) g
  refine ⟨index, labels, g', hopened, hclosing, hrun, ?_⟩
  rw [hrun]
  exact (hclosing.closeLoop labels.exit labels.next).2

/-- The `break` of a loop around this one stays pending; those of this loop and of the one in it do
not. -/
theorem statement_extends_nested :
    let inner : Stmt := .while (.bool .start true) (.transition .continueLoop .start)
    let outer : Stmt := .while (.bool .start true) (.block [inner, .transition .breakLoop .start])
    let pending : Ir.Instr := .transition .breakLoop none
    let g : Generator UInt32 := { Generator.empty with code := [pending] }
    (∃ l, loopParts outer = some l) ∧ [pending] <+: (statement outer g).2.code ∧
      ∃ index, 0 < index ∧ Ir.Settled ((statement outer g).2.code.drop index) := by
  intro inner outer pending g
  obtain ⟨hextends, -, hloop⟩ := statement_extends outer g
  obtain ⟨index, labels, g', -, hclosing, -, hsettled⟩ := hloop _ rfl
  exact ⟨⟨_, rfl⟩, hextends.code, index, hclosing.outside, hsettled⟩

end MiniPascal.Lowering
