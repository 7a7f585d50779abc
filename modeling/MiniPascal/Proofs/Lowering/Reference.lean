import MiniPascal.Proofs.Ir.Emission
import MiniPascal.Proofs.Lowering.Appends
import MiniPascal.Proofs.Lowering.Expression

/-! A lowering that never goes back: it turns every `break` and `continue` into a jump at once and
drops nothing. -/

namespace MiniPascal

namespace Lowering

namespace Direct

/-- The exit and the next test of the innermost loop, if there is one. -/
abbrev Around := Option (Ir.Label × Ir.Label)

mutual

/-- Lowers a statement inside the given loop. -/
def statement (around : Around) : Stmt → Step Unit
  | .block body => statements around body
  | .ifElse condition yes none => do
    let test ← value condition
    let yesLabel ← newLabel
    let merge ← newLabel
    push (.jumpIf test yesLabel merge)
    push (.label yesLabel)
    statement around yes
    push (.jump merge)
    push (.label merge)
  | .ifElse condition yes (some no) => do
    let test ← value condition
    let yesLabel ← newLabel
    let noLabel ← newLabel
    let merge ← newLabel
    push (.jumpIf test yesLabel noLabel)
    push (.label yesLabel)
    statement around yes
    push (.jump merge)
    push (.label noLabel)
    statement around no
    push (.jump merge)
    push (.label merge)
  | .while condition body => do
    let check ← newLabel
    let start ← newLabel
    let exit ← newLabel
    push (.jump check)
    push (.label check)
    let test ← value condition
    push (.jumpIf test start exit)
    push (.label start)
    statement (some (exit, check)) body
    push (.jump check)
    push (.label exit)
  | .repeatUntil body condition => do
    let start ← newLabel
    let check ← newLabel
    let exit ← newLabel
    push (.jump start)
    push (.label start)
    statement (some (exit, check)) body
    push (.jump check)
    push (.label check)
    let test ← value condition
    push (.jumpIf test exit start)
    push (.label exit)
  | .forTo p target first bound body => do
    loopStart p target first
    let check ← newLabel
    let start ← newLabel
    let exit ← newLabel
    push (.jump check)
    push (.label check)
    let test ← loopTest p target bound
    push (.jumpIf test start exit)
    push (.label start)
    statement (some (exit, check)) body
    push (.jump check)
    push (.label exit)
  | .assign target e => assign target e
  | .call _ symbol args params returns => do
    let arguments ← lowerArguments args params
    push (.call none ((returns.map machineType).getD .void) (functionName symbol) none arguments)
  | .write newline args => write newline args
  | .transition kind _ =>
    match around with
    | some (exit, next) => push (.jump (Ir.Transition.target kind exit next))
    | none => push (.transition kind none)

/-- Lowers statements in order. -/
def statements (around : Around) : List Stmt → Step Unit
  | [] => return
  | s :: ss => do
    statement around s
    statements around ss

end

/-- Lowers a routine with the given own variables and statements, but not those declared in it. -/
def routineFunction (symbol : String) (params : Scope) (returns : Option Ty)
    (vars : List (Name × Ty)) (body : List Stmt) : Step Unit := do
  beginFunction
  let parameters ← parameterSlots params.vars
  variableSlots vars
  statements none body
  let t ← returnFrom symbol returns
  endFunction (functionName symbol) t parameters

mutual

/-- Lowers a routine and then those declared in it. -/
def routine : Routine → Step Unit
  | ⟨_, symbol, params, returns, none, _⟩ => routineFunction symbol params returns [] []
  | ⟨_, symbol, params, returns, some ⟨⟨entries⟩, body⟩, _⟩ => do
    routineFunction symbol params returns (Scope.vars ⟨entries⟩) body
    routines entries

/-- Lowers the routines among some declarations in order. -/
def routines : List (Name × Declaration) → Step Unit
  | [] => return
  | (_, d) :: entries => do
    declared d
    routines entries

/-- Lowers a declaration if it is a routine. -/
def declared : Declaration → Step Unit
  | .routine r => routine r
  | .var .. | .const .. | .type .. => return

end

/-- Lowers the statements of the program. -/
def mainFunction (body : List Stmt) : Step Unit := do
  beginFunction
  statements none body
  push (.ret (some (.i32, .int 0)))
  endFunction "main" .i32 []

/-- Lowers a program. -/
def program (p : Program) : Step Unit := do
  modify fun g => { g with globals := g.globals ++ globalVariables p.scope.vars }
  routines p.scope.entries
  mainFunction p.statements

end Direct

open Ir (Settled Steady SameText)

/-! ### Steps that match -/

/-- An instruction when the loop around it is complete. -/
def Direct.Around.resolved : Direct.Around → Ir.Instr → Ir.Instr
  | some (exit, next), i => i.resolved exit next
  | none, i => i

theorem map_resolved {c : List Ir.Instr} (hc : Settled c) (around : Direct.Around) :
    c.map around.resolved = c := by
  rcases around with _ | ⟨exit, next⟩
  · exact List.map_id' c
  · exact hc.resolved exit next

/-- The transitions that have targets go to labels from a number on. -/
def TargetsFrom (l : Nat) (c : List Ir.Instr) : Prop :=
  ∀ kind t, .transition kind (some t) ∈ c → l ≤ t

theorem TargetsFrom.append {l : Nat} {c d : List Ir.Instr} (hc : TargetsFrom l c)
    (hd : TargetsFrom l d) : TargetsFrom l (c ++ d) :=
  fun kind t hm => (List.mem_append.1 hm).elim (hc kind t) (hd kind t)

theorem targetsFrom_steady {c : List Ir.Instr} (h : Steady c) (l : Nat) : TargetsFrom l c :=
  fun kind t hm => absurd hm (h kind (some t))

/-- When a loop gets its targets, its transitions go to new labels. -/
theorem TargetsFrom.resolved {l : Nat} {c : List Ir.Instr} (hc : TargetsFrom l c)
    {exit next : Ir.Label} (hexit : l ≤ exit) (hnext : l ≤ next) :
    TargetsFrom l (c.map (Ir.Instr.resolved exit next)) := by
  intro kind t hm
  obtain ⟨i, hi, he⟩ := List.mem_map.1 hm
  unfold Ir.Instr.resolved at he
  split at he
  · cases he
    cases kind
    · exact hexit
    · exact hnext
  · exact hc kind t (he ▸ hi)

/-- A step of the lowering and one of the direct lowering do the same to the state, but for the code
they append. The two codes have one text when the loop around them is complete, and transitions that
have targets already go to labels from `l` on. -/
structure Matches {α : Type} (l : Nat) (around : Direct.Around) (m m' : Step α) (g : Generator)
    (a : α) (c d : List Ir.Instr) (g' : Generator) : Prop where
  run : Runs m g a c g'
  direct : Runs m' g a d g'
  same : SameText d (c.map around.resolved)
  labels : g.labels ≤ g'.labels
  targets : TargetsFrom l c

/-- The two steps match in every state in which the labels up to `l` have been used. -/
def Matching {α : Type} (l : Nat) (around : Direct.Around) (m m' : Step α) : Prop :=
  ∀ g, l ≤ g.labels → ∃ a c d g', Matches l around m m' g a c d g'

/-- The two steps match, and no transition is left without a target. -/
def Completing {α : Type} (l : Nat) (around : Direct.Around) (m m' : Step α) : Prop :=
  ∀ g, l ≤ g.labels → ∃ a c d g', Matches l around m m' g a c d g' ∧ Settled c

section

variable {α β : Type} {l : Nat} {around : Direct.Around} {m m' : Step α} {f f' : α → Step β}

theorem Matches.of_steady {g g' : Generator} {a : α} {c : List Ir.Instr} (h : Runs m g a c g')
    (hc : Steady c) (hl : g.labels ≤ g'.labels) : Matches l around m m g a c c g' where
  run := h
  direct := h
  same := by
    rw [map_resolved hc.settled]
    exact .refl c
  labels := hl
  targets := targetsFrom_steady hc l

theorem Matches.bind {g g' g'' : Generator} {a : α} {b : β} {c d e k : List Ir.Instr}
    (h : Matches l around m m' g a c d g') (h' : Matches l around (f a) (f' a) g' b e k g'') :
    Matches l around (m >>= f) (m' >>= f') g b (c ++ e) (d ++ k) g'' where
  run := h.run.bind h'.run
  direct := h.direct.bind h'.direct
  same := by
    rw [List.map_append]
    exact h.same.append h'.same
  labels := Nat.le_trans h.labels h'.labels
  targets := h.targets.append h'.targets

theorem Matching.of_appends (h : Appends m) : Matching l around m m := by
  intro g _
  obtain ⟨a, c, g', hr, hc, hl⟩ := h g
  exact ⟨a, c, c, g', .of_steady hr hc hl⟩

theorem Matching.bind (h : Matching l around m m') (hf : ∀ a, Matching l around (f a) (f' a)) :
    Matching l around (m >>= f) (m' >>= f') := by
  intro g hg
  obtain ⟨a, c, d, g', hm⟩ := h g hg
  obtain ⟨b, e, k, g'', hm'⟩ := hf a g' (Nat.le_trans hg hm.labels)
  exact ⟨b, c ++ e, d ++ k, g'', hm.bind hm'⟩

/-- The same steps in front of steps that match. -/
theorem Matching.append (h : Appends m) (hf : ∀ a, Matching l around (f a) (f' a)) :
    Matching l around (m >>= f) (m >>= f') := .bind (.of_appends h) hf

theorem Completing.matching (h : Completing l around m m') : Matching l around m m' := by
  intro g hg
  obtain ⟨a, c, d, g', hm, -⟩ := h g hg
  exact ⟨a, c, d, g', hm⟩

theorem Completing.append (h : Appends m) (hf : ∀ a, Completing l around (f a) (f' a)) :
    Completing l around (m >>= f) (m >>= f') := by
  intro g hg
  obtain ⟨a, c, g', hr, hc, hl⟩ := h g
  obtain ⟨b, d, e, g'', hm, hd⟩ := hf a g' (Nat.le_trans hg hl)
  exact ⟨b, c ++ d, c ++ e, g'', (Matches.of_steady hr hc hl).bind hm,
    Ir.settled_append.2 ⟨hc.settled, hd⟩⟩

/-- A new label is none of those that have been used. -/
theorem Completing.newLabel {f f' : Ir.Label → Step β}
    (hf : ∀ x, l ≤ x → Completing l around (f x) (f' x)) :
    Completing l around (newLabel >>= f) (newLabel >>= f') := by
  intro g hg
  have hr : Runs Lowering.newLabel g g.labels [] (Lowering.newLabel g).2 :=
    .of_fixed fun _ _ => rfl
  have hl : g.labels ≤ (Lowering.newLabel g).2.labels := Nat.le_succ _
  obtain ⟨b, c, d, g', hm, hc⟩ := hf g.labels hg _ (Nat.le_trans hg hl)
  exact ⟨b, [] ++ c, [] ++ d, g', (Matches.of_steady hr steady_nil hl).bind hm, hc⟩

end

/-- Closing a loop, in any code: the part from the index on is resolved, and dead code goes. -/
theorem closeLoop_over {κ : Type} (g : Generator κ) (code c : List Ir.Instr)
    (functions : List Ir.Function) (exit next : Ir.Label) :
    closeLoop code.length exit next (g.over (code ++ c) functions) =
      ((), g.over (code ++ Ir.dropDead false (c.map (Ir.Instr.resolved exit next))) functions) := by
  show ((), _) = ((), _)
  simp only [Generator.over, Ir.eliminateDeadCode, Ir.resolveTransitions_eq, List.take_left',
    List.drop_left']

/-- A loop from the label of its body on. The lowering gives the transitions of the body their
targets when the loop is complete, and drops dead code; the direct lowering has done the one
already, and the writer does the other. -/
theorem Completing.loop {l : Nat} {around : Direct.Around} {start exit next : Ir.Label}
    {body body' : Step Unit} (hexit : l ≤ exit) (hnext : l ≤ next)
    (hb : Matching l (some (exit, next)) body body') (tail : Step Unit) (ht : Appends tail) :
    Completing l around
      (do
        let index ← here
        push (.label start)
        body
        tail
        closeLoop index exit next)
      (do
        push (.label start)
        body'
        tail) := by
  intro g hg
  obtain ⟨⟨⟩, c, d, g₁, hm⟩ := hb g hg
  obtain ⟨⟨⟩, t, g₂, hr, hsteady, hl⟩ := ht g₁
  -- all of the loop with its targets, before dead code is dropped
  let whole := (.label start :: (c ++ t)).map (Ir.Instr.resolved exit next)
  have hsettled : Settled (Ir.dropDead false whole) :=
    (Ir.settled_resolved exit next _).sublist (Ir.dropDead_sublist false whole)
  refine ⟨(), Ir.dropDead false whole, .label start :: (d ++ t), g₂, ⟨?_, ?_, ?_,
    Nat.le_trans hm.labels hl, ?_⟩, hsettled⟩
  · -- the lowering closes the loop behind the tail, and the index is where the body starts
    intro code functions
    have hrun : (do push (.label start); body; tail : Step Unit) (g.over code functions) =
        ((), g₂.over (code ++ .label start :: (c ++ t)) functions) :=
      (Runs.push _).bind (hm.run.bind hr) code functions
    show ((do push (.label start); body; tail) >>= fun _ => closeLoop code.length exit next)
      (g.over code functions) = _
    rw [bind_run hrun]
    exact closeLoop_over _ _ _ _ _ _
  · exact (Runs.push _).bind (hm.direct.bind hr)
  · -- nothing is pending in the closed loop, so a loop around it changes nothing in its text
    rw [map_resolved hsettled]
    refine .trans ?_ (.symm (.dropDead whole))
    show SameText ([.label start] ++ (d ++ t))
      ([.label start] ++ (c ++ t).map (Ir.Instr.resolved exit next))
    rw [List.map_append, hsteady.settled.resolved]
    exact (SameText.refl _).append (hm.same.append (.refl t))
  · -- exit and next test are new labels, and those of loops in the body are newer still
    have htargets : TargetsFrom l (.label start :: (c ++ t)) := by
      have hstart : TargetsFrom l [.label start] :=
        targetsFrom_steady (steady_single fun _ _ h => by cases h) l
      exact hstart.append (hm.targets.append (targetsFrom_steady hsteady l))
    exact fun kind t hmem => htargets.resolved hexit hnext kind t
      ((Ir.dropDead_sublist false whole).subset hmem)

/-! ### Statements -/

theorem completing_while {l : Nat} {around : Direct.Around} {condition : Expr} {body : Stmt}
    (hb : ∀ l around, Matching l around (statement body) (Direct.statement around body)) :
    Completing l around (statement (.while condition body))
      (Direct.statement around (.while condition body)) := by
  rw [statement, Direct.statement]
  refine .newLabel fun check hcheck => .newLabel fun start _ => .newLabel fun exit hexit => ?_
  refine .append (.push nofun) fun _ => .append (.push nofun) fun _ => ?_
  refine .append (appends_value condition) fun _ => .append (.push nofun) fun _ => ?_
  exact .loop hexit hcheck (hb l _) (do push (.jump check); push (.label exit))
    (.bind (.push nofun) fun _ => .push nofun)

theorem completing_repeat {l : Nat} {around : Direct.Around} {condition : Expr} {body : Stmt}
    (hb : ∀ l around, Matching l around (statement body) (Direct.statement around body)) :
    Completing l around (statement (.repeatUntil body condition))
      (Direct.statement around (.repeatUntil body condition)) := by
  rw [statement, Direct.statement]
  refine .newLabel fun start _ => .newLabel fun check hcheck => .newLabel fun exit hexit => ?_
  refine .append (.push nofun) fun _ => ?_
  refine .loop hexit hcheck (hb l _) (do
    push (.jump check)
    push (.label check)
    let test ← value condition
    push (.jumpIf test exit start)
    push (.label exit)) ?_
  exact .bind (.push nofun) fun _ => .bind (.push nofun) fun _ => .bind (appends_value condition)
    fun _ => .bind (.push nofun) fun _ => .push nofun

theorem completing_for {l : Nat} {around : Direct.Around} {p : Position} {target first bound : Expr}
    {body : Stmt}
    (hb : ∀ l around, Matching l around (statement body) (Direct.statement around body)) :
    Completing l around (statement (.forTo p target first bound body))
      (Direct.statement around (.forTo p target first bound body)) := by
  rw [statement, Direct.statement]
  refine .append (appends_loopStart p target first) fun _ => ?_
  refine .newLabel fun check hcheck => .newLabel fun start _ => .newLabel fun exit hexit => ?_
  refine .append (.push nofun) fun _ => .append (.push nofun) fun _ => ?_
  refine .append (appends_loopTest p target bound) fun _ => .append (.push nofun) fun _ => ?_
  exact .loop hexit hcheck (hb l _) (do push (.jump check); push (.label exit))
    (.bind (.push nofun) fun _ => .push nofun)

/-- A transition inside a loop is a jump of the direct lowering at once. -/
theorem matching_transition (l : Nat) (around : Direct.Around) (kind : Transition) (p : Position) :
    Matching l around (statement (.transition kind p))
      (Direct.statement around (.transition kind p)) := by
  intro g _
  have htargets : TargetsFrom l [.transition kind none] := by simp [TargetsFrom]
  -- outside of loops both leave it pending; inside, resolving it makes the jump of the direct code
  rcases around with _ | ⟨exit, next⟩
  · rw [statement, Direct.statement]
    exact ⟨(), _, _, g, ⟨.push _, .push _, .refl _, Nat.le_refl _, htargets⟩⟩
  · rw [statement, Direct.statement]
    exact ⟨(), _, _, g, ⟨.push _, .push _, .transition kind _, Nat.le_refl _, htargets⟩⟩

mutual

/-- Whatever a statement is, the two lowerings of it match. -/
theorem matching_statement : ∀ (s : Stmt) (l : Nat) (around : Direct.Around),
    Matching l around (statement s) (Direct.statement around s)
  | .block ss, l, around => by
    rw [statement, Direct.statement]
    exact matching_statements ss l around
  | .ifElse condition yes none, l, around => by
    rw [statement, Direct.statement]
    refine .append (appends_value condition) fun _ => ?_
    refine .append .newLabel fun _ => .append .newLabel fun _ => ?_
    refine .append (.push nofun) fun _ => .append (.push nofun) fun _ => ?_
    refine .bind (matching_statement yes l around) fun _ => ?_
    exact .append (.push nofun) fun _ => .of_appends (.push nofun)
  | .ifElse condition yes (some no), l, around => by
    rw [statement, Direct.statement]
    refine .append (appends_value condition) fun _ => ?_
    refine .append .newLabel fun _ => .append .newLabel fun _ => .append .newLabel fun _ => ?_
    refine .append (.push nofun) fun _ => .append (.push nofun) fun _ => ?_
    refine .bind (matching_statement yes l around) fun _ => ?_
    refine .append (.push nofun) fun _ => .append (.push nofun) fun _ => ?_
    refine .bind (matching_statement no l around) fun _ => ?_
    exact .append (.push nofun) fun _ => .of_appends (.push nofun)
  -- a loop is completed behind its body, so its transitions are then those of the direct lowering
  | .while _ body, _, _ => (completing_while (matching_statement body)).matching
  | .repeatUntil body _, _, _ => (completing_repeat (matching_statement body)).matching
  | .forTo _ _ _ _ body, _, _ => (completing_for (matching_statement body)).matching
  | .assign target e, l, around => by
    rw [statement, Direct.statement]
    exact .of_appends (appends_assign target e)
  | .call _ _ args params _, l, around => by
    rw [statement, Direct.statement]
    exact .append (appends_lowerArguments args params) fun _ => .of_appends (.push nofun)
  | .write newline args, l, around => by
    rw [statement, Direct.statement]
    exact .of_appends (appends_write newline args)
  | .transition kind p, l, around => matching_transition l around kind p

theorem matching_statements : ∀ (ss : List Stmt) (l : Nat) (around : Direct.Around),
    Matching l around (statements ss) (Direct.statements around ss)
  | [], l, around => by
    rw [statements, Direct.statements]
    exact .of_appends (.pure _)
  | s :: ss, l, around => by
    rw [statements, Direct.statements]
    exact .bind (matching_statement s l around) fun _ => matching_statements ss l around

end

/-! ### Functions -/

theorem appends_parameterSlots (params : List (Name × Ty)) : Appends (parameterSlots params) := by
  induction params with
  | nil => exact .pure _
  | cons v params ih =>
    exact .bind (.alloca _ _) fun _ => .bind (.push nofun) fun _ => .map ih _

theorem appends_variableSlots (vars : List (Name × Ty)) : Appends (variableSlots vars) := by
  induction vars with
  | nil => exact .pure _
  | cons v vars ih => exact .bind (.alloca _ _) fun _ => ih

theorem appends_returnFrom (symbol : String) (returns : Option Ty) :
    Appends (returnFrom symbol returns) := by
  cases returns with
  | none => exact .bind (.push nofun) fun _ => .pure _
  | some t => exact .bind (.push nofun) fun _ => .bind (.push nofun) fun _ => .pure _

/-- The two steps add functions that are written alike, and else do the same to the state. Between
two functions there is no code. -/
def AddsAlike (m m' : Step Unit) : Prop :=
  ∀ g : Generator, ∃ (g' : Generator) (fs ds : List Ir.Function),
    fs.map Ir.Function.emit = ds.map Ir.Function.emit ∧
    (∀ functions, m (g.over [] functions) = ((), g'.over [] (functions ++ fs))) ∧
    ∀ functions, m' (g.over [] functions) = ((), g'.over [] (functions ++ ds))

namespace AddsAlike

variable {m m' n n' : Step Unit}

theorem nothing : AddsAlike (pure ()) (pure ()) := by
  refine fun g => ⟨g, [], [], rfl, fun functions => ?_, fun functions => ?_⟩ <;>
    rw [List.append_nil] <;> rfl

theorem bind (h : AddsAlike m m') (h' : AddsAlike n n') :
    AddsAlike (m >>= fun _ => n) (m' >>= fun _ => n') := by
  intro g
  obtain ⟨g₁, fs₁, ds₁, he₁, hm, hm'⟩ := h g
  obtain ⟨g₂, fs₂, ds₂, he₂, hn, hn'⟩ := h' g₁
  refine ⟨g₂, fs₁ ++ fs₂, ds₁ ++ ds₂, ?_, fun functions => ?_, fun functions => ?_⟩
  · rw [List.map_append, List.map_append, he₁, he₂]
  · rw [bind_run (hm functions), hn, List.append_assoc]
  · rw [bind_run (hm' functions), hn', List.append_assoc]

/-- Steps that match make functions that are written alike. -/
theorem function {m m' : Step (Ir.Ty × List (String × Ir.Ty))} (h : Matching 0 none m m')
    (name : String) :
    AddsAlike
      (do
        beginFunction
        let (t, parameters) ← m
        endFunction name t parameters)
      (do
        beginFunction
        let (t, parameters) ← m'
        endFunction name t parameters) := by
  intro g
  -- names and slots start anew in every function
  let g₀ : Generator := { g with names := [], allocas := [] }
  have hbegin : ∀ functions, beginFunction (g.over [] functions) = ((), g₀.over [] functions) :=
    fun _ => rfl
  obtain ⟨⟨t, parameters⟩, c, d, g₁, hm⟩ := h g₀ (Nat.zero_le _)
  have hsame : SameText (g₁.allocas ++ c) (g₁.allocas ++ d) := by
    have := hm.same
    rw [show c.map (Direct.Around.resolved none) = c from List.map_id' c] at this
    exact (SameText.refl _).append this.symm
  refine ⟨{ g₁ with allocas := [] }, [⟨name, t, parameters, g₁.allocas ++ c⟩],
    [⟨name, t, parameters, g₁.allocas ++ d⟩], ?_, fun functions => ?_, fun functions => ?_⟩
  · exact congrArg (fun e => [e]) (Ir.Function.emit_eq hsame)
  · rw [bind_run (hbegin functions), bind_run (hm.run [] functions)]
    rfl
  · rw [bind_run (hbegin functions), bind_run (hm.direct [] functions)]
    rfl

end AddsAlike

theorem addsAlike_routineFunction (symbol : String) (params : Scope) (returns : Option Ty)
    (vars : List (Name × Ty)) (body : List Stmt) :
    AddsAlike (routineFunction symbol params returns vars body)
      (Direct.routineFunction symbol params returns vars body) := by
  have h : Matching 0 none
      (do
        let parameters ← parameterSlots params.vars
        variableSlots vars
        statements body
        let t ← returnFrom symbol returns
        return (t, parameters))
      (do
        let parameters ← parameterSlots params.vars
        variableSlots vars
        Direct.statements none body
        let t ← returnFrom symbol returns
        return (t, parameters)) := by
    refine .append (appends_parameterSlots _) fun _ => ?_
    refine .append (appends_variableSlots vars) fun _ => ?_
    refine .bind (matching_statements body 0 none) fun _ => ?_
    exact .append (appends_returnFrom symbol returns) fun _ => .of_appends (.pure _)
  exact .function h (functionName symbol)

mutual

theorem addsAlike_routine : ∀ r : Routine, AddsAlike (routine r) (Direct.routine r)
  | ⟨_, symbol, params, returns, none, _⟩ => by
    rw [routine, Direct.routine]
    exact addsAlike_routineFunction symbol params returns [] []
  | ⟨_, symbol, params, returns, some ⟨⟨entries⟩, body⟩, _⟩ => by
    rw [routine, Direct.routine]
    exact (addsAlike_routineFunction symbol params returns _ body).bind (addsAlike_routines entries)

theorem addsAlike_routines : ∀ entries : List (Name × Declaration),
    AddsAlike (routines entries) (Direct.routines entries)
  | [] => by
    rw [routines, Direct.routines]
    exact .nothing
  | (_, d) :: entries => by
    rw [routines, Direct.routines]
    exact (addsAlike_declared d).bind (addsAlike_routines entries)

theorem addsAlike_declared : ∀ d : Declaration, AddsAlike (declared d) (Direct.declared d)
  | .routine r => by
    rw [declared, Direct.declared]
    exact addsAlike_routine r
  | .var .. | .const .. | .type .. => by
    rw [declared, Direct.declared]
    exact .nothing

end

theorem addsAlike_mainFunction (body : List Stmt) :
    AddsAlike (mainFunction body) (Direct.mainFunction body) := by
  have h : Matching 0 none
      (do
        statements body
        push (.ret (some (.i32, .int 0)))
        return (Ir.Ty.i32, ([] : List (String × Ir.Ty))))
      (do
        Direct.statements none body
        push (.ret (some (.i32, .int 0)))
        return (Ir.Ty.i32, [])) := by
    refine .bind (matching_statements body 0 none) fun _ => ?_
    exact .append (.push nofun) fun _ => .of_appends (.pure _)
  exact .function h "main"

end Lowering

/-- The program that the direct lowering generates. -/
def Program.lowerDirect (p : Program) : Ir.Program :=
  ((Lowering.Direct.program p).run .empty).2.finish

/-- Whether a statement is a loop. -/
def Stmt.isLoop : Stmt → Bool
  | .while .. | .repeatUntil .. | .forTo .. => true
  | _ => false

theorem Ir.emitFunctions_eq {fs ds : List Ir.Function}
    (h : fs.map Ir.Function.emit = ds.map Ir.Function.emit) :
    Ir.emitFunctions fs = Ir.emitFunctions ds := by
  have hfold : ∀ fs : List Ir.Function, Ir.emitFunctions fs =
      (fs.map Ir.Function.emit).foldr (· ++ ·) (.ofLines []) := by
    intro fs
    induction fs with
    | nil => rfl
    | cons f fs ih => rw [Ir.emitFunctions, ih]; rfl
  rw [hfold, hfold, h]

open Lowering in
/-- Every program is written as the text that the direct lowering gives it. A loop leaves no
transition without a target, and its transitions go to labels that are new when it is lowered: never
to those of a loop around it. -/
theorem Program.emit_lower (p : Program) :
    p.lower.emit = p.lowerDirect.emit ∧
      ∀ s : Stmt, s.isLoop = true → ∀ g, ∃ c, (statement s g).2.code = g.code ++ c ∧
        ∀ kind target, .transition kind target ∈ c → ∃ l, target = some l ∧ g.labels ≤ l := by
  constructor
  · obtain ⟨g, fs, ds, he, hrun, hdirect⟩ :=
      (addsAlike_routines p.scope.entries).bind (addsAlike_mainFunction p.statements)
        { Generator.empty with globals := [] ++ globalVariables p.scope.vars }
    have hlower : p.lower = (g.over [] ([] ++ fs)).finish :=
      congrArg (fun r : Unit × Generator => r.2.finish) (hrun [])
    have hlowerDirect : p.lowerDirect = (g.over [] ([] ++ ds)).finish :=
      congrArg (fun r : Unit × Generator => r.2.finish) (hdirect [])
    rw [hlower, hlowerDirect, Ir.Program.emit, Ir.Program.emit]
    exact congrArg (_ ++ ·) (Ir.emitFunctions_eq he)
  · -- only loops close what is pending in them, so the statement has to be one
    intro s hs g
    have h : Completing g.labels none (statement s) (Direct.statement none s) := by
      cases s with
      | «while» condition body => exact completing_while (matching_statement body)
      | repeatUntil body condition => exact completing_repeat (matching_statement body)
      | forTo p target first bound body => exact completing_for (matching_statement body)
      | _ => cases hs
    obtain ⟨_, c, d, g', hm, hc⟩ := h g (Nat.le_refl _)
    refine ⟨c, congrArg (fun r : Unit × Generator => r.2.code) (hm.run g.code g.functions), ?_⟩
    rintro kind (_ | l) hmem
    · exact absurd hmem (hc kind)
    · exact ⟨l, rfl, hm.targets kind l hmem⟩

end MiniPascal
