import Mathlib.Data.List.Forall2
import MiniPascal.Proofs.Ir.Elimination
import MiniPascal.Proofs.Machine.Flow

/-! Dropping dead code does not change a run. -/

namespace MiniPascal.Ir

variable {F : Floats} {p : Program}

/-! ### Runs -/

namespace State

/-- The instruction that is run next. -/
def next? (s : State) : Option Instr := s.frames.head?.bind fun f => f.rest.head?

/-- What the innermost call is about to return: for a procedure, no value. -/
def result? (F : Floats) (s : State) : Option (Option Value) :=
  s.frames.head?.bind fun f =>
    match s.next? with
    | some (.ret none) => some none
    | some (.ret (some (_, v))) => ((⟨f.locals, s.memory, s.output⟩ : Config).value F v).map some
    | _ => none

/-- The instructions that the machine runs in so many steps, or fewer if it stops, and the state in
which it then is. -/
def run (F : Floats) (p : Program) : Nat → State → List Instr × State
  | 0, s => ([], s)
  | n + 1, s =>
    match s.step F p with
    | some s' => (s.next?.toList ++ (run F p n s').1, (run F p n s').2)
    | none => ([], s)

end State

/-- What can be seen of a state: all but the code that comes behind the next instruction. -/
structure View where
  /-- The number of each call that has not returned, its names, and where its result goes. -/
  frames : List (Nat × (String → Option Value) × Option String)
  memory : Root → Option Value
  calls : Nat
  output : String
  next : Option Instr
  result : Option (Option Value)

/-- What can be seen of the state. -/
def State.view (F : Floats) (s : State) : View where
  frames := s.frames.map fun f => (f.number, f.locals, f.output)
  memory := s.memory
  calls := s.calls
  output := s.output
  next := s.next?
  result := s.result? F

/-! ### Programs without dead code -/

/-- The function without the dead code behind a place. -/
def Function.pruned (f : Function) (start : Nat) : Function :=
  { f with body := (eliminateDeadCode f.body start).1 }

/-- The program without the dead code behind some place in every function. -/
def Program.pruned (p : Program) (starts : Function → Nat) : Program :=
  { p with functions := p.functions.map fun f => f.pruned (starts f) }

theorem Program.function?_pruned (p : Program) (starts : Function → Nat) (name : String) :
    (p.pruned starts).function? name =
      (p.function? name).map fun f => f.pruned (starts f) := by
  show ((p.functions.map _).reverse.find? _) = _
  rw [← List.map_reverse, List.find?_map]
  rfl

/-! ### Programs with the same globals -/

section Globals

variable {q : Program} (h : q.globals = p.globals)
include h

theorem Program.decode_congr (v : Value) : q.decode v = p.decode v := by
  have htext : ∀ name, q.text? name = p.text? name := fun name => by rw [text?, text?, h]
  simp only [decode, htext]

theorem Program.print_congr (cs : List Char) (vs : List Value) :
    q.print F cs vs = p.print F cs vs := by
  fun_induction Program.print F p cs vs with
  | case1 => rfl
  | case2 cs n vs ih => rw [print, ih]
  | case3 cs x vs ih => rw [print, ih]
  | case4 cs v vs ih => rw [print, ih, decode_congr h]
  | case5 => simp_all [print]
  | case6 c cs vs _ _ _ _ ih => simp_all [print]

/-- Only the texts of a program matter for what one instruction does. -/
theorem Instr.exec_congr (k : Nat) (i : Instr) (C : Config) : i.exec F q k C = i.exec F p k C := by
  cases i with
  | call => simp only [exec, Program.decode_congr h, Program.print_congr h]
  | element _ _ _ indices => cases indices <;> rfl
  | _ => rfl

end Globals

/-! ### Steps -/

/-- The next instruction is never dropped, and nothing is being skipped behind it unless it is a
transition with a target. -/
theorem pruned_cons (i : Instr) (c : List Instr) (n : Nat) : ∃ d, pruned (i :: c) n = i :: d ∧
    (i.isResolved = false → ∃ m, d = pruned c m) := by
  cases n with
  | zero =>
    have hleft : i.left false = [i] := by cases i <;> rfl
    refine ⟨dropDead (i.skips false) c, ?_, fun hi => ⟨0, ?_⟩⟩
    · show dropDead false (i :: c) = _
      rw [dropDead_cons, hleft]
      rfl
    · have hskips : i.skips false = (i.sets.isNone && (false || i.isResolved)) :=
        raises_skips false i
      rw [hskips, hi, Bool.or_false, Bool.and_false]
      rfl
  | succ n => exact ⟨pruned c n, rfl, fun _ => ⟨n, rfl⟩⟩

/-- A label leads to what is left of the code that it has led to. -/
theorem fromLabel_pruned (l : Label) (c : List Instr) (n : Nat) :
    Option.Rel (fun d d' => ∃ m, d' = pruned d m) (fromLabel l c) (fromLabel l (pruned c n)) := by
  induction c generalizing n with
  | nil =>
    rw [pruned_nil]
    exact .none
  | cons i c ih =>
    cases n with
    | zero =>
      have h := fromLabel_dropDead labelsSet_nil l false (i :: c)
      simp only [List.append_nil] at h
      -- nothing is being skipped behind the label, wherever it stands
      show Option.Rel _ _ (fromLabel l (dropDead false (i :: c)))
      rw [h]
      cases fromLabel l (i :: c) with
      | none => exact .none
      | some d => exact .some ⟨0, rfl⟩
    | succ n =>
      show Option.Rel _ _ (fromLabel l (i :: pruned c n))
      rw [fromLabel, fromLabel]
      have hrel := ih n
      revert hrel
      generalize fromLabel l c = a, fromLabel l (pruned c n) = b
      intro hrel
      cases hrel with
      | some h => exact .some h
      | none =>
        rw [Option.none_or, Option.none_or]
        split
        · exact .some ⟨n + 1, rfl⟩
        · exact .none

/-- A call, and the same call where dead code is missing. -/
inductive Frame.Pruned : Frame → Frame → Prop
  | intro {number : Nat} {code rest : List Instr} {locals : String → Option Value}
    {output : Option String} {m n : Nat} :
    Pruned ⟨number, code, rest, locals, output⟩
      ⟨number, pruned code m, pruned rest n, locals, output⟩

namespace Frame.Pruned

theorem refl (f : Frame) : Frame.Pruned f f := by
  have h : Frame.Pruned f ⟨f.number, pruned f.body f.body.length, pruned f.rest f.rest.length,
    f.locals, f.output⟩ := .intro
  rwa [pruned_of_length_le (Nat.le_refl _), pruned_of_length_le (Nat.le_refl _)] at h

theorem map_eq {fs gs : List Frame} (h : List.Forall₂ Frame.Pruned fs gs) :
    gs.map (fun f => (f.number, f.locals, f.output)) =
      fs.map fun f => (f.number, f.locals, f.output) := by
  induction h with
  | nil => rfl
  | cons hf _ ih =>
    cases hf
    rw [List.map_cons, List.map_cons, ih]

end Frame.Pruned

/-- A state, and the same state where dead code is missing in the calls. -/
inductive State.Pruned : State → State → Prop
  | intro {fs gs : List Frame} {memory : Root → Option Value} {calls : Nat} {output : String}
    (h : List.Forall₂ Frame.Pruned fs gs) :
    Pruned ⟨fs, memory, calls, output⟩ ⟨gs, memory, calls, output⟩

/-- Whether the instruction calls a function of the program. -/
def Instr.calls : Instr → Bool
  | .call _ _ target _ _ => target ≠ "printf"
  | _ => false

/-- The truth value that a value is. -/
def Value.truth? : Value → Option Bool
  | .bool b => some b
  | _ => none

namespace Activation

variable {A : Activation} {c : List Instr} {C : Config} {n : Nat}

/-- An instruction behind which the next one follows, whatever it does. -/
theorem step_through {i : Instr} (hi : i.isTerminator = false) (hcall : i.calls = false) :
    (A.state (i :: c) C n).step F p =
      (i.exec F p A.number C).map fun C' => A.state c C' n := by
  by_cases hlocal : i.isLocal = true
  · exact step_exec hlocal
  · cases i with
    | alloca x t =>
      show ((Instr.alloca x t).exec F p A.number C).bind _ = _
      cases (Instr.alloca x t).exec F p A.number C <;> rfl
    | label => rfl
    | jump | jumpIf | transition | ret => cases hi
    | call x t target fixed arguments =>
      have htarget : target = "printf" := by simpa [Instr.calls] using hcall
      exact absurd (decide_eq_true htarget) hlocal
    | _ => exact absurd rfl hlocal

/-- A condition has to be a truth value. -/
theorem step_condition (v : Operand) (yes no : Label) :
    (A.state (.jumpIf v yes no :: c) C n).step F p = (C.value F v).bind fun w =>
      w.truth?.bind fun b => (fromLabel (if b then yes else no) A.code).bind fun c' =>
        some (A.state c' C n) := by
  rw [state, State.step]
  simp only [frame]
  show _ = (Config.value F ⟨C.locals, C.memory, C.output⟩ v).bind _
  cases Config.value F ⟨C.locals, C.memory, C.output⟩ v with
  | none => rfl
  | some w => cases w <;> rfl

end Activation

namespace State.Pruned

variable {starts : Function → Nat} {s t : State}

/-- A jump goes on with what is left of the code behind the label. -/
theorem goto {l : Label} {code : List Instr} {m : Nat} {number calls : Nat} {output : Option String}
    {fs gs : List Frame} (C : Config) (h : List.Forall₂ Frame.Pruned fs gs) :
    Option.Rel State.Pruned
      ((fromLabel l code).bind fun c =>
        some ((⟨number, code, output, fs⟩ : Activation).state c C calls))
      ((fromLabel l (pruned code m)).bind fun c =>
        some ((⟨number, pruned code m, output, gs⟩ : Activation).state c C calls)) := by
  have hrel := fromLabel_pruned l code m
  revert hrel
  generalize fromLabel l code = a, fromLabel l (pruned code m) = b
  intro hrel
  cases hrel with
  | none => exact .none
  | some h' =>
    obtain ⟨k, rfl⟩ := h'
    exact .some (.intro (.cons .intro h))

/-- Callers get the same result. -/
theorem leave {f g : Frame} {fs gs : List Frame} {memory : Root → Option Value} {calls : Nat}
    {output : String} (hf : Frame.Pruned f g) (h : List.Forall₂ Frame.Pruned fs gs)
    (result : Option Value) :
    State.Pruned (State.leave ⟨f :: fs, memory, calls, output⟩ f fs result)
      (State.leave ⟨g :: gs, memory, calls, output⟩ g gs result) := by
  cases hf with
  | @intro _ _ _ _ wanted =>
    cases h with
    | nil => cases wanted <;> cases result <;> exact .intro .nil
    | cons hcaller hcallers =>
      cases hcaller
      cases wanted <;> cases result <;> exact .intro (.cons .intro hcallers)

/-- A function is entered with all its code that is left to be run. -/
theorem enter (h : State.Pruned s t) (target : String) (arguments : List Value)
    (output : Option String) :
    Option.Rel State.Pruned (s.enter p target arguments output)
      (t.enter (p.pruned starts) target arguments output) := by
  cases h with
  | intro h =>
    show Option.Rel _ ((p.function? target).bind _) (((p.pruned starts).function? target).bind _)
    rw [Program.function?_pruned]
    cases p.function? target with
    | none => exact .none
    | some f => exact .some (.intro (.cons .intro h))

section

variable {number calls m : Nat} {code c d : List Instr} {wanted : Option String} {i : Instr}
  {fs gs : List Frame} (h : List.Forall₂ Frame.Pruned fs gs) (C : Config)
include h

/-- An instruction behind which the next one follows has the same effect. -/
theorem through (hi : i.isTerminator = false) (hcall : i.calls = false)
    (hd : ∃ k, d = pruned c k) :
    Option.Rel State.Pruned
      (((⟨number, code, wanted, fs⟩ : Activation).state (i :: c) C calls).step F p)
      (((⟨number, pruned code m, wanted, gs⟩ : Activation).state (i :: d) C calls).step F
        (p.pruned starts)) := by
  obtain ⟨k, rfl⟩ := hd
  have hglobals : (p.pruned starts).globals = p.globals := rfl
  have hexec := Instr.exec_congr (F := F) hglobals number i C
  rw [Activation.step_through hi hcall, Activation.step_through hi hcall]
  show Option.Rel _ ((i.exec F p number C).map _) ((i.exec F (p.pruned starts) number C).map _)
  rw [hexec]
  cases i.exec F p number C with
  | none => exact .none
  | some C' => exact .some (.intro (.cons .intro h))

/-- The innermost call does the same with its next instruction, whatever that is. -/
theorem step_frame (hd : i.isResolved = false → ∃ k, d = pruned c k)
    (hf : Frame.Pruned ⟨number, code, i :: c, C.locals, wanted⟩
      ⟨number, pruned code m, i :: d, C.locals, wanted⟩) :
    Option.Rel State.Pruned
      (((⟨number, code, wanted, fs⟩ : Activation).state (i :: c) C calls).step F p)
      (((⟨number, pruned code m, wanted, gs⟩ : Activation).state (i :: d) C calls).step F
        (p.pruned starts)) := by
  -- jumps lead to a label, where nothing is skipped; all else goes on with what is left
  cases i with
  | jump l => exact goto C h
  | transition kind target =>
    cases target with
    | none => exact .none
    | some l => exact goto C h
  | jumpIf v yes no =>
    rw [Activation.step_condition, Activation.step_condition]
    cases C.value F v with
    | none => exact .none
    | some w =>
      show Option.Rel _ (w.truth?.bind _) (w.truth?.bind _)
      cases w.truth? with
      | none => exact .none
      | some b => exact goto C h
  | ret value =>
    cases value with
    | none => exact .some (leave hf h none)
    | some value =>
      obtain ⟨t, v⟩ := value
      show Option.Rel _ ((C.value F v).bind _) ((C.value F v).bind _)
      cases C.value F v with
      | none => exact .none
      | some w => exact .some (leave hf h (some w))
  | call x t target fixed arguments =>
    by_cases htarget : target = "printf"
    · -- what is written is the only effect
      exact through h C rfl (decide_eq_false (not_not.2 htarget)) (hd rfl)
    · -- the caller goes on behind the call, where nothing is being skipped
      obtain ⟨k, rfl⟩ := hd rfl
      show Option.Rel _ (if target = "printf" then _ else _) (if target = "printf" then _ else _)
      rw [if_neg htarget, if_neg htarget]
      show Option.Rel _ ((arguments.mapM fun a => C.value F a.2).bind _)
        ((arguments.mapM fun a => C.value F a.2).bind _)
      cases arguments.mapM fun a => C.value F a.2 with
      | none => exact .none
      | some vs => exact enter (.intro (.cons .intro h)) target vs x
  | _ => exact through h C rfl rfl (hd rfl)

end

/-- The machine does the same in one step where dead code is missing. -/
theorem step (starts : Function → Nat) (h : State.Pruned s t) :
    Option.Rel State.Pruned (s.step F p) (t.step F (p.pruned starts)) := by
  cases h with
  | @intro fs gs memory calls output h =>
    cases h with
    | nil => exact .none
    | cons hf hfs =>
      -- the next instruction is the same in both, so the step depends on it alone
      cases hf with
      | @intro number code rest locals wanted m n =>
        cases rest with
        | nil =>
          rw [pruned_nil]
          exact .none
        | cons i c =>
          obtain ⟨d, hd, hrest⟩ := pruned_cons i c n
          have hf : Frame.Pruned ⟨number, code, i :: c, locals, wanted⟩
              ⟨number, pruned code m, i :: d, locals, wanted⟩ := by
            rw [← hd]
            exact .intro
          rw [hd]
          exact step_frame hfs ⟨locals, memory, output⟩ hrest hf

theorem next?_eq (h : State.Pruned s t) : t.next? = s.next? := by
  cases h with
  | intro h =>
    cases h with
    | nil => rfl
    | cons hf _ =>
      cases hf with
      | @intro number code rest locals wanted m n =>
        cases rest with
        | nil => exact congrArg List.head? (pruned_nil n)
        | cons i c =>
          obtain ⟨d, hd, -⟩ := pruned_cons i c n
          exact congrArg List.head? hd

theorem result?_eq (h : State.Pruned s t) : t.result? F = s.result? F := by
  rw [result?, result?, h.next?_eq]
  cases h with
  | intro h =>
    cases h with
    | nil => rfl
    | cons hf _ =>
      cases hf
      rfl

/-- Missing dead code is not seen. -/
theorem view_eq (h : State.Pruned s t) : t.view F = s.view F := by
  rw [view, view, h.next?_eq, h.result?_eq]
  cases h with
  | intro h => rw [Frame.Pruned.map_eq h]

/-- Step by step the same instructions are run. -/
theorem run (starts : Function → Nat) (h : State.Pruned s t) (n : Nat) :
    (t.run F (p.pruned starts) n).1 = (s.run F p n).1 ∧
      State.Pruned (s.run F p n).2 (t.run F (p.pruned starts) n).2 := by
  induction n generalizing s t with
  | zero => exact ⟨rfl, h⟩
  | succ n ih =>
    have hstep := h.step (F := F) (p := p) starts
    rw [State.run, State.run, h.next?_eq]
    revert hstep
    generalize s.step F p = a, t.step F (p.pruned starts) = b
    intro hstep
    cases hstep with
    | none => exact ⟨rfl, h⟩
    | some h' =>
      obtain ⟨htrace, hstate⟩ := ih h'
      exact ⟨congrArg (s.next?.toList ++ ·) htrace, hstate⟩

end State.Pruned

/-- Dropping dead code from a list, and perhaps from the functions that it calls, does not change
how it runs from its first instruction on, in whatever state. After every number of steps the same
instructions have been run in the same order, and the calls, their values, the memory and the output
are the same; the same instruction is next, and it returns the same value, or none, if it returns.
And the machine goes on, or stops there, in both. -/
theorem run_eliminateDeadCode (F : Floats) (p : Program) (starts : Function → Nat)
    (code : List Instr) (start number : Nat) (wanted : Option String) (callers : List Frame)
    (C : Config) (calls n : Nat) :
    let left := (eliminateDeadCode code start).1
    let s := (⟨number, code, wanted, callers⟩ : Activation).state code C calls
    let t := (⟨number, left, wanted, callers⟩ : Activation).state left C calls
    let q := p.pruned starts
    (t.run F q n).1 = (s.run F p n).1 ∧
      (t.run F q n).2.view F = (s.run F p n).2.view F ∧
      ((t.run F q n).2.step F q).isSome = ((s.run F p n).2.step F p).isSome := by
  intro left s t q
  have hcallers : List.Forall₂ Frame.Pruned callers callers :=
    List.forall₂_same.2 fun f _ => Frame.Pruned.refl f
  have hs : State.Pruned s t := .intro (.cons .intro hcallers)
  obtain ⟨htrace, hstate⟩ := hs.run (F := F) (p := p) starts n
  refine ⟨htrace, hstate.view_eq, ?_⟩
  have hstep := hstate.step (F := F) (p := p) starts
  revert hstep
  generalize (s.run F p n).2.step F p = a, (t.run F q n).2.step F q = b
  intro hstep
  cases hstep with
  | none => rfl
  | some => rfl

end MiniPascal.Ir
