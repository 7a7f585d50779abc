import MiniPascal.Proofs.Ir.Typing
import MiniPascal.Proofs.Machine.Basic

/-! One call of a function in the middle of a run. -/

namespace MiniPascal.Ir

variable {F : Floats} {p : Program}

/-- Whether the machine stays in the function and the next instruction follows. -/
def Instr.isLocal : Instr → Bool
  | .call _ _ target _ _ => target = "printf"
  | i => i.isPlain

/-- A call of a function, but for its values and what it has still to run. -/
structure Activation where
  number : Nat
  code : List Instr
  output : Option String
  callers : List Frame

namespace Activation

variable (A : Activation)

/-- The call with these instructions to be run next. -/
def frame (rest : List Instr) (locals : String → Option Value) : Frame :=
  ⟨A.number, A.code, rest, locals, A.output⟩

/-- The state in which the call is the innermost one. -/
def state (rest : List Instr) (C : Config) (calls : Nat) : State :=
  ⟨A.frame rest C.locals :: A.callers, C.memory, calls, C.output⟩

/-- The call is the innermost one, and these instructions are to be run next. -/
def At (rest : List Instr) (s : State) : Prop := ∃ C calls, s = A.state rest C calls

variable {A} {c c' rest : List Instr} {C C' : Config} {n n' : Nat} {l : Label} {s s' : State}

theorem at_iff : A.At rest s ↔ ∃ locals, s.frames = A.frame rest locals :: A.callers := by
  constructor
  · rintro ⟨C, calls, rfl⟩
    exact ⟨C.locals, rfl⟩
  · rintro ⟨locals, h⟩
    refine ⟨⟨locals, s.memory, s.output⟩, s.calls, ?_⟩
    rw [state, ← h]

theorem at_state : A.At c (A.state rest C n) ↔ rest = c := by
  constructor
  · rintro ⟨C', n', h⟩
    injection h with hframes
    injection (List.cons.inj hframes).1
  · rintro rfl
    exact ⟨C, n, rfl⟩

/-! ### Steps of the call -/

theorem step_exec {i : Instr} (hi : i.isLocal = true) :
    (A.state (i :: c) C n).step F p =
      (i.exec F p A.number C).map fun C' => A.state c C' n := by
  cases i with
  | call x t target fixed arguments =>
    obtain rfl : target = "printf" := of_decide_eq_true hi
    show ((Instr.call x t "printf" fixed arguments).exec F p A.number C).bind _ = _
    cases (Instr.call x t "printf" fixed arguments).exec F p A.number C <;> rfl
  | alloca | label | jump | jumpIf | transition | ret => cases hi
  | _ =>
    show (Instr.exec F p A.number C _).bind _ = _
    cases Instr.exec F p A.number C _ <;> rfl

theorem step_label : (A.state (.label l :: c) C n).step F p = some (A.state c C n) := rfl

theorem step_jump (h : fromLabel l A.code = some c') :
    (A.state (.jump l :: c) C n).step F p = some (A.state c' C n) := by
  show (fromLabel l A.code).bind _ = _
  rw [h]
  rfl

theorem step_transition {kind : Transition} (h : fromLabel l A.code = some c') :
    (A.state (.transition kind (some l) :: c) C n).step F p = some (A.state c' C n) := by
  show (fromLabel l A.code).bind _ = _
  rw [h]
  rfl

theorem step_jumpIf {v : Operand} {b : Bool} (hv : C.value F v = some (.bool b)) {yes no : Label}
    (h : fromLabel (if b then yes else no) A.code = some c') :
    (A.state (.jumpIf v yes no :: c) C n).step F p = some (A.state c' C n) := by
  rw [state, State.step]
  simp only [frame]
  rw [show (⟨C.locals, C.memory, C.output⟩ : Config).value F v = _ from hv]
  show (fromLabel (if b then yes else no) A.code).bind _ = _
  rw [h]
  rfl

end Activation

/-! ### Steps of any call -/

theorem Config.locals_define {C : Config} {x y : String} (h : some y ≠ some x) (v : Value) :
    (C.define y v).locals x = C.locals x :=
  Function.update_of_ne (fun hxy => h (congrArg some hxy.symm)) _ _

/-- An instruction changes no other name than the one that it defines. -/
theorem Instr.exec_locals {k : Nat} {i : Instr} {C C' : Config} (h : i.exec F p k C = some C')
    {x : String} (hx : i.output ≠ some x) : C'.locals x = C.locals x := by
  cases i with
  | alloca | load | cast =>
    simp only [exec, bind, Option.bind_eq_some_iff, pure, Option.some.injEq] at h
    obtain ⟨_, -, h⟩ := h
    first
    | obtain rfl := h
    | obtain ⟨_, -, rfl⟩ := h
    exact Config.locals_define hx _
  | binary | compare =>
    simp only [exec, bind, Option.bind_eq_some_iff, pure, Option.some.injEq] at h
    obtain ⟨_, -, _, -, _, -, rfl⟩ := h
    exact Config.locals_define hx _
  | element y t base indices =>
    cases indices with
    | nil => cases h
    | cons =>
      simp only [exec, bind, Option.bind_eq_some_iff, pure, Option.some.injEq] at h
      obtain ⟨_, -, _, -, rfl⟩ := h
      exact Config.locals_define hx _
  | negate y v =>
    simp only [exec] at h
    split at h
    · obtain rfl := Option.some.inj h
      exact Config.locals_define hx _
    · cases h
  | store =>
    simp only [exec, Config.write, bind, Option.bind_eq_some_iff, pure, Option.some.injEq] at h
    obtain ⟨_, -, _, -, _, -, _, -, rfl⟩ := h
    rfl
  -- of all calls only that of `printf` is carried out here
  | call y =>
    simp only [exec] at h
    split at h
    · simp only [bind, Option.bind_eq_some_iff, pure, Option.some.injEq] at h
      obtain ⟨_, -, _, -, rfl⟩ := h
      cases y with
      | none => rfl
      | some y => exact Config.locals_define hx _
    · cases h
  | label => cases h; rfl
  | jump | jumpIf | transition | ret => cases h

namespace State

variable {f : Frame} {callers : List Frame} {s s' : State}

theorem frames_leave (s : State) (f : Frame) (callers : List Frame) (result : Option Value) :
    (s.leave f callers result).frames = callers ∨
      ∃ g gs x v, callers = g :: gs ∧ f.output = some x ∧
        (s.leave f callers result).frames =
          { g with locals := Function.update g.locals x (some v) } :: gs := by
  unfold leave
  split
  · exact .inr ⟨_, _, _, _, rfl, ‹_›, rfl⟩
  · exact .inl rfl

theorem frames_enter {target : String} {arguments : List Value} {output : Option String}
    (h : s.enter p target arguments output = some s') :
    ∃ g : Frame, s'.frames = g :: s.frames ∧ g.output = output := by
  obtain ⟨_, -, h⟩ := Option.bind_eq_some_iff.1 h
  cases h
  exact ⟨_, rfl, rfl⟩

/-- A step goes on in the innermost call, enters a new one, or leaves it, where the caller may get
the result. -/
theorem step_cases (hf : s.frames = f :: callers) (h : s.step F p = some s') :
    (∃ rest locals, s'.frames = { f with rest, locals } :: callers) ∨
    (∃ g rest, s'.frames = g :: { f with rest } :: callers) ∨
    s'.frames = callers ∨
    ∃ g gs x v, callers = g :: gs ∧ f.output = some x ∧
      s'.frames = { g with locals := Function.update g.locals x (some v) } :: gs := by
  unfold step at h
  rw [hf] at h
  dsimp only at h
  split at h
  · -- no code is left
    cases h
  · -- a jump
    obtain ⟨c, -, h⟩ := Option.bind_eq_some_iff.1 h
    cases h
    exact .inl ⟨_, _, rfl⟩
  · -- a transition
    obtain ⟨c, -, h⟩ := Option.bind_eq_some_iff.1 h
    cases h
    exact .inl ⟨_, _, rfl⟩
  · -- a conditional jump
    split at h
    · obtain ⟨c, -, h⟩ := Option.bind_eq_some_iff.1 h
      cases h
      exact .inl ⟨_, _, rfl⟩
    · cases h
  · -- a return
    cases h
    exact .inr (.inr (frames_leave s f callers none))
  · -- a return with a result
    obtain ⟨v, -, h⟩ := Option.bind_eq_some_iff.1 h
    cases h
    exact .inr (.inr (frames_leave s f callers _))
  · -- a call
    split at h
    · obtain ⟨C, -, h⟩ := Option.bind_eq_some_iff.1 h
      cases h
      exact .inl ⟨_, _, rfl⟩
    · obtain ⟨vs, -, h⟩ := Option.bind_eq_some_iff.1 h
      obtain ⟨g, hg, -⟩ := frames_enter h
      exact .inr (.inl ⟨g, _, hg⟩)
  · -- any other instruction
    obtain ⟨C, -, h⟩ := Option.bind_eq_some_iff.1 h
    cases h
    exact .inl ⟨_, _, rfl⟩

/-- An instruction that only computes changes no other name than the one that it defines, or enters
a call that will. -/
theorem step_plain {i : Instr} (hi : i.isPlain = true) {c : List Instr}
    (hf : s.frames = f :: callers) (hrest : f.rest = i :: c) (h : s.step F p = some s') :
    (∃ locals, s'.frames = { f with rest := c, locals } :: callers ∧
      ∀ x, i.output ≠ some x → locals x = f.locals x) ∨
    ∃ g, s'.frames = g :: { f with rest := c } :: callers ∧ g.output = i.output := by
  let A : Activation := ⟨f.number, f.body, f.output, callers⟩
  obtain ⟨frames, memory, calls, output⟩ := s
  dsimp only at hf
  have hs : (⟨frames, memory, calls, output⟩ : State) =
      A.state (i :: c) ⟨f.locals, memory, output⟩ calls := by
    rw [hf, Activation.state, Activation.frame, ← hrest]
  rw [hs] at h
  by_cases hlocal : i.isLocal = true
  · rw [Activation.step_exec hlocal] at h
    obtain ⟨C, hexec, rfl⟩ := Option.map_eq_some_iff.1 h
    exact .inl ⟨C.locals, rfl, fun x hx => Instr.exec_locals hexec hx⟩
  · cases i with
    | call x t target fixed arguments =>
      have htarget : target ≠ "printf" := fun h => hlocal (decide_eq_true h)
      have h : (if target = "printf" then _ else _) = some s' := h
      rw [if_neg htarget] at h
      obtain ⟨vs, -, h⟩ := Option.bind_eq_some_iff.1 h
      obtain ⟨g, hg, houtput⟩ := frames_enter h
      exact .inr ⟨g, hg, houtput⟩
    | _ => exact absurd hi hlocal

end State

/-! ### Code that comes to its end -/

/-- The first state on the way of the machine that fulfils a condition. -/
inductive Comes (F : Floats) (p : Program) (stop : State → Prop) : State → State → Prop
  | here {s : State} (h : stop s) : Comes F p stop s s
  | step {s s' s'' : State} (h : ¬stop s) (hstep : s.step F p = some s')
    (h' : Comes F p stop s' s'') : Comes F p stop s s''

namespace Activation

variable {A : Activation} {c d rest : List Instr} {C C' : Config} {n n' : Nat} {s s' : State}
  {base : String → Option Value} {fs : List Frame}

/-- The call has come from some code to its end, in front of other code, or it is on the way there,
perhaps with calls on top of it. What the code does not define is as it has been. -/
inductive Over (A : Activation) (c rest : List Instr) (base : String → Option Value) :
    List Frame → Prop
  | own {c' : List Instr} {locals : String → Option Value} (hc : c' <:+ c)
    (hkept : ∀ x ∉ outputs c, locals x = base x) :
    Over A c rest base (A.frame (c' ++ rest) locals :: A.callers)
  | inner {f : Frame} {fs : List Frame} (h : Over A c rest base fs)
    (hkept : ∀ x ∉ outputs c, f.output = some x → A.callers.length + 1 < fs.length) :
    Over A c rest base (f :: fs)

namespace Over

theorem length_lt (h : A.Over c rest base fs) : A.callers.length < fs.length := by
  induction h with
  | own => exact Nat.lt_succ_self _
  | inner _ _ ih => exact Nat.lt_succ_of_lt ih

/-- A call that returns to another one than this leaves its names. -/
theorem update {g : Frame} {gs : List Frame} (h : A.Over c rest base (g :: gs)) {x : String}
    (hx : x ∉ outputs c → A.callers.length + 1 < (g :: gs).length) (v : Value) :
    A.Over c rest base ({ g with locals := Function.update g.locals x (some v) } :: gs) := by
  cases h with
  | own hc hkept =>
    refine .own hc fun y hy => ?_
    have hne : y ≠ x := by
      rintro rfl
      exact absurd (hx hy) (Nat.lt_irrefl _)
    rw [← hkept y hy]
    exact Function.update_of_ne hne _ _
  | inner h hkept => exact .inner h hkept

/-- The own frame, where the call is the innermost one. -/
theorem of_at (h : A.Over c rest base s.frames) (hs : A.At d s) :
    ∃ c' C n, c' <:+ c ∧ d = c' ++ rest ∧ s = A.state d C n ∧
      ∀ x ∉ outputs c, C.locals x = base x := by
  obtain ⟨C, n, rfl⟩ := hs
  generalize hfs : (A.state d C n).frames = fs at h
  cases h with
  | own hc hkept =>
    injection hfs with hframe
    injection hframe with _ _ hd hlocals
    subst hlocals
    exact ⟨_, C, n, hc, hd, rfl, hkept⟩
  | inner h =>
    injection hfs with _ htail
    rw [← htail] at h
    exact absurd h.length_lt (Nat.lt_irrefl _)

theorem step (hplain : ∀ i ∈ c, i.isPlain = true) (h : A.Over c rest base s.frames)
    (hs : ¬A.At rest s) (hstep : s.step F p = some s') : A.Over c rest base s'.frames := by
  generalize hfs : s.frames = fs at h
  cases h with
  | @own c' locals hc hkept =>
    cases c' with
    | nil => exact absurd (at_iff.2 ⟨locals, hfs⟩) hs
    | cons i c' =>
      have hi : i ∈ c := hc.subset List.mem_cons_self
      have hc' : c' <:+ c := (List.suffix_cons i c').trans hc
      have houtput : ∀ x ∉ outputs c, i.output ≠ some x :=
        fun x hx hix => hx (List.mem_filterMap.2 ⟨i, hi, hix⟩)
      -- the call goes on, or it enters another, whose result is an output of the code
      rcases State.step_plain (hplain i hi) hfs rfl hstep with ⟨locals', h, hsame⟩ | ⟨g, h, hg⟩
      · rw [h]
        exact .own hc' fun x hx => (hsame x (houtput x hx)).trans (hkept x hx)
      · rw [h]
        refine .inner (.own hc' hkept) fun x hx hgx => ?_
        exact absurd (hg ▸ hgx) (houtput x hx)
  | @inner f fs h hkept =>
    rcases State.step_cases hfs hstep with
      ⟨r, locals, hs'⟩ | ⟨g, r, hs'⟩ | hs' | ⟨g, gs, x, v, rfl, hx, hs'⟩
    · -- the call goes on
      rw [hs']
      exact .inner h hkept
    · -- it enters another
      rw [hs']
      exact .inner (.inner h hkept) fun x _ _ => Nat.succ_lt_succ h.length_lt
    · -- it returns nothing
      rw [hs']
      exact h
    · -- its result goes to a local of the caller
      rw [hs']
      exact h.update (fun hxc => hkept x hxc hx) v

/-- Code that comes to its end has kept all names that it does not define. -/
theorem comes (hplain : ∀ i ∈ c, i.isPlain = true) (hc : Comes F p (A.At rest) s s')
    (h : A.Over c rest base s.frames) :
    ∃ C n, s' = A.state rest C n ∧ ∀ x ∉ outputs c, C.locals x = base x := by
  induction hc with
  | here hs =>
    obtain ⟨-, C, n, -, -, rfl, hkept⟩ := h.of_at hs
    exact ⟨C, n, rfl, hkept⟩
  | step hs hstep _ ih => exact ih (h.step hplain hs hstep)

end Over

end Activation

end MiniPascal.Ir
