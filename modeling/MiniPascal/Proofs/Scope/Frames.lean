import MiniPascal.Proofs.Checked.Stack

/-! The visible scopes as one list of frames, each marked with what it belongs to and with the
number of routines around it. -/

namespace MiniPascal

theorem Scope.contains_of_get? {s : Scope} {n : Name} {d : Declaration} (h : s.get? n = some d) :
    s.contains n = true := by
  rw [← Bool.not_eq_false, ← get?_eq_none, h]
  exact Option.some_ne_none d

namespace Scopes

/-- A scope, what it belongs to, and how many routines are around it. -/
structure Frame where
  region : Region
  depth : Nat
  scope : Scope

/-- Frames, the innermost first. -/
structure Stack where
  frames : List Frame

/-- Why a declaration is refused. -/
inductive Refusal where
  | semantic (e : Located SemanticError)
  /-- There is no frame at all. -/
  | noScope (position : Position)

namespace Stack

/-- Only the main program, with nothing declared. -/
def empty : Stack := ⟨[⟨.global, 0, .empty⟩]⟩

/-- How many routines are around the innermost frame. -/
def depth (s : Stack) : Nat := (s.frames.head?.map Frame.depth).getD 0

/-- What the innermost frame belongs to. -/
def region (s : Stack) : Region := (s.frames.head?.map Frame.region).getD .global

/-- The frame below the innermost one, if that holds the routine's own declarations. -/
def below? (s : Stack) : Option Frame :=
  match s.region with
  | .locals => s.frames[1]?
  | .global | .params => none

/-- Declares a name in the innermost frame. -/
def declare (s : Stack) (n : Name) (d : Declaration) : Except Refusal Stack :=
  if s.below?.any (·.scope.contains n) then
    .error (.semantic ⟨d.position, .duplicateDeclaration n⟩)
  else
    match s.frames with
    | [] => .error (.noScope d.position)
    | f :: frames =>
      match f.scope.insert n d with
      | .ok scope => .ok ⟨{ f with scope } :: frames⟩
      | .error e => .error (.semantic e)

/-- Declares names in order up to the first that is refused, and tells why it was. -/
def declareAll (s : Stack) : List (Name × Declaration) → Stack × Option Refusal
  | [] => (s, none)
  | (n, d) :: entries =>
    match s.declare n d with
    | .ok s' => declareAll s' entries
    | .error e => (s, some e)

/-- Puts a frame for the parameters of a routine on the stack, and one for its own declarations. -/
def enter (s : Stack) (params : Scope) : Stack :=
  ⟨⟨.locals, s.depth + 1, .empty⟩ :: ⟨.params, s.depth + 1, params⟩ :: s.frames⟩

/-- Takes the innermost frame off. The last one stays. -/
def pop (s : Stack) : Scope × Stack :=
  match s.frames with
  | f :: g :: frames => (f.scope, ⟨g :: frames⟩)
  | [_] | [] => (.empty, s)

/-- Takes two frames off and gives the scope of the first. -/
def leave (s : Stack) : Scope × Stack := (s.pop.1, s.pop.2.pop.2)

/-- Resolves a name in the innermost frame that has it. -/
def lookup (s : Stack) (name : Located Name) : Checked Resolved :=
  match s.frames.find? (·.scope.contains name.value) with
  | none => .error ⟨name.position, .unknownIdentifier name.value⟩
  | some f =>
    match f.scope.get? name.value with
    | none => .error ⟨name.position, .unknownIdentifier name.value⟩
    | some d =>
      if isVariable d && f.depth ≠ 0 && f.depth ≠ s.depth then
        .error ⟨name.position, .capturedVariable name.value⟩
      else .ok ⟨d, if f.depth = 0 then .global else .routine⟩

/-- What a name means where these frames are visible. -/
inductive Resolves (s : Stack) (name : Located Name) : Checked Resolved → Prop
  | unknown (h : ∀ f ∈ s.frames, f.scope.contains name.value = false) :
    Resolves s name (.error ⟨name.position, .unknownIdentifier name.value⟩)
  /-- The innermost declaration is that of a variable of another routine. -/
  | captured {before behind : List Frame} {f : Frame} {p : Position} {t : Ty}
    (hs : s.frames = before ++ f :: behind)
    (hbefore : ∀ g ∈ before, g.scope.contains name.value = false)
    (hf : f.scope.get? name.value = some (.var p t)) (hregion : f.region ≠ .global)
    (hdepth : f.depth ≠ s.depth) :
    Resolves s name (.error ⟨name.position, .capturedVariable name.value⟩)
  | declared {before behind : List Frame} {f : Frame} {d : Declaration}
    (hs : s.frames = before ++ f :: behind)
    (hbefore : ∀ g ∈ before, g.scope.contains name.value = false)
    (hf : f.scope.get? name.value = some d)
    (hd : isVariable d = true → f.region ≠ .global → f.depth = s.depth) :
    Resolves s name (.ok ⟨d, if f.region = .global then .global else .routine⟩)

variable {s : Stack} {name : Located Name}

theorem lookup_unknown (h : ∀ f ∈ s.frames, f.scope.contains name.value = false) :
    s.lookup name = .error ⟨name.position, .unknownIdentifier name.value⟩ := by
  have hnone : s.frames.find? (·.scope.contains name.value) = none := by
    apply List.find?_eq_none.2
    intro f hf
    exact Bool.eq_false_iff.1 (h f hf)
  rw [lookup, hnone]

/-- The innermost frame that has the name answers. -/
theorem lookup_innermost {before behind : List Frame} {f : Frame} {d : Declaration}
    (hs : s.frames = before ++ f :: behind)
    (hbefore : ∀ g ∈ before, g.scope.contains name.value = false)
    (hf : f.scope.get? name.value = some d) :
    s.lookup name =
      if isVariable d ∧ f.depth ≠ 0 ∧ f.depth ≠ s.depth then
        .error ⟨name.position, .capturedVariable name.value⟩
      else .ok ⟨d, if f.depth = 0 then .global else .routine⟩ := by
  have hc : f.scope.contains name.value = true := Scope.contains_of_get? hf
  have hfind : s.frames.find? (·.scope.contains name.value) = some f := by
    apply List.find?_eq_some_iff_append.2
    refine ⟨hc, before, behind, hs, ?_⟩
    intro g hg
    rw [hbefore g hg]
    rfl
  rw [lookup, hfind]
  dsimp only
  rw [hf]
  simp only [Bool.and_eq_true, decide_eq_true_eq, and_assoc]

/-- Some frame is the innermost one that has the name, or none has it. -/
theorem innermost_cases (s : Stack) (n : Name) :
    (∀ f ∈ s.frames, f.scope.contains n = false) ∨
      ∃ before f behind d, s.frames = before ++ f :: behind ∧
        (∀ g ∈ before, g.scope.contains n = false) ∧ f.scope.get? n = some d := by
  cases hfind : s.frames.find? (·.scope.contains n) with
  | none =>
    left
    intro f hf
    exact Bool.eq_false_iff.2 (List.find?_eq_none.1 hfind f hf)
  | some f =>
    right
    obtain ⟨hc, before, behind, hs, hbefore⟩ := List.find?_eq_some_iff_append.1 hfind
    have hsome : f.scope.get? n ≠ none := by
      rw [Ne, Scope.get?_eq_none, hc]
      exact Bool.noConfusion
    obtain ⟨d, hd⟩ := Option.ne_none_iff_exists'.1 hsome
    refine ⟨before, f, behind, d, hs, ?_, hd⟩
    intro g hg
    simpa using hbefore g hg

end Stack

/-- A frame of the main program, and on it a frame of parameters and one of own declarations for
each depth in turn. -/
inductive Nested : Nat → List Frame → Prop
  | main (globals : Scope) : Nested 0 [⟨.global, 0, globals⟩]
  | routine {depth : Nat} {frames : List Frame} (params locals : Scope) (h : Nested depth frames) :
    Nested (depth + 1)
      (⟨.locals, depth + 1, locals⟩ :: ⟨.params, depth + 1, params⟩ :: frames)

namespace Nested

variable {depth : Nat} {s : Stack}

theorem depth_eq (h : Nested depth s.frames) : s.depth = depth := by
  obtain ⟨frames⟩ := s
  cases h <;> rfl

theorem region_eq (h : Nested depth s.frames) :
    s.region = if depth = 0 then .global else .locals := by
  obtain ⟨frames⟩ := s
  cases h <;> rfl

/-- The main program is not left. -/
theorem leave_main (h : Nested 0 s.frames) : s.leave = (.empty, s) := by
  obtain ⟨frames⟩ := s
  cases h
  rfl

/-- The frame of the main program is the one with no routine around. -/
theorem depth_eq_zero {frames : List Frame} (h : Nested depth frames) :
    ∀ f ∈ frames, f.depth = 0 ↔ f.region = .global := by
  induction h with
  | main globals =>
    intro f hf
    rw [List.mem_singleton.1 hf]
    exact iff_of_true rfl rfl
  | routine params locals h ih =>
    rintro f (_ | ⟨_, _ | ⟨_, hf⟩⟩)
    · exact iff_of_false (Nat.succ_ne_zero _) nofun
    · exact iff_of_false (Nat.succ_ne_zero _) nofun
    · exact ih f hf

/-- A name is looked up to what it means, and to nothing else. -/
theorem lookup_iff (h : Nested depth s.frames) {name : Located Name} {r : Checked Resolved} :
    s.lookup name = r ↔ s.Resolves name r := by
  constructor
  · rintro rfl
    rcases s.innermost_cases name.value with hall | ⟨before, f, behind, d, hs, hbefore, hf⟩
    · rw [Stack.lookup_unknown hall]
      exact .unknown hall
    · have hmem : f ∈ s.frames := hs ▸ List.mem_append_right _ List.mem_cons_self
      -- frames are told apart by depth where the meaning goes by region
      have hmain := h.depth_eq_zero f hmem
      rw [Stack.lookup_innermost hs hbefore hf]
      split
      · rename_i hcaptured
        obtain ⟨hvar, hzero, hdepth⟩ := hcaptured
        cases d with
        | var p t => exact .captured hs hbefore hf (mt hmain.2 hzero) hdepth
        | const | type | routine => cases hvar
      · rename_i hfree
        rw [if_congr hmain rfl rfl]
        apply Stack.Resolves.declared hs hbefore hf
        intro hvar hregion
        by_contra hdepth
        exact hfree ⟨hvar, mt hmain.1 hregion, hdepth⟩
  · intro hr
    cases hr with
    | unknown hall => exact Stack.lookup_unknown hall
    | @captured before behind f p t hs hbefore hf hregion hdepth =>
      have hmem : f ∈ s.frames := hs ▸ List.mem_append_right _ List.mem_cons_self
      have hzero : f.depth ≠ 0 := mt (h.depth_eq_zero f hmem).1 hregion
      rw [Stack.lookup_innermost hs hbefore hf, if_pos ⟨rfl, hzero, hdepth⟩]
    | @declared before behind f d hs hbefore hf hd =>
      have hmem : f ∈ s.frames := hs ▸ List.mem_append_right _ List.mem_cons_self
      have hmain := h.depth_eq_zero f hmem
      have hfree : ¬(isVariable d ∧ f.depth ≠ 0 ∧ f.depth ≠ s.depth) := by
        rintro ⟨hvar, hzero, hdepth⟩
        exact hdepth (hd hvar (mt hmain.2 hzero))
      rw [Stack.lookup_innermost hs hbefore hf, if_neg hfree, if_congr hmain rfl rfl]

end Nested

/-! ### The frames of visible scopes -/

/-- The frames of levels, and that of the main program behind them. -/
def framesOf (globals : Scope) : List Level → List Frame
  | [] => [⟨.global, 0, globals⟩]
  | l :: ls =>
    ⟨.locals, ls.length + 1, l.locals⟩ :: ⟨.params, ls.length + 1, l.params⟩ :: framesOf globals ls

/-- The visible scopes frame by frame. -/
def stack (s : Scopes) : Stack := ⟨framesOf s.globals s.levels⟩

theorem stack_nested (s : Scopes) : Nested s.depth s.stack.frames := by
  obtain ⟨globals, ls⟩ := s
  show Nested ls.length (framesOf globals ls)
  induction ls with
  | nil => exact .main globals
  | cons l ls ih => exact .routine l.params l.locals ih

theorem stack_depth (s : Scopes) : s.stack.depth = s.depth := s.stack_nested.depth_eq

theorem stack_enter (s : Scopes) (params : Scope) :
    (s.enter params).stack = s.stack.enter params := by
  show Stack.mk (_ :: _ :: s.stack.frames) = ⟨_ :: _ :: s.stack.frames⟩
  rw [stack_depth]
  rfl

theorem stack_leave (s : Scopes) : s.stack.leave = (s.leave.1, s.leave.2.stack) := by
  obtain ⟨globals, _ | ⟨l, _ | ⟨l', ls⟩⟩⟩ := s <;> rfl

/-- The frame below the innermost one is that of the parameters. -/
theorem stack_below (s : Scopes) (n : Name) :
    s.stack.below?.any (·.scope.contains n) = s.params.contains n := by
  obtain ⟨globals, _ | ⟨l, ls⟩⟩ := s <;> rfl

/-- The innermost frame holds the innermost scope. -/
theorem stack_split (s : Scopes) : ∃ f frames, s.stack.frames = f :: frames ∧ f.scope = s.top ∧
    ∀ scope, (s.withTop scope).stack = ⟨{ f with scope } :: frames⟩ := by
  obtain ⟨globals, _ | ⟨l, ls⟩⟩ := s
  · exact ⟨_, _, rfl, rfl, fun _ => rfl⟩
  · exact ⟨_, _, rfl, rfl, fun _ => rfl⟩

theorem stack_declare (s : Scopes) (n : Name) (d : Declaration) :
    s.stack.declare n d =
      match s.declare n d with
      | .ok s' => .ok s'.stack
      | .error e => .error (.semantic e) := by
  obtain ⟨f, frames, hframes, htop, hwith⟩ := s.stack_split
  unfold Stack.declare declare insertTop
  rw [stack_below, hframes]
  dsimp only
  rw [htop]
  split
  · rfl
  · cases s.top.insert n d with
    | error e => rfl
    | ok scope => exact congrArg Except.ok (hwith scope).symm

theorem stack_declareAll (s : Scopes) (entries : List (Name × Declaration)) :
    s.stack.declareAll entries =
      ((s.declareAll entries).1.stack, (s.declareAll entries).2.map .semantic) := by
  induction entries generalizing s with
  | nil => rfl
  | cons e entries ih =>
    obtain ⟨n, d⟩ := e
    rw [Stack.declareAll, declareAll, stack_declare]
    cases s.declare n d with
    | error e => rfl
    | ok s' => exact ih s'

/-- The frame in front answers if it has the name, and else those behind it. -/
theorem find?_cons (f : Frame) (frames : List Frame) (n : Name) :
    (((f :: frames).find? (·.scope.contains n)).bind fun f =>
        (f.scope.get? n).map fun d => (d, f.depth)) =
      match f.scope.get? n with
      | some d => some (d, f.depth)
      | none => (frames.find? (·.scope.contains n)).bind fun f =>
        (f.scope.get? n).map fun d => (d, f.depth) := by
  rw [List.find?_cons]
  cases hd : f.scope.get? n with
  | some d =>
    rw [Scope.contains_of_get? hd]
    exact congrArg (Option.map fun d => (d, f.depth)) hd
  | none =>
    rw [Scope.get?_eq_none.1 hd]

/-- Levels are searched frame by frame. -/
theorem find?_framesOf (s : Scopes) (n : Name) (ls : List Level) :
    find?.go s n ls = ((framesOf s.globals ls).find? (·.scope.contains n)).bind fun f =>
      (f.scope.get? n).map fun d => (d, f.depth) := by
  induction ls with
  | nil =>
    rw [find?.go, framesOf, find?_cons]
    cases s.globals.get? n <;> rfl
  | cons l ls ih =>
    rw [find?.go, framesOf, find?_cons, find?_cons, ih, Level.get?]
    cases l.locals.get? n <;> rfl

theorem stack_lookup (s : Scopes) (name : Located Name) : s.stack.lookup name = s.lookup name := by
  have hfind : s.find? name.value =
      (s.stack.frames.find? (·.scope.contains name.value)).bind fun f =>
        (f.scope.get? name.value).map fun d => (d, f.depth) := s.find?_framesOf name.value s.levels
  rw [Stack.lookup, lookup, hfind, stack_depth]
  cases s.stack.frames.find? (·.scope.contains name.value) with
  | none => rfl
  | some f =>
    rw [Option.bind_some]
    dsimp only
    cases f.scope.get? name.value with
    | none => rfl
    | some d => rfl

end Scopes

end MiniPascal
