import MiniPascal.Proofs.Scope.Frames

/-! Entering and leaving routines. -/

namespace MiniPascal

namespace Scopes

/-- What is done to the visible scopes. -/
inductive Op where
  | declare (n : Name) (d : Declaration)
  | merge (declarations : Scope)
  | enter (params : Scope)
  | leave

/-- What an operation gives besides the scopes. -/
inductive Answer where
  | done
  | refused (e : Refusal)
  | left (locals : Scope)

/-- What an operation makes of the visible scopes, which stay as they are where it is refused. -/
def apply (s : Scopes) : Op → Scopes × Answer
  | .declare n d =>
    match s.declare n d with
    | .ok s' => (s', .done)
    | .error e => (s, .refused (.semantic e))
  | .merge declarations =>
    match s.merge declarations with
    | (s', none) => (s', .done)
    | (s', some e) => (s', .refused (.semantic e))
  | .enter params => (s.enter params, .done)
  | .leave => (s.leave.2, .left s.leave.1)

/-- What operations in order make of the visible scopes. -/
def runFrom (s : Scopes) (ops : List Op) : Scopes := ops.foldl (fun s op => (s.apply op).1) s

/-- What operations make of the scopes of a program of which nothing has been read. -/
def run (ops : List Op) : Scopes := empty.runFrom ops

namespace Stack

/-- What an operation makes of a stack of frames. -/
def apply (s : Stack) : Op → Stack × Answer
  | .declare n d =>
    match s.declare n d with
    | .ok s' => (s', .done)
    | .error e => (s, .refused e)
  | .merge declarations =>
    match s.declareAll declarations.entries with
    | (s', none) => (s', .done)
    | (s', some e) => (s', .refused e)
  | .enter params => (s.enter params, .done)
  | .leave => (s.leave.2, .left s.leave.1)

/-- What operations in order make of a stack. -/
def runFrom (s : Stack) (ops : List Op) : Stack := ops.foldl (fun s op => (s.apply op).1) s

/-- What operations make of the stack that has the frame of the main program only. -/
def run (ops : List Op) : Stack := empty.runFrom ops

end Stack

/-- How many routines are around after an operation. The main program is not left. -/
def Op.depth (depth : Nat) : Op → Nat
  | .enter _ => depth + 1
  | .leave => depth - 1
  | .declare .. | .merge _ => depth

/-- How many routines are around after operations in order. -/
def depthAfter (ops : List Op) : Nat := ops.foldl Op.depth 0

/-- Every routine that is entered is left, and no other. -/
inductive Balanced : List Op → Prop
  | nil : Balanced []
  | declare (n : Name) (d : Declaration) : Balanced [.declare n d]
  | merge (declarations : Scope) : Balanced [.merge declarations]
  | routine (params : Scope) {body : List Op} (h : Balanced body) :
    Balanced (.enter params :: body ++ [.leave])
  | append {ops more : List Op} (h : Balanced ops) (h' : Balanced more) : Balanced (ops ++ more)

/-- The declarations that are made in a scope if these are tried in order: those before the first
whose name is one of the parameters or is in the scope by then. -/
def accepted (params scope : Scope) : List (Name × Declaration) → List (Name × Declaration)
  | [] => []
  | (n, d) :: entries =>
    if params.contains n || scope.contains n then []
    else (n, d) :: accepted params ⟨scope.entries ++ [(n, d)]⟩ entries

/-- The declarations that an operation makes. -/
def madeBy (s : Scopes) : Op → List (Name × Declaration)
  | .declare n d => accepted s.params s.top [(n, d)]
  | .merge declarations => accepted s.params s.top declarations.entries
  | .enter _ | .leave => []

/-- The declarations that operations make where so many routines are around, in order. -/
def made (depth : Nat) (s : Scopes) : List Op → List (Name × Declaration)
  | [] => []
  | op :: ops =>
    (if s.depth = depth then s.madeBy op else []) ++ made depth (s.apply op).1 ops

variable {s : Scopes} {ops more : List Op}

/-! ### What operations do to the innermost scope -/

theorem depth_withTop (scope : Scope) : (s.withTop scope).depth = s.depth := by
  obtain ⟨globals, _ | ⟨l, ls⟩⟩ := s <;> rfl

theorem withTop_nothing (s : Scopes) : s.withTop ⟨s.top.entries ++ []⟩ = s := by
  have htop : (⟨s.top.entries⟩ : Scope) = s.top := by
    cases s.top
    rfl
  rw [List.append_nil, htop, withTop_top]

/-- A name that is one of the parameters or is in the scope cannot be declared. Any other can. -/
theorem declare_eq (s : Scopes) (n : Name) (d : Declaration) :
    s.declare n d =
      if s.params.contains n || s.top.contains n then
        .error ⟨d.position, .duplicateDeclaration n⟩
      else .ok (s.withTop ⟨s.top.entries ++ [(n, d)]⟩) := by
  unfold declare insertTop Scope.insert
  cases s.params.contains n with
  | true => rfl
  | false =>
    cases s.top.contains n with
    | true => rfl
    | false => rfl

/-- Declarations go behind all others in the innermost scope. -/
theorem declareAll_accepted (s : Scopes) (entries : List (Name × Declaration)) :
    (s.declareAll entries).1 =
      s.withTop ⟨s.top.entries ++ accepted s.params s.top entries⟩ := by
  induction entries generalizing s with
  | nil =>
    rw [declareAll, accepted, withTop_nothing]
  | cons e entries ih =>
    obtain ⟨n, d⟩ := e
    rw [declareAll, accepted, declare_eq]
    cases hc : s.params.contains n || s.top.contains n with
    | true => exact s.withTop_nothing.symm
    | false =>
      rw [if_neg Bool.false_ne_true, if_neg Bool.false_ne_true]
      dsimp only
      rw [ih, withTop_withTop, top_withTop, params_withTop, List.append_assoc,
        List.singleton_append]

theorem apply_merge (s : Scopes) (declarations : Scope) :
    (s.apply (.merge declarations)).1 = (s.declareAll declarations.entries).1 := by
  rw [apply, merge]
  generalize s.declareAll declarations.entries = result
  obtain ⟨s', _ | e⟩ := result <;> rfl

theorem apply_declare (s : Scopes) (n : Name) (d : Declaration) :
    (s.apply (.declare n d)).1 = (s.declareAll [(n, d)]).1 := by
  rw [apply, declareAll]
  cases s.declare n d <;> rfl

theorem runFrom_cons (op : Op) : s.runFrom (op :: ops) = (s.apply op).1.runFrom ops := rfl

theorem runFrom_append : s.runFrom (ops ++ more) = (s.runFrom ops).runFrom more :=
  List.foldl_append

theorem made_append (depth : Nat) :
    made depth s (ops ++ more) = made depth s ops ++ made depth (s.runFrom ops) more := by
  induction ops generalizing s with
  | nil => rfl
  | cons op ops ih => rw [List.cons_append, made, made, ih, List.append_assoc, runFrom_cons]

theorem depth_apply (op : Op) : (s.apply op).1.depth = op.depth s.depth := by
  cases op with
  | declare n d => rw [apply_declare, declareAll_accepted, depth_withTop, Op.depth]
  | merge declarations => rw [apply_merge, declareAll_accepted, depth_withTop, Op.depth]
  | enter params => rfl
  | leave => obtain ⟨globals, _ | ⟨l, ls⟩⟩ := s <;> rfl

theorem depth_runFrom : (s.runFrom ops).depth = ops.foldl Op.depth s.depth := by
  induction ops generalizing s with
  | nil => rfl
  | cons op ops ih => rw [runFrom_cons, ih, depth_apply, List.foldl_cons]

theorem depth_run (ops : List Op) : (run ops).depth = depthAfter ops := depth_runFrom

/-- An operation that enters and leaves nothing. -/
theorem made_plain {op : Op} {entries : List (Name × Declaration)}
    (hmade : s.madeBy op = accepted s.params s.top entries)
    (happly : (s.apply op).1 = (s.declareAll entries).1) :
    s.runFrom [op] = s.withTop ⟨s.top.entries ++ made s.depth s [op]⟩ ∧
      ∀ depth < s.depth, made depth s [op] = [] := by
  constructor
  · rw [made, made, if_pos rfl, List.append_nil, hmade]
    exact happly.trans (s.declareAll_accepted entries)
  · intro depth hdepth
    rw [made, made, if_neg (Nat.ne_of_gt hdepth)]
    rfl

/-- Operations between entering and leaving add declarations to the innermost scope, those made
where as many routines are around as now, and change nothing else. Further out they make none. -/
theorem Balanced.runFrom (h : Balanced ops) (s : Scopes) :
    s.runFrom ops = s.withTop ⟨s.top.entries ++ made s.depth s ops⟩ ∧
      ∀ depth < s.depth, made depth s ops = [] := by
  induction h generalizing s with
  | nil =>
    exact ⟨s.withTop_nothing.symm, fun _ _ => rfl⟩
  | declare n d => exact made_plain rfl (s.apply_declare n d)
  | merge declarations => exact made_plain rfl (s.apply_merge declarations)
  | @routine params body h ih =>
    obtain ⟨hrun, hmade⟩ := ih (s.enter params)
    -- inside, one more routine is around
    have hnone : ∀ depth ≤ s.depth, made depth s (.enter params :: body ++ [.leave]) = [] := by
      intro depth hdepth
      have hinside : made depth (s.enter params) body = [] := hmade depth (Nat.lt_succ_of_le hdepth)
      rw [List.cons_append, made, made_append, made, made]
      show _ ++ (made depth (s.enter params) body ++ _) = []
      rw [hinside]
      simp [madeBy]
    refine ⟨?_, fun depth hdepth => hnone depth (Nat.le_of_lt hdepth)⟩
    have hleft : s.runFrom (.enter params :: body ++ [.leave]) = s := by
      rw [List.cons_append, runFrom_cons, runFrom_append]
      show (((s.enter params).runFrom body).leave).2 = s
      rw [hrun]
      rfl
    rw [hleft, hnone s.depth (Nat.le_refl _), withTop_nothing]
  | @append ops more _ _ ih ih' =>
    obtain ⟨hrun, hmade⟩ := ih s
    obtain ⟨hrun', hmade'⟩ := ih' (s.runFrom ops)
    have hdepth : (s.runFrom ops).depth = s.depth := by rw [hrun, depth_withTop]
    rw [hdepth] at hrun' hmade'
    constructor
    · rw [runFrom_append, hrun', made_append]
      rw [hrun, withTop_withTop, top_withTop, List.append_assoc]
    · intro depth hlt
      rw [made_append, hmade depth hlt, hmade' depth hlt]
      rfl

/-- A routine that is left gives the declarations made in it. All around is as before. -/
theorem Balanced.leave (h : Balanced ops) (s : Scopes) (params : Scope) :
    ((s.enter params).runFrom ops).leave =
      (⟨made (s.depth + 1) (s.enter params) ops⟩, s) := by
  obtain ⟨hrun, -⟩ := h.runFrom (s.enter params)
  rw [hrun]
  rfl

/-! ### The same on frames -/

theorem stack_apply (s : Scopes) (op : Op) :
    s.stack.apply op = ((s.apply op).1.stack, (s.apply op).2) := by
  cases op with
  | declare n d =>
    rw [Stack.apply, apply, stack_declare]
    cases s.declare n d <;> rfl
  | merge declarations =>
    rw [Stack.apply, apply, stack_declareAll, merge]
    generalize s.declareAll declarations.entries = result
    obtain ⟨s', _ | e⟩ := result <;> rfl
  | enter params =>
    rw [Stack.apply, apply, stack_enter]
  | leave =>
    rw [Stack.apply, apply, stack_leave]

theorem stack_runFrom (s : Scopes) (ops : List Op) :
    s.stack.runFrom ops = (s.runFrom ops).stack := by
  induction ops generalizing s with
  | nil => rfl
  | cons op ops ih =>
    rw [runFrom_cons, ← ih]
    show (s.stack.apply op).1.runFrom ops = _
    rw [stack_apply]

theorem stack_run (ops : List Op) : Stack.run ops = (run ops).stack := stack_runFrom empty ops

/-- After any operations the frames stand in pairs on that of the main program, one pair for each
routine that has been entered and not left. A routine that is entered, and left when all that is
entered in it has been left, gives the declarations made in its own scope in order, and leaves every
frame as it was before; at the main program there is nothing to leave. A name is looked up to what
it means in the frames: its innermost declaration, unless that is a variable of another routine. The
visible scopes go through the same: their frames are these, and they give the same answers. -/
theorem run_nests (ops : List Op) :
    Nested (depthAfter ops) (Stack.run ops).frames ∧
    (Stack.run ops).depth = depthAfter ops ∧ (Stack.run ops).region ≠ .params ∧
    (∀ params body, Balanced body →
      (((Stack.run ops).enter params).runFrom body).leave =
        (⟨made (depthAfter ops + 1) ((run ops).enter params) body⟩, Stack.run ops) ∧
      (((run ops).enter params).runFrom body).leave =
        (⟨made (depthAfter ops + 1) ((run ops).enter params) body⟩, run ops)) ∧
    (depthAfter ops = 0 → (Stack.run ops).leave = (.empty, Stack.run ops) ∧
      (run ops).leave = (.empty, run ops)) ∧
    (∀ name r, (Stack.run ops).lookup name = r ↔ (Stack.run ops).Resolves name r) ∧
    (run ops).stack = Stack.run ops ∧ (run ops).depth = (Stack.run ops).depth ∧
    (run ops).region = (Stack.run ops).region ∧
    (∀ name, (run ops).lookup name = (Stack.run ops).lookup name) ∧
    ∀ op, ((run ops).apply op).2 = ((Stack.run ops).apply op).2 := by
  -- all is proved of the levels and carried over to their frames
  have hnested : Nested (depthAfter ops) (Stack.run ops).frames := by
    rw [stack_run, ← depth_run]
    exact stack_nested _
  have hregion := hnested.region_eq
  refine ⟨hnested, hnested.depth_eq, ?_, ?_, ?_, fun _ _ => hnested.lookup_iff,
    (stack_run ops).symm, ?_, ?_, ?_, ?_⟩
  · rw [hregion]
    split <;> exact nofun
  · intro params body hbody
    have hleave := hbody.leave (run ops) params
    rw [depth_run] at hleave
    refine ⟨?_, hleave⟩
    rw [stack_run, ← stack_enter, stack_runFrom, stack_leave, hleave]
  · intro hmain
    rw [hmain] at hnested
    refine ⟨hnested.leave_main, ?_⟩
    rw [← depth_run] at hmain
    unfold Scopes.leave
    rw [List.length_eq_zero_iff.1 hmain]
  · rw [depth_run, hnested.depth_eq]
  · rw [hregion, ← depth_run]
    unfold Scopes.region Scopes.depth
    simp
  · intro name
    rw [stack_run, stack_lookup]
  · intro op
    rw [stack_run, stack_apply]

end Scopes

end MiniPascal
