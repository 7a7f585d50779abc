import MiniPascal.Proofs.Checked.Preorder
import MiniPascal.Proofs.Ir.Linking
import MiniPascal.Proofs.Lowering.Direct
import MiniPascal.Proofs.Reading.Program

/-! The code of functions. The labels of a function follow those of the functions before it. -/

namespace MiniPascal

namespace Lowering

open Ir (Settled SameLive)

mutual

/-- Types of one structure have one machine type. -/
theorem machineType_eq : ∀ {t u : Ty}, t.sameShape u = true → machineType t = machineType u
  | .scalar s, .scalar s', h => by
    simp only [Ty.sameShape, decide_eq_true_eq] at h
    rw [h]
  | .array low high t, .array low' high' u, h => by
    simp only [Ty.sameShape, Bool.and_eq_true, decide_eq_true_eq] at h
    rw [machineType, machineType, machineType_eq h.2, Ty.length?, Ty.length?, h.1]
  | .record fields, .record fields', h => by
    rw [Ty.sameShape] at h
    rw [machineType, machineType, machineTypes_eq h]
  | .scalar _, .array .., h | .scalar _, .record _, h | .array .., .scalar _, h
  | .array .., .record _, h | .record _, .scalar _, h | .record _, .array .., h => by
    simp [Ty.sameShape] at h

theorem machineTypes_eq : ∀ {fs gs : List (Name × Ty)}, Ty.sameFields fs gs = true →
    machineTypes fs = machineTypes gs
  | [], [], _ => rfl
  | (n, t) :: fs, (m, u) :: gs, h => by
    simp only [Ty.sameFields, Bool.and_eq_true] at h
    rw [machineTypes, machineTypes, machineType_eq h.1.2, machineTypes_eq h.2]
  | [], _ :: _, h | _ :: _, [], h => by simp [Ty.sameFields] at h

end

/-! ### Code -/

/-- The slots of parameters and variables. -/
def slots (vars : List (Name × Ty)) : List Ir.Instr :=
  vars.map fun v => .alloca (slotName v.1) (machineType v.2)

/-- The parameters of a function. -/
def arguments (params : List (Name × Ty)) : List (String × Ir.Ty) :=
  params.map fun v => (argumentName v.1, machineType v.2)

/-- The instructions that store the arguments in the slots of the parameters. -/
def argumentStores (params : List (Name × Ty)) : List Ir.Instr :=
  params.map fun v =>
    .store (machineType v.2) (.local (argumentName v.1)) (.local (slotName v.1))

/-- The code that returns: nothing, the value of one of the variables, or zero. -/
inductive ReturnCode (vars : List (Name × Ty)) : Ir.Ty → List Ir.Instr → Prop
  | nothing : ReturnCode vars .void [.ret none]
  | result {v} (hv : v ∈ vars) : ReturnCode vars (machineType v.2)
    [.load "retval" (machineType v.2) (.local (slotName v.1)),
      .ret (some (machineType v.2, .local "retval"))]
  | zero : ReturnCode vars .i32 [.ret (some (.i32, .int 0))]

/-- The code of the statements of a function, with the labels it uses up. -/
structure BodyCode (T : Pool) (body : List Stmt) (l : Nat) (d : List Ir.Instr) (l' : Nat) :
    Prop where
  code : ∃ ν, StmtCode T 0 0 (.block body) ⟨l, []⟩ d ⟨l', ν⟩
  settled : Settled (Ir.dropDead false d)

/-- What is known of the variables and the statements of a body. -/
abbrev OfBody := List (Name × Ty) → List Stmt → Prop

/-- The code of a function, with the labels it uses up. -/
inductive FunctionCode (T : Pool) (P : OfBody) (l : Nat) : Ir.Function → Nat → Prop
  | intro {name returns params vars body d tail l'} (hv : Distinct (params ++ vars))
    (hs : P (params ++ vars) body) (hb : BodyCode T body l d l')
    (ht : ReturnCode vars returns tail) :
    FunctionCode T P l ⟨name, returns, arguments params,
      slots (params ++ vars) ++ (argumentStores params ++ Ir.dropDead false d ++ tail)⟩ l'

/-- The code of some functions, with the labels they use up. -/
inductive FunctionsCode (T : Pool) (P : OfBody) : Nat → List Ir.Function → Nat → Prop
  | nil {l} : FunctionsCode T P l [] l
  | cons {l l' l'' f fs} (hf : FunctionCode T P l f l')
    (hfs : FunctionsCode T P l' fs l'') : FunctionsCode T P l (f :: fs) l''

section

variable {T : Pool} {P Q : OfBody} {l l' l'' : Nat} {fs gs : List Ir.Function}

theorem FunctionsCode.append (h : FunctionsCode T P l fs l') (h' : FunctionsCode T P l' gs l'') :
    FunctionsCode T P l (fs ++ gs) l'' := by
  induction h with
  | nil => exact h'
  | cons hf _ ih => exact .cons hf (ih h')

theorem FunctionsCode.mem (h : FunctionsCode T P l fs l') :
    ∀ f ∈ fs, ∃ m m', FunctionCode T P m f m' := by
  induction h with
  | nil => exact List.forall_mem_nil _
  | cons hf _ ih => exact List.forall_mem_cons.2 ⟨⟨_, _, hf⟩, ih⟩

theorem FunctionCode.mono (hPQ : ∀ locals body, P locals body → Q locals body) {f : Ir.Function}
    (h : FunctionCode T P l f l') : FunctionCode T Q l f l' := by
  cases h with
  | intro hv hs hb ht => exact .intro hv (hPQ _ _ hs) hb ht

theorem FunctionsCode.mono (hPQ : ∀ locals body, P locals body → Q locals body)
    (h : FunctionsCode T P l fs l') : FunctionsCode T Q l fs l' := by
  induction h with
  | nil => exact .nil
  | cons hf _ ih => exact .cons (hf.mono hPQ) ih

end

/-- The direct code of a statement uses up as many labels as the statement needs. -/
theorem StmtCode.labels_eq {T : Pool} {exit next : Ir.Label} {s : Stmt} {σ σ' : Supply}
    {d : List Ir.Instr} (h : StmtCode T exit next s σ d σ') :
    σ'.labels = σ.labels + s.labels := by
  induction h with
  | blockNil | assign | call | writeNothing | write | transition =>
    simp [Stmt.labels, Stmt.labelsOfAll]
  | blockCons _ _ ihs ihss =>
    simp only [Stmt.labels, Stmt.labelsOfAll] at *
    omega
  | _ =>
    simp only [Stmt.labels] at *
    omega

theorem BodyCode.labels_eq {T : Pool} {body : List Stmt} {l l' : Nat} {d : List Ir.Instr}
    (h : BodyCode T body l d l') : l' = l + Stmt.labelsOfAll body := by
  obtain ⟨ν, hd⟩ := h.code
  have := hd.labels_eq
  rwa [Stmt.labels] at this

/-! ### The lowering of a function -/

/-- The header of the function that a routine of the signature becomes. -/
def headerOf (σ : Signature) : Ir.Header :=
  ⟨functionName σ.symbol, (σ.returns.map machineType).getD .void, σ.params.map machineType⟩

/-- One state comes from another by more functions, which have these signatures and need so many
labels. -/
structure Generator.Adds (P : OfBody) (g g' : Generator) (n : Nat) (σs : List Signature)
    (fs : List Ir.Function) : Prop where
  labels : g'.labels = g.labels + n
  functions : g'.functions = g.functions ++ fs
  headers : fs.map Ir.Function.header = σs.map headerOf
  pool : g.pool.Le g'.pool
  stores : ∀ vars, g.Stores vars → g'.Stores vars
  code : ∀ T, g'.pool.Le T → FunctionsCode T P g.labels fs g'.labels

namespace Generator.Adds

variable {P : OfBody} {g g' g'' : Generator} {m n : Nat}
  {σs τs : List Signature} {fs gs : List Ir.Function}

theorem refl (g : Generator) : g.Adds P g 0 [] [] :=
  ⟨rfl, (List.append_nil _).symm, rfl, .refl _, fun _ h => h, fun _ _ => .nil⟩

theorem trans (h : g.Adds P g' m σs fs) (h' : g'.Adds P g'' n τs gs) :
    g.Adds P g'' (m + n) (σs ++ τs) (fs ++ gs) where
  labels := by rw [h'.labels, h.labels, Nat.add_assoc]
  functions := by rw [h'.functions, h.functions, List.append_assoc]
  headers := by rw [List.map_append, List.map_append, h.headers, h'.headers]
  pool := h.pool.trans h'.pool
  stores vars hv := h'.stores vars (h.stores vars hv)
  code T hT := (h.code T (h'.pool.trans hT)).append (h'.code T hT)

end Generator.Adds

theorem alloca_run (slot : String) (t : Ir.Ty) (g : Generator) :
    alloca slot t g = ((), { g with allocas := g.allocas ++ [.alloca slot t] }) := rfl

theorem parameterSlots_run (params : List (Name × Ty)) (g : Generator) :
    parameterSlots params g = (arguments params,
      { g with
        allocas := g.allocas ++ slots params
        code := g.code ++ argumentStores params }) := by
  induction params generalizing g with
  | nil => simp only [arguments, slots, argumentStores, List.map_nil, List.append_nil]; rfl
  | cons v params ih =>
    obtain ⟨n, t⟩ := v
    rw [parameterSlots]
    rw [bind_run (alloca_run _ _ _), bind_run (push_run _ _), bind_run (ih _)]
    simp only [Generator.emit, arguments, slots, argumentStores, List.map_cons,
      List.append_assoc, List.singleton_append]
    rfl

theorem variableSlots_run (vars : List (Name × Ty)) (g : Generator) :
    variableSlots vars g = ((), { g with allocas := g.allocas ++ slots vars }) := by
  induction vars generalizing g with
  | nil => simp only [slots, List.map_nil, List.append_nil]; rfl
  | cons v vars ih =>
    obtain ⟨n, t⟩ := v
    rw [variableSlots]
    rw [bind_run (alloca_run _ _ _), ih]
    simp only [slots, List.map_cons, List.append_assoc, List.singleton_append]

/-- The statements of a function are lowered to what dropping dead code leaves of their direct
code. -/
theorem statements_run {Γ : Context} {body : List Stmt} (h : ∀ s ∈ body, s.Checked Γ false)
    (g : Generator) (hg : g.names = []) :
    ∃ g' c, statements body g = ((), g') ∧ g.Grows g' c ∧
      ∀ T, g'.pool.Le T → ∃ d, c = Ir.dropDead false d ∧ BodyCode T body g.labels d g'.labels := by
  obtain ⟨g', c, hp⟩ := statement_produces (.block h) g
  obtain ⟨hset, hlive⟩ := hp.closed rfl
  refine ⟨g', c, ?_, hp.grows, fun T hT => ?_⟩
  · rw [← hp.run, statement]
  · obtain ⟨d, hd, hsame⟩ := hp.direct T hT 0 0
    rw [hset.resolved] at hsame
    have hc : c = Ir.dropDead false d := (hsame.drop false).trans hlive.drop |>.symm
    refine ⟨d, hc, ⟨g'.names, ?_⟩, hc ▸ hset⟩
    rw [← hg]
    exact hd

theorem returnFrom_run {symbol : String} {returns : Option Ty} {vars : List (Name × Ty)}
    (hr : ∀ t ∈ returns, ∃ v ∈ vars, v.1.canonical = ownName symbol ∧ t.sameShape v.2 = true)
    (g : Generator) :
    ∃ t tail, returnFrom symbol returns g = (t, g.emit tail g.names) ∧ ReturnCode vars t tail ∧
      t = (returns.map machineType).getD .void := by
  cases returns with
  | none => exact ⟨.void, _, rfl, .nothing, rfl⟩
  | some t =>
    obtain ⟨v, hv, hn, ht⟩ := hr t rfl
    refine ⟨machineType v.2, _, ?_, .result hv, (machineType_eq ht).symm⟩
    rw [returnFrom, machineType_eq ht, ← hn, bind_run (push_run _ _), bind_run (push_run _ _)]
    simp only [Generator.emit_emit, Generator.names_emit]
    rfl

theorem routineFunction_run {P : OfBody} {Γ : Context} {vars : List (Name × Ty)}
    {symbol : String} {params : Scope} {returns : Option Ty} {body : List Stmt}
    (hv : Distinct (params.vars ++ vars))
    (hr : ∀ t ∈ returns, ∃ v ∈ vars, v.1.canonical = ownName symbol ∧ t.sameShape v.2 = true)
    (hs : ∀ s ∈ body, s.Checked Γ false) (hP : P (params.vars ++ vars) body) (g : Generator) :
    ∃ g' f, routineFunction symbol params returns vars body g = ((), g') ∧
      g.Adds P g' (Stmt.labelsOfAll body) [⟨symbol, params.vars.map Prod.snd, returns⟩] [f] := by
  let g₁ : Generator := { g with
    names := []
    allocas := slots (params.vars ++ vars)
    code := argumentStores params.vars }
  obtain ⟨g₂, c, hbody, hgrows, hcode⟩ := statements_run hs g₁ rfl
  obtain ⟨t, tail, hreturn, htail, ht⟩ := returnFrom_run hr g₂
  let f : Ir.Function := ⟨functionName symbol, t, arguments params.vars,
    slots (params.vars ++ vars) ++ (argumentStores params.vars ++ c ++ tail)⟩
  refine ⟨{ g₂ with functions := g₂.functions ++ [f], allocas := [], code := [] }, f, ?_, ?_, ?_,
    ?_, ?_, fun vars h => ?_, fun T hT => ?_⟩
  · -- the arguments are stored before the statements run, and slots come in front of all code
    have hbegin : beginFunction g = ((), { g with names := [], allocas := [], code := [] }) := rfl
    rw [routineFunction, bind_run hbegin, bind_run (parameterSlots_run _ _),
      bind_run (variableSlots_run _ _)]
    simp only [List.nil_append]
    rw [show slots params.vars ++ slots vars = slots (params.vars ++ vars) from
      (List.map_append).symm]
    refine (bind_run hbody).trans ?_
    rw [bind_run hreturn]
    have ha : g₂.allocas = slots (params.vars ++ vars) := hgrows.allocas
    have hc : g₂.code = argumentStores params.vars ++ c := hgrows.code
    show ((), ({ g₂ with
      functions := g₂.functions ++ [⟨functionName symbol, t, arguments params.vars,
        g₂.allocas ++ (g₂.code ++ tail)⟩]
      allocas := []
      code := [] } : Generator)) = _
    rw [ha, hc]
  · obtain ⟨d, -, hb⟩ := hcode g₂.pool (.refl _)
    exact hb.labels_eq
  · show g₂.functions ++ [f] = _
    rw [hgrows.functions]
  · simp [Ir.Function.header, headerOf, f, ht, arguments]
  · exact hgrows.pool
  · exact (hgrows.stores vars (h.of_eq rfl rfl rfl)).of_eq rfl rfl rfl
  · -- whatever pool the program ends with, the statements have direct code for it
    obtain ⟨d, hd, hb⟩ := hcode T hT
    refine .cons ?_ .nil
    show FunctionCode T P g.labels ⟨functionName symbol, t, arguments params.vars,
      slots (params.vars ++ vars) ++ (argumentStores params.vars ++ c ++ tail)⟩ g₂.labels
    rw [hd]
    exact .intro hv hP hb htail

/-- The routines among some declarations are lowered in order. -/
theorem routines_run {P : OfBody} (path : List String) {entries : List (Name × Declaration)}
    (h : ∀ n r, (n, .routine r) ∈ entries → ∀ g, ∃ g' fs, routine r g = ((), g') ∧
      g.Adds P g' r.labels ((r.preorder (path ++ [n.canonical])).map fun e => e.2.signature) fs)
    (g : Generator) :
    ∃ g' fs, routines entries g = ((), g') ∧ g.Adds P g' (labelsOfEntries entries)
      ((preorderOfEntries path entries).map fun e => e.2.signature) fs := by
  induction entries generalizing g with
  | nil => exact ⟨g, [], by rw [routines]; rfl, .refl g⟩
  | cons e entries ih =>
    obtain ⟨n, d⟩ := e
    have hd : ∃ g' fs, declared d g = ((), g') ∧ g.Adds P g' d.labels
        ((d.preorder (path ++ [n.canonical])).map fun e => e.2.signature) fs := by
      cases d with
      | routine r =>
        obtain ⟨g', fs, hr, ha⟩ := h n r List.mem_cons_self g
        exact ⟨g', fs, by rw [declared]; exact hr, ha⟩
      | var | const | type => exact ⟨g, [], by rw [declared]; rfl, .refl g⟩
    obtain ⟨g₁, fs₁, hr₁, ha₁⟩ := hd
    obtain ⟨g₂, fs₂, hr₂, ha₂⟩ := ih (fun n r hm => h n r (List.mem_cons_of_mem _ hm)) g₁
    refine ⟨g₂, fs₁ ++ fs₂, by rw [routines, bind_run hr₁, hr₂], ?_⟩
    rw [preorderOfEntries, List.map_append]
    exact ha₁.trans ha₂

/-- A routine that obeys the rules becomes functions: its own and those of the routines in it. -/
theorem routine_run {P : OfBody} {E : Environment} {path : List String} {r : Routine}
    (h : r.Checked E path) (hP : ∀ e ∈ r.preorder path, ∀ body, e.2.body = some body →
      P (e.2.params.vars ++ body.scope.vars) body.statements) (g : Generator) :
    ∃ g' fs, routine r g = ((), g') ∧
      g.Adds P g' r.labels ((r.preorder path).map fun e => e.2.signature) fs := by
  induction h generalizing g with
  | @intro E path r body hp hb hv hl hret hs _ ih =>
    obtain ⟨p, symbol, params, returns, body', forward⟩ := r
    cases hb
    obtain ⟨⟨entries⟩, statements⟩ := body
    rw [Routine.preorder, List.forall_mem_cons] at hP
    obtain ⟨g₁, f, hr₁, ha₁⟩ := routineFunction_run hv hret hs (hP.1 _ rfl) g
    obtain ⟨g₂, fs, hr₂, ha₂⟩ := routines_run path (fun n q (hq : _ ∈ entries) g => ih n q hq
      (fun e he => hP.2 e (mem_preorderOfEntries.2 ⟨n, q, hq, he⟩)) g) g₁
    refine ⟨g₂, f :: fs, by rw [routine, bind_run hr₁, hr₂], ?_⟩
    rw [Routine.preorder]
    exact ha₁.trans ha₂

/-- The statements of the program become the last function. -/
theorem mainFunction_run {Γ : Context} {body : List Stmt} (h : ∀ s ∈ body, s.Checked Γ false)
    (g : Generator) :
    ∃ g' c, mainFunction body g = ((), g') ∧ g.pool.Le g'.pool ∧
      (∀ vars, g.Stores vars → g'.Stores vars) ∧
      g'.functions = g.functions ++ [⟨"main", .i32, [], c ++ [.ret (some (.i32, .int 0))]⟩] ∧
      ∀ T, g'.pool.Le T → ∃ d, c = Ir.dropDead false d ∧ BodyCode T body g.labels d g'.labels := by
  let g₁ : Generator := { g with names := [], allocas := [], code := [] }
  obtain ⟨g₂, c, hrun, hgrows, hcode⟩ := statements_run h g₁ rfl
  let g₃ : Generator := { g₂ with
    functions := g₂.functions ++ [⟨"main", .i32, [],
      g₂.allocas ++ (g₂.code ++ [.ret (some (.i32, .int 0))])⟩]
    allocas := []
    code := [] }
  have hbegin : beginFunction g = ((), g₁) := rfl
  have hmain : mainFunction body g = ((), g₃) :=
    (bind_run hbegin).trans ((bind_run hrun).trans (bind_run (push_run _ _)))
  refine ⟨g₃, c, hmain, hgrows.pool,
    fun vars hv => (hgrows.stores vars (hv.of_eq rfl rfl rfl)).of_eq rfl rfl rfl, ?_, hcode⟩
  have hfunctions : g₂.functions = g.functions := hgrows.functions
  have hallocas : g₂.allocas = [] := hgrows.allocas
  have hc : g₂.code = [] ++ c := hgrows.code
  show g₂.functions ++ [_] = _
  rw [hfunctions, hallocas, hc]
  rfl

/-- Nothing has been stored at first. -/
theorem stores_empty (vars : List Ir.Global) :
    ({ Generator.empty with globals := vars } : Generator).Stores vars := by
  refine ⟨⟨[], (List.append_nil _).symm, .nil, fun x => ⟨nofun, ?_⟩⟩, nofun,
    fun hf => absurd rfl hf⟩
  rintro (⟨s, hs, -⟩ | ⟨s, hs, -⟩) <;> cases hs

end Lowering

/-- The lowered program: functions of routines, then that of the statements, over the variables and
the texts that the functions use. -/
structure Program.Lowered (p : Program) (T : Lowering.Pool) (fs : List Ir.Function)
    (main : List Ir.Instr) (l : Nat) : Prop where
  functions : p.lower.functions = fs ++ [⟨"main", .i32, [],
    Ir.dropDead false main ++ [.ret (some (.i32, .int 0))]⟩]
  routines : Lowering.FunctionsCode T p.HasBody 0 fs l
  headers : fs.map Ir.Function.header = p.routines.map fun e => Lowering.headerOf e.2.signature
  body : Lowering.BodyCode T p.statements l main p.labels
  globals : ∃ added, p.lower.globals = Lowering.globalVariables p.scope.vars ++ added ∧
    added.Nodup ∧ ∀ x, x ∈ added ↔ T.Holds x
  formats : ∀ f ∈ T.formats, Lowering.IsFormat f
  printf : T.formats ≠ [] → p.lower.externals = [Lowering.printf]
  pool : T = (Lowering.program p (.empty : Lowering.Generator)).2.pool

open Lowering in
/-- A program that obeys the rules is lowered to functions of the right form. -/
theorem Program.Checked.lowered {p : Program} (h : p.Checked) :
    ∃ T fs main l, p.Lowered T fs main l := by
  let vars := globalVariables p.scope.vars
  let g₀ : Generator := { Generator.empty with globals := [] ++ vars }
  -- routines first, then `main`: the pool at the end holds what both have asked for
  obtain ⟨g₁, fs, hrun₁, hadds⟩ := routines_run (P := p.HasBody) [] (fun n r hm g =>
    routine_run (h.routines n r hm) (fun e he _ hb =>
      .routine (mem_preorderOfEntries.2 ⟨n, r, hm, he⟩) hb) g) g₀
  obtain ⟨g₂, c, hrun₂, hpool, hstores, hfunctions, hcode⟩ := mainFunction_run h.main g₁
  obtain ⟨d, rfl, hb⟩ := hcode g₂.pool (.refl _)
  have hinit : (modify fun g : Generator => { g with globals := g.globals ++ vars } : Step Unit)
      .empty = ((), g₀) := rfl
  have hprogram : program p .empty = ((), g₂) :=
    (bind_run hinit).trans ((bind_run hrun₁).trans hrun₂)
  have hfinal : p.lower = g₂.finish := congrArg (fun r : Unit × Generator => r.2.finish) hprogram
  have hlabels : g₂.labels = p.labels := by
    have h₁ : g₁.labels = 0 + labelsOfEntries p.scope.entries := hadds.labels
    rw [hb.labels_eq, h₁, Nat.zero_add]
    rfl
  have hstores : g₂.Stores vars :=
    hstores vars (hadds.stores vars (stores_empty ([] ++ vars)))
  refine ⟨g₂.pool, fs, d, g₁.labels, ?_, hadds.code _ hpool, ?_, hlabels ▸ hb, ?_,
    hstores.formats, fun hf => ?_, by rw [hprogram]⟩
  · rw [hfinal]
    show g₂.functions = _
    rw [hfunctions, hadds.functions]
    rfl
  · rw [hadds.headers, List.map_map]
    rfl
  · rw [hfinal]
    exact hstores.globals
  · rw [hfinal]
    exact if_pos (hstores.printf hf)

/-- The functions of a lowered program come from the bodies of the program. -/
theorem Program.Lowered.bodies {p : Program} {T : Lowering.Pool} {fs : List Ir.Function}
    {main : List Ir.Instr} {l : Nat} (hl : p.Lowered T fs main l) :
    Lowering.FunctionsCode T p.HasBody 0 p.lower.functions p.labels := by
  have hmain : Lowering.FunctionCode T p.HasBody l ⟨"main", .i32, [],
      Ir.dropDead false main ++ [.ret (some (.i32, .int 0))]⟩ p.labels :=
    @Lowering.FunctionCode.intro _ _ _ _ _ [] [] _ _ _ _ ⟨nofun, .nil⟩ .main hl.body .zero
  rw [hl.functions]
  exact hl.routines.append (.cons hmain .nil)

/-- All functions of a lowered program have the right form, that of the statements too. -/
theorem Program.Lowered.functionsCode {p : Program} {T : Lowering.Pool} {fs : List Ir.Function}
    {main : List Ir.Instr} {l : Nat} (hl : p.Lowered T fs main l) (h : p.Checked) :
    Lowering.FunctionsCode T (Obeys p.allDeclared) 0 p.lower.functions p.labels :=
  hl.bodies.mono fun _ _ => h.obeys

theorem Program.Checked.functionsCode {p : Program} (h : p.Checked) :
    ∃ T, Lowering.FunctionsCode T (Obeys p.allDeclared) 0 p.lower.functions p.labels ∧
      ∃ added, p.lower.globals = Lowering.globalVariables p.scope.vars ++ added ∧
        ∀ x, x ∈ added ↔ T.Holds x := by
  obtain ⟨T, fs, main, l, hl⟩ := h.lowered
  obtain ⟨added, hglobals, -, hadded⟩ := hl.globals
  exact ⟨T, hl.functionsCode h, added, hglobals, hadded⟩

/-- What a text is compiled to comes from a program that obeys the rules. -/
theorem Program.compile_eq_ok {text name : String} {ir : Ir.Program}
    (h : compile text name = .ok ir) :
    ∃ p, ofText text name = .ok p ∧ ir = p.lower ∧ p.Checked ∧ p.labels ≤ 3 * text.length := by
  unfold compile at h
  cases hp : ofText text name with
  | error e => rw [hp] at h; cases h
  | ok p =>
    rw [hp] at h
    cases h
    obtain ⟨hc, hl⟩ := ofText_checked hp
    exact ⟨p, rfl, rfl, hc, hl⟩

theorem Program.exists_compile (text name : String) (h : (compile text name).isOk = true) :
    ∃ ir, compile text name = .ok ir := by
  cases hc : compile text name with
  | ok ir => exact ⟨ir, rfl⟩
  | error e =>
    rw [hc] at h
    cases h

end MiniPascal
