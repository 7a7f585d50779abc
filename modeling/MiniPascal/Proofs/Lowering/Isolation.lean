import MiniPascal.Proofs.Lowering.Function
import MiniPascal.Proofs.Lowering.Lockstep

/-! The function of a routine is the routine lowered alone, but for a shift of the labels and the
numbers of texts and formats. -/

namespace MiniPascal

namespace Lowering

open Ir (Instr Operand)
open Pool (Aligns KeepsVariables)

variable {k : Nat} {fs : List Ir.Function}

/-! ### What is written -/

/-- More texts and formats leave the code as it is. -/
theorem Generator.Follows.pools {g₀ g g₀' g' : Generator} (h : g₀.Follows k fs g)
    (h₀ : g₀' = { g₀ with
      texts := g₀'.texts, formats := g₀'.formats, globals := g₀'.globals,
      usesPrintf := g₀'.usesPrintf })
    (h₁ : g' = { g with
      texts := g'.texts, formats := g'.formats, globals := g'.globals,
      usesPrintf := g'.usesPrintf })
    (hl : g₀.pool.Le g₀'.pool) (hr : g.pool.Le g'.pool) (hs : g₀'.pool.Sub g'.pool) :
    g₀'.Follows k fs g' := by
  rw [h₀, h₁]
  exact ⟨⟨h.labels, hs, fun ρ hρ => h.functions ρ (hρ.of_le hl hr h.pool)⟩, h.names, h.allocas,
    fun ρ hρ => h.code ρ (hρ.of_le hl hr h.pool)⟩

theorem textGlobal_eq (s : String) (g : Generator) :
    ∃ texts globals, textGlobal s g =
      ((⟨texts, g.formats⟩ : Pool).textName s, { g with texts, globals }) ∧
      g.texts <+: texts ∧ ∀ x, x ∈ texts ↔ x ∈ g.texts ∨ x = s := by
  obtain ⟨hs, hrun⟩ | ⟨-, hrun⟩ := g.textGlobal_cases s
  · refine ⟨g.texts, g.globals, hrun, List.prefix_rfl, fun x => ?_⟩
    exact ⟨.inl, fun h => h.elim id (· ▸ hs)⟩
  · exact ⟨_, _, hrun, List.prefix_append _ _, by simp⟩

theorem formatGlobal_eq (s : String) (g : Generator) :
    ∃ formats globals, formatGlobal s g =
      ((⟨g.texts, formats⟩ : Pool).formatName s, { g with formats, globals }) ∧
      g.formats <+: formats ∧ ∀ x, x ∈ formats ↔ x ∈ g.formats ∨ x = s := by
  obtain ⟨hs, hrun⟩ | ⟨-, hrun⟩ := g.formatGlobal_cases s
  · refine ⟨g.formats, g.globals, hrun, List.prefix_rfl, fun x => ?_⟩
    exact ⟨.inl, fun h => h.elim id (· ▸ hs)⟩
  · exact ⟨_, _, hrun, List.prefix_append _ _, by simp⟩

/-- What two steps have made of a format and its arguments: the same, but for the names of texts. -/
structure WritesAlike (k : Nat) (fs : List Ir.Function) (g₀ g : Generator)
    (r₀ r : (String × List (Ir.Ty × Operand)) × Generator) : Prop where
  format : r₀.1.1 = r.1.1
  arguments : ∀ ρ, Aligns ρ r₀.2.pool r.2.pool → r.1.2 = r₀.1.2.map (Ir.renamedArgument ρ)
  left : g₀.pool.Le r₀.2.pool
  right : g.pool.Le r.2.pool
  state : r₀.2.Follows k fs r.2

theorem Tracks.writesAlike {m : Step (String × List (Ir.Ty × Operand))}
    (hm : Repeats k fs (Alike fun r => ∀ v ∈ r.2, Untouched v.2) m) {g₀ g : Generator}
    (h : g₀.Follows k fs g) : WritesAlike k fs g₀ g (m g₀) (m g) := by
  obtain ⟨hsame, hvs⟩ := hm.result h
  refine ⟨congrArg Prod.fst hsame, fun ρ hρ => ?_, hm.left h, hm.right h, hm.state h⟩
  rw [← hsame, renamed_arguments hρ.keeps hvs]

theorem writtenArg_alike (a : WriteArg) {g₀ g : Generator} (h : g₀.Follows k fs g) :
    WritesAlike k fs g₀ g (writtenArg a g₀) (writtenArg a g) := by
  cases a with
  | text s =>
    obtain ⟨texts₀, globals₀, hrun₀, hl, hmem₀⟩ := textGlobal_eq s g₀
    obtain ⟨texts, globals, hrun, hr, hmem⟩ := textGlobal_eq s g
    have htext : ∀ g : Generator, writtenArg (.text s) g =
        (("%s", [(.ptr, .global (textGlobal s g).1)]), (textGlobal s g).2) := fun _ => rfl
    have hl : g₀.pool.Le ⟨texts₀, g₀.formats⟩ := ⟨hl, List.prefix_rfl⟩
    have hr : g.pool.Le ⟨texts, g.formats⟩ := ⟨hr, List.prefix_rfl⟩
    -- what the smaller pool gets, the larger has or gets as well
    have hs : (⟨texts₀, g₀.formats⟩ : Pool).Sub ⟨texts, g.formats⟩ := by
      refine ⟨fun x hx => (hmem x).2 ?_, h.pool.formats⟩
      exact ((hmem₀ x).1 hx).imp (fun hx => h.pool.texts hx) id
    rw [htext, htext, hrun₀, hrun]
    refine ⟨rfl, fun ρ hρ => ?_, hl, hr, h.pools rfl rfl hl hr hs⟩
    have hname : ρ ((⟨texts₀, g₀.formats⟩ : Pool).textName s) =
        (⟨texts, g.formats⟩ : Pool).textName s := hρ.text s ((hmem₀ s).2 (.inr rfl))
    show [(Ir.Ty.ptr, Operand.global _)] = [(Ir.Ty.ptr, Operand.global (ρ _))]
    rw [hname]
  | value e =>
    refine Tracks.writesAlike ?_ h
    unfold writtenArg
    dsimp only
    split
    · exact .alike (tracks_value e) fun v hv => .pure ⟨rfl, List.forall_mem_singleton.2 hv⟩
    · exact .alike (tracks_value e) fun v hv => .pure ⟨rfl, List.forall_mem_singleton.2 hv⟩
    · refine .alike (tracks_value e) fun v hv => ?_
      refine .same (tracks_newName _ _) fun output => ?_
      refine .same (tracks_push fun ρ hρ => ?_) fun _ =>
        .pure ⟨rfl, List.forall_mem_singleton.2 (untouched_local output)⟩
      rw [Instr.renamed, hv ρ hρ]
    · exact .pure ⟨rfl, List.forall_mem_nil _⟩

theorem writtenArgs_alike (args : List WriteArg) {g₀ g : Generator} (h : g₀.Follows k fs g) :
    WritesAlike k fs g₀ g (writtenArgs args g₀) (writtenArgs args g) := by
  induction args generalizing g₀ g with
  | nil => exact ⟨rfl, fun _ _ => rfl, .refl _, .refl _, h⟩
  | cons a args ih =>
    have h₁ := writtenArg_alike a h
    have h₂ := ih h₁.state
    have hcons : ∀ g : Generator, writtenArgs (a :: args) g =
        (((writtenArg a g).1.1 ++ (writtenArgs args (writtenArg a g).2).1.1,
          (writtenArg a g).1.2 ++ (writtenArgs args (writtenArg a g).2).1.2),
          (writtenArgs args (writtenArg a g).2).2) := fun _ => rfl
    rw [hcons, hcons]
    refine ⟨congrArg₂ (· ++ ·) h₁.format h₂.format, fun ρ hρ => ?_, h₁.left.trans h₂.left,
      h₁.right.trans h₂.right, h₂.state⟩
    have hρ₁ := hρ.of_le h₂.left h₂.right h₁.state.pool
    simp only [List.map_append, h₁.arguments ρ hρ₁, h₂.arguments ρ hρ]

theorem printed_follows (newline : Bool) {g₀ g : Generator} (h : g₀.Follows k fs g)
    {r₀ r : String × List (Ir.Ty × Operand)} (hformat : r₀.1 = r.1)
    (hargs : ∀ ρ, Aligns ρ g₀.pool g.pool → r.2 = r₀.2.map (Ir.renamedArgument ρ)) :
    g₀.pool.Le (printed newline r₀ g₀).2.pool ∧ g.pool.Le (printed newline r g).2.pool ∧
      (printed newline r₀ g₀).2.Follows k fs (printed newline r g).2 := by
  obtain ⟨f, vs₀⟩ := r₀
  obtain ⟨_, vs⟩ := r
  cases hformat
  by_cases hempty : lineFormat newline f = ""
  · -- nothing is written
    have hrun : ∀ vs g, printed newline (f, vs) g = ((), g) := fun _ g =>
      congrFun (if_neg (not_not.2 hempty)) g
    rw [hrun, hrun]
    exact ⟨.refl _, .refl _, h⟩
  · -- each pool may get the format now, under its own number
    obtain ⟨formats₀, globals₀, hrun₀, hl, hmem₀⟩ := formatGlobal_eq (lineFormat newline f) g₀
    obtain ⟨formats, globals, hrun, hr, hmem⟩ := formatGlobal_eq (lineFormat newline f) g
    let g₀' : Generator :=
      { g₀ with formats := formats₀, globals := globals₀, usesPrintf := true }
    let g' : Generator := { g with formats, globals, usesPrintf := true }
    have hl : g₀.pool.Le g₀'.pool := ⟨List.prefix_rfl, hl⟩
    have hr : g.pool.Le g'.pool := ⟨List.prefix_rfl, hr⟩
    have hs : g₀'.pool.Sub g'.pool := by
      refine ⟨h.pool.texts, fun x hx => (hmem x).2 ?_⟩
      exact ((hmem₀ x).1 hx).imp (fun hx => h.pool.formats hx) id
    have hstate : g₀'.Follows k fs g' := h.pools rfl rfl hl hr hs
    rw [printed_run hempty hrun₀, printed_run hempty hrun]
    refine ⟨hl, hr, hstate.push fun ρ hρ => ?_⟩
    have hname : ρ (g₀'.pool.formatName (lineFormat newline f)) =
        g'.pool.formatName (lineFormat newline f) := hρ.format _ ((hmem₀ _).2 (.inr rfl))
    have hvs : vs = vs₀.map (Ir.renamedArgument ρ) := hargs ρ (hρ.of_le hl hr h.pool)
    show printfCall (g'.pool.formatName _) vs =
      printfCall (ρ (g₀'.pool.formatName _)) (vs₀.map (Ir.renamedArgument ρ))
    rw [hname, hvs]

theorem tracks_write (newline : Bool) (args : List WriteArg) :
    Repeats k fs Eq (write newline args) := by
  have hprinted : ∀ {g₀ g : Generator}, g₀.Follows k fs g →
      g₀.pool.Le (write newline args g₀).2.pool ∧ g.pool.Le (write newline args g).2.pool ∧
        (write newline args g₀).2.Follows k fs (write newline args g).2 := by
    intro g₀ g h
    have hargs := writtenArgs_alike args h
    obtain ⟨hl, hr, hstate⟩ := printed_follows newline hargs.state hargs.format hargs.arguments
    rw [write_eq, write_eq]
    exact ⟨hargs.left.trans hl, hargs.right.trans hr, hstate⟩
  exact ⟨fun _ => rfl, fun h => (hprinted h).1, fun h => (hprinted h).2.1,
    fun h => (hprinted h).2.2⟩

/-! ### Statements -/

theorem tracks_label (l : Ir.Label) :
    InStep k fs Eq (push (.label l)) (push (.label (l + k))) := tracks_push fun _ _ => rfl

theorem tracks_jump (l : Ir.Label) :
    InStep k fs Eq (push (.jump l)) (push (.jump (l + k))) := tracks_push fun _ _ => rfl

theorem tracks_jumpIf {v : Operand} (h : Untouched v) (yes no : Ir.Label) :
    InStep k fs Eq (push (.jumpIf v yes no)) (push (.jumpIf v (yes + k) (no + k))) :=
  tracks_push fun ρ hρ => by rw [Instr.renamed, h ρ hρ]

theorem tracks_withLabel {β : Type} {W : β → β → Prop} {f₀ f : Ir.Label → Step β}
    (h : ∀ l, InStep k fs W (f₀ l) (f (l + k))) :
    InStep k fs W (newLabel >>= f₀) (newLabel >>= f) := by
  refine .bind tracks_newLabel ?_
  rintro l _ rfl
  exact h l

theorem tracks_assign (target e : Expr) : Repeats k fs Eq (assign target e) := by
  refine .alike (tracks_valueIn e target.type) fun v hv => ?_
  refine .alike (tracks_place target) fun slot hslot => ?_
  exact tracks_push fun ρ hρ => by rw [Instr.renamed, hv ρ hρ, hslot ρ hρ]

theorem tracks_loopStart (p : Position) (target first : Expr) :
    Repeats k fs Eq (loopStart p target first) := by
  refine .alike (tracks_valueIn first .integer) fun v hv => ?_
  refine .alike (tracks_place target) fun slot hslot => ?_
  refine .same (tracks_push fun ρ hρ => by rw [Instr.renamed, hv ρ hρ, hslot ρ hρ]) fun _ => ?_
  refine .same (tracks_newName p ".pre") fun initial => ?_
  refine .same (tracks_push fun ρ hρ => by rw [Instr.renamed, hslot ρ hρ]) fun _ => ?_
  refine .same (tracks_newName p ".dec") fun decremented => ?_
  refine .same (tracks_push fun ρ hρ => rfl) fun _ => ?_
  exact tracks_push fun ρ hρ => by rw [Instr.renamed, hslot ρ hρ, untouched_local _ ρ hρ]

theorem tracks_loopTest (p : Position) (target bound : Expr) :
    Repeats k fs (Alike Untouched) (loopTest p target bound) := by
  refine .alike (tracks_place target) fun slot hslot => ?_
  refine .same (tracks_newName p ".cur") fun current => ?_
  refine .same (tracks_push fun ρ hρ => by rw [Instr.renamed, hslot ρ hρ]) fun _ => ?_
  refine .same (tracks_newName p ".next") fun next => ?_
  refine .same (tracks_push fun ρ hρ => rfl) fun _ => ?_
  refine .same (tracks_push fun ρ hρ => ?_) fun _ => ?_
  · rw [Instr.renamed, hslot ρ hρ, untouched_local _ ρ hρ]
  refine .alike (tracks_valueIn bound .integer) fun limit hlimit => ?_
  refine .same (tracks_newName p ".cmp") fun compare => ?_
  refine .same (tracks_push fun ρ hρ => ?_) fun _ => .pure ⟨rfl, untouched_local compare⟩
  rw [Instr.renamed, hlimit ρ hρ, untouched_local _ ρ hρ]

mutual

theorem tracks_statement (s : Stmt) : Repeats k fs Eq (statement s) := by
  cases s with
  | block body => rw [statement]; exact tracks_statements body
  | ifElse condition yes no =>
    cases no with
    | none =>
      rw [statement]
      -- a test is the same but for the names of globals, everything else is the same outright
      refine .alike (tracks_value condition) fun test htest => ?_
      refine tracks_withLabel fun l => tracks_withLabel fun merge => ?_
      refine .same (tracks_jumpIf htest l merge) fun _ => .same (tracks_label l) fun _ => ?_
      refine .same (tracks_statement yes) fun _ => ?_
      exact .same (tracks_jump merge) fun _ => tracks_label merge
    | some no =>
      rw [statement]
      refine .alike (tracks_value condition) fun test htest => ?_
      refine tracks_withLabel fun l => tracks_withLabel fun l' => tracks_withLabel fun merge => ?_
      refine .same (tracks_jumpIf htest l l') fun _ => .same (tracks_label l) fun _ => ?_
      refine .same (tracks_statement yes) fun _ => .same (tracks_jump merge) fun _ => ?_
      refine .same (tracks_label l') fun _ => .same (tracks_statement no) fun _ => ?_
      exact .same (tracks_jump merge) fun _ => tracks_label merge
  | «while» condition body =>
    rw [statement]
    refine tracks_withLabel fun check => tracks_withLabel fun start => ?_
    refine tracks_withLabel fun exit => ?_
    refine .same (tracks_jump check) fun _ => .same (tracks_label check) fun _ => ?_
    refine .alike (tracks_value condition) fun test htest => ?_
    refine .same (tracks_jumpIf htest start exit) fun _ => .same tracks_here fun index => ?_
    refine .same (tracks_label start) fun _ => .same (tracks_statement body) fun _ => ?_
    refine .same (tracks_jump check) fun _ => .same (tracks_label exit) fun _ => ?_
    exact tracks_closeLoop index exit check
  | repeatUntil body condition =>
    rw [statement]
    refine tracks_withLabel fun start => tracks_withLabel fun check => ?_
    refine tracks_withLabel fun exit => ?_
    refine .same (tracks_jump start) fun _ => .same tracks_here fun index => ?_
    refine .same (tracks_label start) fun _ => .same (tracks_statement body) fun _ => ?_
    refine .same (tracks_jump check) fun _ => .same (tracks_label check) fun _ => ?_
    refine .alike (tracks_value condition) fun test htest => ?_
    refine .same (tracks_jumpIf htest exit start) fun _ => .same (tracks_label exit) fun _ => ?_
    exact tracks_closeLoop index exit check
  | forTo p target first bound body =>
    rw [statement]
    refine .same (tracks_loopStart p target first) fun _ => ?_
    refine tracks_withLabel fun check => tracks_withLabel fun start => ?_
    refine tracks_withLabel fun exit => ?_
    refine .same (tracks_jump check) fun _ => .same (tracks_label check) fun _ => ?_
    refine .alike (tracks_loopTest p target bound) fun test htest => ?_
    refine .same (tracks_jumpIf htest start exit) fun _ => .same tracks_here fun index => ?_
    refine .same (tracks_label start) fun _ => .same (tracks_statement body) fun _ => ?_
    refine .same (tracks_jump check) fun _ => .same (tracks_label exit) fun _ => ?_
    exact tracks_closeLoop index exit check
  | assign target e => rw [statement]; exact tracks_assign target e
  | call n symbol args params returns =>
    rw [statement]
    refine .alike (tracks_lowerArguments args params) fun vs hvs => ?_
    exact tracks_push fun ρ hρ => by rw [Instr.renamed, renamed_arguments hρ hvs]
  | write newline args => rw [statement]; exact tracks_write newline args
  | transition kind p => rw [statement]; exact tracks_push fun _ _ => rfl

theorem tracks_statements (ss : List Stmt) : Repeats k fs Eq (statements ss) := by
  match ss with
  | [] => rw [statements]; exact .pure rfl
  | s :: ss =>
    rw [statements]
    exact .same (tracks_statement s) fun _ => tracks_statements ss

end

/-! ### Functions -/

theorem tracks_beginFunction :
    Tracks (Generator.Beside k fs) (Generator.Follows k fs) Eq beginFunction beginFunction where
  result _ := rfl
  left _ := .refl _
  right _ := .refl _
  state h := ⟨⟨h.labels, h.pool, h.functions⟩, rfl, fun _ => rfl, fun _ _ => rfl⟩

theorem tracks_endFunction (name : String) (returns : Ir.Ty) (parameters : List (String × Ir.Ty)) :
    Tracks (Generator.Follows k fs) (Generator.Beside k fs) Eq (endFunction name returns parameters)
      (endFunction name returns parameters) where
  result _ := rfl
  left _ := .refl _
  right _ := .refl _
  state {g₀ g} h := by
    let f (body : List Instr) : Ir.Function := ⟨name, returns, parameters, body⟩
    refine ⟨h.labels, h.pool, fun ρ hρ => ?_⟩
    show g.functions ++ [f (g.allocas ++ g.code)] =
      fs ++ (g₀.functions ++ [f (g₀.allocas ++ g₀.code)]).map _
    rw [h.functions ρ hρ, h.allocas ρ, h.code ρ hρ, List.map_append, List.append_assoc,
      ← List.map_append]
    rfl

theorem tracks_parameterSlots (params : List (Name × Ty)) :
    Repeats k fs Eq (parameterSlots params) := by
  induction params with
  | nil => exact .pure rfl
  | cons v params ih =>
    refine .same (tracks_alloca _ _) fun _ => .same (tracks_push fun _ _ => rfl) fun _ => ?_
    exact .same ih fun _ => .pure rfl

theorem tracks_variableSlots (vars : List (Name × Ty)) :
    Repeats k fs Eq (variableSlots vars) := by
  induction vars with
  | nil => exact .pure rfl
  | cons v vars ih => exact .same (tracks_alloca _ _) fun _ => ih

theorem tracks_returnFrom (symbol : String) (returns : Option Ty) :
    Repeats k fs Eq (returnFrom symbol returns) := by
  cases returns with
  | some t =>
    refine .same (tracks_push fun _ _ => rfl) fun _ => ?_
    exact .same (tracks_push fun _ _ => rfl) fun _ => .pure rfl
  | none => exact .same (tracks_push fun _ _ => rfl) fun _ => .pure rfl

/-- A step that starts and ends between functions, whatever state it starts from. -/
def Alone (m : Step Unit) : Prop :=
  ∀ k fs, Tracks (Generator.Beside k fs) (Generator.Beside k fs) Eq m m

theorem alone_routineFunction (symbol : String) (params : Scope) (returns : Option Ty)
    (vars : List (Name × Ty)) (body : List Stmt) :
    Alone (routineFunction symbol params returns vars body) := by
  intro k fs
  refine .same tracks_beginFunction fun _ => ?_
  refine .same (tracks_parameterSlots params.vars) fun parameters => ?_
  refine .same (tracks_variableSlots vars) fun _ => .same (tracks_statements body) fun _ => ?_
  exact .same (tracks_returnFrom symbol returns) fun t => tracks_endFunction _ t parameters

theorem alone_mainFunction (body : List Stmt) : Alone (mainFunction body) := by
  intro k fs
  refine .same tracks_beginFunction fun _ => .same (tracks_statements body) fun _ => ?_
  exact .same (tracks_push fun _ _ => rfl) fun _ => tracks_endFunction _ _ _

mutual

theorem alone_routine (r : Routine) : Alone (routine r) := by
  obtain ⟨p, symbol, params, returns, body, forward⟩ := r
  cases body with
  | none => rw [routine]; exact alone_routineFunction _ _ _ _ _
  | some body =>
    obtain ⟨⟨entries⟩, body⟩ := body
    intro k fs
    rw [routine]
    exact .same (alone_routineFunction _ _ _ _ _ k fs) fun _ => alone_routines entries k fs

theorem alone_routines (entries : List (Name × Declaration)) : Alone (routines entries) := by
  intro k fs
  match entries with
  | [] => rw [routines]; exact .pure rfl
  | (_, d) :: entries =>
    rw [routines]
    exact .same (alone_declared d k fs) fun _ => alone_routines entries k fs

theorem alone_declared (d : Declaration) : Alone (declared d) := by
  intro k fs
  cases d with
  | routine r => rw [declared]; exact alone_routine r k fs
  | var | const | type => rw [declared]; exact .pure rfl

end

theorem beside_empty (g : Generator) : Generator.empty.Beside g.labels g.functions g where
  labels := (Nat.zero_add _).symm
  pool := ⟨List.nil_subset _, List.nil_subset _⟩
  functions _ _ := (List.append_nil _).symm

/-- A function is the first one that a step makes when nothing has been generated, up to a shift of
the labels and a renaming into a pool. -/
structure IsFirstOf (m : Step Unit) (T : Pool) (f : Ir.Function) : Prop where
  stores : (m .empty).2.Stores []
  pool : (m .empty).2.pool.Sub T
  first : ∃ k f₀, (m .empty).2.functions.head? = some f₀ ∧
    ∀ ρ, Aligns ρ (m .empty).2.pool T → f = f₀.renamed k ρ

namespace IsFirstOf

variable {m : Step Unit} {T U : Pool} {f : Ir.Function}

theorem mono (h : IsFirstOf m T f) (hT : T.Le U) : IsFirstOf m U f := by
  obtain ⟨k, f₀, hf₀, hf⟩ := h.first
  exact ⟨h.stores, h.pool.trans_le hT, k, f₀, hf₀,
    fun ρ hρ => hf ρ (hρ.of_le (.refl _) hT h.pool)⟩

/-- The first function that is added anywhere. -/
theorem of_alone (hm : Alone m) (hstores : (m .empty).2.Stores []) {g : Generator}
    {rest : List Ir.Function} (h : (m g).2.functions = g.functions ++ f :: rest) :
    IsFirstOf m (m g).2.pool f := by
  -- the step from `g` and the step from nothing go side by side, the functions of `g` in front
  have hstate := (hm g.labels g.functions).state (beside_empty g)
  have hfunctions : ∀ ρ, Aligns ρ (m .empty).2.pool (m g).2.pool →
      f :: rest = (m .empty).2.functions.map (Ir.Function.renamed g.labels ρ) := fun ρ hρ =>
    List.append_cancel_left (h.symm.trans (hstate.functions ρ hρ))
  refine ⟨hstores, hstate.pool, g.labels, ?_⟩
  cases hfirst : (m .empty).2.functions with
  | nil =>
    have := hfunctions _ (Pool.aligns_aligning _ _)
    rw [hfirst] at this
    cases this
  | cons f₀ rest₀ =>
    refine ⟨f₀, rfl, fun ρ hρ => ?_⟩
    have := hfunctions ρ hρ
    rw [hfirst] at this
    exact (List.cons.inj this).1

end IsFirstOf

/-- The functions of routines, in their order, each the first of its routine. -/
abbrev FirstOfEach (T : Pool) (rs : List (List String × Routine)) (fs : List Ir.Function) : Prop :=
  List.Forall₂ (fun e f => f.name = functionName e.2.symbol ∧ IsFirstOf (routine e.2) T f) rs fs

theorem FirstOfEach.mono {T U : Pool} {rs : List (List String × Routine)} {fs : List Ir.Function}
    (h : FirstOfEach T rs fs) (hT : T.Le U) : FirstOfEach U rs fs :=
  h.imp fun _ _ hf => ⟨hf.1, hf.2.mono hT⟩

theorem routines_firstOfEach (path : List String) {entries : List (Name × Declaration)}
    (h : ∀ n r, (n, .routine r) ∈ entries → ∀ g : Generator, ∃ fs,
      (routine r g).2.functions = g.functions ++ fs ∧
        FirstOfEach (routine r g).2.pool (r.preorder (path ++ [n.canonical])) fs)
    (g : Generator) :
    ∃ fs, (routines entries g).2.functions = g.functions ++ fs ∧
      FirstOfEach (routines entries g).2.pool (preorderOfEntries path entries) fs := by
  induction entries generalizing g with
  | nil => exact ⟨[], by rw [routines]; exact (List.append_nil _).symm, .nil⟩
  | cons e entries ih =>
    obtain ⟨n, d⟩ := e
    have hd : ∃ fs, (declared d g).2.functions = g.functions ++ fs ∧
        FirstOfEach (declared d g).2.pool (d.preorder (path ++ [n.canonical])) fs := by
      cases d with
      | routine r => rw [declared]; exact h n r List.mem_cons_self g
      | var | const | type =>
        exact ⟨[], by rw [declared]; exact (List.append_nil _).symm, .nil⟩
    obtain ⟨fs₁, hfs₁, hfirst₁⟩ := hd
    obtain ⟨fs₂, hfs₂, hfirst₂⟩ := ih (fun n r hm => h n r (List.mem_cons_of_mem _ hm))
      (declared d g).2
    -- what is lowered later only adds to the pool, so the first names stay
    have hpool := (alone_routines entries _ _).right (beside_empty (declared d g).2)
    have hcons : routines ((n, d) :: entries) g = routines entries (declared d g).2 := by
      rw [routines]
      rfl
    refine ⟨fs₁ ++ fs₂, ?_, ?_⟩
    · rw [hcons, hfs₂, hfs₁, List.append_assoc]
    · rw [hcons, preorderOfEntries]
      exact List.rel_append (hfirst₁.mono hpool) hfirst₂

theorem routine_firstOfEach {E : Environment} {path : List String} {r : Routine}
    (h : r.Checked E path) (g : Generator) :
    ∃ fs, (routine r g).2.functions = g.functions ++ fs ∧
      FirstOfEach (routine r g).2.pool (r.preorder path) fs := by
  induction h generalizing g with
  | @intro E path r body hp hb hv hl hret hs hn ih =>
    obtain ⟨g', _, hrun, hadds⟩ := routine_run (P := fun _ _ => True)
      (.intro hp hb hv hl hret hs hn) (fun _ _ _ _ => trivial) .empty
    have hstores : (routine r .empty).2.Stores [] := by
      rw [hrun]
      exact hadds.stores [] (stores_empty [])
    obtain ⟨p, symbol, params, returns, body', forward⟩ := r
    cases hb
    obtain ⟨⟨entries⟩, statements⟩ := body
    obtain ⟨g₁, f, hrun₁, hadds₁⟩ :=
      routineFunction_run (P := fun _ _ => True) hv hret hs trivial g
    obtain ⟨fs, hfs, hfirst⟩ :=
      routines_firstOfEach path (fun n q (hq : _ ∈ entries) g => ih n q hq g) g₁
    let r : Routine := ⟨p, symbol, params, returns, some ⟨⟨entries⟩, statements⟩, forward⟩
    -- the function of the routine itself stands in front of those of the routines in it
    have hrun : routine r g = routines entries g₁ := by
      rw [routine, bind_run hrun₁]
    have hfunctions : (routine r g).2.functions = g.functions ++ f :: fs := by
      rw [hrun, hfs, hadds₁.functions, List.append_assoc]
      rfl
    have hname : f.name = functionName symbol :=
      congrArg Ir.Header.name (List.cons.inj hadds₁.headers).1
    refine ⟨f :: fs, hfunctions, ?_⟩
    rw [Routine.preorder]
    refine .cons ⟨hname, .of_alone (alone_routine r) hstores hfunctions⟩ ?_
    rw [hrun]
    exact hfirst

/-! ### Contents -/

/-- A renaming from one pool into another moves the globals that hold it. -/
theorem relocates_aligning {g₀ g : Generator} (h₀ : g₀.Stores [])
    (hholds : ∀ x, g.pool.Holds x → x ∈ g.globals) (hs : g₀.pool.Sub g.pool) :
    Ir.Relocates (g₀.pool.aligning g.pool) g₀.finish g.finish := by
  obtain ⟨added, hglobals, -, hadded⟩ := h₀.globals
  have hholds₀ : ∀ x, x ∈ g₀.globals ↔ g₀.pool.Holds x := by
    intro x
    rw [hglobals, List.nil_append, hadded]
  -- every text of the first program is a literal or a format of its pool
  have hcases : ∀ x bytes, .text x bytes ∈ g₀.globals →
      (∃ s ∈ g₀.texts, x = g₀.pool.textName s ∧ bytes = textBytes s) ∨
        ∃ s ∈ g₀.formats, x = g₀.pool.formatName s ∧ bytes = textBytes s := by
    intro x bytes hx
    rcases (hholds₀ _).1 hx with ⟨s, hm, hx⟩ | ⟨s, hm, hx⟩ <;> cases hx
    · exact .inl ⟨s, hm, rfl, rfl⟩
    · exact .inr ⟨s, hm, rfl, rfl⟩
  constructor
  · intro x bytes hx
    rcases hcases x bytes hx with ⟨s, hm, rfl, rfl⟩ | ⟨s, hm, rfl, rfl⟩
    · rw [Pool.aligning_text hm]
      exact hholds _ (.inl ⟨s, hs.texts hm, rfl⟩)
    · rw [Pool.aligning_format hm]
      exact hholds _ (.inr ⟨s, hs.formats hm, rfl⟩)
  · intro m bytes hx
    rcases hcases _ bytes hx with ⟨s, hm, hname, -⟩ | ⟨s, hm, hname, -⟩
    · rw [hname, Pool.aligning_text hm]
      exact ⟨_, rfl⟩
    · exact absurd hname (literal_ne_format _ _)
  · intro m bytes hx
    rcases hcases _ bytes hx with ⟨s, hm, hname, -⟩ | ⟨s, hm, hname, -⟩
    · exact absurd hname.symm (literal_ne_format _ _)
    · rw [hname, Pool.aligning_format hm]
      exact ⟨_, rfl⟩
  · -- two texts that get one name are one text, since names tell literals from formats
    rintro x y ⟨_, hx⟩ ⟨_, hy⟩ hxy
    rcases hcases _ _ hx with ⟨s, hm, rfl, -⟩ | ⟨s, hm, rfl, -⟩ <;>
      rcases hcases _ _ hy with ⟨s', hm', rfl, -⟩ | ⟨s', hm', rfl, -⟩
    · rw [Pool.aligning_text hm, Pool.aligning_text hm'] at hxy
      rw [Pool.textName_inj (hs.texts hm) hxy]
    · rw [Pool.aligning_text hm, Pool.aligning_format hm'] at hxy
      exact absurd hxy (textName_ne_formatName _ _ _ _)
    · rw [Pool.aligning_format hm, Pool.aligning_text hm'] at hxy
      exact absurd hxy.symm (textName_ne_formatName _ _ _ _)
    · rw [Pool.aligning_format hm, Pool.aligning_format hm'] at hxy
      rw [Pool.formatName_inj (hs.formats hm) hxy]
  · intro x hx
    refine Pool.aligning_rest (fun s hm hname => ?_) fun s hm hname => ?_
    · exact hx (textBytes s) ((hholds₀ _).2 (.inl ⟨s, hm, hname ▸ rfl⟩))
    · exact hx (textBytes s) ((hholds₀ _).2 (.inr ⟨s, hm, hname ▸ rfl⟩))

/-- What a step generates when nothing has been generated before. -/
def generatedBy (m : Step Unit) : Ir.Program := (m .empty).2.finish

end Lowering

/-- A function of the second program is the first function of the first one, but for one shift of
its labels and other names for the globals that hold texts. -/
def Ir.Function.IsCopy (f : Function) (q p : Program) : Prop :=
  ∃ k ρ f₀, Relocates ρ q p ∧ q.functions.head? = some f₀ ∧ f = f₀.renamed k ρ

open Lowering

theorem Lowering.IsFirstOf.isCopy {m : Step Unit} {g : Generator} {f : Ir.Function}
    (h : IsFirstOf m g.pool f) (hholds : ∀ x, g.pool.Holds x → x ∈ g.globals) :
    f.IsCopy (generatedBy m) g.finish := by
  obtain ⟨k, f₀, hf₀, hf⟩ := h.first
  exact ⟨k, _, f₀, relocates_aligning h.stores hholds h.pool, hf₀,
    hf _ (Pool.aligns_aligning _ _)⟩

/-- Every routine of a program that is accepted has the code that it has when it is lowered before
anything else, and so have the statements of the program. -/
theorem Program.ofText_isolated {text name : String} {p : Program} (h : ofText text name = .ok p) :
    ∃ fs main, p.lower.functions = fs ++ [main] ∧
      List.Forall₂ (fun e f => f.name = functionName e.2.symbol ∧
        f.IsCopy (generatedBy (Lowering.routine e.2)) p.lower) p.routines fs ∧
      main.IsCopy (generatedBy (mainFunction p.statements)) p.lower := by
  have hp := (ofText_checked h).1
  let g₀ : Generator := { Generator.empty with globals := [] ++ globalVariables p.scope.vars }
  let g₁ := (Lowering.routines p.scope.entries g₀).2
  let g := (mainFunction p.statements g₁).2
  have hlower : p.lower = g.finish := rfl
  have hholds : ∀ x, g.pool.Holds x → x ∈ g.globals := by
    obtain ⟨T, _, _, _, hlowered⟩ := hp.lowered
    obtain ⟨added, hglobals, -, hadded⟩ := hlowered.globals
    have hT : T = g.pool := hlowered.pool
    intro x hx
    show x ∈ p.lower.globals
    rw [hglobals]
    exact List.mem_append_right _ ((hadded x).2 (hT ▸ hx))
  obtain ⟨fs, hfs, hfirst⟩ := routines_firstOfEach []
    (fun n r hm g => routine_firstOfEach (hp.routines n r hm) g) g₀
  obtain ⟨g', c, hrun, hpool, -, hfunctions, -⟩ := mainFunction_run hp.main g₁
  obtain rfl : g' = g := (congrArg Prod.snd hrun).symm
  -- and once more from nothing
  obtain ⟨g₂, _, hrun₂, -, hstores, -, -⟩ := mainFunction_run hp.main .empty
  have hstores : (mainFunction p.statements .empty).2.Stores [] := by
    rw [hrun₂]
    exact hstores [] (stores_empty [])
  refine ⟨fs, ⟨"main", .i32, [], c ++ [.ret (some (.i32, .int 0))]⟩, ?_, ?_, ?_⟩
  · rw [hlower]
    show g.functions = _
    rw [hfunctions, hfs]
    rfl
  · exact (hfirst.mono hpool).imp fun e f hf => ⟨hf.1, hf.2.isCopy hholds⟩
  · exact (IsFirstOf.of_alone (alone_mainFunction _) hstores hfunctions).isCopy hholds

theorem Program.ofText_isolated_nested :
    ∃ p, ofText ("program t; procedure p; procedure q; begin while true do begin write('a'); " ++
        "break; write('b') end end; begin q; writeln('b', 1) end; begin p; writeln('c', 2) end.")
        "t" = .ok p ∧
      ∃ fs main, p.lower.functions = fs ++ [main] ∧
        List.Forall₂ (fun e f => f.name = functionName e.2.symbol ∧
          f.IsCopy (generatedBy (Lowering.routine e.2)) p.lower) p.routines fs ∧
        main.IsCopy (generatedBy (mainFunction p.statements)) p.lower := by
  obtain ⟨ir, h⟩ := exists_compile
    ("program t; procedure p; procedure q; begin while true do begin write('a'); " ++
      "break; write('b') end end; begin q; writeln('b', 1) end; begin p; writeln('c', 2) end.")
    "t" (by decide +kernel)
  obtain ⟨p, hp, -⟩ := compile_eq_ok h
  exact ⟨p, hp, ofText_isolated hp⟩

end MiniPascal
