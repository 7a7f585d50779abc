import MiniPascal.Proofs.Lowering.WellTyped

/-! Lowered programs are closed under names. -/

namespace MiniPascal

namespace Lowering

/-- A call in the instruction, if there is one, is of a routine of the environment, or it prints by
a format of the pool. -/
structure Links (E : Environment) (T : Pool) (i : Ir.Instr) : Prop where
  callee : ∀ h ∈ i.callee?, ∃ σ ∈ E.routines, h = headerOf σ
  external : ∀ e ∈ i.external?, e = printf ∧ T.formats ≠ []

/-- All instructions link. -/
def AllLink (E : Environment) (T : Pool) (c : List Ir.Instr) : Prop := ∀ i ∈ c, Links E T i

section

variable {E : Environment} {T : Pool} {locals : List (Name × Ty)}

@[simp] theorem allLink_nil : AllLink E T [] := List.forall_mem_nil _

@[simp] theorem allLink_append {c d : List Ir.Instr} :
    AllLink E T (c ++ d) ↔ AllLink E T c ∧ AllLink E T d := List.forall_mem_append

@[simp] theorem allLink_cons {i : Ir.Instr} {c : List Ir.Instr} :
    AllLink E T (i :: c) ↔ Links E T i ∧ AllLink E T c := List.forall_mem_cons

theorem allLink_single {i : Ir.Instr} : AllLink E T [i] ↔ Links E T i := by simp

/-- Instructions that call nothing. -/
theorem links_of_none {i : Ir.Instr} (hc : i.callee? = none) (he : i.external? = none) :
    Links E T i := by
  refine ⟨?_, ?_⟩
  · rw [hc]
    nofun
  · rw [he]
    nofun

theorem allLink_of_none {c : List Ir.Instr}
    (h : ∀ i ∈ c, i.callee? = none ∧ i.external? = none) : AllLink E T c :=
  fun i hi => links_of_none (h i hi).1 (h i hi).2

theorem links_alone {i : Ir.Instr} (hc : i.callee? = none) (he : i.external? = none) :
    AllLink E T [i] := allLink_single.2 (links_of_none hc he)

/-- A call of a routine that can be called, with arguments of the types of its parameters. -/
theorem links_call {symbol : String} {params : List Ty} {returns : Option Ty}
    (hr : (⟨symbol, params, returns⟩ : Signature) ∈ E.routines) {output : Option String}
    {vs : List (Ir.Ty × Ir.Operand)} (hvs : vs.map Prod.fst = params.map machineType) :
    Links E T (.call output ((returns.map machineType).getD .void) (functionName symbol) none
      vs) where
  callee h hh := by
    cases hh
    exact ⟨_, hr, by rw [hvs]; rfl⟩
  external := nofun

@[simp] theorem links_label (l : Ir.Label) : Links E T (.label l) := links_of_none rfl rfl

@[simp] theorem links_jump (l : Ir.Label) : Links E T (.jump l) := links_of_none rfl rfl

@[simp] theorem links_jumpIf (v : Ir.Operand) (yes no : Ir.Label) :
    Links E T (.jumpIf v yes no) := links_of_none rfl rfl

@[simp] theorem links_compare (output : String) (p : Ir.Predicate) (t : Ir.Ty) (v w : Ir.Operand) :
    Links E T (.compare output p t v w) := links_of_none rfl rfl

theorem links_applied (output : String) (op : BinOp) (t : Ty) (v w : Ir.Operand) :
    Links E T (applied output op t v w) := by
  unfold applied
  split <;> exact links_of_none rfl rfl

/-! ### Expressions -/

theorem ArgsCode.types {es : List Expr} {ts : List Ty} {ν₁ ν₂ : Names}
    {vs : List (Ir.Ty × Ir.Operand)} {c : List Ir.Instr} (h : ArgsCode es ts ν₁ vs c ν₂) :
    vs.map Prod.fst = ts.map machineType := by
  induction es generalizing ts ν₁ vs c with
  | nil =>
    cases h
    rfl
  | cons e es ih =>
    cases h with | cons _ hes =>
    exact congrArg (_ :: ·) (ih hes)

theorem literal_links {q : Position} {n : UInt64} {e : Expr} {ν₁ ν₂ : Names} {v : Ir.Operand}
    {c : List Ir.Instr} (h : ValueCode e ν₁ v c ν₂) (he : e = .int q n) :
    AllLink E T c := by
  subst he
  cases h with
  | int => exact allLink_nil
  | load hs => cases hs

/-- The operand of a unary operator is checked, or it is a literal, which has no code. -/
theorem links_operand {p : Position} {t : Ty} {op : UnaryOp} {e : Expr} {ν₁ ν₂ : Names}
    {v : Ir.Operand} {c : List Ir.Instr} (he : (Expr.unary p t op e).Checked (.ofVars E locals))
    (h : ValueCode e ν₁ v c ν₂) (hc : e.Checked (.ofVars E locals) → AllLink E T c) :
    AllLink E T c := by
  obtain ⟨-, he'⟩ := operand_of_checked he
  rcases he' with he' | ⟨q, n, he'⟩
  · exact hc he'
  · exact literal_links h he'

mutual

theorem PlaceCode.links {e ν₁ slot c ν₂} (h : PlaceCode e ν₁ slot c ν₂)
    (he : e.Checked (.ofVars E locals)) : AllLink E T c := by
  match h with
  | .global | .routine => exact allLink_nil
  | .index ha hi _ =>
    cases he with | index ha' _ _ hi' _ =>
    refine allLink_append.2 ⟨allLink_append.2 ⟨ha.links ha', hi.links hi'⟩, ?_⟩
    exact links_alone rfl rfl
  | .rebased ha hi _ =>
    cases he with | index ha' _ _ hi' _ =>
    refine allLink_append.2 ⟨allLink_append.2 ⟨ha.links ha', hi.links hi'⟩, ?_⟩
    exact allLink_cons.2 ⟨links_of_none rfl rfl, links_alone rfl rfl⟩
  | .field hr =>
    cases he with | field hr' _ _ _ =>
    exact allLink_append.2 ⟨hr.links hr', links_alone rfl rfl⟩
termination_by structural h

theorem ValueCode.links {e ν₁ v c ν₂} (h : ValueCode e ν₁ v c ν₂)
    (he : e.Checked (.ofVars E locals)) : AllLink E T c := by
  match h with
  | .int | .double | .bool => exact allLink_nil
  | .load hs => exact allLink_append.2 ⟨hs.links he, links_alone rfl rfl⟩
  | .plus hv => exact links_operand he hv fun he' => hv.links he'
  | .negate hv _ | .minus hv _ | .not hv _ | .complement hv _ =>
    have hc : AllLink E T _ := links_operand he hv fun he' => hv.links he'
    exact allLink_append.2 ⟨hc, links_alone rfl rfl⟩
  | .binary hl hr =>
    obtain ⟨hl', hr', -⟩ := operands_of_checked he
    refine allLink_append.2 ⟨allLink_append.2 ⟨hl.links hl', hr.links hr'⟩, ?_⟩
    exact allLink_single.2 (links_applied _ _ _ _ _)
  | .call ha =>
    cases he with | call hs ha' _ =>
    refine allLink_append.2 ⟨ha.links ha', ?_⟩
    exact allLink_single.2 (links_call hs ha.types)
termination_by structural h

theorem TypedCode.links {e t ν₁ v c ν₂} (h : TypedCode e t ν₁ v c ν₂)
    (he : e.Checked (.ofVars E locals)) : AllLink E T c := by
  match h with
  | .widened _ => exact allLink_nil
  | .cast _ _ hv => exact allLink_append.2 ⟨hv.links he, links_alone rfl rfl⟩
  | .same _ hv => exact hv.links he
termination_by structural h

theorem ArgsCode.links {es ts ν₁ vs c ν₂} (h : ArgsCode es ts ν₁ vs c ν₂)
    (hes : ∀ e ∈ es, e.Checked (.ofVars E locals)) : AllLink E T c := by
  match h with
  | .nil => exact allLink_nil
  | .cons he hes' =>
    obtain ⟨h₁, h₂⟩ := List.forall_mem_cons.1 hes
    exact allLink_append.2 ⟨he.links h₁, hes'.links h₂⟩
termination_by structural h

end

/-! ### Statements -/

theorem WriteCode.links {U : Pool} {args ν₁ f vs c ν₂} (h : WriteCode T args ν₁ f vs c ν₂)
    (ha : ∀ a ∈ args, a.Checked (.ofVars E locals)) : AllLink E U c := by
  induction h with
  | nil => exact allLink_nil
  | text _ _ ih => exact ih (List.forall_mem_cons.1 ha).2
  | integer _ he _ ih | double _ he _ ih =>
    obtain ⟨⟨he', -⟩, ha⟩ := List.forall_mem_cons.1 ha
    exact allLink_append.2 ⟨he.links he', ih ha⟩
  | boolean _ he _ ih =>
    obtain ⟨⟨he', -⟩, ha⟩ := List.forall_mem_cons.1 ha
    refine allLink_append.2 ⟨allLink_append.2 ⟨he.links he', ?_⟩, ih ha⟩
    exact links_alone rfl rfl

theorem allLink_startCode (p : Position) (v slot : Ir.Operand) (ν : Names) :
    AllLink E T (startCode p v slot ν) :=
  allLink_of_none (by simp [startCode, Ir.Instr.callee?, Ir.Instr.external?])

theorem allLink_countCode (p : Position) (slot : Ir.Operand) (ν : Names) :
    AllLink E T (countCode p slot ν) :=
  allLink_of_none (by simp [countCode, Ir.Instr.callee?, Ir.Instr.external?])

/-- The direct code of a checked statement links. -/
theorem StmtCode.links {exit next s σ d σ'} (h : StmtCode T exit next s σ d σ') {b : Bool}
    (hs : s.Checked (.ofVars E locals) b) : AllLink E T d := by
  induction h generalizing b with
  | blockNil | writeNothing => exact allLink_nil
  | blockCons _ _ ih₁ ih₂ =>
    cases hs with | block hs =>
    obtain ⟨h₁, h₂⟩ := List.forall_mem_cons.1 hs
    exact allLink_append.2 ⟨ih₁ h₁, ih₂ (.block h₂)⟩
  | ifThen ht _ ih =>
    cases hs with | ifThen ht' _ hy =>
    simp [ht.links ht', ih hy]
  | ifElse ht _ _ ihy ihn =>
    cases hs with | ifElse ht' _ hy hn =>
    simp [ht.links ht', ihy hy, ihn hn]
  | «while» ht _ ih =>
    cases hs with | «while» ht' _ hb =>
    simp [ht.links ht', ih hb]
  | repeatUntil _ ht ih =>
    cases hs with | repeatUntil hb ht' =>
    simp [ht.links ht', ih hb]
  | forTo hf ht ht' hb _ ih =>
    cases hs with | forTo htc _ _ hfc _ hbc _ hsc =>
    simp [hf.links hfc, ht.links htc, ht'.links htc, hb.links hbc, ih hsc, allLink_startCode,
      allLink_countCode]
  | assign he ht =>
    cases hs with | assign ht' _ he' =>
    exact allLink_append.2 ⟨allLink_append.2 ⟨he.links he', ht.links ht'⟩, links_alone rfl rfl⟩
  | call ha =>
    cases hs with | call hr ha' _ =>
    exact allLink_append.2 ⟨ha.links ha', allLink_single.2 (links_call hr ha.types)⟩
  | write hw hf =>
    cases hs with | write ha =>
    -- `printf` is declared once a format is in the pool
    refine allLink_append.2 ⟨hw.links ha, allLink_single.2 ⟨nofun, fun e he => ?_⟩⟩
    cases he
    exact ⟨rfl, List.ne_nil_of_mem hf⟩
  | transition => exact links_alone rfl rfl

/-! ### Functions -/

theorem ReturnCode.links {vars : List (Name × Ty)} {t : Ir.Ty} {tail : List Ir.Instr}
    (h : ReturnCode vars t tail) : AllLink E T tail := by
  cases h <;> exact allLink_of_none (by simp [Ir.Instr.callee?, Ir.Instr.external?])

/-- The code of a function links. -/
theorem FunctionCode.links {l l' : Nat} {f : Ir.Function} (h : FunctionCode T (Obeys E) l f l') :
    AllLink E T f.body := by
  obtain @⟨name, returns, params, vars, body, d, tail, _, hv, hs, hb, ht⟩ := h
  obtain ⟨ν, hd⟩ := hb.code
  -- what has been dropped as dead code links too
  have hdirect := hd.links (.block hs)
  refine allLink_append.2 ⟨?_, allLink_append.2 ⟨allLink_append.2 ⟨?_, ?_⟩, ht.links⟩⟩
  · intro i hi
    obtain ⟨v, -, rfl⟩ := List.mem_map.1 hi
    exact links_of_none rfl rfl
  · intro i hi
    obtain ⟨v, -, rfl⟩ := List.mem_map.1 hi
    exact links_of_none rfl rfl
  · exact fun i hi => hdirect i ((Ir.dropDead_sublist false d).subset hi)

end

/-! ### Globals -/

theorem nodup_globalVariables {vars : List (Name × Ty)} (h : Distinct vars) :
    (globalVariables vars).Nodup := by
  have hnames : ((globalVariables vars).map Ir.Global.name).Nodup := by
    have := h.nodup.map fun _ _ hxy => (String.append_right_inj "global_").1 hxy
    rw [List.map_map] at this
    simpa [globalVariables, Function.comp_def, Ir.Global.name, globalName] using this
  exact hnames.of_map _

/-- Variables, texts and formats have different names. -/
theorem nodup_globals {vars : List (Name × Ty)} {T : Pool} {added : List Ir.Global}
    (hv : Distinct vars) (hn : added.Nodup) (ha : ∀ x, x ∈ added ↔ T.Holds x) :
    ((globalVariables vars ++ added).map Ir.Global.name).Nodup := by
  refine List.Nodup.map_on (globals_eq_of_name hv ha)
    (List.nodup_append.2 ⟨nodup_globalVariables hv, hn, ?_⟩)
  rintro x hx _ hy rfl
  obtain ⟨v, -, rfl⟩ := List.mem_map.1 hx
  rcases (ha _).1 hy with ⟨s, -, h⟩ | ⟨s, -, h⟩ <;> cases h

end Lowering

/-! ### Programs -/

namespace Program

open Lowering

/-- The functions of a program are those of its routines, and `main`. -/
theorem Checked.functions_names {p : Program} (h : p.Checked) :
    p.lower.functions.map Ir.Function.name =
      (p.routines.map fun e => "user_" ++ ".".intercalate e.1) ++ ["main"] := by
  obtain ⟨T, fs, main, l, hl⟩ := h.lowered
  have hnames : fs.map Ir.Function.name =
      p.routines.map fun e => (headerOf e.2.signature).name := by
    have := congrArg (List.map Ir.Header.name) hl.headers
    simpa [Function.comp_def, Ir.Function.header] using this
  have hsymbols : p.routines.map (fun e => (headerOf e.2.signature).name) =
      p.routines.map fun e => "user_" ++ ".".intercalate e.1 := by
    refine List.map_congr_left fun e he => ?_
    obtain ⟨E, -, hr⟩ := h.of_mem_routines he
    cases hr with | intro hp =>
    exact congrArg ("user_" ++ ·) hp
  calc
    p.lower.functions.map Ir.Function.name = fs.map Ir.Function.name ++ ["main"] := by
      rw [hl.functions, List.map_append]
      rfl
    _ = (p.routines.map fun e => "user_" ++ ".".intercalate e.1) ++ ["main"] := by
      rw [hnames, hsymbols]

/-- The functions of a program have different names. -/
theorem Checked.nodup_functions {p : Program} (h : p.Checked) :
    (p.lower.functions.map Ir.Function.name).Nodup := by
  have hroutines := h.nodup_symbols.map fun _ _ hxy => (String.append_right_inj "user_").1 hxy
  rw [List.map_map] at hroutines
  rw [h.functions_names]
  refine List.nodup_append.2 ⟨hroutines, by simp, ?_⟩
  rintro _ hx _ hy rfl
  -- the names of routines do not start with the first letter of `main`
  obtain ⟨e, -, he⟩ := List.mem_map.1 hx
  have := congrArg (fun x => x.toList.head?) (he.trans (List.mem_singleton.1 hy))
  simp at this

/-- No function takes the name of the one that writes. -/
theorem Checked.printf_notMem {p : Program} (h : p.Checked) :
    "printf" ∉ p.lower.functions.map Ir.Function.name := by
  rw [h.functions_names, List.mem_append, List.mem_map]
  rintro (⟨e, -, he⟩ | hm)
  · have := congrArg (fun x => x.toList.head?) he
    simp at this
  · exact absurd (List.mem_singleton.1 hm) (by decide)

theorem eq_printf_of_mem {p : Program} {e : Ir.External} (h : e ∈ p.lower.externals) :
    e = printf := by
  unfold lower Generator.finish at h
  dsimp only at h
  split at h
  · exact List.mem_singleton.1 h
  · cases h

/-- Programs that obey the rules are lowered to programs that are closed under names. -/
theorem Checked.linked {p : Program} (h : p.Checked) : p.lower.Linked := by
  obtain ⟨T, fs, main, l, hl⟩ := h.lowered
  have hlinks : ∀ f ∈ p.lower.functions, AllLink p.allDeclared T f.body := by
    intro f hf
    obtain ⟨m, m', hcode⟩ := (hl.functionsCode h).mem f hf
    exact hcode.links
  refine ⟨h.nodup_functions, ?_, fun f hf i hi callee hc => ?_, fun f hf i hi e he => ?_, ?_⟩
  · obtain ⟨added, hglobals, hn, ha⟩ := hl.globals
    rw [hglobals]
    exact nodup_globals h.vars hn ha
  · -- the routine of the signature is in preorder, and its function has the header of the signature
    obtain ⟨σ, hσ, rfl⟩ := (hlinks f hf i hi).callee callee hc
    obtain ⟨e, he, rfl⟩ := List.mem_map.1 hσ
    rw [hl.functions, List.map_append, hl.headers]
    exact List.mem_append_left _ (List.mem_map.2 ⟨e, he, rfl⟩)
  · obtain ⟨rfl, hformats⟩ := (hlinks f hf i hi).external e he
    rw [hl.printf hformats]
    exact List.mem_cons_self
  · obtain ⟨U, hG, hU, hcode⟩ := h.functions_mem
    intro f hf i hi x hx
    obtain ⟨m, m', hf⟩ := hcode f hf
    exact (hf.fits hG hU i hi).global_mem hx

/-- A program that has been read is lowered to functions with different names, one for each routine
in preorder and then `main`. All calls agree with the headers of these functions, all globals that
are used are there under different names, and `printf` is declared if anything calls it. -/
theorem ofText_linked {text name : String} {p : Program} (h : ofText text name = .ok p) :
    p.lower.Linked ∧
      p.lower.functions.map Ir.Function.name =
        (p.routines.map fun e => "user_" ++ ".".intercalate e.1) ++ ["main"] ∧
      ∀ f ∈ p.lower.functions, ∀ output returns variadic args,
        .call output returns "printf" variadic args ∈ f.body → printf ∈ p.lower.externals := by
  obtain ⟨hp, -⟩ := ofText_checked h
  have hlinked := hp.linked
  refine ⟨hlinked, hp.functions_names, fun f hf output returns variadic args hi => ?_⟩
  cases variadic with
  | none =>
    -- such a call would need a function of that name
    obtain ⟨g, hg, hname⟩ := List.mem_map.1 (hlinked.callees f hf _ hi _ rfl)
    exact absurd (List.mem_map.2 ⟨g, hg, congrArg Ir.Header.name hname⟩) hp.printf_notMem
  | some fixed =>
    have hmem := hlinked.externals f hf _ hi _ rfl
    exact eq_printf_of_mem hmem ▸ hmem

theorem ofText_linked_forward :
    ∃ p, ofText ("function f(x: double): double; forward; procedure p; begin writeln(f(1)) end; " ++
        "function f(x: double): double; begin f := x end; begin p end.") "t" = .ok p ∧
      p.lower.Linked ∧
      p.lower.functions.map Ir.Function.name =
        (p.routines.map fun e => "user_" ++ ".".intercalate e.1) ++ ["main"] ∧
      ∀ f ∈ p.lower.functions, ∀ output returns variadic args,
        .call output returns "printf" variadic args ∈ f.body → printf ∈ p.lower.externals := by
  have hread : ∃ p, ofText ("function f(x: double): double; forward; procedure p; " ++
      "begin writeln(f(1)) end; function f(x: double): double; begin f := x end; begin p end.")
      "t" = .ok p ∧ (p.routines.length == 2) = true := exists_ofText (by cbv)
  obtain ⟨p, hp, -⟩ := hread
  exact ⟨p, hp, ofText_linked hp⟩

end Program

end MiniPascal
