import MiniPascal.Proofs.Lowering.Linking
import MiniPascal.Proofs.Semantics.Output

/-! Formatted output is type safe. -/

namespace MiniPascal

namespace Lowering

theorem textBytes_inj {s s' : String} (h : textBytes s = textBytes s') : s = s' := by
  have := congrArg (fun bytes => Utf8.text bytes.dropLast) h
  simpa only [text_textBytes] using this

/-- What the instruction passes to `printf`, if it calls it: a format of the pool that follows from
the types of the arguments behind it. -/
def Prints (T : Pool) (i : Ir.Instr) : Prop :=
  ∀ output returns variadic args, i = .call output returns "printf" variadic args →
    ∃ newline vs, args = (.ptr, .global (T.formatName (lineFormat newline
        (directives (vs.map Prod.fst))))) :: vs ∧
      lineFormat newline (directives (vs.map Prod.fst)) ∈ T.formats ∧ ∀ v ∈ vs, Written T v

/-- All instructions print by formats of the pool. -/
def AllPrint (T : Pool) (c : List Ir.Instr) : Prop := ∀ i ∈ c, Prints T i

section

variable {E : Environment} {T : Pool} {locals : List (Name × Ty)}

@[simp] theorem allPrint_nil : AllPrint T [] := List.forall_mem_nil _

@[simp] theorem allPrint_append {c d : List Ir.Instr} :
    AllPrint T (c ++ d) ↔ AllPrint T c ∧ AllPrint T d := List.forall_mem_append

@[simp] theorem allPrint_cons {i : Ir.Instr} {c : List Ir.Instr} :
    AllPrint T (i :: c) ↔ Prints T i ∧ AllPrint T c := List.forall_mem_cons

/-- What links without formats does not call `printf`. -/
theorem Links.prints {i : Ir.Instr} (h : Links E ⟨[], []⟩ i) : Prints T i := by
  rintro output returns variadic args rfl
  cases variadic with
  | none =>
    obtain ⟨σ, -, hσ⟩ := h.callee _ rfl
    have := congrArg (fun h : Ir.Header => h.name.toList.head?) hσ
    simp [headerOf, functionName] at this
  | some fixed => exact absurd rfl (h.external _ rfl).2

theorem AllLink.allPrint {c : List Ir.Instr} (h : AllLink E ⟨[], []⟩ c) : AllPrint T c :=
  fun i hi => (h i hi).prints

/-! ### Statements -/

@[simp] theorem prints_label (l : Ir.Label) : Prints T (.label l) := nofun

@[simp] theorem prints_jump (l : Ir.Label) : Prints T (.jump l) := nofun

@[simp] theorem prints_jumpIf (v : Ir.Operand) (yes no : Ir.Label) :
    Prints T (.jumpIf v yes no) := nofun

@[simp] theorem prints_compare (output : String) (p : Ir.Predicate) (t : Ir.Ty)
    (v w : Ir.Operand) : Prints T (.compare output p t v w) := nofun

/-- The direct code of a checked statement prints by formats of the pool. -/
theorem StmtCode.prints {exit next s σ d σ'} (h : StmtCode T exit next s σ d σ') {b : Bool}
    (hs : s.Checked (.ofVars E locals) b) : AllPrint T d := by
  induction h generalizing b with
  | blockNil | writeNothing => exact allPrint_nil
  | blockCons _ _ ih₁ ih₂ =>
    cases hs with | block hs =>
    obtain ⟨h₁, h₂⟩ := List.forall_mem_cons.1 hs
    exact allPrint_append.2 ⟨ih₁ h₁, ih₂ (.block h₂)⟩
  | ifThen ht _ ih =>
    cases hs with | ifThen ht' _ hy =>
    simp [(ht.links ht').allPrint, ih hy]
  | ifElse ht _ _ ihy ihn =>
    cases hs with | ifElse ht' _ hy hn =>
    simp [(ht.links ht').allPrint, ihy hy, ihn hn]
  | «while» ht _ ih =>
    cases hs with | «while» ht' _ hb =>
    simp [(ht.links ht').allPrint, ih hb]
  | repeatUntil _ ht ih =>
    cases hs with | repeatUntil hb ht' =>
    simp [(ht.links ht').allPrint, ih hb]
  | forTo hf ht ht' hb _ ih =>
    cases hs with | forTo htc _ _ hfc _ hbc _ hsc =>
    simp [(hf.links hfc).allPrint, (ht.links htc).allPrint, (ht'.links htc).allPrint,
      (hb.links hbc).allPrint, ih hsc, (allLink_startCode (E := E) _ _ _ _).allPrint,
      (allLink_countCode (E := E) _ _ _).allPrint]
  | assign he ht =>
    cases hs with | assign ht' _ he' =>
    exact allPrint_append.2 ⟨allPrint_append.2 ⟨(he.links he').allPrint, (ht.links ht').allPrint⟩,
      allPrint_cons.2 ⟨nofun, allPrint_nil⟩⟩
  | call ha =>
    cases hs with | call hr ha' _ =>
    exact allPrint_append.2 ⟨(ha.links ha').allPrint,
      allPrint_cons.2 ⟨(links_call hr ha.types).prints, allPrint_nil⟩⟩
  | @write _ _ newline _ _ _ _ f vs _ hw hf =>
    cases hs with | write ha =>
    refine allPrint_append.2 ⟨(hw.links ha).allPrint, allPrint_cons.2 ⟨?_, allPrint_nil⟩⟩
    -- the format is made of the arguments alone
    obtain rfl := hw.format_eq
    rintro output returns variadic args ⟨⟩
    exact ⟨newline, vs, rfl, hf, hw.written⟩
  | transition => exact allPrint_cons.2 ⟨nofun, allPrint_nil⟩

/-- The code of a function prints by formats of the pool. -/
theorem FunctionCode.prints {l l' : Nat} {f : Ir.Function} (h : FunctionCode T (Obeys E) l f l') :
    AllPrint T f.body := by
  obtain @⟨name, returns, params, vars, body, d, tail, _, hv, hs, hb, ht⟩ := h
  obtain ⟨ν, hd⟩ := hb.code
  have hdirect := hd.prints (.block hs)
  have htail : AllPrint T tail := (ReturnCode.links (E := E) ht).allPrint
  refine allPrint_append.2 ⟨?_, allPrint_append.2 ⟨allPrint_append.2 ⟨?_, ?_⟩, htail⟩⟩
  · intro i hi
    obtain ⟨v, -, rfl⟩ := List.mem_map.1 hi
    nofun
  · intro i hi
    obtain ⟨v, -, rfl⟩ := List.mem_map.1 hi
    nofun
  · exact fun i hi => hdirect i ((Ir.dropDead_sublist false d).subset hi)

end

end Lowering

/-! ### Programs -/

namespace Ir

open Lowering

/-- A global that has been made for a text of the program. -/
def Global.IsLiteral (x : Global) (s : String) : Prop :=
  ∃ n : Nat, x = .text (".str." ++ toString n) (textBytes s)

/-- A global that has been made for a format. -/
def Global.IsFormat (x : Global) (s : String) : Prop :=
  ∃ n : Nat, x = .text (".fmt." ++ toString n) (textBytes s)

/-- What may stand behind a format: a pointer to a text of the program, an `i32` or a `double`. -/
def Passes (G : List Global) (env : Env) (arg : Ty × Operand) : Prop :=
  (arg.1 = .ptr ∧ ∃ x ∈ G, ∃ s, x.IsLiteral s ∧ arg.2 = .global x.name) ∨
  (arg.1 = .i32 ∧ arg.2.HasValue G env .i32) ∨ (arg.1 = .double ∧ arg.2.HasValue G env .double)

/-- A program whose formatted output is type safe. -/
structure Program.PrintsSafely (p : Program) : Prop where
  /-- A call passes a format of one directive for each argument and perhaps a newline. -/
  calls : ∀ f ∈ p.functions, ∀ output returns variadic args,
    .call output returns "printf" variadic args ∈ f.body →
    ∃ x ∈ p.globals, ∃ newline rest,
      args = (.ptr, .global x.name) :: rest ∧
      x.IsFormat (lineFormat newline (directives (rest.map Prod.fst))) ∧
      ∀ arg ∈ rest, Passes p.globals f.Defines arg
  /-- Whatever is in a format follows from the types of arguments, also where no call is left. -/
  formats : ∀ x ∈ p.globals, ∀ s, x.IsFormat s → Lowering.IsFormat s
  /-- Each text and each format has one global. -/
  shared : p.globals.Pairwise fun x y =>
    ¬ ∃ s, (x.IsLiteral s ∧ y.IsLiteral s) ∨ (x.IsFormat s ∧ y.IsFormat s)

variable {T : Pool} {G : List Global} {env : Env} {x : Global} {s : String}

/-- The global of a text is the one that its pool gives it. -/
theorem Global.IsLiteral.eq_of_holds (hs : x.IsLiteral s) (hx : T.Holds x) :
    x = .text (T.textName s) (textBytes s) := by
  obtain ⟨n, rfl⟩ := hs
  rcases hx with ⟨s', -, h⟩ | ⟨s', -, h⟩ <;> obtain ⟨hname, hbytes⟩ := Global.text.inj h
  · rw [h, textBytes_inj hbytes]
  · exact absurd hname (literal_ne_format _ _)

theorem Global.IsFormat.eq_of_holds (hs : x.IsFormat s) (hx : T.Holds x) :
    s ∈ T.formats ∧ x = .text (T.formatName s) (textBytes s) := by
  obtain ⟨n, rfl⟩ := hs
  rcases hx with ⟨s', -, h⟩ | ⟨s', hs', h⟩ <;> obtain ⟨hname, hbytes⟩ := Global.text.inj h
  · exact absurd hname.symm (literal_ne_format _ _)
  · obtain rfl := textBytes_inj hbytes
    exact ⟨hs', h⟩

/-- What is written may stand behind a format. -/
theorem passes_of_written (hT : ∀ x, T.Holds x → x ∈ G) {arg : Ty × Operand}
    (hw : Written T arg) (hv : arg.2.HasValue G env arg.1) : Passes G env arg := by
  obtain ⟨t, v⟩ := arg
  obtain ⟨hdirective, hptr⟩ := hw
  cases t with
  | ptr =>
    obtain ⟨s, hs, rfl⟩ := hptr rfl
    exact .inl ⟨rfl, _, hT _ (.inl ⟨s, hs, rfl⟩), s, ⟨_, rfl⟩, rfl⟩
  | i32 => exact .inr (.inl ⟨rfl, hv⟩)
  | double => exact .inr (.inr ⟨rfl, hv⟩)
  | void | i1 | array | struct => cases hdirective

end Ir

open Lowering in
/-- The formatted output of every compiled program is type safe. -/
theorem Program.compile_printsSafely {text name : String} {ir : Ir.Program}
    (h : compile text name = .ok ir) : ir.PrintsSafely := by
  obtain ⟨p, -, rfl, hp, -⟩ := compile_eq_ok h
  obtain ⟨T, fs, main, l, hl⟩ := hp.lowered
  obtain ⟨added, hglobals, hn, ha⟩ := hl.globals
  have hG : globalVariables p.scope.vars ⊆ p.lower.globals := by
    rw [hglobals]
    exact List.subset_append_left _ _
  have hT : ∀ x, T.Holds x → x ∈ p.lower.globals := by
    intro x hx
    rw [hglobals]
    exact List.mem_append_right _ ((ha x).2 hx)
  -- a constant text is no variable, so the pool holds it
  have hholds : ∀ x ∈ p.lower.globals, ∀ y bytes, x = .text y bytes → T.Holds x := by
    rintro _ hx y bytes rfl
    rw [hglobals] at hx
    rcases List.mem_append.1 hx with hx | hx
    · obtain ⟨v, -, hv⟩ := List.mem_map.1 hx
      cases hv
    · exact (ha _).1 hx
  refine ⟨fun f hf output returns variadic args hi => ?_, fun x hx s hs => ?_, ?_⟩
  · obtain ⟨m, m', hcode⟩ := (hl.functionsCode hp).mem f hf
    obtain ⟨newline, rest, rfl, hmem, hwritten⟩ := hcode.prints _ hi _ _ _ _ rfl
    have hvalues := hcode.fits hG hT _ hi
    refine ⟨_, hT _ (.inr ⟨_, hmem, rfl⟩), newline, rest, rfl, ⟨_, rfl⟩, fun arg harg => ?_⟩
    exact Ir.passes_of_written hT (hwritten arg harg) (hvalues arg (List.mem_cons_of_mem _ harg))
  · obtain ⟨n, hn⟩ := hs
    exact hl.formats s (Ir.Global.IsFormat.eq_of_holds ⟨n, hn⟩ (hholds x hx _ _ hn)).1
  · have hnodup : p.lower.globals.Nodup := by
      have := nodup_globals hp.vars hn ha
      rw [← hglobals] at this
      exact this.of_map _
    refine hnodup.pairwise_of_forall_ne fun x hx y hy hne => ?_
    rintro ⟨s, ⟨⟨m, hm⟩, n, hn⟩ | ⟨⟨m, hm⟩, n, hn⟩⟩
    · exact hne ((Ir.Global.IsLiteral.eq_of_holds ⟨m, hm⟩ (hholds x hx _ _ hm)).trans
        (Ir.Global.IsLiteral.eq_of_holds ⟨n, hn⟩ (hholds y hy _ _ hn)).symm)
    · exact hne ((Ir.Global.IsFormat.eq_of_holds ⟨m, hm⟩ (hholds x hx _ _ hm)).2.trans
        (Ir.Global.IsFormat.eq_of_holds ⟨n, hn⟩ (hholds y hy _ _ hn)).2.symm)

theorem Program.compile_printsSafely_shared :
    ∃ ir, compile ("program t; var x: double; procedure p; begin write('%d', 1, x); " ++
        "while true do begin break; writeln('dead') end end; begin writeln('%d', 2, x) end.") "t" =
        .ok ir ∧ ir.PrintsSafely := by
  obtain ⟨ir, h⟩ := exists_compile
    ("program t; var x: double; procedure p; begin write('%d', 1, x); " ++
      "while true do begin break; writeln('dead') end end; begin writeln('%d', 2, x) end.") "t"
    (by decide +kernel)
  exact ⟨ir, h, compile_printsSafely h⟩

end MiniPascal
