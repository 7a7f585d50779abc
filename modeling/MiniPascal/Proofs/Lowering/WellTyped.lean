import Mathlib
import MiniPascal.Proofs.Lowering.Function
import MiniPascal.Proofs.Lowering.Names
import MiniPascal.Proofs.Lowering.Typing

/-! Compiled programs are well typed and define each name once. -/

namespace MiniPascal

namespace Lowering

open Ir (Env Kind Typed)

/-- What a function starts with: arguments, and slots for parameters and variables. -/
def startNames (params vars : List (Name × Ty)) : Env := fun x k =>
  (∃ v ∈ params, x = argumentName v.1 ∧ k = .value (machineType v.2)) ∨
  ∃ v ∈ params ++ vars, x = slotName v.1 ∧ k = .address (machineType v.2)

theorem startNames_covers {E : Environment} {params vars : List (Name × Ty)} {G : List Ir.Global}
    (hG : globalVariables E.vars ⊆ G) :
    Covers G (startNames params vars) (.ofVars E (params ++ vars)) where
  global n t h := by
    obtain ⟨m, hm, hn⟩ := h
    refine hG (List.mem_map.2 ⟨(m, t), hm, ?_⟩)
    simp only [globalName, hn]
  routine n t h := by
    obtain ⟨m, u, hm, hn, hu⟩ := h
    refine .inr ⟨(m, u), hm, ?_, ?_⟩
    · simp only [slotName, hn]
    · simp only [machineType_eq hu]

section

variable {G : List Ir.Global} {returns : Ir.Ty} {params vars : List (Name × Ty)}

theorem typed_slots (base : Env) (vars : List (Name × Ty)) (env : Env) :
    Typed G returns base env (slots vars) := by
  induction vars generalizing env with
  | nil => trivial
  | cons v vars ih => exact ⟨trivial, ih _⟩

theorem typed_argumentStores {base : Env} {params : List (Name × Ty)}
    (ha : ∀ v ∈ params, base (argumentName v.1) (.value (machineType v.2)))
    (hs : ∀ v ∈ params, base (slotName v.1) (.address (machineType v.2))) (env : Env) :
    Typed G returns base env (argumentStores params) := by
  induction params generalizing env with
  | nil => trivial
  | cons v params ih =>
    obtain ⟨ha₁, ha₂⟩ := List.forall_mem_cons.1 ha
    obtain ⟨hs₁, hs₂⟩ := List.forall_mem_cons.1 hs
    exact ⟨⟨.local (.inl ha₁), .local (.inl hs₁)⟩, ih ha₂ hs₂ _⟩

theorem typed_returnCode {base : Env} {tail : List Ir.Instr}
    (hs : ∀ v ∈ vars, base (slotName v.1) (.address (machineType v.2)))
    (h : ReturnCode vars returns tail) (env : Env) : Typed G returns base env tail := by
  cases h with
  | nothing => exact ⟨rfl, trivial⟩
  | result hv =>
    exact ⟨.local (.inl (hs _ hv)), ⟨rfl, .local (known_output _ rfl .load)⟩, trivial⟩
  | zero => exact ⟨⟨rfl, .int⟩, trivial⟩

end

/-- The code of a function is typed, from what the function starts with. -/
theorem FunctionCode.typed {T : Pool} {E : Environment} {G : List Ir.Global}
    {l l' : Nat} {f : Ir.Function} (hG : globalVariables E.vars ⊆ G)
    (hT : ∀ x, T.Holds x → x ∈ G) (h : FunctionCode T (Obeys E) l f l') :
    ∃ base, Typed G f.returns base .none f.body ∧
      ∀ x k, base x k → (∃ t, (x, t) ∈ f.parameters ∧ k = .value t) ∨
        ∃ t, .alloca x t ∈ f.body ∧ k = .address t := by
  obtain @⟨name, returns, params, vars, body, d, tail, _, hv, hs, hb, ht⟩ := h
  obtain ⟨ν, hd⟩ := hb.code
  refine ⟨startNames params vars, ?_, ?_⟩
  · have hslot : ∀ v ∈ params ++ vars, startNames params vars (slotName v.1)
        (.address (machineType v.2)) := fun v hv => .inr ⟨v, hv, rfl, rfl⟩
    have hbody : Typed G returns (startNames params vars) .none d :=
      hd.typed (startNames_covers hG) hT (.block hs)
    refine Typed.append_iff.2 ⟨typed_slots _ _ _, Typed.append_iff.2 ⟨Typed.append_iff.2
      ⟨?_, ?_⟩, ?_⟩⟩
    · exact typed_argumentStores (fun v hv => .inl ⟨v, hv, rfl, rfl⟩)
        (fun v hv => hslot v (List.mem_append_left _ hv)) _
    · exact hbody.dropDead false fun _ => Env.none_le _
    · exact typed_returnCode (fun v hv => hslot v (List.mem_append_right _ hv)) ht _
  · rintro x k (⟨v, hv, rfl, rfl⟩ | ⟨v, hv, rfl, rfl⟩)
    · exact .inl ⟨_, List.mem_map.2 ⟨v, hv, rfl⟩, rfl⟩
    · exact .inr ⟨_, List.mem_append_left _ (List.mem_map.2 ⟨v, hv, rfl⟩), rfl⟩

/-! ### Different names -/

theorem hyphen_mem_of_given {ν : Names} {x : String} (h : Given ν x) : '-' ∈ x.toList := by
  obtain ⟨p, s, k, -, -, rfl⟩ := h
  rw [toList_numbered]
  simp [placeChars]

theorem hyphen_notMem_canonical {n : Name} (h : n.IsWord) : '-' ∉ n.canonical.toList :=
  fun hm => absurd (h.canonical _ hm) (by decide)

theorem hyphen_notMem_slotName {n : Name} (h : n.IsWord) : '-' ∉ (slotName n).toList := by
  simp [slotName, hyphen_notMem_canonical h]

theorem hyphen_notMem_argumentName {n : Name} (h : n.IsWord) : '-' ∉ (argumentName n).toList := by
  simp [argumentName, hyphen_notMem_canonical h]

theorem argumentName_ne_slotName (m n : Name) : argumentName m ≠ slotName n := by
  intro h
  have := congrArg (fun x => x.toList.getLast?) h
  simp [argumentName, slotName] at this

theorem nodup_slotNames {vars : List (Name × Ty)} (h : Distinct vars) :
    (vars.map fun v => slotName v.1).Nodup := by
  have := h.nodup.map fun _ _ hxy => (String.append_left_inj ".addr").1 hxy
  rwa [List.map_map] at this

theorem nodup_argumentNames {vars : List (Name × Ty)}
    (h : (vars.map fun v => v.1.canonical).Nodup) :
    (vars.map fun v => argumentName v.1).Nodup := by
  have := h.map fun _ _ hxy => (String.append_left_inj ".arg").1 hxy
  rwa [List.map_map] at this

theorem outputs_slots (vars : List (Name × Ty)) :
    Ir.outputs (slots vars) = vars.map fun v => slotName v.1 := by
  induction vars with
  | nil => rfl
  | cons v vars ih => exact congrArg (slotName v.1 :: ·) ih

theorem outputs_argumentStores (params : List (Name × Ty)) :
    Ir.outputs (argumentStores params) = [] := by
  induction params with
  | nil => rfl
  | cons v params ih => exact ih

/-- The names that a function defines behind its slots: those of temporaries, and perhaps one for
the result. -/
theorem outputs_tail {vars : List (Name × Ty)} {t : Ir.Ty} {tail : List Ir.Instr}
    (h : ReturnCode vars t tail) :
    (Ir.outputs tail).Nodup ∧ ∀ x ∈ Ir.outputs tail, x = "retval" := by
  cases h <;> simp [Ir.Instr.output]

theorem FunctionCode.nodup {T : Pool} {E : Environment} {l l' : Nat} {f : Ir.Function}
    (h : FunctionCode T (Obeys E) l f l') : f.names.Nodup := by
  obtain @⟨name, returns, params, vars, body, d, tail, _, hv, hs, hb, ht⟩ := h
  obtain ⟨ν, hd⟩ := hb.code
  -- temporaries have a hyphen in their names, slots and arguments a dot and no hyphen, and the
  -- result has neither
  have hsub : (Ir.outputs (Ir.dropDead false d)).Sublist (Ir.outputs d) :=
    (Ir.dropDead_sublist false d).filterMap _
  have htemp : ∀ x ∈ Ir.outputs (Ir.dropDead false d), '-' ∈ x.toList :=
    fun x hx => hyphen_mem_of_given (hd.new.given x (hsub.subset hx)).1
  obtain ⟨htail, hretval⟩ := outputs_tail ht
  have hwords := hv.words
  have hparams : ∀ v ∈ params, v.1.IsWord := fun v hm => hwords v (List.mem_append_left _ hm)
  have hcanonical : (params.map fun v => v.1.canonical).Nodup := by
    have := hv.nodup
    rw [List.map_append] at this
    exact (List.nodup_append.1 this).1
  have hslots : ∀ x ∈ Ir.outputs (slots (params ++ vars)), ∃ v ∈ params ++ vars,
      x = slotName v.1 := by
    intro x hx
    rw [outputs_slots] at hx
    obtain ⟨v, hm, rfl⟩ := List.mem_map.1 hx
    exact ⟨v, hm, rfl⟩
  have hretvals : ∀ x ∈ Ir.outputs tail, '.' ∉ x.toList ∧ '-' ∉ x.toList := by
    intro x hx
    rw [hretval x hx]
    decide
  have hcode : (Ir.outputs (Ir.dropDead false d) ++ Ir.outputs tail).Nodup := by
    refine List.nodup_append.2 ⟨hd.new.nodup.sublist hsub, htail, ?_⟩
    rintro x hx _ hy rfl
    exact (hretvals x hy).2 (htemp x hx)
  have hbody : (Ir.outputs (slots (params ++ vars)) ++
      (Ir.outputs (Ir.dropDead false d) ++ Ir.outputs tail)).Nodup := by
    refine List.nodup_append.2 ⟨outputs_slots _ ▸ nodup_slotNames hv, hcode, ?_⟩
    rintro x hx _ hy rfl
    obtain ⟨v, hm, rfl⟩ := hslots x hx
    rcases List.mem_append.1 hy with hy | hy
    · exact hyphen_notMem_slotName (hwords v hm) (htemp _ hy)
    · exact (hretvals _ hy).1 (by simp [slotName])
  have hnames : Ir.Function.names ⟨name, returns, arguments params, slots (params ++ vars) ++
      (argumentStores params ++ Ir.dropDead false d ++ tail)⟩ =
      (params.map fun v => argumentName v.1) ++ (Ir.outputs (slots (params ++ vars)) ++
        (Ir.outputs (Ir.dropDead false d) ++ Ir.outputs tail)) := by
    simp [Ir.Function.names, arguments, outputs_argumentStores]
  rw [hnames]
  refine List.nodup_append.2 ⟨nodup_argumentNames hcanonical, hbody, ?_⟩
  rintro x hx _ hy rfl
  obtain ⟨v, hm, rfl⟩ := List.mem_map.1 hx
  rcases List.mem_append.1 hy with hy | hy
  · obtain ⟨w, -, hw⟩ := hslots _ hy
    exact argumentName_ne_slotName _ _ hw
  · rcases List.mem_append.1 hy with hy | hy
    · exact hyphen_notMem_argumentName (hparams v hm) (htemp _ hy)
    · exact (hretvals _ hy).1 (by simp [argumentName])

/-! ### Slots -/

/-- Code that reserves no slots. -/
def NoSlots (c : List Ir.Instr) : Prop := ∀ x t, .alloca x t ∉ c

@[simp] theorem noSlots_nil : NoSlots [] := fun _ _ => List.not_mem_nil

@[simp] theorem noSlots_cons {i : Ir.Instr} {c : List Ir.Instr} :
    NoSlots (i :: c) ↔ (∀ x t, .alloca x t ≠ i) ∧ NoSlots c := by
  simp only [NoSlots, List.mem_cons, not_or, forall_and]

@[simp] theorem noSlots_append {c d : List Ir.Instr} :
    NoSlots (c ++ d) ↔ NoSlots c ∧ NoSlots d := by
  simp only [NoSlots, List.mem_append, not_or, forall_and]

theorem noSlots_plain {c : List Ir.Instr} (h : ∀ i ∈ c, i.isPlain = true) : NoSlots c :=
  fun _ _ hm => absurd (h _ hm) nofun

/-- The direct code of a statement reserves no slots. -/
theorem StmtCode.noSlots {T : Pool} {exit next s σ d σ'} (h : StmtCode T exit next s σ d σ') :
    NoSlots d := by
  induction h with
  | blockNil | writeNothing => exact noSlots_nil
  | transition => simp
  | blockCons _ _ ih₁ ih₂ => exact noSlots_append.2 ⟨ih₁, ih₂⟩
  | ifThen ht _ ih => simp [noSlots_plain ht.plain, ih]
  | ifElse ht _ _ ihy ihn => simp [noSlots_plain ht.plain, ihy, ihn]
  | «while» ht _ ih => simp [noSlots_plain ht.plain, ih]
  | repeatUntil _ ht ih => simp [noSlots_plain ht.plain, ih]
  | forTo hf ht ht' hb _ ih =>
    have hstart : ∀ p v slot ν, NoSlots (startCode p v slot ν) :=
      fun p v slot ν => noSlots_plain (plain_startCode p v slot ν)
    have hcount : ∀ p slot ν, NoSlots (countCode p slot ν) :=
      fun p slot ν => noSlots_plain (plain_countCode p slot ν)
    simp [noSlots_plain hf.plain, noSlots_plain ht.plain, noSlots_plain ht'.plain,
      noSlots_plain hb.plain, hstart, hcount, ih]
  | assign he ht => simp [noSlots_plain he.plain, noSlots_plain ht.plain]
  | call h | write h => simp [noSlots_plain h.plain]

theorem FunctionCode.slots {T : Pool} {E : Environment} {l l' : Nat} {f : Ir.Function}
    (h : FunctionCode T (Obeys E) l f l') : ∃ slots code, f.body = slots ++ code ∧
      (∀ i ∈ slots, ∃ x t, i = .alloca x t) ∧ NoSlots code := by
  obtain @⟨name, returns, params, vars, body, d, tail, _, hv, hs, hb, ht⟩ := h
  obtain ⟨ν, hd⟩ := hb.code
  refine ⟨Lowering.slots (params ++ vars), _, rfl, ?_, noSlots_append.2
    ⟨noSlots_append.2 ⟨?_, ?_⟩, ?_⟩⟩
  · intro i hi
    obtain ⟨v, -, rfl⟩ := List.mem_map.1 hi
    exact ⟨_, _, rfl⟩
  · refine noSlots_plain fun i hi => ?_
    obtain ⟨v, -, rfl⟩ := List.mem_map.1 hi
    rfl
  · exact fun x t hm => hd.noSlots x t ((Ir.dropDead_sublist false d).subset hm)
  · cases ht <;> simp

/-- The code of a function is in single assignment form. -/
theorem FunctionCode.singleAssignment {T : Pool} {E : Environment}
    {G : List Ir.Global} {l l' : Nat} {f : Ir.Function} (hG : globalVariables E.vars ⊆ G)
    (hT : ∀ x, T.Holds x → x ∈ G) (h : FunctionCode T (Obeys E) l f l') : f.SingleAssignment := by
  obtain ⟨base, htyped, hbase⟩ := h.typed hG hT
  refine ⟨h.nodup, h.slots, fun pre i post hbody x hx => ?_⟩
  -- a name that is used is one the function starts with, or one defined since the last label
  rcases htyped.used hbody hx with ⟨k, hk⟩ | ⟨k, pre', j, mid, hpre, hj, hmid⟩
  · rcases hbase x k hk with ⟨t, ht, -⟩ | ⟨t, ht, -⟩
    · exact .inl (List.mem_map.2 ⟨_, ht, rfl⟩)
    · exact .inr (.inl ⟨t, ht⟩)
  · exact .inr (.inr ⟨pre', j, mid, hpre, hj.output_eq, hmid⟩)

/-- Every instruction of a function fits what its operands stand for. -/
theorem FunctionCode.fits {T : Pool} {E : Environment} {G : List Ir.Global}
    {l l' : Nat} {f : Ir.Function} (hG : globalVariables E.vars ⊆ G)
    (hT : ∀ x, T.Holds x → x ∈ G) (h : FunctionCode T (Obeys E) l f l') :
    ∀ i ∈ f.body, i.Fits G f.returns f.Defines := by
  obtain ⟨base, htyped, hbase⟩ := h.typed hG hT
  refine htyped.fits ?_ (Env.none_le _) fun i hi x k hk => .inr ⟨i, hi, hk⟩
  intro x k hk
  rcases hbase x k hk with ⟨t, ht, rfl⟩ | ⟨t, ht, rfl⟩
  · exact .inl ⟨t, ht, rfl⟩
  · exact .inr ⟨_, ht, .alloca⟩

/-! ### Globals -/

theorem globalName_ne_textName (n : Name) (T : Pool) (s : String) :
    globalName n ≠ T.textName s ∧ globalName n ≠ T.formatName s := by
  constructor <;> intro h <;> have := congrArg (fun x => x.toList.head?) h <;>
    simp [globalName, Pool.textName, Pool.formatName] at this

/-- A name stands for one global: a variable, a text or a format. -/
theorem globals_eq_of_name {vars : List (Name × Ty)} {T : Pool} {added : List Ir.Global}
    (hv : Distinct vars) (ha : ∀ x, x ∈ added ↔ T.Holds x) :
    ∀ x ∈ globalVariables vars ++ added, ∀ y ∈ globalVariables vars ++ added,
      x.name = y.name → x = y := by
  have hnamed : ∀ x ∈ globalVariables vars ++ added,
      (∃ v ∈ vars, x = .variable (globalName v.1) (machineType v.2)) ∨ T.Holds x := by
    intro x hx
    rcases List.mem_append.1 hx with hx | hx
    · obtain ⟨v, hv, rfl⟩ := List.mem_map.1 hx
      exact .inl ⟨v, hv, rfl⟩
    · exact .inr ((ha x).1 hx)
  intro x hx y hy hxy
  rcases hnamed x hx with ⟨v, hvm, rfl⟩ | ⟨s, hs, rfl⟩ | ⟨s, hs, rfl⟩ <;>
    rcases hnamed y hy with ⟨w, hwm, rfl⟩ | ⟨s', hs', rfl⟩ | ⟨s', hs', rfl⟩ <;>
    simp only [Ir.Global.name] at hxy
  · have hcanonical := (String.append_right_inj "global_").1 hxy
    rw [List.inj_on_of_nodup_map hv.nodup hvm hwm hcanonical]
  · exact absurd hxy (globalName_ne_textName v.1 T s').1
  · exact absurd hxy (globalName_ne_textName v.1 T s').2
  · exact absurd hxy.symm (globalName_ne_textName w.1 T s).1
  · rw [Pool.textName_inj hs hxy]
  · exact absurd hxy (textName_ne_formatName T T s s')
  · exact absurd hxy.symm (globalName_ne_textName w.1 T s).2
  · exact absurd hxy.symm (textName_ne_formatName T T s' s)
  · rw [Pool.formatName_inj hs hxy]

end Lowering

open Lowering in
/-- The functions of a program that obeys the rules, over its globals. -/
theorem Program.Checked.functions_mem {p : Program} (h : p.Checked) :
    ∃ T, globalVariables p.scope.vars ⊆ p.lower.globals ∧
      (∀ x, T.Holds x → x ∈ p.lower.globals) ∧
      ∀ f ∈ p.lower.functions, ∃ l l', FunctionCode T (Obeys p.allDeclared) l f l' := by
  obtain ⟨T, hcode, added, hglobals, hadded⟩ := h.functionsCode
  rw [hglobals]
  exact ⟨T, List.subset_append_left _ _,
    fun x hx => List.mem_append_right _ ((hadded x).2 hx), hcode.mem⟩

/-- Every compiled program is well typed. -/
theorem Program.compile_wellTyped {text name : String} {ir : Ir.Program}
    (h : compile text name = .ok ir) : ir.WellTyped := by
  obtain ⟨p, -, rfl, hp, -⟩ := compile_eq_ok h
  obtain ⟨T, hG, hT, hcode⟩ := hp.functions_mem
  refine ⟨?_, fun f hf => ?_, fun f hf => ?_⟩
  · obtain ⟨T, -, added, hglobals, hadded⟩ := hp.functionsCode
    rw [hglobals]
    exact Lowering.globals_eq_of_name hp.vars hadded
  · obtain ⟨l, l', hf⟩ := hcode f hf
    exact hf.nodup
  · obtain ⟨l, l', hf⟩ := hcode f hf
    exact hf.fits hG hT

theorem Program.compile_wellTyped_widening :
    ∃ ir, compile ("program t; var a: array[1..3] of double; function f(x: integer): double; " ++
        "begin f := x / 2 end; begin a[2] := f(4) + 1; if a[2] > 1 then writeln(a[2]) end.") "t" =
      .ok ir ∧ ir.WellTyped := by
  obtain ⟨ir, h⟩ := exists_compile
    ("program t; var a: array[1..3] of double; function f(x: integer): double; " ++
      "begin f := x / 2 end; begin a[2] := f(4) + 1; if a[2] > 1 then writeln(a[2]) end.") "t"
    (by cbv)
  exact ⟨ir, h, compile_wellTyped h⟩

/-- In every compiled program each name of a function is defined once and before it is used,
whatever dead code has been dropped. -/
theorem Program.compile_singleAssignment {text name : String} {ir : Ir.Program}
    (h : compile text name = .ok ir) : ∀ f ∈ ir.functions, f.SingleAssignment := by
  obtain ⟨p, -, rfl, hp, -⟩ := compile_eq_ok h
  obtain ⟨T, hG, hT, hcode⟩ := hp.functions_mem
  intro f hf
  obtain ⟨l, l', hf⟩ := hcode f hf
  exact hf.singleAssignment hG hT

theorem Program.compile_singleAssignment_break :
    ∃ ir, compile ("program t; var i, j: integer; begin for i := 1 to 9 do begin break; " ++
        "for j := 1 to i do i := i + j end end.") "t" = .ok ir ∧
      ∀ f ∈ ir.functions, f.SingleAssignment := by
  obtain ⟨ir, h⟩ := exists_compile
    ("program t; var i, j: integer; begin for i := 1 to 9 do begin break; " ++
      "for j := 1 to i do i := i + j end end.") "t" (by cbv)
  exact ⟨ir, h, compile_singleAssignment h⟩

end MiniPascal
