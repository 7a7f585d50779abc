import MiniPascal.Proofs.Lowering.Statement

namespace MiniPascal.Lowering

/-- The texts and formats so far. -/
def Generator.pool {κ : Type} (g : Generator κ) : Pool := ⟨g.texts, g.formats⟩

/-- The labels and names used so far. -/
def Generator.supply (g : Generator) : Supply := ⟨g.labels, g.names⟩

/-- A global that holds a text or a format of the pool. -/
def Pool.Holds (T : Pool) (x : Ir.Global) : Prop :=
  (∃ s ∈ T.texts, x = .text (T.textName s) (textBytes s)) ∨
  (∃ s ∈ T.formats, x = .text (T.formatName s) (textBytes s))

/-- The globals are some variables, followed by the texts and formats of the pool, each once. There
are formats only where something is written, and they follow from the types of what is. -/
structure Generator.Stores (g : Generator) (vars : List Ir.Global) : Prop where
  globals : ∃ added, g.globals = vars ++ added ∧ added.Nodup ∧ ∀ x, x ∈ added ↔ g.pool.Holds x
  formats : ∀ f ∈ g.formats, IsFormat f
  printf : g.formats ≠ [] → g.usesPrintf = true

/-- The code of the current function does not count. -/
theorem Generator.Stores.of_eq {g g' : Generator} {vars : List Ir.Global} (h : g.Stores vars)
    (hg : g'.globals = g.globals) (hp : g'.pool = g.pool) (hu : g'.usesPrintf = g.usesPrintf) :
    g'.Stores vars := by
  have hformats : g'.formats = g.formats := congrArg Pool.formats hp
  refine ⟨?_, ?_, fun hf => hu.trans (h.printf (hformats ▸ hf))⟩
  · rw [hg, hp]
    exact h.globals
  · rw [hformats]
    exact h.formats

/-- One state comes from another by code for the current function, and perhaps new texts. -/
structure Generator.Grows (g g' : Generator) (c : List Ir.Instr) : Prop where
  code : g'.code = g.code ++ c
  allocas : g'.allocas = g.allocas
  functions : g'.functions = g.functions
  pool : g.pool.Le g'.pool
  stores : ∀ vars, g.Stores vars → g'.Stores vars

namespace Generator

theorem Grows.trans {g g' g'' : Generator} {c d : List Ir.Instr} (h : g.Grows g' c)
    (h' : g'.Grows g'' d) : g.Grows g'' (c ++ d) where
  code := by rw [h'.code, h.code, List.append_assoc]
  allocas := h'.allocas.trans h.allocas
  functions := h'.functions.trans h.functions
  pool := h.pool.trans h'.pool
  stores vars hv := h'.stores vars (h.stores vars hv)

theorem Grows.refl (g : Generator) : g.Grows g [] :=
  ⟨(List.append_nil _).symm, rfl, rfl, .refl _, fun _ h => h⟩

theorem grows_emit (g : Generator) (c : List Ir.Instr) (ν : Names) : g.Grows (g.emit c ν) c :=
  ⟨rfl, rfl, rfl, .refl _, fun _ h => h.of_eq rfl rfl rfl⟩

/-- The state when some labels have been used. -/
def useLabels (g : Generator) (n : Nat) : Generator := { g with labels := g.labels + n }

theorem grows_useLabels (g : Generator) (n : Nat) : g.Grows (g.useLabels n) [] :=
  ⟨(List.append_nil _).symm, rfl, rfl, .refl _, fun _ h => h.of_eq rfl rfl rfl⟩

theorem idxOf_snoc {l : List String} {s : String} (hs : s ∉ l) :
    (l ++ [s]).idxOf s = l.idxOf s := by
  rw [List.idxOf_append_of_notMem hs, List.idxOf_eq_length hs, List.idxOf_cons_self, Nat.add_zero]

end Generator

theorem toDigits_inj {m n : Nat} (h : Nat.toDigits 10 m = Nat.toDigits 10 n) : m = n := by
  have := congrArg (fun ds => Nat.ofDigitChars 10 ds 0) h
  simpa only [Nat.ofDigitChars_ten_toDigits] using this

theorem toString_inj {m n : Nat} (h : toString m = toString n) : m = n := by
  have := congrArg String.toList h
  simp only [Nat.toString_eq_repr, Nat.toList_repr] at this
  exact toDigits_inj this

theorem literal_ne_format (m n : Nat) : ".str." ++ toString m ≠ ".fmt." ++ toString n := by
  intro h
  have := congrArg (fun x => x.toList.tail.head?) h
  simp at this

theorem textName_ne_formatName (T U : Pool) (s s' : String) : T.textName s ≠ U.formatName s' :=
  literal_ne_format _ _

namespace Pool

theorem textName_inj {T : Pool} {s s' : String} (hs : s ∈ T.texts)
    (h : T.textName s = T.textName s') : s = s' :=
  (List.idxOf_inj hs).1 (toString_inj ((String.append_right_inj ".str.").1 h))

theorem formatName_inj {T : Pool} {s s' : String} (hs : s ∈ T.formats)
    (h : T.formatName s = T.formatName s') : s = s' :=
  (List.idxOf_inj hs).1 (toString_inj ((String.append_right_inj ".fmt.").1 h))

theorem Le.snocText (T : Pool) (s : String) : T.Le ⟨T.texts ++ [s], T.formats⟩ :=
  ⟨List.prefix_append _ _, List.prefix_rfl⟩

theorem Le.snocFormat (T : Pool) (s : String) : T.Le ⟨T.texts, T.formats ++ [s]⟩ :=
  ⟨List.prefix_rfl, List.prefix_append _ _⟩

theorem holds_snocText (T : Pool) (s : String) (x : Ir.Global) :
    (⟨T.texts ++ [s], T.formats⟩ : Pool).Holds x ↔
      T.Holds x ∨ x = .text ((⟨T.texts ++ [s], T.formats⟩ : Pool).textName s) (textBytes s) := by
  have hname : ∀ s' ∈ T.texts, _ := fun s' hs' => (Le.snocText T s).textName hs'
  constructor
  · rintro (⟨s', hs', rfl⟩ | ⟨s', hs', rfl⟩)
    · rcases List.mem_append.1 hs' with hs' | hs'
      · exact .inl (.inl ⟨s', hs', by rw [hname s' hs']⟩)
      · cases List.mem_singleton.1 hs'
        exact .inr rfl
    · exact .inl (.inr ⟨s', hs', rfl⟩)
  · rintro ((⟨s', hs', rfl⟩ | ⟨s', hs', rfl⟩) | rfl)
    · exact .inl ⟨s', List.mem_append_left _ hs', by rw [hname s' hs']⟩
    · exact .inr ⟨s', hs', rfl⟩
    · exact .inl ⟨s, by simp, rfl⟩

theorem holds_snocFormat (T : Pool) (s : String) (x : Ir.Global) :
    (⟨T.texts, T.formats ++ [s]⟩ : Pool).Holds x ↔
      T.Holds x ∨ x = .text ((⟨T.texts, T.formats ++ [s]⟩ : Pool).formatName s) (textBytes s) := by
  have hname : ∀ s' ∈ T.formats, _ := fun s' hs' => (Le.snocFormat T s).formatName hs'
  constructor
  · rintro (⟨s', hs', rfl⟩ | ⟨s', hs', rfl⟩)
    · exact .inl (.inl ⟨s', hs', rfl⟩)
    · rcases List.mem_append.1 hs' with hs' | hs'
      · exact .inl (.inr ⟨s', hs', by rw [hname s' hs']⟩)
      · cases List.mem_singleton.1 hs'
        exact .inr rfl
  · rintro ((⟨s', hs', rfl⟩ | ⟨s', hs', rfl⟩) | rfl)
    · exact .inl ⟨s', hs', rfl⟩
    · exact .inr ⟨s', List.mem_append_left _ hs', by rw [hname s' hs']⟩
    · exact .inr ⟨s, by simp, rfl⟩

/-- A new text gets a new global. -/
theorem not_holds_snocText {T : Pool} {s : String} (hs : s ∉ T.texts) (bytes : List UInt8) :
    ¬ T.Holds (.text ((⟨T.texts ++ [s], T.formats⟩ : Pool).textName s) bytes) := by
  rintro (⟨s', hs', h⟩ | ⟨s', hs', h⟩) <;> rw [Ir.Global.text.injEq] at h
  · rw [← (Le.snocText T s).textName hs'] at h
    exact hs (textName_inj (List.mem_append_right _ List.mem_cons_self) h.1 ▸ hs')
  · exact textName_ne_formatName _ _ _ _ h.1

/-- A new format gets a new global. -/
theorem not_holds_snocFormat {T : Pool} {s : String} (hs : s ∉ T.formats) (bytes : List UInt8) :
    ¬ T.Holds (.text ((⟨T.texts, T.formats ++ [s]⟩ : Pool).formatName s) bytes) := by
  rintro (⟨s', hs', h⟩ | ⟨s', hs', h⟩) <;> rw [Ir.Global.text.injEq] at h
  · exact textName_ne_formatName _ _ _ _ h.1.symm
  · rw [← (Le.snocFormat T s).formatName hs'] at h
    exact hs (formatName_inj (List.mem_append_right _ List.mem_cons_self) h.1 ▸ hs')

end Pool

namespace Generator

/-- One more global, for one more text or format. -/
theorem Stores.snoc {g g' : Generator} {vars : List Ir.Global} {x : Ir.Global} (h : g.Stores vars)
    (hg : g'.globals = g.globals ++ [x]) (hnew : ¬ g.pool.Holds x)
    (hx : ∀ y, g'.pool.Holds y ↔ g.pool.Holds y ∨ y = x) (hf : ∀ f ∈ g'.formats, IsFormat f)
    (hp : g'.formats ≠ [] → g'.usesPrintf = true) : g'.Stores vars := by
  obtain ⟨added, hadded, hnodup, ha⟩ := h.globals
  refine ⟨⟨added ++ [x], by rw [hg, hadded, List.append_assoc], ?_, fun y => ?_⟩, hf, hp⟩
  · refine List.nodup_append.2 ⟨hnodup, by simp, fun y hy z hz hyz => ?_⟩
    exact hnew ((ha x).1 (List.mem_singleton.1 hz ▸ hyz ▸ hy))
  · rw [hx, List.mem_append, ha, List.mem_singleton]

/-- A text that has not been there gets the next number. -/
theorem textGlobal_cases {κ : Type} (s : String) (g : Generator κ) :
    (s ∈ g.texts ∧ textGlobal s g = (g.pool.textName s, g)) ∨
    (s ∉ g.texts ∧ textGlobal s g = ((⟨g.texts ++ [s], g.formats⟩ : Pool).textName s,
      { g with
        texts := g.texts ++ [s]
        globals := g.globals ++
          [.text ((⟨g.texts ++ [s], g.formats⟩ : Pool).textName s) (textBytes s)] })) := by
  by_cases hs : s ∈ g.texts
  · exact .inl ⟨hs, if_pos hs⟩
  · refine .inr ⟨hs, (if_neg hs).trans ?_⟩
    rw [Pool.textName, idxOf_snoc hs]

/-- A format that has not been there gets the next number. -/
theorem formatGlobal_cases {κ : Type} (s : String) (g : Generator κ) :
    (s ∈ g.formats ∧ formatGlobal s g = (g.pool.formatName s, g)) ∨
    (s ∉ g.formats ∧ formatGlobal s g = ((⟨g.texts, g.formats ++ [s]⟩ : Pool).formatName s,
      { g with
        formats := g.formats ++ [s]
        globals := g.globals ++
          [.text ((⟨g.texts, g.formats ++ [s]⟩ : Pool).formatName s) (textBytes s)] })) := by
  by_cases hs : s ∈ g.formats
  · exact .inl ⟨hs, if_pos hs⟩
  · refine .inr ⟨hs, (if_neg hs).trans ?_⟩
    rw [Pool.formatName, idxOf_snoc hs]

theorem textGlobal_run (s : String) (g : Generator) :
    ∃ g', textGlobal s g = (g'.pool.textName s, g') ∧ g.Grows g' [] ∧ s ∈ g'.texts ∧
      g'.supply = g.supply := by
  obtain ⟨hs, hrun⟩ | ⟨hs, hrun⟩ := textGlobal_cases s g
  · exact ⟨g, hrun, .refl g, hs, rfl⟩
  · let T : Pool := ⟨g.texts ++ [s], g.formats⟩
    let globals := g.globals ++ [.text (T.textName s) (textBytes s)]
    refine ⟨{ g with texts := T.texts, globals }, hrun, ⟨(List.append_nil _).symm, rfl, rfl,
      .snocText g.pool s, fun vars hv => ?_⟩, by simp [T], rfl⟩
    exact hv.snoc rfl (Pool.not_holds_snocText hs _) (Pool.holds_snocText g.pool s) hv.formats
      hv.printf

/-- A format is used at once. -/
theorem formatGlobal_run {s : String} (hformat : IsFormat s) (g : Generator) :
    ∃ g', formatGlobal s g = (g'.pool.formatName s, g') ∧
      g.Grows { g' with usesPrintf := true } [] ∧ s ∈ g'.formats ∧ g'.supply = g.supply := by
  obtain ⟨hs, hrun⟩ | ⟨hs, hrun⟩ := formatGlobal_cases s g
  · exact ⟨g, hrun, ⟨(List.append_nil _).symm, rfl, rfl, .refl _,
      fun vars hv => ⟨hv.globals, hv.formats, fun _ => rfl⟩⟩, hs, rfl⟩
  · let T : Pool := ⟨g.texts, g.formats ++ [s]⟩
    let globals := g.globals ++ [.text (T.formatName s) (textBytes s)]
    refine ⟨{ g with formats := T.formats, globals }, hrun, ⟨(List.append_nil _).symm, rfl, rfl,
      .snocFormat g.pool s, fun vars hv => ?_⟩, by simp [T], rfl⟩
    refine hv.snoc rfl (Pool.not_holds_snocFormat hs _) (Pool.holds_snocFormat g.pool s) ?_
      fun _ => rfl
    exact List.forall_mem_append.2 ⟨hv.formats, List.forall_mem_singleton.2 hformat⟩

end Generator

theorem emits_written {e : Expr} (he : Lowers e) (g : Generator) {s : Scalar}
    (hs : e.type = .scalar s) :
    ∃ f vs c ν, Emits (writtenArg (.value e)) g (f, vs) c ν ∧ f ≠ "" ∧
      ∀ T args f' vs' c' μ, WriteCode T args ν f' vs' c' μ →
        WriteCode T (.value e :: args) g.names (f ++ f') (vs ++ vs') (c ++ c') μ := by
  obtain ⟨v, c, ν, hc, hv⟩ := he.emits_value g
  have hrun : (writtenArg (.value e) : Step (String × List (Ir.Ty × Ir.Operand))) = match s with
      | .integer => do return ("%d", [(.i32, ← value e)])
      | .double => do return ("%f", [(.double, ← value e)])
      | .boolean => do
        let v ← value e
        let output ← newName e.position ".cast"
        push (.cast output .zext .i1 v .i32)
        return ("%d", [(.i32, .local output)]) := by
    simp only [writtenArg, hs, Ty.scalar?]
    cases s <;> rfl
  rw [hrun]
  cases s with
  | integer =>
    exact ⟨_, _, _, _, hv.map fun v => ("%d", [(Ir.Ty.i32, v)]), by decide,
      fun _ _ _ _ _ _ h => .integer hs hc h⟩
  | double =>
    exact ⟨_, _, _, _, hv.map fun v => ("%f", [(Ir.Ty.double, v)]), by decide,
      fun _ _ _ _ _ _ h => .double hs hc h⟩
  | boolean =>
    refine ⟨"%d", [(.i32, .local (fresh e.position ".cast" ν))],
      c ++ [Ir.Instr.cast (fresh e.position ".cast" ν) .zext .i1 v .i32],
      spend e.position ".cast" ν,
      hv.bind ?_, by decide, fun _ _ _ _ _ _ h => .boolean hs hc h⟩
    exact .bind (c := []) (.newName e.position ".cast") (.bind (.push _) (.pure _))

theorem writtenArg_run {Γ : Context} {a : WriteArg} (h : a.Checked Γ) (g : Generator) :
    ∃ f vs c g', writtenArg a g = ((f, vs), g') ∧ g.Grows g' c ∧ g'.labels = g.labels ∧ f ≠ "" ∧
      ∀ T, g'.pool.Le T → ∀ args f' vs' c' μ, WriteCode T args g'.names f' vs' c' μ →
        WriteCode T (a :: args) g.names (f ++ f') (vs ++ vs') (c ++ c') μ := by
  cases a with
  | text s =>
    obtain ⟨g', hrun, hg, hs, hsup⟩ := g.textGlobal_run s
    refine ⟨"%s", [(.ptr, .global (g'.pool.textName s))], [], g', ?_, hg, ?_, by decide, ?_⟩
    · have : (writtenArg (.text s) : Step (String × List (Ir.Ty × Ir.Operand))) = do
          return ("%s", [(.ptr, .global (← textGlobal s))]) := rfl
      rw [this, bind_run hrun]
      rfl
    · exact congrArg Supply.labels hsup
    · intro T hT args f' vs' c' μ h
      have hnames : g'.names = g.names := congrArg Supply.names hsup
      rw [← hT.textName (show s ∈ g'.pool.texts from hs), ← hnames]
      exact .text (hT.texts.subset hs) h
  | value e =>
    obtain ⟨he, s, hs⟩ := h
    obtain ⟨f, vs, c, ν, hrun, hf, hcode⟩ := emits_written (lowers_of_checked he) g hs
    exact ⟨f, vs, c, _, hrun, g.grows_emit c ν, rfl, hf, fun T _ => hcode T⟩

/-- What is written is lowered to code of the right form. -/
theorem writtenArgs_run {Γ : Context} {args : List WriteArg} (h : ∀ a ∈ args, a.Checked Γ)
    (g : Generator) :
    ∃ f vs c g', writtenArgs args g = ((f, vs), g') ∧ g.Grows g' c ∧ g'.labels = g.labels ∧
      (args ≠ [] → f ≠ "") ∧
      ∀ T, g'.pool.Le T → WriteCode T args g.names f vs c g'.names := by
  induction args generalizing g with
  | nil => exact ⟨"", [], [], g, rfl, .refl g, rfl, nofun, fun _ _ => .nil⟩
  | cons a args ih =>
    obtain ⟨ha, hargs⟩ := List.forall_mem_cons.1 h
    obtain ⟨f₁, vs₁, c₁, g₁, hrun₁, hg₁, hl₁, hf, hcode₁⟩ := writtenArg_run ha g
    obtain ⟨f₂, vs₂, c₂, g₂, hrun₂, hg₂, hl₂, -, hcode₂⟩ := ih hargs g₁
    refine ⟨f₁ ++ f₂, vs₁ ++ vs₂, c₁ ++ c₂, g₂, ?_, hg₁.trans hg₂, hl₂.trans hl₁, ?_, ?_⟩
    · unfold writtenArgs
      rw [bind_run hrun₁]
      dsimp only
      rw [bind_run hrun₂]
      rfl
    · intro _ hempty
      exact hf (String.append_eq_empty_iff.1 hempty).1
    · exact fun T hT => hcode₁ T (hg₂.pool.trans hT) _ _ _ _ _ (hcode₂ T hT)

/-! ### Printing -/

/-- What a statement that writes does behind its arguments. -/
def printed (newline : Bool) (r : String × List (Ir.Ty × Ir.Operand)) : Step Unit := do
  if lineFormat newline r.1 ≠ "" then
    let name ← formatGlobal (lineFormat newline r.1)
    modify fun g => { g with usesPrintf := true }
    push (.call none .i32 "printf" (some [.ptr]) ((.ptr, .global name) :: r.2))

/-- The call that writes. -/
def printfCall (name : String) (vs : List (Ir.Ty × Ir.Operand)) : Ir.Instr :=
  .call none .i32 "printf" (some [.ptr]) ((.ptr, .global name) :: vs)

theorem write_eq (newline : Bool) (args : List WriteArg) (g : Generator) :
    write newline args g = printed newline (writtenArgs args g).1 (writtenArgs args g).2 := rfl

theorem printed_run {newline : Bool} {f name : String} {vs : List (Ir.Ty × Ir.Operand)}
    {g g' : Generator} (hf : lineFormat newline f ≠ "")
    (h : formatGlobal (lineFormat newline f) g = (name, g')) :
    printed newline (f, vs) g = push (printfCall name vs) { g' with usesPrintf := true } :=
  (congrFun (if_pos hf) g).trans (bind_run h)

end MiniPascal.Lowering
