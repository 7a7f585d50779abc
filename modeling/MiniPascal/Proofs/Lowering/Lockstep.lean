import MiniPascal.Proofs.Ir.Renaming
import MiniPascal.Proofs.Lowering.Growth

/-! Two lowerings of one piece of a program, from states that agree but for a shift of the labels
and the names of the texts. -/

namespace MiniPascal.Lowering

open Ir (Instr Operand)

/-! ### Pools -/

namespace Pool

/-- Everything in one pool is in another, perhaps under another number. -/
structure Sub (T₀ T : Pool) : Prop where
  texts : T₀.texts ⊆ T.texts
  formats : T₀.formats ⊆ T.formats

/-- A renaming of globals leaves the variables. -/
def KeepsVariables (ρ : String → String) : Prop := ∀ n, ρ (globalName n) = globalName n

/-- A renaming takes the globals of one pool to those of the same contents in another. -/
structure Aligns (ρ : String → String) (T₀ T : Pool) : Prop where
  text : ∀ s ∈ T₀.texts, ρ (T₀.textName s) = T.textName s
  format : ∀ s ∈ T₀.formats, ρ (T₀.formatName s) = T.formatName s
  keeps : KeepsVariables ρ

variable {ρ : String → String} {T₀ U₀ T U : Pool}

theorem Sub.trans_le (h : T₀.Sub T) (hT : T.Le U) : T₀.Sub U :=
  ⟨fun _ hs => hT.texts.subset (h.texts hs), fun _ hs => hT.formats.subset (h.formats hs)⟩

/-- Names are kept while pools grow. -/
theorem Aligns.of_le (h : Aligns ρ U₀ U) (h₀ : T₀.Le U₀) (hT : T.Le U) (hs : T₀.Sub T) :
    Aligns ρ T₀ T where
  text s hm := by
    rw [← h₀.textName hm, h.text s (h₀.texts.subset hm), hT.textName (hs.texts hm)]
  format s hm := by
    rw [← h₀.formatName hm, h.format s (h₀.formats.subset hm), hT.formatName (hs.formats hm)]
  keeps := h.keeps

/-- The renaming that takes each text and format to its name in another pool. -/
def aligning (T₀ T : Pool) (x : String) : String :=
  match T₀.texts.find? (T₀.textName · = x) with
  | some s => T.textName s
  | none =>
    match T₀.formats.find? (T₀.formatName · = x) with
    | some s => T.formatName s
    | none => x

theorem aligning_text {s : String} (hs : s ∈ T₀.texts) :
    T₀.aligning T (T₀.textName s) = T.textName s := by
  have hfound : T₀.texts.find? (T₀.textName · = T₀.textName s) = some s := by
    cases h : T₀.texts.find? (T₀.textName · = T₀.textName s) with
    | none => exact absurd (decide_eq_true rfl) (List.find?_eq_none.1 h s hs)
    | some s' =>
      have hname : T₀.textName s' = T₀.textName s := by simpa using List.find?_some h
      rw [textName_inj (List.mem_of_find?_eq_some h) hname]
  rw [aligning, hfound]

theorem aligning_format {s : String} (hs : s ∈ T₀.formats) :
    T₀.aligning T (T₀.formatName s) = T.formatName s := by
  have hnone : T₀.texts.find? (T₀.textName · = T₀.formatName s) = none :=
    List.find?_eq_none.2 fun s' _ h => textName_ne_formatName _ _ _ _ (of_decide_eq_true h)
  have hfound : T₀.formats.find? (T₀.formatName · = T₀.formatName s) = some s := by
    cases h : T₀.formats.find? (T₀.formatName · = T₀.formatName s) with
    | none => exact absurd (decide_eq_true rfl) (List.find?_eq_none.1 h s hs)
    | some s' =>
      have hname : T₀.formatName s' = T₀.formatName s := by simpa using List.find?_some h
      rw [formatName_inj (List.mem_of_find?_eq_some h) hname]
  rw [aligning, hnone, hfound]

theorem aligning_rest {x : String} (ht : ∀ s ∈ T₀.texts, T₀.textName s ≠ x)
    (hf : ∀ s ∈ T₀.formats, T₀.formatName s ≠ x) : T₀.aligning T x = x := by
  have htexts : T₀.texts.find? (T₀.textName · = x) = none :=
    List.find?_eq_none.2 fun s hs h => ht s hs (of_decide_eq_true h)
  have hformats : T₀.formats.find? (T₀.formatName · = x) = none :=
    List.find?_eq_none.2 fun s hs h => hf s hs (of_decide_eq_true h)
  rw [aligning, htexts, hformats]

theorem aligns_aligning (T₀ T : Pool) : Aligns (T₀.aligning T) T₀ T where
  text _ hs := aligning_text hs
  format _ hs := aligning_format hs
  keeps n := by
    have hdot : ∀ x : String, x.toList.head? = some '.' → x ≠ globalName n := by
      rintro _ h rfl
      simp [globalName] at h
    exact aligning_rest (fun s _ => hdot _ (by simp [textName]))
      fun s _ => hdot _ (by simp [formatName])

end Pool

open Pool (Aligns KeepsVariables)

/-! ### States -/

variable {k : Nat} {fs : List Ir.Function} {α β : Type}

/-- Two states between functions. The second one has `fs` in front of the functions of the first,
which it has under its own names. -/
structure Generator.Beside (k : Nat) (fs : List Ir.Function) (g₀ g : Generator) : Prop where
  labels : g.labels = g₀.labels + k
  pool : g₀.pool.Sub g.pool
  functions : ∀ ρ, Aligns ρ g₀.pool g.pool →
    g.functions = fs ++ g₀.functions.map (Ir.Function.renamed k ρ)

/-- Two states in the same place of one function. -/
structure Generator.Follows (k : Nat) (fs : List Ir.Function) (g₀ g : Generator) : Prop
    extends g₀.Beside k fs g where
  names : g.names = g₀.names
  allocas : ∀ ρ, g.allocas = g₀.allocas.map (Instr.renamed k ρ)
  code : ∀ ρ, Aligns ρ g₀.pool g.pool → g.code = g₀.code.map (Instr.renamed k ρ)

/-- From states of one relation, two steps get to states of another and to related results. The
pools only grow. -/
structure Tracks (R R' : Generator → Generator → Prop) (V : α → α → Prop) (m₀ m : Step α) :
    Prop where
  result : ∀ {g₀ g}, R g₀ g → V (m₀ g₀).1 (m g).1
  left : ∀ {g₀ g}, R g₀ g → g₀.pool.Le (m₀ g₀).2.pool
  right : ∀ {g₀ g}, R g₀ g → g.pool.Le (m g).2.pool
  state : ∀ {g₀ g}, R g₀ g → R' (m₀ g₀).2 (m g).2

/-- Two steps in the same place of one function. -/
abbrev InStep (k : Nat) (fs : List Ir.Function) (V : α → α → Prop) (m₀ m : Step α) : Prop :=
  Tracks (Generator.Follows k fs) (Generator.Follows k fs) V m₀ m

/-- One step, done in both states. -/
abbrev Repeats (k : Nat) (fs : List Ir.Function) (V : α → α → Prop) (m : Step α) : Prop :=
  InStep k fs V m m

namespace Tracks

variable {R R' R'' : Generator → Generator → Prop} {V : α → α → Prop} {W : β → β → Prop}
  {m₀ m : Step α} {f₀ f : α → Step β}

theorem pure {a₀ a : α} (h : V a₀ a) : Tracks R R V (Pure.pure a₀) (Pure.pure a) :=
  ⟨fun _ => h, fun _ => .refl _, fun _ => .refl _, fun h => h⟩

theorem bind (hm : Tracks R R' V m₀ m) (hf : ∀ a₀ a, V a₀ a → Tracks R' R'' W (f₀ a₀) (f a)) :
    Tracks R R'' W (m₀ >>= f₀) (m >>= f) where
  result h := (hf _ _ (hm.result h)).result (hm.state h)
  left h := (hm.left h).trans ((hf _ _ (hm.result h)).left (hm.state h))
  right h := (hm.right h).trans ((hf _ _ (hm.result h)).right (hm.state h))
  state h := (hf _ _ (hm.result h)).state (hm.state h)

/-- Behind steps of one result, one value goes on. -/
theorem same {f₀ f : α → Step β} (hm : Tracks R R' Eq m₀ m)
    (hf : ∀ a, Tracks R' R'' W (f₀ a) (f a)) : Tracks R R'' W (m₀ >>= f₀) (m >>= f) := by
  refine hm.bind ?_
  rintro a _ rfl
  exact hf a

end Tracks

/-! ### Elementary steps -/

theorem Generator.Follows.push {g₀ g : Generator} (h : g₀.Follows k fs g) {i₀ i : Instr}
    (hi : ∀ ρ, Aligns ρ g₀.pool g.pool → i = i₀.renamed k ρ) :
    (Lowering.push i₀ g₀).2.Follows k fs (Lowering.push i g).2 where
  toBeside := ⟨h.labels, h.pool, h.functions⟩
  names := h.names
  allocas := h.allocas
  code ρ hρ := by
    show g.code ++ [i] = (g₀.code ++ [i₀]).map _
    rw [h.code ρ hρ, hi ρ hρ, List.map_append, List.map_singleton]

theorem tracks_push {i₀ i : Instr} (hi : ∀ ρ, KeepsVariables ρ → i = i₀.renamed k ρ) :
    InStep k fs Eq (push i₀) (push i) where
  result _ := rfl
  left _ := .refl _
  right _ := .refl _
  state h := h.push fun ρ hρ => hi ρ hρ.keeps

theorem tracks_alloca (slot : String) (t : Ir.Ty) :
    Repeats k fs Eq (alloca slot t) where
  result _ := rfl
  left _ := .refl _
  right _ := .refl _
  state {g₀ g} h := by
    refine ⟨⟨h.labels, h.pool, h.functions⟩, h.names, fun ρ => ?_, h.code⟩
    show g.allocas ++ [Instr.alloca slot t] = (g₀.allocas ++ [Instr.alloca slot t]).map _
    rw [h.allocas ρ, List.map_append]
    rfl

theorem tracks_newName (p : Position) (suffix : String) :
    Repeats k fs Eq (newName p suffix) where
  result {g₀ g} h := by
    show fresh p suffix g₀.names = fresh p suffix g.names
    rw [h.names]
  left _ := .refl _
  right _ := .refl _
  state {g₀ g} h := by
    refine ⟨⟨h.labels, h.pool, h.functions⟩, ?_, h.allocas, h.code⟩
    show spend p suffix g.names = spend p suffix g₀.names
    rw [h.names]

/-- Only the shift tells the labels of the two states apart. -/
theorem tracks_newLabel : Repeats k fs (fun l₀ l => l = l₀ + k) newLabel where
  result h := h.labels
  left _ := .refl _
  right _ := .refl _
  state {g₀ g} h := by
    refine ⟨⟨?_, h.pool, h.functions⟩, h.names, h.allocas, h.code⟩
    show g.labels + 1 = g₀.labels + 1 + k
    rw [h.labels, Nat.add_right_comm]

theorem tracks_here : Repeats k fs Eq here where
  result {g₀ g} h := by
    show g₀.code.length = g.code.length
    rw [h.code _ (Pool.aligns_aligning _ _), List.length_map]
  left _ := .refl _
  right _ := .refl _
  state h := h

theorem tracks_closeLoop (start : Nat) (exit next : Ir.Label) :
    InStep k fs Eq (closeLoop start exit next) (closeLoop start (exit + k) (next + k)) where
  result _ := rfl
  left _ := .refl _
  right _ := .refl _
  state {g₀ g} h := by
    refine ⟨⟨h.labels, h.pool, h.functions⟩, h.names, h.allocas, fun ρ hρ => ?_⟩
    have hcode : g.code = g₀.code.map (Instr.renamed k ρ) := h.code ρ hρ
    show (Ir.eliminateDeadCode (g.code.take start ++ (Ir.resolveTransitions (exit + k) (next + k)
      (g.code.drop start)).1) start).1 = (Ir.eliminateDeadCode (g₀.code.take start ++
        (Ir.resolveTransitions exit next (g₀.code.drop start)).1) start).1.map _
    rw [hcode, ← List.map_take, ← List.map_drop, Ir.resolveTransitions_renamed, ← List.map_append,
      Ir.eliminateDeadCode_renamed]

/-! ### Expressions -/

/-- The operand is no text, so renaming texts leaves it. -/
def Untouched (v : Operand) : Prop := ∀ ρ, KeepsVariables ρ → v.renamed ρ = v

theorem untouched_local (x : String) : Untouched (.local x) :=
  fun _ _ => Operand.renamed_local x

theorem untouched_int (n : Int64) : Untouched (.int n) := fun _ _ => Operand.renamed_int n

theorem renamed_arguments {ρ : String → String} (hρ : KeepsVariables ρ)
    {vs : List (Ir.Ty × Operand)} (h : ∀ v ∈ vs, Untouched v.2) :
    vs.map (Ir.renamedArgument ρ) = vs := by
  refine (List.map_congr_left fun v hv => ?_).trans (List.map_id vs)
  rw [Ir.renamedArgument, h v hv ρ hρ]
  rfl

/-- The place or value of an expression is no text. -/
def Lowered.Untouched : Lowered → Prop
  | .place v | .value v => Lowering.Untouched v

/-- The two results are the same, and it has a property. -/
def Alike (P : α → Prop) (a₀ a : α) : Prop := a₀ = a ∧ P a₀

theorem Tracks.alike {R R' R'' : Generator → Generator → Prop} {P : α → Prop} {W : β → β → Prop}
    {m₀ m : Step α} {f₀ f : α → Step β} (hm : Tracks R R' (Alike P) m₀ m)
    (hf : ∀ a, P a → Tracks R' R'' W (f₀ a) (f a)) : Tracks R R'' W (m₀ >>= f₀) (m >>= f) := by
  refine hm.bind ?_
  rintro a _ ⟨rfl, ha⟩
  exact hf a ha

/-- A new name for the output of one more instruction, and the name as the result. -/
theorem tracks_output (p : Position) (suffix : String) {i : String → Instr}
    (hi : ∀ output ρ, KeepsVariables ρ → i output = (i output).renamed k ρ) :
    Repeats k fs (Alike Untouched) (do
      let output ← newName p suffix
      push (i output)
      return Operand.local output) := by
  refine .same (tracks_newName p suffix) fun output => ?_
  exact .same (tracks_push (hi output)) fun _ => .pure ⟨rfl, untouched_local output⟩

theorem tracks_asValue (e : Expr) {r : Lowered} (h : r.Untouched) :
    Repeats k fs (Alike Untouched) (asValue e r) := by
  cases r with
  | value v => exact .pure ⟨rfl, h⟩
  | place slot =>
    refine tracks_output e.position "" fun output ρ hρ => ?_
    rw [Instr.renamed, show slot.renamed ρ = slot from h ρ hρ]

theorem tracks_asPlace (e : Expr) {r : Lowered} (h : r.Untouched) :
    Repeats k fs (Alike Untouched) (asPlace e r) := by
  cases r with
  | place slot => exact .pure ⟨rfl, h⟩
  | value v =>
    refine .same (tracks_newName e.position ".tmp") fun slot => ?_
    refine .same (tracks_alloca slot _) fun _ => ?_
    have hstore : ∀ ρ, KeepsVariables ρ → Instr.store (machineType e.type) v (.local slot) =
        (Instr.store (machineType e.type) v (.local slot)).renamed k ρ := by
      intro ρ hρ
      rw [Instr.renamed, show v.renamed ρ = v from h ρ hρ, untouched_local slot ρ hρ]
    exact .same (tracks_push hstore) fun _ => .pure ⟨rfl, untouched_local slot⟩

theorem tracks_asTyped (e : Expr) (target : Ty) {r : Lowered} (h : r.Untouched) :
    Repeats k fs (Alike Untouched) (asTyped e target r) := by
  unfold asTyped
  split
  · split
    · exact .pure ⟨rfl, fun _ _ => rfl⟩
    · refine .alike (tracks_asValue _ h) fun v hv => ?_
      refine tracks_output _ ".cast" fun output ρ hρ => ?_
      rw [Instr.renamed, hv ρ hρ]
  · exact tracks_asValue e h

theorem tracks_part (p : Position) (aggregate : Ty) {base index : Operand} (hb : Untouched base)
    (hi : Untouched index) :
    Repeats k fs (Alike Untouched) (part p aggregate base index) := by
  refine tracks_output p ".ptr" fun output ρ hρ => ?_
  simp [Instr.renamed, hb ρ hρ, hi ρ hρ]

theorem tracks_rebase (p : Position) (array : Ty) {index : Operand} (h : Untouched index) :
    Repeats k fs (Alike Untouched) (rebase p array index) := by
  simp only [rebase]
  split
  · exact .pure ⟨rfl, h⟩
  · refine tracks_output p ".idx" fun output ρ hρ => ?_
    simp [Instr.renamed, h ρ hρ]

theorem tracks_applyUnary (p : Position) (op : UnaryOp) (operand : Ty) {v : Operand}
    (h : Untouched v) :
    Repeats k fs (Alike Untouched) (applyUnary p op operand v) := by
  unfold applyUnary
  split
  · exact .pure ⟨rfl, h⟩
  all_goals
    refine tracks_output p "" fun output ρ hρ => ?_
    simp [Instr.renamed, h ρ hρ]

theorem tracks_applyBinary (p : Position) (op : BinOp) (t : Ty) {lhs rhs : Operand}
    (hl : Untouched lhs) (hr : Untouched rhs) :
    Repeats k fs (Alike Untouched) (applyBinary p op t lhs rhs) := by
  refine tracks_output p "" fun output ρ hρ => ?_
  cases operationOf op (isDouble t) <;> simp only [Instr.renamed, hl ρ hρ, hr ρ hρ]

/-- The result of a step as the value or the place of an expression. -/
theorem Tracks.lowered {m : Step Operand} (h : Repeats k fs (Alike Untouched) m)
    {form : Operand → Lowered} (hform : ∀ v, Untouched v → (form v).Untouched) :
    Repeats k fs (Alike Lowered.Untouched) (do return form (← m)) := by
  refine .alike h fun v hv => ?_
  exact .pure ⟨rfl, hform v hv⟩

mutual

theorem tracks_lower (e : Expr) :
    Repeats k fs (Alike Lowered.Untouched) (lower e) := by
  cases e with
  | int p v => rw [lower]; exact .pure ⟨rfl, fun _ _ => rfl⟩
  | double p x => rw [lower]; exact .pure ⟨rfl, fun _ _ => rfl⟩
  | bool p b => rw [lower]; exact .pure ⟨rfl, fun _ _ => rfl⟩
  | var p t n storage =>
    cases storage with
    -- only the name of a global is renamed
    | global =>
      rw [lower]
      exact .pure ⟨rfl, fun ρ hρ => congrArg Operand.global (hρ n)⟩
    | routine => rw [lower]; exact .pure ⟨rfl, fun _ _ => rfl⟩
  | unary p t op e =>
    rw [lower]
    refine .alike (tracks_lower e) fun r hr => ?_
    refine .alike (tracks_asValue e hr) fun v hv => ?_
    exact (tracks_applyUnary p op e.type hv).lowered fun _ h => h
  | binary p t op left right =>
    rw [lower]
    refine .alike (tracks_lower left) fun r hr => ?_
    refine .alike (tracks_asTyped left _ hr) fun v hv => ?_
    refine .alike (tracks_lower right) fun r' hr' => ?_
    refine .alike (tracks_asTyped right _ hr') fun w hw => ?_
    exact (tracks_applyBinary p op _ hv hw).lowered fun _ h => h
  | call p t n symbol args params =>
    rw [lower]
    refine .same (tracks_newName p "") fun output => ?_
    refine .alike (tracks_lowerArguments args params) fun vs hvs => ?_
    refine .same (tracks_push fun ρ hρ => ?_) fun _ => .pure ⟨rfl, untouched_local output⟩
    rw [Instr.renamed, renamed_arguments hρ hvs]
  | index p t array index =>
    rw [lower]
    refine .alike (tracks_lower array) fun r hr => ?_
    refine .alike (tracks_asPlace array hr) fun base hbase => ?_
    refine .alike (tracks_lower index) fun r' hr' => ?_
    refine .alike (tracks_asValue index hr') fun i hi => ?_
    refine .alike (tracks_rebase p array.type hi) fun i' hi' => ?_
    exact (tracks_part p array.type hbase hi').lowered fun _ h => h
  | field p t record n slot =>
    rw [lower]
    refine .alike (tracks_lower record) fun r hr => ?_
    refine .alike (tracks_asPlace record hr) fun base hbase => ?_
    exact (tracks_part p record.type hbase (untouched_int _)).lowered fun _ h => h

theorem tracks_lowerArguments (args : List Expr) (params : List Ty) :
    Repeats k fs (Alike fun vs => ∀ v ∈ vs, Untouched v.2) (lowerArguments args params) := by
  match args, params with
  | e :: args, t :: params =>
    rw [lowerArguments]
    refine .alike (tracks_lower e) fun r hr => ?_
    refine .alike (tracks_asTyped e t hr) fun v hv => ?_
    refine .alike (tracks_lowerArguments args params) fun vs hvs => ?_
    exact .pure ⟨rfl, List.forall_mem_cons.2 ⟨hv, hvs⟩⟩
  | [], _ | _ :: _, [] =>
    unfold lowerArguments
    exact .pure ⟨rfl, List.forall_mem_nil _⟩

end

theorem tracks_value (e : Expr) : Repeats k fs (Alike Untouched) (value e) :=
  .alike (tracks_lower e) fun _ hr => tracks_asValue e hr

theorem tracks_valueIn (e : Expr) (target : Ty) :
    Repeats k fs (Alike Untouched) (valueIn e target) :=
  .alike (tracks_lower e) fun _ hr => tracks_asTyped e target hr

theorem tracks_place (e : Expr) : Repeats k fs (Alike Untouched) (place e) :=
  .alike (tracks_lower e) fun _ hr => tracks_asPlace e hr

end MiniPascal.Lowering
