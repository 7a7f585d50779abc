import MiniPascal.Lowering.Program
import MiniPascal.Proofs.Ir.Patch

/-! Steps of the lowering that only append code. -/

namespace MiniPascal.Lowering

open Ir (Steady)

/-- The state with other code and other functions. -/
def Generator.over {κ : Type} (g : Generator κ) (code : List Ir.Instr)
    (functions : List Ir.Function) : Generator κ := { g with code, functions }

/-- A step gives a result, appends code and changes the state, whatever code and functions there
have been before. -/
def Runs {α : Type} (m : Step α) (g : Generator) (a : α) (c : List Ir.Instr) (g' : Generator) :
    Prop :=
  ∀ code functions, m (g.over code functions) = (a, g'.over (code ++ c) functions)

namespace Runs

variable {α β : Type} {m : Step α} {g g' g'' : Generator}

theorem pure (a : α) : Runs (Pure.pure a) g a [] g := by
  intro code functions
  rw [List.append_nil]
  rfl

theorem bind {f : α → Step β} {a : α} {b : β} {c d : List Ir.Instr} (hm : Runs m g a c g')
    (hf : Runs (f a) g' b d g'') : Runs (m >>= f) g b (c ++ d) g'' := by
  intro code functions
  show f (m _).1 (m _).2 = _
  rw [hm, ← List.append_assoc]
  exact hf _ _

theorem push (i : Ir.Instr) : Runs (Lowering.push i) g () [i] g := fun _ _ => rfl

/-- A step that reads and changes neither code nor functions. -/
theorem of_fixed {a : α} (h : ∀ code functions, m (g.over code functions) =
    (a, g'.over code functions)) : Runs m g a [] g' := by
  intro code functions
  rw [List.append_nil]
  exact h code functions

end Runs

/-- A step appends code without transitions, and perhaps uses up labels. -/
def Appends {α : Type} (m : Step α) : Prop :=
  ∀ g, ∃ a c g', Runs m g a c g' ∧ Steady c ∧ g.labels ≤ g'.labels

theorem steady_nil : Steady [] := nofun

theorem steady_single {i : Ir.Instr} (h : ∀ kind target, i ≠ .transition kind target) :
    Steady [i] := fun kind target hm => h kind target (List.mem_singleton.1 hm).symm

namespace Appends

variable {α β : Type} {m : Step α}

theorem pure (a : α) : Appends (Pure.pure a : Step α) :=
  fun g => ⟨a, [], g, .pure a, steady_nil, Nat.le_refl _⟩

theorem bind {f : α → Step β} (hm : Appends m) (hf : ∀ a, Appends (f a)) : Appends (m >>= f) := by
  intro g
  obtain ⟨a, c, g', hr, hc, hl⟩ := hm g
  obtain ⟨b, d, g'', hr', hd, hl'⟩ := hf a g'
  exact ⟨b, c ++ d, g'', hr.bind hr', Ir.steady_append.2 ⟨hc, hd⟩, Nat.le_trans hl hl'⟩

theorem map (hm : Appends m) (k : α → β) : Appends (m >>= fun a => Pure.pure (k a)) :=
  hm.bind fun a => .pure (k a)

theorem push {i : Ir.Instr} (h : ∀ kind target, i ≠ .transition kind target) :
    Appends (Lowering.push i) :=
  fun g => ⟨(), [i], g, .push i, steady_single h, Nat.le_refl _⟩

theorem newName (p : Position) (suffix : String) : Appends (Lowering.newName p suffix) :=
  fun g => ⟨(Lowering.newName p suffix g).1, [], (Lowering.newName p suffix g).2,
    .of_fixed fun _ _ => rfl, steady_nil, Nat.le_refl _⟩

theorem newLabel : Appends Lowering.newLabel :=
  fun g => ⟨g.labels, [], (Lowering.newLabel g).2, .of_fixed fun _ _ => rfl, steady_nil,
    Nat.le_succ _⟩

theorem alloca (slot : String) (t : Ir.Ty) : Appends (Lowering.alloca slot t) :=
  fun g => ⟨(), [], (Lowering.alloca slot t g).2, .of_fixed fun _ _ => rfl, steady_nil,
    Nat.le_refl _⟩

theorem usesPrintf :
    Appends (modify fun g => { g with usesPrintf := true } : Step Unit) :=
  fun g => ⟨(), [], { g with usesPrintf := true }, .of_fixed fun _ _ => rfl, steady_nil,
    Nat.le_refl _⟩

theorem textGlobal (s : String) : Appends (Lowering.textGlobal s) := by
  intro g
  let name := ".str." ++ toString (g.texts.idxOf s)
  by_cases hs : s ∈ g.texts
  · exact ⟨name, [], g, .of_fixed fun _ _ => if_pos hs, steady_nil, Nat.le_refl _⟩
  · let globals := g.globals ++ [.text name (textBytes s)]
    exact ⟨name, [], { g with texts := g.texts ++ [s], globals },
      .of_fixed fun _ _ => if_neg hs, steady_nil, Nat.le_refl _⟩

theorem formatGlobal (s : String) : Appends (Lowering.formatGlobal s) := by
  intro g
  let name := ".fmt." ++ toString (g.formats.idxOf s)
  by_cases hs : s ∈ g.formats
  · exact ⟨name, [], g, .of_fixed fun _ _ => if_pos hs, steady_nil, Nat.le_refl _⟩
  · let globals := g.globals ++ [.text name (textBytes s)]
    exact ⟨name, [], { g with formats := g.formats ++ [s], globals },
      .of_fixed fun _ _ => if_neg hs, steady_nil, Nat.le_refl _⟩

end Appends

/-- A step put together from the elementary ones, without any that appends a transition or looks at
the code, and the step that is put together from them in the same way but counts with other
numbers. -/
inductive Composed {κ ι : Type} [Counter κ] [Counter ι] :
    {α : Type} → StepOf κ α → StepOf ι α → Prop
  | pure {α : Type} (a : α) : Composed (Pure.pure a) (Pure.pure a)
  | bind {α β : Type} {m : StepOf κ α} {m' : StepOf ι α} {f : α → StepOf κ β}
    {f' : α → StepOf ι β} : Composed m m' → (∀ a, Composed (f a) (f' a)) →
    Composed (m >>= f) (m' >>= f')
  | push {i : Ir.Instr} : (∀ kind target, i ≠ .transition kind target) →
    Composed (Lowering.push i) (Lowering.push i)
  | newName (p : Position) (suffix : String) :
    Composed (Lowering.newName p suffix) (Lowering.newName p suffix)
  | newLabel : Composed Lowering.newLabel Lowering.newLabel
  | alloca (slot : String) (t : Ir.Ty) : Composed (Lowering.alloca slot t) (Lowering.alloca slot t)
  | usesPrintf : Composed (modify fun g => { g with usesPrintf := true } : StepOf κ Unit)
    (modify fun g => { g with usesPrintf := true } : StepOf ι Unit)
  | textGlobal (s : String) : Composed (Lowering.textGlobal s) (Lowering.textGlobal s)
  | formatGlobal (s : String) : Composed (Lowering.formatGlobal s) (Lowering.formatGlobal s)

variable {κ ι : Type} [Counter κ] [Counter ι]

namespace Composed

variable {α β : Type} {m : StepOf κ α} {m' : StepOf ι α}

theorem map (hm : Composed m m') (k : α → β) :
    Composed (m >>= fun a => Pure.pure (k a)) (m' >>= fun a => Pure.pure (k a)) :=
  hm.bind fun a => .pure (k a)

/-- An instruction with a new name for its output, and the name as the result. -/
theorem output (p : Position) (suffix : String) {i : String → Ir.Instr}
    (h : ∀ output kind target, i output ≠ .transition kind target) :
    Composed (do
      let output ← Lowering.newName p suffix
      Lowering.push (i output)
      return Ir.Operand.local output : StepOf κ Ir.Operand) (do
      let output ← Lowering.newName p suffix
      Lowering.push (i output)
      return Ir.Operand.local output : StepOf ι Ir.Operand) :=
  .bind (.newName p suffix) fun output => .bind (.push (h output)) fun _ => .pure _

theorem appends {m m' : Step α} (h : Composed m m') : Appends m := by
  induction h with
  | pure a => exact .pure a
  | bind _ _ ihm ihf => exact .bind ihm ihf
  | push h => exact .push h
  | newName p suffix => exact .newName p suffix
  | newLabel => exact .newLabel
  | alloca slot t => exact .alloca slot t
  | usesPrintf => exact .usesPrintf
  | textGlobal s => exact .textGlobal s
  | formatGlobal s => exact .formatGlobal s

end Composed

/-! ### Expressions -/

theorem composed_asValue (e : Expr) (r : Lowered) :
    Composed (asValue e r : StepOf κ _) (asValue e r : StepOf ι _) := by
  cases r with
  | value v => exact .pure v
  | place slot => exact .output _ _ nofun

theorem composed_asPlace (e : Expr) (r : Lowered) :
    Composed (asPlace e r : StepOf κ _) (asPlace e r : StepOf ι _) := by
  cases r with
  | place slot => exact .pure slot
  | value v =>
    exact .bind (.newName _ _) fun _ => .bind (.alloca _ _) fun _ => .bind (.push nofun) fun _ =>
      .pure _

theorem composed_asTyped (e : Expr) (t : Ty) (r : Lowered) :
    Composed (asTyped e t r : StepOf κ _) (asTyped e t r : StepOf ι _) := by
  unfold asTyped
  split
  · split
    · exact .pure _
    · exact .bind (composed_asValue _ r) fun _ => .output _ _ nofun
  · exact composed_asValue e r

theorem composed_part (p : Position) (t : Ty) (base index : Ir.Operand) :
    Composed (part p t base index : StepOf κ _) (part p t base index : StepOf ι _) :=
  .output _ _ nofun

theorem composed_rebase (p : Position) (t : Ty) (index : Ir.Operand) :
    Composed (rebase p t index : StepOf κ _) (rebase p t index : StepOf ι _) := by
  unfold rebase
  dsimp only
  split
  · exact .pure _
  · exact .output _ _ nofun

theorem composed_applyUnary (p : Position) (op : UnaryOp) (t : Ty) (v : Ir.Operand) :
    Composed (applyUnary p op t v : StepOf κ _) (applyUnary p op t v : StepOf ι _) := by
  unfold applyUnary
  split
  · exact .pure _
  all_goals exact .output _ _ nofun

theorem composed_applyBinary (p : Position) (op : BinOp) (t : Ty) (v w : Ir.Operand) :
    Composed (applyBinary p op t v w : StepOf κ _) (applyBinary p op t v w : StepOf ι _) :=
  .output _ _ fun _ _ _ => by split <;> nofun

mutual

theorem composed_lower : ∀ e : Expr, Composed (lower e : StepOf κ _) (lower e : StepOf ι _)
  | .int .. | .double .. | .bool .. | .var _ _ _ .global | .var _ _ _ .routine => by
    rw [lower]
    exact .pure _
  | .unary p t op e => by
    rw [lower]
    exact .bind (composed_lower e) fun r => .bind (composed_asValue e r) fun v =>
      .map (composed_applyUnary p op e.type v) _
  | .binary p t op l r => by
    rw [lower]
    exact .bind (composed_lower l) fun a => .bind (composed_asTyped l _ a) fun v =>
      .bind (composed_lower r) fun b => .bind (composed_asTyped r _ b) fun w =>
      .map (composed_applyBinary p op _ v w) _
  | .call p t n symbol args params => by
    rw [lower]
    exact .bind (.newName _ _) fun _ => .bind (composed_lowerArguments args params) fun _ =>
      .bind (.push nofun) fun _ => .pure _
  | .index p t a i => by
    rw [lower]
    exact .bind (composed_lower a) fun r => .bind (composed_asPlace a r) fun base =>
      .bind (composed_lower i) fun s => .bind (composed_asValue i s) fun v =>
      .bind (composed_rebase p a.type v) fun w => .map (composed_part p a.type base w) _
  | .field p t r n slot => by
    rw [lower]
    exact .bind (composed_lower r) fun s => .bind (composed_asPlace r s) fun base =>
      .map (composed_part p r.type base _) _

theorem composed_lowerArguments : ∀ (es : List Expr) (ts : List Ty),
    Composed (lowerArguments es ts : StepOf κ _) (lowerArguments es ts : StepOf ι _)
  | e :: es, t :: ts => by
    rw [lowerArguments]
    exact .bind (composed_lower e) fun r => .bind (composed_asTyped e t r) fun v =>
      .map (composed_lowerArguments es ts) _
  | [], _ | _ :: _, [] => by
    rw [lowerArguments]
    · exact .pure _
    · nofun

end

theorem composed_value (e : Expr) : Composed (value e : StepOf κ _) (value e : StepOf ι _) :=
  .bind (composed_lower e) (composed_asValue e)

theorem composed_valueIn (e : Expr) (t : Ty) :
    Composed (valueIn e t : StepOf κ _) (valueIn e t : StepOf ι _) :=
  .bind (composed_lower e) (composed_asTyped e t)

theorem composed_place (e : Expr) : Composed (place e : StepOf κ _) (place e : StepOf ι _) :=
  .bind (composed_lower e) (composed_asPlace e)

/-! ### Statements without statements in them -/

theorem composed_writtenArg (a : WriteArg) :
    Composed (writtenArg a : StepOf κ _) (writtenArg a : StepOf ι _) := by
  unfold writtenArg
  split
  · exact .map (.textGlobal _) _
  · split
    · exact .map (composed_value _) _
    · exact .map (composed_value _) _
    · exact .bind (composed_value _) fun _ => .bind (.newName _ _) fun _ => .bind (.push nofun)
        fun _ => .pure _
    · exact .pure _

theorem composed_writtenArgs (args : List WriteArg) :
    Composed (writtenArgs args : StepOf κ _) (writtenArgs args : StepOf ι _) := by
  induction args with
  | nil => exact .pure _
  | cons a args ih => exact .bind (composed_writtenArg a) fun _ => .map ih _

theorem composed_write (newline : Bool) (args : List WriteArg) :
    Composed (write newline args : StepOf κ _) (write newline args : StepOf ι _) := by
  refine .bind (composed_writtenArgs args) fun r => ?_
  dsimp only
  generalize (if newline = true then r.1 ++ "\n" else r.1) = format
  split
  · exact .bind (.formatGlobal _) fun _ => .bind .usesPrintf fun _ => .push nofun
  · exact .pure _

theorem composed_assign (target e : Expr) :
    Composed (assign target e : StepOf κ _) (assign target e : StepOf ι _) :=
  .bind (composed_valueIn e _) fun _ => .bind (composed_place target) fun _ => .push nofun

theorem composed_loopStart (p : Position) (target first : Expr) :
    Composed (loopStart p target first : StepOf κ _) (loopStart p target first : StepOf ι _) :=
  .bind (composed_valueIn first _) fun _ => .bind (composed_place target) fun _ =>
    .bind (.push nofun) fun _ => .bind (.newName _ _) fun _ => .bind (.push nofun) fun _ =>
    .bind (.newName _ _) fun _ => .bind (.push nofun) fun _ => .push nofun

theorem composed_loopTest (p : Position) (target bound : Expr) :
    Composed (loopTest p target bound : StepOf κ _) (loopTest p target bound : StepOf ι _) :=
  .bind (composed_place target) fun _ => .bind (.newName _ _) fun _ => .bind (.push nofun) fun _ =>
    .bind (.newName _ _) fun _ => .bind (.push nofun) fun _ => .bind (.push nofun) fun _ =>
    .bind (composed_valueIn bound _) fun _ => .bind (.newName _ _) fun _ => .bind (.push nofun)
    fun _ => .pure _

/-! ### What they append -/

theorem appends_value (e : Expr) : Appends (value e) := (composed_value e).appends

theorem appends_lowerArguments (es : List Expr) (ts : List Ty) : Appends (lowerArguments es ts) :=
  (composed_lowerArguments es ts).appends

theorem appends_write (newline : Bool) (args : List WriteArg) : Appends (write newline args) :=
  (composed_write newline args).appends

theorem appends_assign (target e : Expr) : Appends (assign target e) :=
  (composed_assign target e).appends

theorem appends_loopStart (p : Position) (target first : Expr) :
    Appends (loopStart p target first) := (composed_loopStart p target first).appends

theorem appends_loopTest (p : Position) (target bound : Expr) :
    Appends (loopTest p target bound) := (composed_loopTest p target bound).appends

end MiniPascal.Lowering
