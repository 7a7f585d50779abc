import Mathlib.Data.List.Basic
import MiniPascal.Lowering.Statement
import MiniPascal.Proofs.Ir.Patch
import MiniPascal.Proofs.Lowering.Expression

/-! `StmtCode` is the code that a statement would get if every `break` and `continue` could be given
its target at once. -/

namespace MiniPascal.Lowering

/-- The texts and the formats of a program in order of their numbers. -/
structure Pool where
  texts : List String
  formats : List String

namespace Pool

/-- The global that holds a text. -/
def textName (T : Pool) (s : String) : String := ".str." ++ toString (T.texts.idxOf s)

/-- The global that holds a format. -/
def formatName (T : Pool) (s : String) : String := ".fmt." ++ toString (T.formats.idxOf s)

/-- One pool is the start of another. -/
structure Le (T U : Pool) : Prop where
  texts : T.texts <+: U.texts
  formats : T.formats <+: U.formats

variable {T U V : Pool}

theorem Le.refl (T : Pool) : T.Le T := ⟨List.prefix_rfl, List.prefix_rfl⟩

theorem Le.trans (h : T.Le U) (h' : U.Le V) : T.Le V :=
  ⟨h.texts.trans h'.texts, h.formats.trans h'.formats⟩

theorem Le.textName (h : T.Le U) {s : String} (hs : s ∈ T.texts) : U.textName s = T.textName s := by
  obtain ⟨l, hl⟩ := h.texts
  rw [Pool.textName, Pool.textName, ← hl, List.idxOf_append_of_mem hs]

theorem Le.formatName (h : T.Le U) {s : String} (hs : s ∈ T.formats) :
    U.formatName s = T.formatName s := by
  obtain ⟨l, hl⟩ := h.formats
  rw [Pool.formatName, Pool.formatName, ← hl, List.idxOf_append_of_mem hs]

end Pool

/-- What the code of a statement uses up: the number of the next label, and names. -/
structure Supply where
  labels : Nat
  names : Names

/-- The code of what is written, with the format and the arguments for it. -/
inductive WriteCode (T : Pool) :
    List WriteArg → Names → String → List (Ir.Ty × Ir.Operand) → List Ir.Instr → Names → Prop
  | nil {ν} : WriteCode T [] ν "" [] [] ν
  | text {s args ν₁ ν₂ f vs c} (hs : s ∈ T.texts) (h : WriteCode T args ν₁ f vs c ν₂) :
    WriteCode T (.text s :: args) ν₁ ("%s" ++ f) ((.ptr, .global (T.textName s)) :: vs) c ν₂
  | integer {e args ν₁ ν₂ ν₃ f v vs c₁ c₂} (ht : e.type = .integer)
    (he : ValueCode e ν₁ v c₁ ν₂) (h : WriteCode T args ν₂ f vs c₂ ν₃) :
    WriteCode T (.value e :: args) ν₁ ("%d" ++ f) ((.i32, v) :: vs) (c₁ ++ c₂) ν₃
  | double {e args ν₁ ν₂ ν₃ f v vs c₁ c₂} (ht : e.type = .double)
    (he : ValueCode e ν₁ v c₁ ν₂) (h : WriteCode T args ν₂ f vs c₂ ν₃) :
    WriteCode T (.value e :: args) ν₁ ("%f" ++ f) ((.double, v) :: vs) (c₁ ++ c₂) ν₃
  | boolean {e args ν₁ ν₂ ν₃ f v vs c₁ c₂} (ht : e.type = .boolean)
    (he : ValueCode e ν₁ v c₁ ν₂)
    (h : WriteCode T args (spend e.position ".cast" ν₂) f vs c₂ ν₃) :
    WriteCode T (.value e :: args) ν₁ ("%d" ++ f)
      ((.i32, .local (fresh e.position ".cast" ν₂)) :: vs)
      (c₁ ++ [.cast (fresh e.position ".cast" ν₂) .zext .i1 v .i32] ++ c₂) ν₃

/-- The format of a statement that writes. -/
def lineFormat (newline : Bool) (f : String) : String := if newline then f ++ "\n" else f

/-- The directive that prints an argument of a type, if there is one. -/
def directive? : Ir.Ty → Option String
  | .ptr => some "%s"
  | .i32 => some "%d"
  | .double => some "%f"
  | .void | .i1 | .array .. | .struct _ => none

/-- The directives for arguments of some types, in order. -/
def directives (types : List Ir.Ty) : String :=
  String.join (types.map fun t => (directive? t).getD "")

/-- A text that is the format for arguments of some types. -/
def IsFormat (f : String) : Prop :=
  ∃ newline types, f = lineFormat newline (directives types) ∧ ∀ t ∈ types, (directive? t).isSome

/-- The code that stores the first value of a counter less one. -/
def startCode (p : Position) (v slot : Ir.Operand) (ν : Names) : List Ir.Instr :=
  [.store .i32 v slot, .load (fresh p ".pre" ν) .i32 slot,
    .binary (fresh p ".dec" (spend p ".pre" ν)) .sub .i32 (.local (fresh p ".pre" ν)) (.int 1),
    .store .i32 (.local (fresh p ".dec" (spend p ".pre" ν))) slot]

/-- The code that adds one to a counter. -/
def countCode (p : Position) (slot : Ir.Operand) (ν : Names) : List Ir.Instr :=
  [.load (fresh p ".cur" ν) .i32 slot,
    .binary (fresh p ".next" (spend p ".cur" ν)) .add .i32 (.local (fresh p ".cur" ν)) (.int 1),
    .store .i32 (.local (fresh p ".next" (spend p ".cur" ν))) slot]

/-- The code of a statement in which every transition has its target and nothing has been dropped.
The labels are the exit of the loop around it and its next test. -/
inductive StmtCode (T : Pool) :
    Ir.Label → Ir.Label → Stmt → Supply → List Ir.Instr → Supply → Prop
  | blockNil {exit next σ} : StmtCode T exit next (.block []) σ [] σ
  | blockCons {exit next s ss σ₁ σ₂ σ₃ c₁ c₂} (hs : StmtCode T exit next s σ₁ c₁ σ₂)
    (hss : StmtCode T exit next (.block ss) σ₂ c₂ σ₃) :
    StmtCode T exit next (.block (s :: ss)) σ₁ (c₁ ++ c₂) σ₃
  | ifThen {exit next test yes l ν₁ ν₂ σ v c d} (ht : ValueCode test ν₁ v c ν₂)
    (hy : StmtCode T exit next yes ⟨l + 2, ν₂⟩ d σ) :
    StmtCode T exit next (.ifElse test yes none) ⟨l, ν₁⟩
      (c ++ [.jumpIf v l (l + 1), .label l] ++ d ++ [.jump (l + 1), .label (l + 1)]) σ
  | ifElse {exit next test yes no l ν₁ ν₂ σ₁ σ₂ v c d₁ d₂} (ht : ValueCode test ν₁ v c ν₂)
    (hy : StmtCode T exit next yes ⟨l + 3, ν₂⟩ d₁ σ₁) (hn : StmtCode T exit next no σ₁ d₂ σ₂) :
    StmtCode T exit next (.ifElse test yes (some no)) ⟨l, ν₁⟩
      (c ++ [.jumpIf v l (l + 1), .label l] ++ d₁ ++ [.jump (l + 2), .label (l + 1)] ++ d₂ ++
        [.jump (l + 2), .label (l + 2)]) σ₂
  | while {exit next test body l ν₁ ν₂ σ v c d} (ht : ValueCode test ν₁ v c ν₂)
    (hb : StmtCode T (l + 2) l body ⟨l + 3, ν₂⟩ d σ) :
    StmtCode T exit next (.while test body) ⟨l, ν₁⟩
      ([.jump l, .label l] ++ c ++ [.jumpIf v (l + 1) (l + 2)] ++
        .label (l + 1) :: (d ++ [.jump l, .label (l + 2)])) σ
  | repeatUntil {exit next test body l l' ν₁ ν₂ ν₃ v c d}
    (hb : StmtCode T (l + 2) (l + 1) body ⟨l + 3, ν₁⟩ d ⟨l', ν₂⟩)
    (ht : ValueCode test ν₂ v c ν₃) :
    StmtCode T exit next (.repeatUntil body test) ⟨l, ν₁⟩
      ([.jump l] ++ .label l :: (d ++ ([.jump (l + 1), .label (l + 1)] ++ c ++
        [.jumpIf v (l + 2) l, .label (l + 2)]))) ⟨l', ν₃⟩
  | forTo {exit next p target first bound body l ν₁ ν₂ ν₃ ν₄ ν₅ σ v w slot slot' c₁ c₂ c₃ c₄ d}
    (hf : ValueCode first ν₁ v c₁ ν₂) (ht : PlaceCode target ν₂ slot c₂ ν₃)
    (ht' : PlaceCode target (spend p ".dec" (spend p ".pre" ν₃)) slot' c₃ ν₄)
    (hb : ValueCode bound (spend p ".next" (spend p ".cur" ν₄)) w c₄ ν₅)
    (hs : StmtCode T (l + 2) l body ⟨l + 3, spend p ".cmp" ν₅⟩ d σ) :
    StmtCode T exit next (.forTo p target first bound body) ⟨l, ν₁⟩
      (c₁ ++ c₂ ++ startCode p v slot ν₃ ++ [.jump l, .label l] ++ c₃ ++ countCode p slot' ν₄ ++
        c₄ ++ [.compare (fresh p ".cmp" ν₅) .sle .i32
            (.local (fresh p ".next" (spend p ".cur" ν₄))) w,
          .jumpIf (.local (fresh p ".cmp" ν₅)) (l + 1) (l + 2)] ++
        .label (l + 1) :: (d ++ [.jump l, .label (l + 2)])) σ
  | assign {exit next target e l ν₁ ν₂ ν₃ v slot c₁ c₂}
    (he : TypedCode e target.type ν₁ v c₁ ν₂) (ht : PlaceCode target ν₂ slot c₂ ν₃) :
    StmtCode T exit next (.assign target e) ⟨l, ν₁⟩
      (c₁ ++ c₂ ++ [.store (machineType target.type) v slot]) ⟨l, ν₃⟩
  | call {exit next n symbol args params returns l ν₁ ν₂ vs c}
    (h : ArgsCode args params ν₁ vs c ν₂) :
    StmtCode T exit next (.call n symbol args params returns) ⟨l, ν₁⟩
      (c ++ [.call none ((returns.map machineType).getD .void) (functionName symbol) none vs])
      ⟨l, ν₂⟩
  | writeNothing {exit next σ} : StmtCode T exit next (.write false []) σ [] σ
  | write {exit next newline args l ν₁ ν₂ f vs c} (h : WriteCode T args ν₁ f vs c ν₂)
    (hf : lineFormat newline f ∈ T.formats) :
    StmtCode T exit next (.write newline args) ⟨l, ν₁⟩
      (c ++ [.call none .i32 "printf" (some [.ptr])
        ((.ptr, .global (T.formatName (lineFormat newline f))) :: vs)]) ⟨l, ν₂⟩
  | transition {exit next kind p σ} : StmtCode T exit next (.transition kind p) σ
    [.transition kind (some (Ir.Transition.target kind exit next))] σ

/-! ### The code of expressions has no jumps -/

mutual

theorem PlaceCode.plain {e ν₁ ν₂ slot c} (h : PlaceCode e ν₁ slot c ν₂) :
    ∀ i ∈ c, i.isPlain = true := by
  match h with
  | .global => exact List.forall_mem_nil _
  | .routine => exact List.forall_mem_nil _
  | .index ha hi _ =>
    simp only [List.forall_mem_append]
    exact ⟨⟨ha.plain, hi.plain⟩, by simp [Ir.Instr.isPlain]⟩
  | .rebased ha hi _ =>
    simp only [List.forall_mem_append]
    exact ⟨⟨ha.plain, hi.plain⟩, by simp [Ir.Instr.isPlain]⟩
  | .field hr =>
    simp only [List.forall_mem_append]
    exact ⟨hr.plain, by simp [Ir.Instr.isPlain]⟩
termination_by structural h

theorem ValueCode.plain {e ν₁ ν₂ v c} (h : ValueCode e ν₁ v c ν₂) : ∀ i ∈ c, i.isPlain = true := by
  match h with
  | .int | .double | .bool => exact List.forall_mem_nil _
  | .load h | .negate h _ | .minus h _ | .not h _ | .complement h _ | .call h =>
    simp only [List.forall_mem_append]
    exact ⟨h.plain, by simp [Ir.Instr.isPlain]⟩
  | .plus h => exact h.plain
  | .binary hl hr =>
    simp only [List.forall_mem_append]
    refine ⟨⟨hl.plain, hr.plain⟩, ?_⟩
    unfold applied
    split <;> simp [Ir.Instr.isPlain]
termination_by structural h

theorem TypedCode.plain {e t ν₁ ν₂ v c} (h : TypedCode e t ν₁ v c ν₂) :
    ∀ i ∈ c, i.isPlain = true := by
  match h with
  | .widened _ => exact List.forall_mem_nil _
  | .cast _ _ h =>
    simp only [List.forall_mem_append]
    exact ⟨h.plain, by simp [Ir.Instr.isPlain]⟩
  | .same _ h => exact h.plain
termination_by structural h

theorem ArgsCode.plain {es ts ν₁ ν₂ vs c} (h : ArgsCode es ts ν₁ vs c ν₂) :
    ∀ i ∈ c, i.isPlain = true := by
  match h with
  | .nil => exact List.forall_mem_nil _
  | .cons he hes =>
    simp only [List.forall_mem_append]
    exact ⟨he.plain, hes.plain⟩
termination_by structural h

end

theorem WriteCode.plain {T args ν₁ ν₂ f vs c} (h : WriteCode T args ν₁ f vs c ν₂) :
    ∀ i ∈ c, i.isPlain = true := by
  induction h with
  | nil => exact List.forall_mem_nil _
  | text _ _ ih => exact ih
  | integer _ he _ ih | double _ he _ ih => exact List.forall_mem_append.2 ⟨he.plain, ih⟩
  | boolean _ he _ ih =>
    simp only [List.forall_mem_append]
    exact ⟨⟨he.plain, by simp [Ir.Instr.isPlain]⟩, ih⟩

/-! ### Formats -/

theorem directives_cons {t : Ir.Ty} {f : String} (h : directive? t = some f) (ts : List Ir.Ty) :
    directives (t :: ts) = f ++ directives ts := by
  simp [directives, h]

/-- The format of what is written follows from the types of the arguments alone. -/
theorem WriteCode.format_eq {T args ν₁ ν₂ f vs c} (h : WriteCode T args ν₁ f vs c ν₂) :
    f = directives (vs.map Prod.fst) := by
  induction h with
  | nil => rfl
  | text _ _ ih | integer _ _ _ ih | double _ _ _ ih | boolean _ _ _ ih =>
    rw [List.map_cons, directives_cons rfl, ← ih]

/-- An argument has a directive, and where it is a pointer it is one to a text of the pool. -/
def Written (T : Pool) (v : Ir.Ty × Ir.Operand) : Prop :=
  (directive? v.1).isSome ∧ (v.1 = .ptr → ∃ s ∈ T.texts, v.2 = .global (T.textName s))

theorem WriteCode.written {T args ν₁ ν₂ f vs c} (h : WriteCode T args ν₁ f vs c ν₂) :
    ∀ v ∈ vs, Written T v := by
  induction h with
  | nil => exact List.forall_mem_nil _
  | text hs _ ih => exact List.forall_mem_cons.2 ⟨⟨rfl, fun _ => ⟨_, hs, rfl⟩⟩, ih⟩
  | integer _ _ _ ih | double _ _ _ ih | boolean _ _ _ ih =>
    exact List.forall_mem_cons.2 ⟨⟨rfl, nofun⟩, ih⟩

theorem WriteCode.isFormat {T args ν₁ ν₂ f vs c} (h : WriteCode T args ν₁ f vs c ν₂)
    (newline : Bool) : IsFormat (lineFormat newline f) := by
  refine ⟨newline, vs.map Prod.fst, by rw [h.format_eq], fun t ht => ?_⟩
  obtain ⟨v, hv, rfl⟩ := List.mem_map.1 ht
  exact (h.written v hv).1

end MiniPascal.Lowering
