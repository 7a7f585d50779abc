import MiniPascal.Proofs.Lowering.Flow
import MiniPascal.Proofs.Reading.Regular
import MiniPascal.Proofs.Semantics.Statement

/-! Lowered programs do what the programs mean. -/

namespace MiniPascal

open Ir (Config Instr State Value fromLabel labelsSet)
open Lowering

/-! ### First values -/

mutual

theorem Ty.zero_image : ∀ t : Ty, (machineType t).zero = some t.zero.image
  | .scalar .integer | .scalar .double | .scalar .boolean => rfl
  | .array low high t => by
    rw [machineType, Ir.Ty.zero, t.zero_image, Ty.zero, Val.image, Val.images_eq_map,
      List.map_replicate]
    rfl
  | .record fields => by
    rw [machineType, Ir.Ty.zero, Ty.zeros_image fields, Ty.zero, Val.image]
    rfl

theorem Ty.zeros_image : ∀ fields : List (Name × Ty),
    Ir.Ty.zeros (machineTypes fields) = some (Val.images (Ty.zeros fields))
  | [] => rfl
  | (_, t) :: fields => by
    rw [machineTypes, Ir.Ty.zeros, t.zero_image, Ty.zeros_image fields]
    rfl

end

mutual

theorem Ty.zero_hasType : ∀ t : Ty, t.zero.HasType (machineType t)
  | .scalar .integer => .int
  | .scalar .double => .double
  | .scalar .boolean => .bool
  | .array low high t => by
    rw [Ty.zero, machineType]
    refine .array List.length_replicate fun v hv => ?_
    rw [List.eq_of_mem_replicate hv]
    exact t.zero_hasType
  | .record fields => by
    rw [Ty.zero, machineType]
    obtain ⟨hl, h⟩ := Ty.zeros_hasType fields
    exact .record hl h

theorem Ty.zeros_hasType : ∀ fields : List (Name × Ty),
    (Ty.zeros fields).length = (machineTypes fields).length ∧
      ∀ (i : Nat) v t, (Ty.zeros fields)[i]? = some v → (machineTypes fields)[i]? = some t →
        v.HasType t
  | [] => ⟨rfl, nofun⟩
  | (_, t) :: fields => by
    obtain ⟨hl, h⟩ := Ty.zeros_hasType fields
    rw [Ty.zeros, machineTypes]
    refine ⟨congrArg Nat.succ hl, fun i v u hv hu => ?_⟩
    cases i with
    | zero =>
      cases hv
      cases hu
      exact t.zero_hasType
    | succ i => exact h i v u hv hu

end

/-! ### The start -/

section

variable {α : Type} {f : Ty → α} {vars : List (Name × Ty)} {n : Name} {t : Ty}

/-- What depends on the type of each variable, by the canonical forms of the names. -/
def byName (f : Ty → α) (vars : List (Name × Ty)) (S : String → Option α) : String → Option α :=
  vars.foldl (fun S v => Function.update S v.1.canonical (some (f v.2))) S

theorem byName_of_notMem {S : String → Option α}
    (h : n.canonical ∉ vars.map fun v => v.1.canonical) :
    byName f vars S n.canonical = S n.canonical := by
  induction vars generalizing S with
  | nil => rfl
  | cons v vars ih =>
    rw [List.map_cons, List.mem_cons, not_or] at h
    rw [byName, List.foldl_cons]
    exact (ih h.2).trans (Function.update_of_ne h.1 _ _)

theorem byName_of_mem {S : String → Option α}
    (h : (vars.map fun v => v.1.canonical).Nodup) (hn : (n, t) ∈ vars) :
    byName f vars S n.canonical = some (f t) := by
  induction vars generalizing S with
  | nil => cases hn
  | cons v vars ih =>
    rw [List.map_cons, List.nodup_cons] at h
    rw [byName, List.foldl_cons]
    rcases List.mem_cons.1 hn with rfl | hn
    · exact (byName_of_notMem h.1).trans (Function.update_self ..)
    · exact ih h.2 hn

end

/-- The machine types of some variables. -/
def Shapes.ofVars (vars : List (Name × Ty)) : Shapes := byName machineType vars fun _ => none

/-- What the variables of a program hold before it is run. -/
theorem memory_variables {vars : List (Name × Ty)} {added : List Ir.Global}
    (ha : ∀ x ∈ added, ∃ n bytes, x = .text n bytes) {m : Ir.Root → Option Value} {S : Store}
    {D : Shapes} (hm : ∀ x, m (.global ("global_" ++ x)) = (S x).map Val.image)
    (hS : S.Fits D) :
    Store.Fits (byName machineType vars D) (byName Ty.zero vars S) ∧
      ∃ m', Ir.Program.memory (globalVariables vars ++ added) m = some m' ∧
        ∀ x, m' (.global ("global_" ++ x)) = (byName Ty.zero vars S x).map Val.image := by
  induction vars generalizing m S D with
  | nil =>
    -- texts and formats are not kept in memory
    refine ⟨hS, m, ?_, hm⟩
    show Ir.Program.memory added m = some m
    clear hm
    induction added with
    | nil => rfl
    | cons x added ih =>
      obtain ⟨⟨n, bytes, rfl⟩, hadded⟩ := List.forall_mem_cons.1 ha
      exact ih hadded
  | cons v vars ih =>
    obtain ⟨n, t⟩ := v
    -- memory and store get the same first value under the name
    have hm' : ∀ x, Function.update m (.global (globalName n)) (some t.zero.image)
        (.global ("global_" ++ x)) =
        (Function.update S n.canonical (some t.zero) x).map Val.image := by
      intro x
      by_cases hx : x = n.canonical
      · rw [hx, Function.update_self]
        exact Function.update_self ..
      · have hne : Ir.Root.global ("global_" ++ x) ≠ .global (globalName n) := by
          intro he
          injection he with he
          exact hx ((String.append_right_inj "global_").1 he)
        rw [Function.update_of_ne hx, Function.update_of_ne hne]
        exact hm x
    have hS' : Store.Fits (Function.update D n.canonical (some (machineType t)))
        (Function.update S n.canonical (some t.zero)) := by
      intro x u hu
      by_cases hx : x = n.canonical
      · rw [hx, Function.update_self] at hu ⊢
        cases hu
        exact ⟨t.zero, rfl, t.zero_hasType⟩
      · rw [Function.update_of_ne hx] at hu ⊢
        exact hS x u hu
    have hmemory : Ir.Program.memory (globalVariables ((n, t) :: vars) ++ added) m =
        Ir.Program.memory (globalVariables vars ++ added)
          (Function.update m (.global (globalName n)) (some t.zero.image)) := by
      show ((machineType t).zero.bind fun v => Ir.Program.memory (globalVariables vars ++ added)
        (Function.update m (.global (globalName n)) (some v))) = _
      rw [t.zero_image]
      rfl
    rw [hmemory]
    exact ih hm' hS'

theorem Shapes.ofVars_covers {E : Environment} (h : Distinct E.vars)
    (hc : ∀ v ∈ E.vars, v.2.Countable) : (Shapes.ofVars E.vars).Covers (.ofVars E []) where
  global st n t hv := by
    cases st with
    | global => rfl
    | routine =>
      obtain ⟨m, u, hm, -⟩ := hv
      cases hm
  shape st n t hv := by
    cases st with
    | global =>
      obtain ⟨m, hm, hn⟩ := hv
      rw [← hn]
      exact byName_of_mem h.nodup hm
    | routine =>
      obtain ⟨m, u, hm, -⟩ := hv
      cases hm
  countable st n t hv := by
    cases st with
    | global =>
      obtain ⟨m, hm, -⟩ := hv
      exact hc _ hm
    | routine =>
      obtain ⟨m, u, hm, -⟩ := hv
      cases hm

/-! ### Programs -/

/-- Behind the statements, `main` returns, and the machine ends with what has been printed. -/
theorem Setting.ends_return {M : Setting} (ht : M.tail = [.ret (some (.i32, .int 0))]) {n : Nat}
    {C : Config} {o : String} : M.Ends n [] C o ↔ n = 1 ∧ C.output = o := by
  have hstep : (State.running M.main M.tail [] C).step M.floats M.program =
      some ⟨[], C.memory, 1, C.output⟩ := by
    rw [ht]
    rfl
  rw [Setting.Ends, State.halts_iff (List.cons_ne_nil _ _)]
  constructor
  · rintro ⟨m, s, rfl, hs, h⟩
    rw [hstep] at hs
    cases hs
    cases h with
    | done => exact ⟨rfl, rfl⟩
    | step h' => cases h'
  · rintro ⟨rfl, rfl⟩
    exact ⟨0, _, rfl, hstep, .done rfl⟩

/-- The machine runs `main` from the start, in a memory that matches the first world. -/
theorem Program.Lowered.start {p : Program} {T : Pool} {fs : List Ir.Function} {main : List Instr}
    {l : Nat} (h : p.Lowered T fs main l) :
    ∃ C : Config, p.lower.start = some (State.running main [.ret (some (.i32, .int 0))] main C) ∧
      C.Matches (.ofVars p.scope.vars) ⟨.ofVars p.scope.vars, ""⟩ := by
  obtain ⟨added, hglobals, -, hadded⟩ := h.globals
  have htexts : ∀ x ∈ added, ∃ n bytes, x = .text n bytes := by
    intro x hx
    rcases (hadded x).1 hx with ⟨s, -, rfl⟩ | ⟨s, -, rfl⟩ <;> exact ⟨_, _, rfl⟩
  have hempty : Store.Fits (fun _ => none) fun _ => none := fun x t hx => by cases hx
  obtain ⟨hfits, m, hm, hholds⟩ := @memory_variables p.scope.vars _ htexts (fun _ => none) _ _
    (fun _ => rfl) hempty
  have hmain : p.lower.function? "main" = some ⟨"main", .i32, [],
      Ir.dropDead false main ++ [.ret (some (.i32, .int 0))]⟩ := by
    rw [Ir.Program.function?, h.functions, List.reverse_append]
    rfl
  refine ⟨⟨fun _ => none, m, ""⟩, ?_, hholds, hfits, rfl⟩
  rw [Ir.Program.start, hglobals]
  simp only [hm, bind, Option.bind_some, State.enter, hmain, pure]
  rfl

/-- Compiling keeps the meaning of programs: the machine runs the lowered program to its end and
prints a text if and only if the program comes to its end and prints that text. -/
theorem Program.lower_prints {text name : String} {p : Program} (hp : ofText text name = .ok p)
    (hlength : text.length < 2 ^ 30) (hcalls : Stmt.allCallFree p.statements = true)
    (harrays : ∀ v ∈ p.scope.vars, v.2.isIndexable = true) (F : Floats) (o : String) :
    p.lower.Prints F o ↔ p.Prints F o := by
  obtain ⟨hchecked, -⟩ := ofText_checked hp
  have hnarrow := ofText_narrow hp
  obtain ⟨T, fs, main, l, hlowered⟩ := hchecked.lowered
  obtain ⟨added, hglobals, -, hadded⟩ := hlowered.globals
  obtain ⟨C, hstart, hC⟩ := hlowered.start
  obtain ⟨ν, hcode⟩ := hlowered.body.code
  have hcount : ∀ v ∈ p.scope.vars, v.2.Countable := fun v hv =>
    ⟨harrays v hv, text.length, Nat.lt_trans hlength (by decide), hnarrow v hv⟩
  let M : Setting := ⟨F, p.lower, .ofVars p.scope.vars, main, [.ret (some (.i32, .int 0))],
    hcode.setsRange.nodup, rfl⟩
  have hcovers : M.shapes.Covers (.ofVars p.allDeclared []) :=
    Shapes.ofVars_covers (E := p.allDeclared) hchecked.vars hcount
  have hdecodes : M.program.Decodes T := Ir.Program.decodes hchecked.vars hglobals hadded
  -- nothing leads out of the statements but their end
  let stuck (kind : Transition) : List Instr := [.transition kind none]
  have hsim : M.Simulates main ((Stmt.block p.statements).Runs F) (leaving [] stuck) := by
    have hrealizes := hcode.realizes hcovers hdecodes (.block hchecked.main)
      (by rw [Stmt.callFree]; exact hcalls)
    have := hrealizes [] stuck ⟨[], List.append_nil main⟩ (absurd · Bool.false_ne_true)
    rwa [List.append_nil] at this
  constructor
  · rintro ⟨s, n, hs, hhalts⟩
    rw [hstart] at hs
    cases hs
    obtain ⟨a, w, C', m, hruns, hC', -, hends⟩ := hsim.backward hC hhalts
    cases a with
    | none =>
      obtain ⟨-, ho⟩ := (Setting.ends_return rfl).1 hends
      exact ⟨w, hruns, hC'.output.symm.trans ho⟩
    | some kind => exact absurd hends (Setting.not_ends State.step_pending)
  · rintro ⟨w, hruns, rfl⟩
    obtain ⟨C', hC', hends⟩ := hsim.forward hC hruns
    obtain ⟨n, hn⟩ := hends 1 w.output ((Setting.ends_return rfl).2 ⟨rfl, hC'.output⟩)
    exact ⟨_, n, hstart, hn⟩

theorem Program.lower_prints_continue :
    ∃ p, ofText ("program t; var i: integer; a: array[2..4] of double; begin for i := 2 to 4 do " ++
        "begin if i = 3 then continue; a[i] := i / 2; writeln(a[i]) end end.") "t" = .ok p ∧
      ∀ F o, p.lower.Prints F o ↔ p.Prints F o := by
  have hread : ∃ p, ofText ("program t; var i: integer; a: array[2..4] of double; begin " ++
      "for i := 2 to 4 do begin if i = 3 then continue; a[i] := i / 2; writeln(a[i]) end end.")
      "t" = .ok p ∧
      (Stmt.allCallFree p.statements && p.scope.vars.all fun v => v.2.isIndexable) = true :=
    exists_ofText (by cbv)
  obtain ⟨p, hp, h⟩ := hread
  rw [Bool.and_eq_true, List.all_eq_true] at h
  exact ⟨p, hp, lower_prints hp (by decide +kernel) h.1 h.2⟩

end MiniPascal
