import MiniPascal.Proofs.Semantics.Simulation

/-! The code of statements does what the statements mean. -/

namespace MiniPascal

open Ir (Config Instr fromLabel)
open Lowering
open Setting (Leads Simulates)

namespace Lowering

/-! ### Code without calls of functions -/

theorem applied_local (output : String) (op : BinOp) (t : Ty) (v w : Ir.Operand) :
    (applied output op t v w).isLocal = true := by
  unfold applied
  split <;> rfl

mutual

theorem PlaceCode.local {e ν₁ ν₂ slot c} (h : PlaceCode e ν₁ slot c ν₂)
    (hf : e.callFree = true) : ∀ i ∈ c, i.isLocal = true := by
  match h with
  | .global | .routine => exact List.forall_mem_nil _
  | .index ha hi _ =>
    rw [Expr.callFree, Bool.and_eq_true] at hf
    simp only [List.forall_mem_append]
    exact ⟨⟨ha.local hf.1, hi.local hf.2⟩, List.forall_mem_singleton.2 rfl⟩
  | .rebased ha hi _ =>
    rw [Expr.callFree, Bool.and_eq_true] at hf
    simp only [List.forall_mem_append]
    exact ⟨⟨ha.local hf.1, hi.local hf.2⟩,
      List.forall_mem_cons.2 ⟨rfl, List.forall_mem_singleton.2 rfl⟩⟩
  | .field hr =>
    rw [Expr.callFree] at hf
    simp only [List.forall_mem_append]
    exact ⟨hr.local hf, List.forall_mem_singleton.2 rfl⟩
termination_by structural h

theorem ValueCode.local {e ν₁ ν₂ v c} (h : ValueCode e ν₁ v c ν₂) (hf : e.callFree = true) :
    ∀ i ∈ c, i.isLocal = true := by
  match h with
  | .int | .double | .bool => exact List.forall_mem_nil _
  | .load h =>
    simp only [List.forall_mem_append]
    exact ⟨h.local hf, List.forall_mem_singleton.2 rfl⟩
  | .negate h _ | .minus h _ | .not h _ | .complement h _ =>
    rw [Expr.callFree] at hf
    simp only [List.forall_mem_append]
    exact ⟨h.local hf, List.forall_mem_singleton.2 rfl⟩
  | .plus h =>
    rw [Expr.callFree] at hf
    exact h.local hf
  | .binary hl hr =>
    rw [Expr.callFree, Bool.and_eq_true] at hf
    simp only [List.forall_mem_append]
    exact ⟨⟨hl.local hf.1, hr.local hf.2⟩, List.forall_mem_singleton.2 (applied_local _ _ _ _ _)⟩
  | .call _ => cases hf
termination_by structural h

theorem TypedCode.local {e t ν₁ ν₂ v c} (h : TypedCode e t ν₁ v c ν₂) (hf : e.callFree = true) :
    ∀ i ∈ c, i.isLocal = true := by
  match h with
  | .widened _ => exact List.forall_mem_nil _
  | .cast _ _ h =>
    simp only [List.forall_mem_append]
    exact ⟨h.local hf, List.forall_mem_singleton.2 rfl⟩
  | .same _ h => exact h.local hf
termination_by structural h

end

theorem WriteCode.local {T args ν₁ ν₂ f vs c} (h : WriteCode T args ν₁ f vs c ν₂)
    (hf : ∀ a ∈ args, a.callFree = true) : ∀ i ∈ c, i.isLocal = true := by
  induction h with
  | nil => exact List.forall_mem_nil _
  | text _ _ ih => exact ih (List.forall_mem_cons.1 hf).2
  | integer _ he _ ih | double _ he _ ih =>
    obtain ⟨hfe, hf⟩ := List.forall_mem_cons.1 hf
    exact List.forall_mem_append.2 ⟨he.local hfe, ih hf⟩
  | boolean _ he _ ih =>
    obtain ⟨hfe, hf⟩ := List.forall_mem_cons.1 hf
    simp only [List.forall_mem_append]
    exact ⟨⟨he.local hfe, List.forall_mem_singleton.2 rfl⟩, ih hf⟩

theorem local_startCode (p : Position) (v slot : Ir.Operand) (ν : Names) :
    ∀ i ∈ startCode p v slot ν, i.isLocal = true := by
  simp [startCode, Instr.isLocal, Instr.isPlain]

theorem local_countCode (p : Position) (slot : Ir.Operand) (ν : Names) :
    ∀ i ∈ countCode p slot ν, i.isLocal = true := by
  simp [countCode, Instr.isLocal, Instr.isPlain]

end Lowering

/-! ### Where statements are left -/

/-- Where a statement is left: at its end, or where `break` and `continue` lead. -/
def leaving (rest : List Instr) (leave : Transition → List Instr) :
    Option Transition → List Instr
  | none => rest
  | some kind => leave kind

/-- Where `break` and `continue` lead in a loop. -/
def around (exit next : List Instr) : Transition → List Instr
  | .breakLoop => exit
  | .continueLoop => next

namespace Setting

variable {M : Setting} {α : Type} {enter rest rest' exit next c d : List Instr}
  {leave : Transition → List Instr} {R R' : World → Option Transition → World → Prop}

theorem suffix_of_append (h : c ++ d <:+ M.main) : d <:+ M.main :=
  (List.suffix_append c d).trans h

theorem suffix_of_cons {i : Instr} (h : i :: d <:+ M.main) : d <:+ M.main :=
  (List.suffix_cons i d).trans h

/-- A label that stands in the code leads to where it stands. -/
theorem fromLabel_eq {l : Ir.Label} (h : .label l :: c <:+ M.main) :
    fromLabel l M.main = some (.label l :: c) := Ir.fromLabel_of_suffix M.nodup h

theorem around_target {l l' : Ir.Label} (he : fromLabel l M.main = some exit)
    (hn : fromLabel l' M.main = some next) (kind : Transition) :
    fromLabel (Ir.Transition.target kind l l') M.main = some (around exit next kind) := by
  cases kind with
  | breakLoop => exact he
  | continueLoop => exact hn

namespace Simulates

theorem through (h : M.Simulates enter R (leaving rest leave)) (hl : M.Leads rest rest') :
    M.Simulates enter R (leaving rest' leave) := by
  refine h.behind fun o => ?_
  cases o with
  | none => exact hl
  | some kind => exact .refl _

/-- One statement after another that may not come to its end. -/
theorem andThen (h : M.Simulates enter R (leaving rest leave))
    (h' : M.Simulates rest R' (leaving rest' leave)) :
    M.Simulates enter (fun w o w' => (∃ w₁, R w none w₁ ∧ R' w₁ o w') ∨ o ≠ none ∧ R w o w')
      (leaving rest' leave) := by
  -- a statement that is left by a transition takes the one behind it along
  let after : Option Transition → World → Option Transition → World → Prop
    | none => R'
    | some kind => fun w o w' => o = some kind ∧ w' = w
  have hafter : ∀ o, M.Simulates (leaving rest leave o) (after o) (leaving rest' leave) := by
    intro o
    cases o with
    | none => exact h'
    | some kind => exact done (leaving rest' leave) (some kind)
  refine (h.bind hafter).congr fun w o w' => ?_
  constructor
  · rintro (⟨w₁, hR, hR'⟩ | ⟨ho, hR⟩)
    · exact ⟨none, w₁, hR, hR'⟩
    · obtain ⟨kind, rfl⟩ := Option.ne_none_iff_exists'.1 ho
      exact ⟨some kind, w', hR, rfl, rfl⟩
  · rintro ⟨_ | kind, w₁, hR, hafter⟩
    · exact .inl ⟨w₁, hR, hafter⟩
    · obtain ⟨rfl, rfl⟩ := hafter
      exact .inr ⟨Option.some_ne_none kind, hR⟩

/-- Code without jumps, before other code. -/
theorem after {leave : α → List Instr} {R : World → α → World → Prop}
    {g : World → Option World} (h : M.Simulates rest R leave) (hc : ∀ i ∈ c, i.isLocal = true)
    (hg : ∀ w C, C.Matches M.shapes w → Agrees (fun w' C' => C'.Matches M.shapes w')
      (Ir.execAll M.floats M.program 1 c C) (g w)) :
    M.Simulates (c ++ rest) (fun w o w' => ∃ w₁, g w = some w₁ ∧ R w₁ o w') leave := by
  have hcode : M.Simulates (c ++ rest) (fun w o w' => o = () ∧ g w = some w') fun _ => rest :=
    .straight hc hg rfl
  refine (hcode.bind fun _ => h).congr fun w o w' => ?_
  constructor
  · rintro ⟨w₁, hw, hR⟩
    exact ⟨(), w₁, ⟨rfl, hw⟩, hR⟩
  · rintro ⟨-, w₁, ⟨-, hw⟩, hR⟩
    exact ⟨w₁, hw, hR⟩

/-- A round of a loop, whose end leads to the next test. -/
theorem round (h : M.Simulates enter R (leaving rest (around exit next)))
    (hl : M.Leads rest next) :
    M.Simulates enter R fun o => if o = some .breakLoop then exit else next := by
  refine h.behind fun o => ?_
  -- only `break` leads out: the end of the body and `continue` lead to the next test
  rcases o with _ | _ | _
  · exact hl
  · exact .refl _
  · exact .refl _

end Simulates

/-- The code makes a test and leaves its outcome in an operand. -/
structure Tests (M : Setting) (c : List Instr) (v : Ir.Operand)
    (test : World → Option (Bool × World)) : Prop where
  isLocal : ∀ i ∈ c, i.isLocal = true
  agrees : ∀ w C, C.Matches M.shapes w → Agrees (fun r C' => C'.Matches M.shapes r.2 ∧
    C'.value M.floats v = some (.bool r.1)) (Ir.execAll M.floats M.program 1 c C) (test w)

/-- The code of a test, in front of a jump to one of two labels. -/
theorem simulates_jumpIf {test : World → Option (Bool × World)} {v : Ir.Operand}
    {yes no : Ir.Label} {cyes cno : List Instr} (ht : M.Tests c v test)
    (hyes : fromLabel yes M.main = some cyes) (hno : fromLabel no M.main = some cno) :
    M.Simulates (c ++ .jumpIf v yes no :: rest) (fun w b w' => test w = some (b, w'))
      fun b => if b then cyes else cno := by
  refine .branch id ht.isLocal ht.agrees fun b => ?_
  cases b with
  | true => exact hyes
  | false => exact hno

/-- A loop with a test in front of its body. -/
theorem simulates_loop {test : World → Option (Bool × World)} {v : Ir.Operand} {l yes no : Ir.Label}
    {body tail : List Instr} (ht : M.Tests c v test)
    (hyes : fromLabel yes M.main = some (.label yes :: body))
    (hno : fromLabel no M.main = some (.label no :: rest))
    (hround : M.Simulates body R fun o => if o = some .breakLoop then .label no :: rest else
      .label l :: (c ++ .jumpIf v yes no :: tail)) :
    M.Simulates (.label l :: (c ++ .jumpIf v yes no :: tail))
      (fun w o w' => o = none ∧ Loops test R w w') (leaving rest leave) := by
  have htest : M.Simulates (c ++ .jumpIf v yes no :: tail) _ _ := simulates_jumpIf ht hyes hno
  have hloop : M.Simulates _ (fun w o w' => o = none ∧ Loops test R w w')
      (leaving (.label no :: rest) leave) := .loop rfl (htest.before .label) hround
  exact hloop.through .label

/-- A loop with a test behind its body. What is tested for ends the loop. -/
theorem simulates_repeat {test : World → Option (Bool × World)} {v : Ir.Operand}
    {l yes no : Ir.Label} {body tail : List Instr} (ht : M.Tests c v test)
    (hyes : fromLabel yes M.main = some (.label yes :: rest))
    (hno : fromLabel no M.main = some (.label no :: body))
    (hround : M.Simulates body R fun o => if o = some .breakLoop then .label yes :: rest else
      .label l :: (c ++ .jumpIf v yes no :: tail)) :
    M.Simulates body (fun w o w' => o = none ∧ (R w (some .breakLoop) w' ∨ ∃ o' w₁, R w o' w₁ ∧
        o' ≠ some .breakLoop ∧ Loops (fun w => (test w).map fun (b, w) => (!b, w)) R w₁ w'))
      (leaving rest leave) := by
  -- the loop goes on as long as the test fails
  let again (w : World) : Option (Bool × World) := (test w).map fun (b, w) => (!b, w)
  have hagain : M.Simulates (c ++ .jumpIf v yes no :: tail)
      (fun w b w' => again w = some (b, w'))
      fun b => if b then .label no :: body else .label yes :: rest := by
    refine .branch not ht.isLocal (fun w C hC => ?_) fun b => ?_
    · rw [show again w = (test w).bind _ from Option.map_eq_bind]
      refine (ht.agrees w C hC).apply fun r C' _ hr => ⟨(!r.1, r.2), rfl, hr.1, ?_⟩
      rw [Bool.not_not]
      exact hr.2
    · cases b with
      | true => exact hno
      | false => exact hyes
  have hloop : M.Simulates _ (fun w o w' => o = none ∧ Loops again R w w')
      (leaving (.label yes :: rest) leave) := .loop rfl (hagain.before .label) hround
  -- the first round has no test in front, so it stands outside of the loop from its test on
  have hafter : ∀ o : Option Transition, M.Simulates
      (if o = some .breakLoop then .label yes :: rest else
        .label l :: (c ++ .jumpIf v yes no :: tail))
      (fun w o' w' => o' = none ∧ if o = some .breakLoop then w' = w else Loops again R w w')
      (leaving rest leave) := by
    intro o
    by_cases ho : o = some .breakLoop
    · simp only [if_pos ho]
      exact (Simulates.done (leaving rest leave) none).before .label
    · simp only [if_neg ho]
      exact hloop.through .label
  refine (hround.bind hafter).congr fun w o w' => ?_
  constructor
  · rintro ⟨rfl, hbreak | ⟨o', w₁, hR, ho', hloops⟩⟩
    · exact ⟨some .breakLoop, w', hbreak, rfl, by rw [if_pos rfl]⟩
    · exact ⟨o', w₁, hR, rfl, by rwa [if_neg ho']⟩
  · rintro ⟨o', w₁, hR, rfl, hafter⟩
    by_cases ho' : o' = some .breakLoop
    · rw [if_pos ho'] at hafter
      subst hafter
      exact ⟨rfl, .inl (ho' ▸ hR)⟩
    · rw [if_neg ho'] at hafter
      exact ⟨rfl, .inr ⟨o', w₁, hR, ho', hafter⟩⟩

/-- The code of a statement simulates its meaning, in front of whatever code and with whatever
leads out of the loop around it. The flag tells whether there is one. -/
def Realizes (M : Setting) (b : Bool) (exit next : Ir.Label) (s : Stmt) (d : List Instr) : Prop :=
  ∀ rest leave, d ++ rest <:+ M.main →
    (b = true → ∀ kind, fromLabel (Ir.Transition.target kind exit next) M.main =
      some (leave kind)) →
    M.Simulates (d ++ rest) (s.Runs M.floats) (leaving rest leave)

end Setting

/-! ### Statements -/

section

open Setting (Tests Realizes suffix_of_append suffix_of_cons fromLabel_eq around_target)

variable {M : Setting} {T : Pool} {Γ : Context} {enter c d d₁ d₂ : List Instr} {test : Expr}
  {ν₁ ν₂ ν₃ : Names} {v : Ir.Operand} {R R' : World → Option Transition → World → Prop}
  {b : Bool} {exit next l : Ir.Label} {s body yes no : Stmt}

/-- A test leaves the world as it is. -/
theorem World.eq_of_test {F : Floats} {w w' : World} {b : Bool}
    (h : w.test F test = some (b, w')) : w' = w := by
  obtain ⟨a, -, h⟩ := Option.bind_eq_some_iff.1 h
  obtain ⟨b', -, h⟩ := Option.bind_eq_some_iff.1 h
  cases h
  rfl

theorem Setting.Simulates.cases {leave : Bool → List Instr}
    {leave' : Option Transition → List Instr}
    (h : M.Simulates enter (fun w b w' => w.test M.floats test = some (b, w')) leave)
    (hy : M.Simulates (leave true) R leave') (hn : M.Simulates (leave false) R' leave') :
    M.Simulates enter (fun w o w' => w.test M.floats test = some (true, w) ∧ R w o w' ∨
      w.test M.floats test = some (false, w) ∧ R' w o w') leave' := by
  have hboth : ∀ b, M.Simulates (leave b) (bif b then R else R') leave' := by
    intro b
    cases b with
    | true => exact hy
    | false => exact hn
  refine (h.bind hboth).congr fun w o w' => ?_
  constructor
  · rintro (⟨ht, hR⟩ | ⟨ht, hR⟩)
    · exact ⟨true, w, ht, hR⟩
    · exact ⟨false, w, ht, hR⟩
  · rintro ⟨_ | _, w₁, ht, hR⟩
    · obtain rfl := World.eq_of_test ht
      exact .inr ⟨ht, hR⟩
    · obtain rfl := World.eq_of_test ht
      exact .inl ⟨ht, hR⟩

theorem realizes_blockNil : M.Realizes b exit next (.block []) [] := by
  intro rest leave _ _
  rw [List.nil_append, Stmt.runs_block_nil]
  exact .done (leaving rest leave) none

theorem realizes_blockCons {ss : List Stmt} (hs : M.Realizes b exit next s d₁)
    (hss : M.Realizes b exit next (.block ss) d₂) :
    M.Realizes b exit next (.block (s :: ss)) (d₁ ++ d₂) := by
  intro rest leave hmain hloop
  rw [List.append_assoc] at hmain ⊢
  have hfirst := hs (d₂ ++ rest) leave hmain hloop
  have hothers := hss rest leave (suffix_of_append hmain) hloop
  rw [Stmt.runs_block_cons]
  exact hfirst.andThen hothers

theorem realizes_ifThen (ht : M.Tests c v (·.test M.floats test))
    (hy : M.Realizes b exit next yes d) :
    M.Realizes b exit next (.ifElse test yes none)
      (c ++ [Instr.jumpIf v l (l + 1), .label l] ++ d ++ [Instr.jump (l + 1), .label (l + 1)]) := by
  intro rest leave hmain hloop
  simp only [List.append_assoc, List.cons_append, List.nil_append] at hmain ⊢
  have hthen := suffix_of_cons (suffix_of_append hmain)
  have hend := fromLabel_eq (suffix_of_cons (suffix_of_append (suffix_of_cons hthen)))
  have hbody := (hy _ leave (suffix_of_cons hthen) hloop).through ((Leads.jump hend).trans .label)
  have hskip := Setting.Simulates.done (M := M) (leaving rest leave) none
  rw [Stmt.Runs]
  exact (Setting.simulates_jumpIf ht (fromLabel_eq hthen) hend).cases (hbody.before .label)
    (hskip.before .label)

theorem realizes_ifElse (ht : M.Tests c v (·.test M.floats test))
    (hy : M.Realizes b exit next yes d₁) (hn : M.Realizes b exit next no d₂) :
    M.Realizes b exit next (.ifElse test yes (some no))
      (c ++ [Instr.jumpIf v l (l + 1), .label l] ++ d₁ ++ [Instr.jump (l + 2), .label (l + 1)] ++
        d₂ ++ [Instr.jump (l + 2), .label (l + 2)]) := by
  intro rest leave hmain hloop
  simp only [List.append_assoc, List.cons_append, List.nil_append] at hmain ⊢
  have hthen := suffix_of_cons (suffix_of_append hmain)
  have helse := suffix_of_cons (suffix_of_append (suffix_of_cons hthen))
  have hend := fromLabel_eq (suffix_of_cons (suffix_of_append (suffix_of_cons helse)))
  have hyes := (hy _ leave (suffix_of_cons hthen) hloop).through ((Leads.jump hend).trans .label)
  have hno := (hn _ leave (suffix_of_cons helse) hloop).through ((Leads.jump hend).trans .label)
  rw [Stmt.Runs]
  exact (Setting.simulates_jumpIf ht (fromLabel_eq hthen) (fromLabel_eq helse)).cases
    (hyes.before .label) (hno.before .label)

/-- The code that `while` and `for` share: the label of the test, the test, and the body. -/
theorem simulates_rounds {rest : List Instr} {leave : Transition → List Instr}
    {test : World → Option (Bool × World)} (ht : M.Tests c v test)
    (hbody : M.Realizes true (l + 2) l body d)
    (hmain : .label l :: (c ++ .jumpIf v (l + 1) (l + 2) :: .label (l + 1) ::
      (d ++ .jump l :: .label (l + 2) :: rest)) <:+ M.main) :
    M.Simulates (.jump l :: .label l :: (c ++ .jumpIf v (l + 1) (l + 2) :: .label (l + 1) ::
        (d ++ .jump l :: .label (l + 2) :: rest)))
      (fun w o w' => o = none ∧ Loops test (body.Runs M.floats) w w') (leaving rest leave) := by
  -- the label of the test stands where the loop starts, that of the exit behind the body
  have hnext := fromLabel_eq hmain
  have hthen := suffix_of_cons (suffix_of_append (suffix_of_cons hmain))
  have hexit := fromLabel_eq (suffix_of_cons (suffix_of_append (suffix_of_cons hthen)))
  have hround := hbody _ _ (suffix_of_cons hthen) fun _ => around_target hexit hnext
  exact (Setting.simulates_loop ht (fromLabel_eq hthen) hexit (hround.round (.jump hnext))).before
    (.jump hnext)

theorem realizes_while (ht : M.Tests c v (·.test M.floats test))
    (hbody : M.Realizes true (l + 2) l body d) :
    M.Realizes b exit next (.while test body)
      ([Instr.jump l, .label l] ++ c ++ [Instr.jumpIf v (l + 1) (l + 2)] ++
        Instr.label (l + 1) :: (d ++ [Instr.jump l, .label (l + 2)])) := by
  intro rest leave hmain _
  simp only [List.append_assoc, List.cons_append, List.nil_append] at hmain ⊢
  rw [Stmt.Runs]
  exact simulates_rounds ht hbody (suffix_of_cons hmain)

theorem realizes_for {p : Position} {target first bound : Expr} {c₁ : List Instr}
    (hlocal : ∀ i ∈ c₁, i.isLocal = true)
    (hstart : ∀ w C, C.Matches M.shapes w → Agrees (fun w' C' => C'.Matches M.shapes w')
      (Ir.execAll M.floats M.program 1 c₁ C) (w.startCount M.floats target first))
    (ht : M.Tests c v (·.count M.floats target bound))
    (hbody : M.Realizes true (l + 2) l body d) :
    M.Realizes b exit next (.forTo p target first bound body)
      (c₁ ++ [Instr.jump l, .label l] ++ c ++ [Instr.jumpIf v (l + 1) (l + 2)] ++
        Instr.label (l + 1) :: (d ++ [Instr.jump l, .label (l + 2)])) := by
  intro rest leave hmain _
  simp only [List.append_assoc, List.cons_append, List.nil_append] at hmain ⊢
  have hrounds : M.Simulates _ _ (leaving rest leave) :=
    simulates_rounds ht hbody (suffix_of_cons (suffix_of_append hmain))
  rw [Stmt.Runs]
  refine (hrounds.after hlocal hstart).congr fun w o w' => ?_
  constructor
  · rintro ⟨ho, w₁, hw, hloops⟩
    exact ⟨w₁, hw, ho, hloops⟩
  · rintro ⟨w₁, hw, ho, hloops⟩
    exact ⟨ho, w₁, hw, hloops⟩

theorem realizes_repeat (ht : M.Tests c v (·.test M.floats test))
    (hbody : M.Realizes true (l + 2) (l + 1) body d) :
    M.Realizes b exit next (.repeatUntil body test)
      ([Instr.jump l] ++ Instr.label l :: (d ++ ([Instr.jump (l + 1), .label (l + 1)] ++ c ++
        [Instr.jumpIf v (l + 2) l, .label (l + 2)]))) := by
  intro rest leave hmain _
  simp only [List.append_assoc, List.cons_append, List.nil_append] at hmain ⊢
  have hfirst := suffix_of_cons hmain
  have hagain := fromLabel_eq hfirst
  have hhead := suffix_of_cons (suffix_of_append (suffix_of_cons hfirst))
  have hnext := fromLabel_eq hhead
  have hexit := fromLabel_eq (suffix_of_cons (suffix_of_append (suffix_of_cons hhead)))
  have hround := hbody _ _ (suffix_of_cons hfirst) fun _ => around_target hexit hnext
  rw [Stmt.Runs]
  exact (Setting.simulates_repeat ht hexit hagain (hround.round (.jump hnext))).before
    ((Leads.jump hagain).trans .label)

/-- Code without jumps realizes a statement that always comes to its end. -/
theorem realizes_straight {g : World → Option World} (hlocal : ∀ i ∈ c, i.isLocal = true)
    (h : ∀ w C, C.Matches M.shapes w → Agrees (fun w' C' => C'.Matches M.shapes w')
      (Ir.execAll M.floats M.program 1 c C) (g w))
    (hruns : ∀ w o w', s.Runs M.floats w o w' ↔ o = none ∧ g w = some w') :
    M.Realizes b exit next s c := by
  intro rest leave _ _
  have hcode : M.Simulates (c ++ rest) (fun w o w' => o = none ∧ g w = some w')
      (leaving rest leave) := .straight hlocal h rfl
  exact hcode.congr hruns

theorem runs_write {F : Floats} {newline : Bool} {args : List WriteArg} {w w' : World}
    {o : Option Transition} :
    (Stmt.write newline args).Runs F w o w' ↔ o = none ∧ ((w.shownAll F args).bind fun text =>
      some { w with output := w.output ++ text ++ if newline then "\n" else "" }) = some w' := by
  rw [Stmt.Runs, Option.bind_eq_some_iff]
  simp only [Option.some.injEq, eq_comm (b := w')]

section

variable (hΓ : M.shapes.Covers Γ)
include hΓ

theorem condition_tests (h : ValueCode test ν₁ v c ν₂) (he : test.Checked Γ)
    (ht : test.type = .boolean) (hf : test.callFree = true) :
    M.Tests c v (·.test M.floats test) :=
  ⟨h.local hf, fun _ _ hC => test_agrees hΓ h he ht hf hC⟩

theorem counter_tests {target bound : Expr} {slot u : Ir.Operand} {p : Position}
    (ht : PlaceCode target ν₁ slot d₁ ν₂)
    (hb : ValueCode bound (spend p ".next" (spend p ".cur" ν₂)) u d₂ ν₃) (ht' : target.Checked Γ)
    (htt : target.type = .integer) (hb' : bound.Checked Γ) (hbt : bound.type = .integer)
    (hft : target.callFree = true) (hfb : bound.callFree = true) :
    M.Tests (d₁ ++ countCode p slot ν₂ ++ d₂ ++ [.compare (fresh p ".cmp" ν₃) .sle .i32
      (.local (fresh p ".next" (spend p ".cur" ν₂))) u]) (.local (fresh p ".cmp" ν₃))
      (·.count M.floats target bound) where
  isLocal := by
    simp only [List.forall_mem_append]
    exact ⟨⟨⟨ht.local hft, local_countCode p slot ν₂⟩, hb.local hfb⟩,
      by simp [Instr.isLocal, Instr.isPlain]⟩
  agrees _ _ hC := count_agrees hΓ ht hb ht' htt hb' hbt hft hfb hC

/-- The direct code of a statement simulates its meaning. -/
theorem Lowering.StmtCode.realizes (hT : M.program.Decodes T) {σ σ' : Supply}
    (h : StmtCode T exit next s σ d σ') (hs : s.Checked Γ b) (hf : s.callFree = true) :
    M.Realizes b exit next s d := by
  induction h generalizing b with
  | blockNil => exact realizes_blockNil
  | blockCons _ _ ih₁ ih₂ =>
    cases hs with | block hs =>
    obtain ⟨hs₁, hs₂⟩ := List.forall_mem_cons.1 hs
    rw [Stmt.callFree, Stmt.allCallFree, Bool.and_eq_true] at hf
    exact realizes_blockCons (ih₁ hs₁ hf.1) (ih₂ (.block hs₂) (by rw [Stmt.callFree]; exact hf.2))
  | ifThen ht _ ih =>
    cases hs with | ifThen he hb hs =>
    rw [Stmt.callFree, Bool.and_eq_true] at hf
    exact realizes_ifThen (condition_tests hΓ ht he hb hf.1) (ih hs hf.2)
  | ifElse ht _ _ ihy ihn =>
    cases hs with | ifElse he hb hsy hsn =>
    rw [Stmt.callFree, Bool.and_eq_true, Bool.and_eq_true] at hf
    obtain ⟨⟨hft, hfy⟩, hfn⟩ := hf
    exact realizes_ifElse (condition_tests hΓ ht he hb hft) (ihy hsy hfy) (ihn hsn hfn)
  | «while» ht _ ih =>
    cases hs with | «while» he hb hs =>
    rw [Stmt.callFree, Bool.and_eq_true] at hf
    exact realizes_while (condition_tests hΓ ht he hb hf.1) (ih hs hf.2)
  | repeatUntil _ ht ih =>
    cases hs with | repeatUntil hs he hb =>
    rw [Stmt.callFree, Bool.and_eq_true] at hf
    exact realizes_repeat (condition_tests hΓ ht he hb hf.1) (ih hs hf.2)
  | @forTo exit next p _ _ _ _ l _ _ ν₃ _ _ _ v _ slot _ c₁ c₂ _ _ _ hv ht ht' hu _ ih =>
    cases hs with | forTo hct hd htt hcf hft hcb hbt hs =>
    simp only [Stmt.callFree, Bool.and_eq_true] at hf
    obtain ⟨⟨⟨hft', hff⟩, hfb⟩, hf⟩ := hf
    -- the first value is stored in front of the loop, and counting is part of the test
    have hlocal : ∀ i ∈ c₁ ++ c₂ ++ startCode p v slot ν₃, i.isLocal = true := by
      simp only [List.forall_mem_append]
      exact ⟨⟨hv.local hff, ht.local hft'⟩, local_startCode p v slot ν₃⟩
    have hloop := @realizes_for M _ _ _ b exit next l _ p _ _ _ _ hlocal
      (fun w C hC => startCount_agrees hΓ hv ht hcf hft hct htt hff hft' p hC)
      (counter_tests hΓ ht' hu hct htt hcb hbt hft' hfb) (ih hs hf)
    simp only [List.append_assoc, List.cons_append, List.nil_append] at hloop ⊢
    exact hloop
  | assign he ht =>
    cases hs with | assign hct hd hce ha =>
    rw [Stmt.callFree, Bool.and_eq_true] at hf
    refine realizes_straight ?_ (fun _ _ hC => assign_agrees hΓ he ht hce ha hct hf.2 hf.1 hC)
      fun w o w' => by rw [Stmt.Runs, Option.bind_eq_some_iff]
    simp only [List.forall_mem_append]
    exact ⟨⟨he.local hf.2, ht.local hf.1⟩, by simp [Instr.isLocal, Instr.isPlain]⟩
  | call => cases hf
  | writeNothing =>
    refine realizes_straight (List.forall_mem_nil _) (fun _ _ hC => .result hC) fun w o w' => ?_
    rw [runs_write]
    simp only [World.shownAll, Option.bind_some, String.append_empty, Bool.false_eq_true, if_false]
  | write h hformat =>
    cases hs with | write ha =>
    rw [Stmt.callFree, List.all_eq_true] at hf
    refine realizes_straight ?_ (fun _ _ hC => write_agrees hΓ hT h hformat ha hf hC)
      fun _ _ _ => runs_write
    simp only [List.forall_mem_append]
    exact ⟨h.local hf, by simp [Instr.isLocal]⟩
  | transition =>
    intro rest leave _ hloop
    cases hs
    rw [Stmt.Runs]
    exact (Setting.Simulates.done (leaving rest leave) (some _)).before
      (.transition (hloop rfl _))

end

end

end MiniPascal
