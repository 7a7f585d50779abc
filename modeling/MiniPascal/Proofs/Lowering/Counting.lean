import MiniPascal.Proofs.Lowering.Names

/-! The code of a counting loop, in parts. -/

namespace MiniPascal.Lowering

open Ir (Instr Operand Label outputs)

/-- The code of a counting loop, from the code of its first value up to what follows the loop. -/
structure ForLoop where
  /-- Finds the first value, and the operand that it is left in. -/
  first : List Instr
  value : Operand
  /-- Finds the counter before the first test. -/
  seek : List Instr
  target : Operand
  /-- The first value as it is loaded again, and one less. -/
  initial : String
  decremented : String
  check : Label
  entry : Label
  exit : Label
  /-- Finds the counter in every test. -/
  find : List Instr
  slot : Operand
  /-- The counter as it is loaded, and one more. -/
  current : String
  next : String
  /-- Finds the bound, and the operand that it is left in. -/
  bound : List Instr
  limit : Operand
  /-- The outcome of the test. -/
  compared : String
  /-- The body, with the jump back behind it. -/
  body : List Instr
  after : List Instr

namespace ForLoop

variable (L : ForLoop)

/-- The code with which the loop is left. -/
def exitCode : List Instr := .label L.exit :: L.after

/-- The code with which the body is entered. -/
def entryCode : List Instr := .label L.entry :: (L.body ++ L.exitCode)

/-- The code behind that of the bound. -/
def compareCode : List Instr :=
  .compare L.compared .sle .i32 (.local L.next) L.limit ::
    .jumpIf (.local L.compared) L.entry L.exit :: L.entryCode

/-- The code behind that of the counter in a test. -/
def countCode : List Instr :=
  .load L.current .i32 L.slot :: .binary L.next .add .i32 (.local L.current) (.int 1) ::
    .store .i32 (.local L.next) L.slot :: (L.bound ++ L.compareCode)

/-- The code of the test, to which the body leads back. -/
def testCode : List Instr := .label L.check :: (L.find ++ L.countCode)

/-- The code behind that of the counter before the first test. -/
def startCode : List Instr :=
  .store .i32 L.value L.target :: .load L.initial .i32 L.target ::
    .binary L.decremented .sub .i32 (.local L.initial) (.int 1) ::
    .store .i32 (.local L.decremented) L.target :: .jump L.check :: L.testCode

/-- All of the code. -/
def code : List Instr := L.first ++ (L.seek ++ L.startCode)

/-- The parts only compute, and what is left for later is not defined again. -/
structure Apart : Prop where
  first : ∀ i ∈ L.first, i.isPlain = true
  seek : ∀ i ∈ L.seek, i.isPlain = true
  find : ∀ i ∈ L.find, i.isPlain = true
  bound : ∀ i ∈ L.bound, i.isPlain = true
  value : ∀ x, L.value = .local x → x ∉ outputs L.seek
  target : L.target ≠ .local L.initial ∧ L.target ≠ .local L.decremented
  slot : L.slot ≠ .local L.current ∧ L.slot ≠ .local L.next
  next : L.next ∉ outputs L.bound

end ForLoop

/-- What has been appended from one state to another. -/
def appended (g g' : Generator) : List Instr := g'.code.drop g.code.length

@[simp] theorem appended_emit (g : Generator) (c : List Instr) (ν : Names) :
    appended g (g.emit c ν) = c := List.drop_left

/-- The code that a counting loop is lowered to, in front of other code. -/
def forLoop (p : Position) (counter first bound : Expr) (body : Stmt) (after : List Instr)
    (g : Generator) : ForLoop :=
  let (value, g₁) := valueIn first .integer g
  let (target, g₂) := place counter g₁
  let l := g₂.labels
  let started := spend p ".dec" (spend p ".pre" g₂.names)
  let g₃ := (g₂.useLabels 3).emit
    (Lowering.startCode p value target g₂.names ++ [Instr.jump l, .label l]) started
  let (slot, g₄) := place counter g₃
  let counted := spend p ".next" (spend p ".cur" g₄.names)
  let next := fresh p ".next" (spend p ".cur" g₄.names)
  let g₅ := g₄.emit (Lowering.countCode p slot g₄.names) counted
  let (limit, g₆) := valueIn bound .integer g₅
  let compared := fresh p ".cmp" g₆.names
  let g₇ := g₆.emit [.compare compared .sle .i32 (.local next) limit,
    .jumpIf (.local compared) (l + 1) (l + 2), .label (l + 1)] (spend p ".cmp" g₆.names)
  let (_, g₈) := statement body g₇
  { first := appended g g₁, value
    seek := appended g₁ g₂, target
    initial := fresh p ".pre" g₂.names
    decremented := fresh p ".dec" (spend p ".pre" g₂.names)
    check := l, entry := l + 1, exit := l + 2
    find := appended g₃ g₄, slot
    current := fresh p ".cur" g₄.names, next
    bound := appended g₅ g₆, limit, compared
    body := Ir.dropDead false ((appended g₇ g₈ ++ [Instr.jump l]).map (Instr.resolved (l + 2) l))
    after }

/-! ### Operands that stay -/

theorem New.notMem_of_fixed {ν ν' : Names} {xs : List String} (h : New ν xs ν') {x : String}
    (hx : Fixed ν x) : x ∉ xs := by
  intro hmem
  obtain ⟨hgiven, hnew⟩ := h.given x hmem
  exact hx.elim hnew fun hnever => hnever ν' hgiven

theorem given_fresh {s : String} (hs : s ∈ suffixes) (p : Position) (ν : Names) :
    Given (spend p s ν) (fresh p s ν) :=
  ((New.single hs p ν).given _ List.mem_cons_self).1

theorem PlaceCode.fixed {e ν₁ slot c ν₂} (h : PlaceCode e ν₁ slot c ν₂) {x : String}
    (hx : slot = .local x) : Fixed ν₂ x := by
  match h with
  | @PlaceCode.global _ _ _ _ => cases hx
  | @PlaceCode.routine _ _ n _ =>
    cases hx
    exact fixed_addr n.canonical _
  | .index _ _ _ | .rebased _ _ _ | .field _ =>
    cases hx
    exact .inl (given_fresh (by decide) _ _)

theorem ValueCode.fixed {e ν₁ v c ν₂} (h : ValueCode e ν₁ v c ν₂) {x : String}
    (hx : v = .local x) : Fixed ν₂ x := by
  match h with
  | .int | .double | .bool => cases hx
  | .plus h => exact h.fixed hx
  | .call h =>
    cases hx
    exact .inl (h.new.mono _ (given_fresh (by decide) _ _))
  | .load _ | .negate _ _ | .minus _ _ | .not _ _ | .complement _ _ | .binary _ _ =>
    cases hx
    exact .inl (given_fresh (by decide) _ _)
termination_by structural h

/-! ### The whole loop -/

/-- A counting loop that obeys the rules is lowered to its parts. -/
theorem statement_forLoop {Γ : Context} {b : Bool} {p : Position} {counter first bound : Expr}
    {body : Stmt} (h : (Stmt.forTo p counter first bound body).Checked Γ b) (after : List Instr)
    (g : Generator) :
    ∃ g', statement (.forTo p counter first bound body) g = ((), g') ∧
      g'.code ++ after = g.code ++ (forLoop p counter first bound body after g).code ∧
      (forLoop p counter first bound body after g).Apart := by
  cases h with
  | forTo ht hd htt hf hft hb hbt hs =>
    have ht := lowers_of_checked ht
    let l := g.labels
    obtain ⟨v, c₁, ν₁, hc₁, hv⟩ := emits_integer (lowers_of_checked hf) hft g
    obtain ⟨target, c₂, ν₂, hc₂, htarget⟩ := ht.emits_place (g.emit c₁ ν₁) hd
    let μ := spend p ".dec" (spend p ".pre" ν₂)
    let head := c₁ ++ c₂ ++ startCode p v target ν₂
    let g₀ := (((g.emit head μ).useLabels 3).emit [.jump l] μ).emit [.label l] μ
    obtain ⟨slot, c₃, ν₃, hc₃, hslot⟩ := ht.emits_place g₀ hd
    let counted := spend p ".next" (spend p ".cur" ν₃)
    let next := fresh p ".next" (spend p ".cur" ν₃)
    obtain ⟨limit, c₄, ν₄, hc₄, hlimit⟩ := emits_integer (lowers_of_checked hb) hbt
      (g₀.emit (c₃ ++ countCode p slot ν₃) counted)
    let ν := spend p ".cmp" ν₄
    let test := c₃ ++ countCode p slot ν₃ ++ c₄ ++
      [.compare (fresh p ".cmp" ν₄) .sle .i32 (.local next) limit]
    let g₁ := (g₀.emit test ν).emit [.jumpIf (.local (fresh p ".cmp" ν₄)) (l + 1) (l + 2)] ν
    obtain ⟨g₂, d, hbody⟩ := statement_produces hs (g₁.emit [.label (l + 1)] ν)
    let g₃ := (g₂.emit [.jump l] g₂.names).emit [.label (l + 2)] g₂.names
    have htail : g₂.Grows g₃ [.jump l, .label (l + 2)] :=
      (g₂.grows_emit _ _).trans (Generator.grows_emit _ _ _)
    obtain ⟨g₄, hclose, hgrows, -, -⟩ := closeLoop_run hbody.grows htail (l + 2) l
    refine ⟨g₄, forTo_run (loopStart_run p hv htarget) rfl (loopTest_run p hslot hlimit) rfl
      hbody.run hclose, ?_⟩
    -- the parts are what the steps have appended
    have hg₀ : (((g.emit c₁ ν₁).emit c₂ ν₂).useLabels 3).emit
        (startCode p v target ν₂ ++ [Instr.jump l, .label l]) μ = g₀ := by
      simp [g₀, head, Generator.useLabels, Generator.emit]
    have hg₁ : (g₀.emit c₃ ν₃).emit (countCode p slot ν₃) counted =
        g₀.emit (c₃ ++ countCode p slot ν₃) counted := Generator.emit_emit ..
    have hg₂ : ((g₀.emit (c₃ ++ countCode p slot ν₃) counted).emit c₄ ν₄).emit
        [.compare (fresh p ".cmp" ν₄) .sle .i32 (.local next) limit,
          .jumpIf (.local (fresh p ".cmp" ν₄)) (l + 1) (l + 2), .label (l + 1)] ν =
        g₁.emit [.label (l + 1)] ν := by
      simp [g₁, test, Generator.emit_emit]
    have hloop : forLoop p counter first bound body after g = ⟨c₁, v, c₂, target,
        fresh p ".pre" ν₂, fresh p ".dec" (spend p ".pre" ν₂), l, l + 1, l + 2, c₃, slot,
        fresh p ".cur" ν₃, next, c₄, limit, fresh p ".cmp" ν₄,
        Ir.dropDead false ((d ++ [Instr.jump l]).map (Instr.resolved (l + 2) l)), after⟩ := by
      rw [forLoop, hv]
      dsimp only
      rw [htarget]
      dsimp only
      rw [Generator.names_emit]
      have hl : ((g.emit c₁ ν₁).emit c₂ ν₂).labels = l := rfl
      rw [hl, hg₀, hslot]
      dsimp only
      rw [Generator.names_emit, hg₁, hlimit]
      dsimp only
      rw [Generator.names_emit, hg₂, hbody.run]
      dsimp only
      have hd : appended (g₁.emit [.label (l + 1)] ν) g₂ = d := by
        rw [appended, hbody.grows.code, List.drop_left]
      rw [hd, appended_emit, appended_emit, appended_emit, appended_emit]
    rw [hloop]
    refine ⟨?_, ?_⟩
    · -- the label behind the body is never dropped
      have hdrop : Ir.dropDead false ((Instr.label (l + 1) :: (d ++ [.jump l, .label (l + 2)])).map
          (Instr.resolved (l + 2) l)) = .label (l + 1) :: (Ir.dropDead false
            ((d ++ [Instr.jump l]).map (Instr.resolved (l + 2) l)) ++ [.label (l + 2)]) := by
        have hlabel : Instr.resolved (l + 2) l (.label (l + 1)) = .label (l + 1) := rfl
        rw [List.append_cons, List.map_cons, List.map_append, hlabel, Ir.dropDead,
          Ir.dropDead_append]
        rfl
      rw [hgrows.code, hdrop]
      simp [ForLoop.code, ForLoop.startCode, ForLoop.testCode, ForLoop.countCode,
        ForLoop.compareCode, ForLoop.entryCode, ForLoop.exitCode, g₁, test, g₀, head, startCode,
        countCode, Generator.emit, Generator.useLabels, next]
    · have hdec : Fixed (spend p ".pre" ν₂) (fresh p ".pre" ν₂) :=
        .inl (given_fresh (by decide) p ν₂)
      have hnext : Fixed counted next := .inl (given_fresh (by decide) p _)
      exact {
        first := hc₁.plain
        seek := hc₂.plain
        find := hc₃.plain
        bound := hc₄.plain
        value := fun x hx => hc₂.new.notMem_of_fixed (hc₁.fixed hx)
        target := ⟨fun hx => (new_startCode p v target ν₂).notMem_of_fixed (hc₂.fixed hx)
            List.mem_cons_self,
          fun hx => (new_startCode p v target ν₂).notMem_of_fixed (hc₂.fixed hx)
            (List.mem_cons_of_mem _ List.mem_cons_self)⟩
        slot := ⟨fun hx => (new_countCode p slot ν₃).notMem_of_fixed (hc₃.fixed hx)
            List.mem_cons_self,
          fun hx => (new_countCode p slot ν₃).notMem_of_fixed (hc₃.fixed hx)
            (List.mem_cons_of_mem _ List.mem_cons_self)⟩
        next := hc₄.new.notMem_of_fixed hnext }

end MiniPascal.Lowering
