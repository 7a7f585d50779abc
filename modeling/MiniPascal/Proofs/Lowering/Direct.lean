import MiniPascal.Proofs.Lowering.Growth

/-! What the lowering makes of a statement is, whatever targets pending transitions get, the direct
code of the statement. -/

namespace MiniPascal.Lowering

open Ir (Settled Live SameLive Steady)

/-- What the lowering of a statement makes of the state. The flag tells whether a loop is around. -/
structure Produces (s : Stmt) (inLoop : Bool) (g g' : Generator) (c : List Ir.Instr) : Prop where
  run : statement s g = ((), g')
  grows : g.Grows g' c
  closed : inLoop = false → Settled c ∧ Live c
  direct : ∀ T, g'.pool.Le T → ∀ exit next, ∃ d, StmtCode T exit next s g.supply d g'.supply ∧
    SameLive d (c.map (Ir.Instr.resolved exit next))

/-- Code without transitions is its own direct code. -/
theorem Produces.of_steady {s : Stmt} {b : Bool} {g g' : Generator} {c : List Ir.Instr}
    (hrun : statement s g = ((), g')) (hg : g.Grows g' c) (hc : Steady c)
    (hd : ∀ T, g'.pool.Le T → ∀ exit next, StmtCode T exit next s g.supply c g'.supply) :
    Produces s b g g' c where
  run := hrun
  grows := hg
  closed _ := ⟨hc.settled, hc.live⟩
  direct T hT exit next := ⟨c, hd T hT exit next, by rw [hc.settled.resolved]; exact .refl c⟩

theorem produces_block {b : Bool} {ss : List Stmt}
    (h : ∀ s ∈ ss, ∀ g, ∃ g' c, Produces s b g g' c) (g : Generator) :
    ∃ g' c, Produces (.block ss) b g g' c := by
  have hblock : ∀ ss, (statement (.block ss) : Step Unit) = statements ss := fun ss => by
    rw [statement]
  induction ss generalizing g with
  | nil =>
    refine ⟨g, [], .of_steady ?_ (.refl g) (fun _ _ => List.not_mem_nil) fun _ _ _ _ => .blockNil⟩
    rw [hblock, statements]
    rfl
  | cons s ss ih =>
    obtain ⟨hs, hss⟩ := List.forall_mem_cons.1 h
    obtain ⟨g₁, c₁, h₁⟩ := hs g
    obtain ⟨g₂, c₂, h₂⟩ := ih hss g₁
    refine ⟨g₂, c₁ ++ c₂, ?_, h₁.grows.trans h₂.grows, fun hb => ?_, fun T hT exit next => ?_⟩
    · have := h₂.run
      rw [hblock] at this ⊢
      rw [statements, bind_run h₁.run]
      exact this
    · obtain ⟨hs₁, hl₁⟩ := h₁.closed hb
      obtain ⟨hs₂, hl₂⟩ := h₂.closed hb
      exact ⟨Ir.settled_append.2 ⟨hs₁, hs₂⟩, hl₁.append hl₂⟩
    · obtain ⟨d₁, hd₁, hl₁⟩ := h₁.direct T (h₂.grows.pool.trans hT) exit next
      obtain ⟨d₂, hd₂, hl₂⟩ := h₂.direct T hT exit next
      refine ⟨d₁ ++ d₂, .blockCons hd₁ hd₂, ?_⟩
      rw [List.map_append]
      exact hl₁.append hl₂

theorem newLabel_run (g : Generator) : newLabel g = (g.labels, g.useLabels 1) := rfl

theorem here_run (g : Generator) : here g = (g.code.length, g) := rfl

/-- Code that ends in jumps and labels without a transition. -/
theorem steady_control {c d : List Ir.Instr} (hc : ∀ i ∈ c, i.isPlain = true) (hd : Steady d) :
    Steady (c ++ d) := Ir.steady_append.2 ⟨Ir.steady_of_plain hc, hd⟩

theorem steady_jumpIf (v : Ir.Operand) (yes no l : Ir.Label) :
    Steady [.jumpIf v yes no, .label l] := by simp [Steady]

theorem steady_jump (l l' : Ir.Label) : Steady [.jump l, .label l'] := by simp [Steady]

theorem produces_ifThen {b : Bool} {test : Expr} {yes : Stmt} (ht : Lowers test)
    (hy : ∀ g, ∃ g' c, Produces yes b g g' c) (g : Generator) :
    ∃ g' c, Produces (.ifElse test yes none) b g g' c := by
  obtain ⟨v, c, ν, hc, hv⟩ := ht.emits_value g
  -- both labels are taken before the branch is lowered
  let g₀ := (g.emit c ν).useLabels 2
  let g₁ := (g₀.emit [.jumpIf v g.labels (g.labels + 1)] ν).emit [.label g.labels] ν
  obtain ⟨g₂, d, h⟩ := hy g₁
  let g₃ := (g₂.emit [.jump (g.labels + 1)] g₂.names).emit [.label (g.labels + 1)] g₂.names
  have hhead := steady_control hc.plain (steady_jumpIf v g.labels (g.labels + 1) g.labels)
  have htail := steady_jump (g.labels + 1) (g.labels + 1)
  refine ⟨g₃, c ++ [.jumpIf v g.labels (g.labels + 1), .label g.labels] ++ d ++
    [.jump (g.labels + 1), .label (g.labels + 1)], ?_, ?_, fun hb => ?_, fun T hT exit next => ?_⟩
  · rw [statement, bind_run hv, bind_run (newLabel_run _), bind_run (newLabel_run _),
      bind_run (push_run _ _), bind_run (push_run _ _)]
    exact bind_run h.run
  · have h₁ : g.Grows g₁ (c ++ [.jumpIf v g.labels (g.labels + 1), .label g.labels]) :=
      (g.grows_emit c ν).trans <| ((g.emit c ν).grows_useLabels 2).trans <|
        (g₀.grows_emit _ ν).trans (Generator.grows_emit _ _ ν)
    exact (h₁.trans h.grows).trans ((g₂.grows_emit _ _).trans (Generator.grows_emit _ _ _))
  · obtain ⟨hs, hl⟩ := h.closed hb
    exact ⟨Ir.settled_append.2 ⟨Ir.settled_append.2 ⟨hhead.settled, hs⟩, htail.settled⟩,
      (hhead.live.append hl).append htail.live⟩
  · obtain ⟨d', hd', hl⟩ := h.direct T hT exit next
    refine ⟨_, .ifThen hc hd', ?_⟩
    rw [List.map_append, List.map_append, hhead.settled.resolved, htail.settled.resolved]
    exact ((SameLive.refl _).append hl).append (.refl _)

theorem produces_ifElse {b : Bool} {test : Expr} {yes no : Stmt} (ht : Lowers test)
    (hy : ∀ g, ∃ g' c, Produces yes b g g' c) (hn : ∀ g, ∃ g' c, Produces no b g g' c)
    (g : Generator) : ∃ g' c, Produces (.ifElse test yes (some no)) b g g' c := by
  obtain ⟨v, c, ν, hc, hv⟩ := ht.emits_value g
  let l := g.labels
  let g₀ := (g.emit c ν).useLabels 3
  let g₁ := (g₀.emit [.jumpIf v l (l + 1)] ν).emit [.label l] ν
  obtain ⟨g₂, d₁, h₁⟩ := hy g₁
  let g₃ := (g₂.emit [.jump (l + 2)] g₂.names).emit [.label (l + 1)] g₂.names
  obtain ⟨g₄, d₂, h₂⟩ := hn g₃
  let g₅ := (g₄.emit [.jump (l + 2)] g₄.names).emit [.label (l + 2)] g₄.names
  have hhead := steady_control hc.plain (steady_jumpIf v l (l + 1) l)
  have hmid := steady_jump (l + 2) (l + 1)
  have htail := steady_jump (l + 2) (l + 2)
  have hg₁ : g.Grows g₁ (c ++ [.jumpIf v l (l + 1), .label l]) :=
    (g.grows_emit c ν).trans <| ((g.emit c ν).grows_useLabels 3).trans <|
      (g₀.grows_emit _ ν).trans (Generator.grows_emit _ _ ν)
  have hg₃ : g₂.Grows g₃ [.jump (l + 2), .label (l + 1)] :=
    (g₂.grows_emit _ _).trans (Generator.grows_emit _ _ _)
  have hg₅ : g₄.Grows g₅ [.jump (l + 2), .label (l + 2)] :=
    (g₄.grows_emit _ _).trans (Generator.grows_emit _ _ _)
  refine ⟨g₅, c ++ [.jumpIf v l (l + 1), .label l] ++ d₁ ++ [.jump (l + 2), .label (l + 1)] ++
    d₂ ++ [.jump (l + 2), .label (l + 2)], ?_,
    (((hg₁.trans h₁.grows).trans hg₃).trans h₂.grows).trans hg₅, fun hb => ?_,
    fun T hT exit next => ?_⟩
  · -- the run
    rw [statement, bind_run hv, bind_run (newLabel_run _), bind_run (newLabel_run _),
      bind_run (newLabel_run _), bind_run (push_run _ _), bind_run (push_run _ _)]
    refine (bind_run h₁.run).trans ?_
    rw [bind_run (push_run _ _), bind_run (push_run _ _)]
    exact bind_run h₂.run
  · -- outside of loops nothing is pending
    obtain ⟨hs₁, hl₁⟩ := h₁.closed hb
    obtain ⟨hs₂, hl₂⟩ := h₂.closed hb
    refine ⟨?_, (((hhead.live.append hl₁).append hmid.live).append hl₂).append htail.live⟩
    have hset := Ir.settled_append.2 ⟨Ir.settled_append.2 ⟨hhead.settled, hs₁⟩, hmid.settled⟩
    exact Ir.settled_append.2 ⟨Ir.settled_append.2 ⟨hset, hs₂⟩, htail.settled⟩
  · -- the direct code, whatever the targets
    obtain ⟨d₁', hd₁, hl₁⟩ := h₁.direct T (h₂.grows.pool.trans hT) exit next
    obtain ⟨d₂', hd₂, hl₂⟩ := h₂.direct T hT exit next
    refine ⟨_, .ifElse hc hd₁ hd₂, ?_⟩
    rw [List.map_append, List.map_append, List.map_append, List.map_append,
      hhead.settled.resolved, hmid.settled.resolved, htail.settled.resolved]
    exact ((((SameLive.refl _).append hl₁).append (.refl _)).append hl₂).append (.refl _)

/-! ### Loops -/

/-- Closing a loop: the code from the label of its body on is resolved, and dead code goes. -/
theorem closeLoop_run {g₁ g₂ g₃ : Generator} {start : Ir.Label} {c tail : List Ir.Instr}
    (hb : (g₁.emit [.label start] g₁.names).Grows g₂ c) (ht : g₂.Grows g₃ tail)
    (exit next : Ir.Label) :
    ∃ g₄, closeLoop g₁.code.length exit next g₃ = ((), g₄) ∧
      g₁.Grows g₄ (Ir.dropDead false
        ((.label start :: (c ++ tail)).map (Ir.Instr.resolved exit next))) ∧
      g₄.supply = g₃.supply ∧ g₄.pool = g₃.pool := by
  -- the body has only grown the code, so the index is still where the label of the body stands
  have hgrows := ((g₁.grows_emit [.label start] g₁.names).trans hb).trans ht
  have hcode : g₃.code = g₁.code ++ .label start :: (c ++ tail) := by
    rw [hgrows.code, List.append_assoc, List.singleton_append]
  let code := g₁.code ++ Ir.dropDead false
    ((.label start :: (c ++ tail)).map (Ir.Instr.resolved exit next))
  refine ⟨{ g₃ with code }, ?_, { hgrows with
    code := rfl
    stores := fun vars h => (hgrows.stores vars h).of_eq rfl rfl rfl }, rfl, rfl⟩
  show ((), ({ g₃ with code := _ } : Generator)) = ((), { g₃ with code })
  simp only [Ir.eliminateDeadCode, Ir.resolveTransitions_eq, hcode, List.take_left',
    List.drop_left']
  rfl

/-- The loops have their bodies at the end, behind code without transitions. -/
theorem produces_loop {s body : Stmt} {b : Bool} {g g₁ g₂ g₃ : Generator} {start : Ir.Label}
    {pre c tail : List Ir.Instr} (exit next : Ir.Label) (hpre : g.Grows g₁ pre)
    (hsteady : Steady pre) (hbody : Produces body true (g₁.emit [.label start] g₁.names) g₂ c)
    (htail : g₂.Grows g₃ tail) (ht : Steady tail) (hs : Ir.skips true tail = false)
    (hrun : ∀ g₄, closeLoop g₁.code.length exit next g₃ = ((), g₄) → statement s g = ((), g₄))
    (hdirect : ∀ T, g₃.pool.Le T → ∀ exit' next' d,
      StmtCode T exit next body (g₁.emit [.label start] g₁.names).supply d g₂.supply →
      StmtCode T exit' next' s g.supply (pre ++ .label start :: (d ++ tail)) g₃.supply) :
    ∃ g' c', Produces s b g g' c' := by
  obtain ⟨g₄, hclose, hgrows, hsupply, hpool⟩ := closeLoop_run hbody.grows htail exit next
  refine ⟨g₄, _, hrun g₄ hclose, hpre.trans hgrows, fun _ => ?_, fun T hT exit' next' => ?_⟩
  · obtain ⟨d, -, hl⟩ := hbody.direct g₂.pool (.refl _) exit next
    obtain ⟨hset, hlive, -⟩ := Ir.loop_closed hl ht hs
    exact ⟨Ir.settled_append.2 ⟨hsteady.settled, hset⟩, hsteady.live.append hlive⟩
  · -- the closed loop has nothing pending, so the loops around it leave its code as it is
    rw [hpool] at hT
    obtain ⟨d, hd, hl⟩ := hbody.direct T (htail.pool.trans hT) exit next
    obtain ⟨hset, -, hsame⟩ := Ir.loop_closed hl ht hs
    refine ⟨_, hsupply ▸ hdirect T hT exit' next' d hd, ?_⟩
    rw [List.map_append, hsteady.settled.resolved, hset.resolved]
    exact (SameLive.refl pre).append hsame

theorem produces_while {b : Bool} {test : Expr} {body : Stmt} (ht : Lowers test)
    (hbody : ∀ g, ∃ g' c, Produces body true g g' c) (g : Generator) :
    ∃ g' c, Produces (.while test body) b g g' c := by
  let l := g.labels
  let g₀ := ((g.useLabels 3).emit [.jump l] g.names).emit [.label l] g.names
  obtain ⟨v, c, ν, hc, hv⟩ := ht.emits_value g₀
  let g₁ := (g₀.emit c ν).emit [.jumpIf v (l + 1) (l + 2)] ν
  obtain ⟨g₂, d, h⟩ := hbody (g₁.emit [.label (l + 1)] ν)
  let g₃ := (g₂.emit [.jump l] g₂.names).emit [.label (l + 2)] g₂.names
  have hg₁ : g.Grows g₁ ([.jump l, .label l] ++ c ++ [.jumpIf v (l + 1) (l + 2)]) :=
    ((g.grows_useLabels 3).trans <| (Generator.grows_emit _ _ _).trans <|
      (Generator.grows_emit _ _ _).trans (g₀.grows_emit c ν)).trans (Generator.grows_emit _ _ _)
  have hg₃ : g₂.Grows g₃ [.jump l, .label (l + 2)] :=
    (g₂.grows_emit _ _).trans (Generator.grows_emit _ _ _)
  have hsteady : Steady ([.jump l, .label l] ++ c ++ [.jumpIf v (l + 1) (l + 2)]) :=
    Ir.steady_append.2 ⟨Ir.steady_append.2 ⟨steady_jump l l, Ir.steady_of_plain hc.plain⟩,
      by simp [Steady]⟩
  refine produces_loop (l + 2) l hg₁ hsteady h hg₃ (steady_jump l (l + 2)) rfl
    (fun g₄ hclose => ?_) fun T _ _ _ d hd => .while hc hd
  rw [statement, bind_run (newLabel_run _), bind_run (newLabel_run _), bind_run (newLabel_run _),
    bind_run (push_run _ _), bind_run (push_run _ _)]
  refine (bind_run hv).trans ?_
  rw [bind_run (push_run _ _), bind_run (here_run _), bind_run (push_run _ _)]
  refine (bind_run h.run).trans ?_
  rw [bind_run (push_run _ _), bind_run (push_run _ _)]
  exact hclose

theorem produces_repeat {b : Bool} {test : Expr} {body : Stmt} (ht : Lowers test)
    (hbody : ∀ g, ∃ g' c, Produces body true g g' c) (g : Generator) :
    ∃ g' c, Produces (.repeatUntil body test) b g g' c := by
  let l := g.labels
  let g₁ := (g.useLabels 3).emit [.jump l] g.names
  obtain ⟨g₂, d, h⟩ := hbody (g₁.emit [.label l] g.names)
  let g₂' := (g₂.emit [.jump (l + 1)] g₂.names).emit [.label (l + 1)] g₂.names
  obtain ⟨v, c, ν, hc, hv⟩ := ht.emits_value g₂'
  let g₃ := ((g₂'.emit c ν).emit [.jumpIf v (l + 2) l] ν).emit [.label (l + 2)] ν
  have hg₁ : g.Grows g₁ [.jump l] := (g.grows_useLabels 3).trans (Generator.grows_emit _ _ _)
  have hg₃ : g₂.Grows g₃ ([.jump (l + 1), .label (l + 1)] ++ c ++
      [.jumpIf v (l + 2) l, .label (l + 2)]) :=
    ((g₂.grows_emit [.jump (l + 1)] _).trans <| (Generator.grows_emit _ [.label (l + 1)] _).trans
      (g₂'.grows_emit c ν)).trans <| (Generator.grows_emit _ _ _).trans (Generator.grows_emit _ _ _)
  have htail : Steady ([.jump (l + 1), .label (l + 1)] ++ c ++
      [.jumpIf v (l + 2) l, .label (l + 2)]) :=
    Ir.steady_append.2 ⟨Ir.steady_append.2 ⟨steady_jump _ _, Ir.steady_of_plain hc.plain⟩,
      steady_jumpIf v (l + 2) l (l + 2)⟩
  -- code behind a transition of the body is dead up to the label of the test only
  have hskips : Ir.skips true ([.jump (l + 1), .label (l + 1)] ++ c ++
      [.jumpIf v (l + 2) l, .label (l + 2)]) = false := by
    rw [Ir.skips_append]
    rfl
  refine produces_loop (l + 2) (l + 1) hg₁ (by simp [Steady]) h hg₃ htail hskips
    (fun g₄ hclose => ?_) fun T _ _ _ d hd => .repeatUntil hd hc
  rw [statement, bind_run (newLabel_run _), bind_run (newLabel_run _), bind_run (newLabel_run _),
    bind_run (push_run _ _), bind_run (here_run _), bind_run (push_run _ _)]
  refine (bind_run h.run).trans ?_
  rw [bind_run (push_run _ _), bind_run (push_run _ _)]
  refine (bind_run hv).trans ?_
  rw [bind_run (push_run _ _), bind_run (push_run _ _)]
  exact hclose

theorem emits_integer {e : Expr} (h : Lowers e) (ht : e.type = .integer) (g : Generator) :
    ∃ v c ν, ValueCode e g.names v c ν ∧ Emits (valueIn e .integer) g v c ν := by
  have hsame : (isDouble .integer && e.type.isInteger) = false := by rw [ht]; rfl
  rw [valueIn_same hsame]
  exact h.emits_value g

theorem loopStart_run (p : Position) {target first : Expr} {g : Generator} {v slot : Ir.Operand}
    {c₁ c₂ : List Ir.Instr} {ν₂ ν₃ : Names} (hv : Emits (valueIn first .integer) g v c₁ ν₂)
    (hs : Emits (place target) (g.emit c₁ ν₂) slot c₂ ν₃) :
    Emits (loopStart p target first) g () (c₁ ++ c₂ ++ startCode p v slot ν₃)
      (spend p ".dec" (spend p ".pre" ν₃)) := by
  rw [List.append_assoc]
  refine hv.bind (hs.bind ?_)
  refine .bind (.push _) (.bind (c := []) (.newName p ".pre") (.bind (.push _) ?_))
  exact .bind (c := []) (.newName p ".dec") (.bind (.push _) (.push _))

theorem loopTest_run (p : Position) {target bound : Expr} {g : Generator} {slot w : Ir.Operand}
    {c₁ c₂ : List Ir.Instr} {ν₁ ν₂ : Names} (hs : Emits (place target) g slot c₁ ν₁)
    (hw : Emits (valueIn bound .integer) (g.emit (c₁ ++ countCode p slot ν₁)
      (spend p ".next" (spend p ".cur" ν₁))) w c₂ ν₂) :
    Emits (loopTest p target bound) g (.local (fresh p ".cmp" ν₂))
      (c₁ ++ countCode p slot ν₁ ++ c₂ ++ [.compare (fresh p ".cmp" ν₂) .sle .i32
        (.local (fresh p ".next" (spend p ".cur" ν₁))) w]) (spend p ".cmp" ν₂) := by
  rw [List.append_assoc, List.append_assoc]
  refine hs.bind (.bind (c := []) (.newName p ".cur") (.bind (.push _) ?_))
  refine .bind (c := []) (.newName p ".next") (.bind (.push _) (.bind (.push _) ?_))
  simp only [Generator.emit_emit, Generator.names_emit, List.nil_append, List.append_assoc,
    List.cons_append]
  exact hw.bind (.bind (c := []) (.newName p ".cmp") (.bind (.push _) (.pure _)))

/-- The lowering of a counting loop, from what its parts are lowered to. -/
theorem forTo_run {p : Position} {target first bound : Expr} {body : Stmt}
    {g g₀ g₁ g₂ g₄ : Generator} {v : Ir.Operand} {c₁ c₂ : List Ir.Instr} {μ ν : Names}
    (hstart : Emits (loopStart p target first) g () c₁ μ)
    (hg₀ : g₀ = (((g.emit c₁ μ).useLabels 3).emit [.jump g.labels] μ).emit [.label g.labels] μ)
    (htest : Emits (loopTest p target bound) g₀ v c₂ ν)
    (hg₁ : g₁ = (g₀.emit c₂ ν).emit [.jumpIf v (g.labels + 1) (g.labels + 2)] ν)
    (hbody : statement body (g₁.emit [.label (g.labels + 1)] ν) = ((), g₂))
    (hclose : closeLoop g₁.code.length (g.labels + 2) g.labels ((g₂.emit [.jump g.labels]
      g₂.names).emit [.label (g.labels + 2)] g₂.names) = ((), g₄)) :
    statement (.forTo p target first bound body) g = ((), g₄) := by
  subst hg₀ hg₁
  rw [statement, bind_run hstart, bind_run (newLabel_run _), bind_run (newLabel_run _),
    bind_run (newLabel_run _), bind_run (push_run _ _), bind_run (push_run _ _)]
  refine (bind_run htest).trans ?_
  rw [bind_run (push_run _ _), bind_run (here_run _), bind_run (push_run _ _)]
  refine (bind_run hbody).trans ?_
  rw [bind_run (push_run _ _), bind_run (push_run _ _)]
  exact hclose

theorem emits_loopStart (p : Position) {target first : Expr} (ht : Lowers target)
    (hd : target.isDesignator = true) (hf : Lowers first) (hft : first.type = .integer)
    (g : Generator) :
    ∃ v slot c₁ c₂ ν₂ ν₃, ValueCode first g.names v c₁ ν₂ ∧ PlaceCode target ν₂ slot c₂ ν₃ ∧
      Emits (loopStart p target first) g () (c₁ ++ c₂ ++ startCode p v slot ν₃)
        (spend p ".dec" (spend p ".pre" ν₃)) := by
  obtain ⟨v, c₁, ν₂, hc₁, hv⟩ := emits_integer hf hft g
  obtain ⟨slot, c₂, ν₃, hc₂, hs⟩ := ht.emits_place (g.emit c₁ ν₂) hd
  exact ⟨v, slot, c₁, c₂, ν₂, ν₃, hc₁, hc₂, loopStart_run p hv hs⟩

theorem emits_loopTest (p : Position) {target bound : Expr} (ht : Lowers target)
    (hd : target.isDesignator = true) (hb : Lowers bound) (hbt : bound.type = .integer)
    (g : Generator) :
    ∃ slot w c₁ c₂ ν₁ ν₂, PlaceCode target g.names slot c₁ ν₁ ∧
      ValueCode bound (spend p ".next" (spend p ".cur" ν₁)) w c₂ ν₂ ∧
      Emits (loopTest p target bound) g (.local (fresh p ".cmp" ν₂))
        (c₁ ++ countCode p slot ν₁ ++ c₂ ++ [.compare (fresh p ".cmp" ν₂) .sle .i32
          (.local (fresh p ".next" (spend p ".cur" ν₁))) w]) (spend p ".cmp" ν₂) := by
  obtain ⟨slot, c₁, ν₁, hc₁, hs⟩ := ht.emits_place g hd
  obtain ⟨w, c₂, ν₂, hc₂, hw⟩ :=
    emits_integer hb hbt (g.emit (c₁ ++ countCode p slot ν₁) (spend p ".next" (spend p ".cur" ν₁)))
  exact ⟨slot, w, c₁, c₂, ν₁, ν₂, hc₁, hc₂, loopTest_run p hs hw⟩

theorem plain_startCode (p : Position) (v slot : Ir.Operand) (ν : Names) :
    ∀ i ∈ startCode p v slot ν, i.isPlain = true := by simp [startCode, Ir.Instr.isPlain]

theorem plain_countCode (p : Position) (slot : Ir.Operand) (ν : Names) :
    ∀ i ∈ countCode p slot ν, i.isPlain = true := by simp [countCode, Ir.Instr.isPlain]

theorem produces_for {b : Bool} {p : Position} {target first bound : Expr} {body : Stmt}
    (ht : Lowers target) (hd : target.isDesignator = true) (hf : Lowers first)
    (hft : first.type = .integer) (hb : Lowers bound) (hbt : bound.type = .integer)
    (hbody : ∀ g, ∃ g' c, Produces body true g g' c) (g : Generator) :
    ∃ g' c, Produces (.forTo p target first bound body) b g g' c := by
  let l := g.labels
  obtain ⟨v, slot, c₁, c₂, ν₂, ν₃, hc₁, hc₂, hstart⟩ := emits_loopStart p ht hd hf hft g
  let μ := spend p ".dec" (spend p ".pre" ν₃)
  let g₀ := (((g.emit (c₁ ++ c₂ ++ startCode p v slot ν₃) μ).useLabels 3).emit [.jump l] μ).emit
    [.label l] μ
  obtain ⟨slot', w, c₃, c₄, ν₄, ν₅, hc₃, hc₄, htest⟩ := emits_loopTest p ht hd hb hbt g₀
  let compare : Ir.Instr :=
    .compare (fresh p ".cmp" ν₅) .sle .i32 (.local (fresh p ".next" (spend p ".cur" ν₄))) w
  let jump : Ir.Instr := .jumpIf (.local (fresh p ".cmp" ν₅)) (l + 1) (l + 2)
  let test := c₃ ++ countCode p slot' ν₄ ++ c₄ ++ [compare]
  let g₁ := (g₀.emit test (spend p ".cmp" ν₅)).emit [jump] (spend p ".cmp" ν₅)
  obtain ⟨g₂, d, h⟩ := hbody (g₁.emit [.label (l + 1)] (spend p ".cmp" ν₅))
  let g₃ := (g₂.emit [.jump l] g₂.names).emit [.label (l + 2)] g₂.names
  have hg₀ : g.Grows g₀ (c₁ ++ c₂ ++ startCode p v slot ν₃ ++ [.jump l, .label l]) :=
    (g.grows_emit _ μ).trans <| (Generator.grows_useLabels _ 3).trans <|
      (Generator.grows_emit _ _ _).trans (Generator.grows_emit _ _ _)
  have hg₁ : g.Grows g₁ (c₁ ++ c₂ ++ startCode p v slot ν₃ ++ [.jump l, .label l] ++ test ++
      [jump]) := (hg₀.trans (g₀.grows_emit _ _)).trans (Generator.grows_emit _ _ _)
  have hg₃ : g₂.Grows g₃ [.jump l, .label (l + 2)] :=
    (g₂.grows_emit _ _).trans (Generator.grows_emit _ _ _)
  -- in front of the body there are no transitions
  have hsteady : Steady (c₁ ++ c₂ ++ startCode p v slot ν₃ ++ [.jump l, .label l] ++ test ++
      [jump]) := by
    simp only [test, Ir.steady_append]
    refine ⟨⟨⟨⟨⟨?_, ?_⟩, ?_⟩, steady_jump l l⟩, ⟨⟨?_, ?_⟩, ?_⟩, ?_⟩, ?_⟩
    · exact Ir.steady_of_plain hc₁.plain
    · exact Ir.steady_of_plain hc₂.plain
    · exact Ir.steady_of_plain (plain_startCode _ _ _ _)
    · exact Ir.steady_of_plain hc₃.plain
    · exact Ir.steady_of_plain (plain_countCode _ _ _)
    · exact Ir.steady_of_plain hc₄.plain
    · simp [Steady, compare]
    · simp [Steady, jump]
  refine produces_loop (l + 2) l hg₁ hsteady h hg₃ (steady_jump l (l + 2)) rfl
    (fun g₄ hclose => forTo_run hstart rfl htest rfl h.run hclose) fun T _ exit' next' d hd => ?_
  -- the parts are those of the constructor, in another grouping
  have hcode := @StmtCode.forTo T exit' next' _ _ _ _ _ _ _ _ _ _ _ _ _ _ _ _ _ _ _ _ _
    hc₁ hc₂ hc₃ hc₄ hd
  simp only [test, List.append_assoc, List.cons_append, List.nil_append] at hcode ⊢
  exact hcode

/-! ### Statements without statements in them -/

theorem produces_assign {b : Bool} {target e : Expr} (ht : Lowers target)
    (hd : target.isDesignator = true) (he : Lowers e) (g : Generator) :
    ∃ g' c, Produces (.assign target e) b g g' c := by
  obtain ⟨v, c₁, ν₁, hc₁, hv⟩ := he.emits_typed g target.type
  obtain ⟨slot, c₂, ν₂, hc₂, hs⟩ := ht.emits_place (g.emit c₁ ν₁) hd
  have hrun : Emits (assign target e) g ()
      (c₁ ++ c₂ ++ [.store (machineType target.type) v slot]) ν₂ := by
    rw [List.append_assoc]
    exact hv.bind (hs.bind (.push _))
  refine ⟨_, _, .of_steady ((by rw [statement]; exact hrun)) (g.grows_emit _ ν₂) ?_
    fun T _ _ _ => .assign hc₁ hc₂⟩
  refine Ir.steady_append.2 ⟨Ir.steady_append.2 ⟨?_, ?_⟩, by simp [Steady]⟩
  · exact Ir.steady_of_plain hc₁.plain
  · exact Ir.steady_of_plain hc₂.plain

theorem produces_call {b : Bool} {n : Name} {symbol : String} {args : List Expr} {params : List Ty}
    {returns : Option Ty} (ha : ∀ e ∈ args, Lowers e) (hp : Passable args params) (g : Generator) :
    ∃ g' c, Produces (.call n symbol args params returns) b g g' c := by
  obtain ⟨vs, c, ν, hc, hvs⟩ := emits_arguments ha hp g
  refine ⟨g.emit (c ++ [.call none ((returns.map machineType).getD .void) (functionName symbol)
    none vs]) ν, _, .of_steady ?_ (g.grows_emit _ ν) ?_ fun T _ _ _ => .call hc⟩
  · rw [statement]
    exact hvs.bind (.push _)
  · exact steady_control hc.plain (by simp [Steady])

theorem produces_write {Γ : Context} {b newline : Bool} {args : List WriteArg}
    (ha : ∀ a ∈ args, a.Checked Γ) (g : Generator) :
    ∃ g' c, Produces (.write newline args) b g g' c := by
  obtain ⟨f, vs, c, g₁, hrun, hg₁, hl, hf, hcode⟩ := writtenArgs_run ha g
  by_cases hempty : lineFormat newline f = ""
  · -- nothing is written, so there is no call and no format
    have hf' : f = "" ∧ newline = false := by
      cases newline
      · exact ⟨hempty, rfl⟩
      · exact absurd (String.append_eq_empty_iff.1 hempty).2 (by decide)
    obtain ⟨rfl, rfl⟩ := hf'
    obtain rfl : args = [] := by_contra fun h => hf h rfl
    refine ⟨g, [], .of_steady ?_ (.refl g) nofun fun _ _ _ _ => .writeNothing⟩
    rw [statement]
    rfl
  · have hformat := (hcode g₁.pool (.refl _)).isFormat newline
    obtain ⟨g₂, hname, hg₂, hs, hsup⟩ := g₁.formatGlobal_run hformat
    let g₃ : Generator := { g₂ with usesPrintf := true }
    let call := printfCall (g₂.pool.formatName (lineFormat newline f)) vs
    have hg₃ : g.Grows g₃ c := by
      have := hg₁.trans hg₂
      rwa [List.append_nil] at this
    refine ⟨g₃.emit [call] g₃.names, c ++ [call], .of_steady ?_ (hg₃.trans (g₃.grows_emit _ _)) ?_
      fun T hT exit next => ?_⟩
    · rw [statement, write_eq, hrun, printed_run hempty hname]
      rfl
    · have := (hcode g₁.pool (.refl _)).plain
      exact steady_control this (by simp [Steady, call, printfCall])
    · -- the pool of the whole program has the format under the same name
      have hsup' : (g₃.emit [call] g₃.names).supply = ⟨g.labels, g₁.names⟩ := by
        rw [← hl]
        exact hsup
      rw [hsup']
      have hname' : T.formatName (lineFormat newline f) =
          g₂.pool.formatName (lineFormat newline f) := hT.formatName hs
      simp only [call, ← hname']
      exact .write (hcode T (hg₂.pool.trans hT)) (hT.formats.subset hs)

theorem produces_transition (kind : Transition) (p : Position) (g : Generator) :
    ∃ g' c, Produces (.transition kind p) true g g' c := by
  refine ⟨g.emit [.transition kind none] g.names, _, ?_, g.grows_emit _ _, nofun,
    fun T _ exit next => ⟨_, .transition, .refl _⟩⟩
  rw [statement]
  rfl

/-- Statements that obey the rules are lowered to their direct code, but for dead code. -/
theorem statement_produces {Γ : Context} {s : Stmt} {b : Bool} (h : s.Checked Γ b)
    (g : Generator) : ∃ g' c, Produces s b g g' c := by
  induction h generalizing g with
  | block _ ih => exact produces_block ih g
  | ifThen hc _ _ ih => exact produces_ifThen (lowers_of_checked hc) ih g
  | ifElse hc _ _ _ ihy ihn => exact produces_ifElse (lowers_of_checked hc) ihy ihn g
  | forTo ht hd _ hf hft hb hbt _ ih =>
    exact produces_for (lowers_of_checked ht) hd (lowers_of_checked hf) hft (lowers_of_checked hb)
      hbt ih g
  | «while» hc _ _ ih => exact produces_while (lowers_of_checked hc) ih g
  | repeatUntil _ hc _ ih => exact produces_repeat (lowers_of_checked hc) ih g
  | assign ht hd he _ => exact produces_assign (lowers_of_checked ht) hd (lowers_of_checked he) g
  | call _ ha hp => exact produces_call (fun e he => lowers_of_checked (ha e he)) hp g
  | write ha => exact produces_write ha g
  | transition => exact produces_transition _ _ g

end MiniPascal.Lowering
