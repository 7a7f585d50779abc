import MiniPascal.Proofs.Semantics.Assignment

/-! Simulations between code and relations of worlds, put together as statements are. -/

namespace MiniPascal

open Ir (Config State Instr labelsSet fromLabel execAll)

/-- What stays the same while the statements of a program are run. -/
structure Setting where
  floats : Floats
  program : Ir.Program
  shapes : Shapes
  main : List Instr
  tail : List Instr
  nodup : (labelsSet main).Nodup
  labels_tail : labelsSet tail = []

namespace Setting

variable (M : Setting)

/-- With this code to be run next, the machine ends after so many steps and has printed the text. -/
def Ends (n : Nat) (c : List Instr) (C : Config) (o : String) : Prop :=
  (State.running M.main M.tail c C).Halts M.floats M.program n o

variable {M} {n : Nat} {c c' c'' rest : List Instr} {C C' : Config} {o : String} {l : Ir.Label}

theorem ends_step (h : (State.running M.main M.tail c C).step M.floats M.program =
    some (State.running M.main M.tail c' C')) :
    M.Ends n c C o ↔ ∃ m, n = m + 1 ∧ M.Ends m c' C' o := by
  rw [Ends, State.halts_iff (List.cons_ne_nil _ _)]
  constructor
  · rintro ⟨m, s', hn, hstep, hs'⟩
    rw [h] at hstep
    cases hstep
    exact ⟨m, hn, hs'⟩
  · rintro ⟨m, hn, hm⟩
    exact ⟨m, _, hn, h, hm⟩

theorem not_ends (h : (State.running M.main M.tail c C).step M.floats M.program = none) :
    ¬M.Ends n c C o := by
  rw [Ends, State.halts_iff (List.cons_ne_nil _ _)]
  rintro ⟨m, s', -, hstep, -⟩
  rw [h] at hstep
  cases hstep

/-- Code without jumps is run as a whole. -/
theorem ends_append (hc : ∀ i ∈ c, i.isLocal = true) : M.Ends n (c ++ rest) C o ↔
    ∃ C' m, execAll M.floats M.program 1 c C = some C' ∧ n = m + c.length ∧
      M.Ends m rest C' o := by
  induction c generalizing n C with
  | nil =>
    constructor
    · intro h
      exact ⟨C, n, rfl, rfl, h⟩
    · rintro ⟨C', m, hexec, rfl, h⟩
      cases hexec
      exact h
  | cons i c ih =>
    obtain ⟨hi, hc⟩ := List.forall_mem_cons.1 hc
    -- one step for the first instruction, and the others from where it leads
    have hstep : (State.running M.main M.tail (i :: (c ++ rest)) C).step M.floats M.program =
        (i.exec M.floats M.program 1 C).map (State.running M.main M.tail (c ++ rest)) :=
      State.step_local hi
    rw [execAll, List.cons_append]
    cases he : i.exec M.floats M.program 1 C with
    | none =>
      rw [he] at hstep
      constructor
      · intro h
        exact absurd h (not_ends hstep)
      · rintro ⟨C', m, hexec, -, -⟩
        cases hexec
    | some C₁ =>
      rw [he] at hstep
      rw [ends_step hstep]
      constructor
      · rintro ⟨m, rfl, h⟩
        obtain ⟨C', m', hexec, rfl, h'⟩ := (ih hc).1 h
        exact ⟨C', m', hexec, rfl, h'⟩
      · rintro ⟨C', m, hexec, rfl, h⟩
        exact ⟨m + c.length, rfl, (ih hc).2 ⟨C', m, hexec, rfl, h⟩⟩

/-- The machine gets from one piece of code to another and changes nothing. -/
structure Leads (M : Setting) (c c' : List Instr) : Prop where
  forward : ∀ {n C o}, M.Ends n c' C o → ∃ m, M.Ends m c C o
  backward : ∀ {n C o}, M.Ends n c C o → ∃ m, m ≤ n ∧ M.Ends m c' C o

namespace Leads

theorem refl (c : List Instr) : M.Leads c c := ⟨fun h => ⟨_, h⟩, fun h => ⟨_, Nat.le_refl _, h⟩⟩

theorem of_step (h : ∀ C, (State.running M.main M.tail c C).step M.floats M.program =
    some (State.running M.main M.tail c' C)) : M.Leads c c' where
  forward hm := ⟨_, (ends_step (h _)).2 ⟨_, rfl, hm⟩⟩
  backward hn := by
    obtain ⟨m, rfl, hm⟩ := (ends_step (h _)).1 hn
    exact ⟨m, Nat.le_succ m, hm⟩

theorem trans (h : M.Leads c c') (h' : M.Leads c' c'') : M.Leads c c'' where
  forward hn := by
    obtain ⟨m, hm⟩ := h'.forward hn
    exact h.forward hm
  backward hn := by
    obtain ⟨m, hle, hm⟩ := h.backward hn
    obtain ⟨m', hle', hm'⟩ := h'.backward hm
    exact ⟨m', Nat.le_trans hle' hle, hm'⟩

theorem label : M.Leads (.label l :: c) c := .of_step fun _ => State.step_label

theorem jump (h : fromLabel l M.main = some c') : M.Leads (.jump l :: c) c' :=
  .of_step fun _ => State.step_jump M.labels_tail h

theorem transition {kind : Transition} (h : fromLabel l M.main = some c') :
    M.Leads (.transition kind (some l) :: c) c' :=
  .of_step fun _ => State.step_transition M.labels_tail h

end Leads

/-- The code simulates a relation between the worlds in which it is entered and left. -/
structure Simulates {α : Type} (M : Setting) (enter : List Instr) (R : World → α → World → Prop)
    (leave : α → List Instr) : Prop where
  forward : ∀ {w C a w'}, C.Matches M.shapes w → R w a w' →
    ∃ C', C'.Matches M.shapes w' ∧ ∀ n o, M.Ends n (leave a) C' o → ∃ m, M.Ends m enter C o
  backward : ∀ {w C n o}, C.Matches M.shapes w → M.Ends n enter C o →
    ∃ a w' C' m, R w a w' ∧ C'.Matches M.shapes w' ∧ m ≤ n ∧ M.Ends m (leave a) C' o

namespace Simulates

variable {α β : Type} {enter enter' : List Instr} {R R' : World → α → World → Prop}
  {leave leave' : α → List Instr}

theorem congr (h : M.Simulates enter R leave) (hR : ∀ w a w', R' w a w' ↔ R w a w') :
    M.Simulates enter R' leave where
  forward hC hstep := h.forward hC ((hR _ _ _).1 hstep)
  backward hC hn := by
    obtain ⟨a, w', C', m, hstep, hC', hle, hm⟩ := h.backward hC hn
    exact ⟨a, w', C', m, (hR _ _ _).2 hstep, hC', hle, hm⟩

theorem before (h : M.Simulates enter' R leave) (hl : M.Leads enter enter') :
    M.Simulates enter R leave where
  forward hC hstep := by
    obtain ⟨C', hC', hcode⟩ := h.forward hC hstep
    refine ⟨C', hC', fun n o hn => ?_⟩
    obtain ⟨m, hm⟩ := hcode n o hn
    exact hl.forward hm
  backward hC hn := by
    obtain ⟨m, hle, hm⟩ := hl.backward hn
    obtain ⟨a, w', C', m', hstep, hC', hle', hm'⟩ := h.backward hC hm
    exact ⟨a, w', C', m', hstep, hC', Nat.le_trans hle' hle, hm'⟩

/-- The code is left at once. -/
theorem done (leave : α → List Instr) (a : α) :
    M.Simulates (leave a) (fun w o w' => o = a ∧ w' = w) leave where
  forward hC := by
    rintro ⟨rfl, rfl⟩
    exact ⟨_, hC, fun n o hn => ⟨n, hn⟩⟩
  backward hC hn := ⟨a, _, _, _, ⟨rfl, rfl⟩, hC, Nat.le_refl _, hn⟩

/-- One simulation after the other. -/
theorem bind {Q : World → β → World → Prop} {middle : β → List Instr}
    {R : β → World → α → World → Prop} (h : M.Simulates enter Q middle)
    (h' : ∀ b, M.Simulates (middle b) (R b) leave) :
    M.Simulates enter (fun w a w' => ∃ b w₁, Q w b w₁ ∧ R b w₁ a w') leave where
  forward hC := by
    rintro ⟨b, w₁, hQ, hR⟩
    obtain ⟨C₁, hC₁, hcode₁⟩ := h.forward hC hQ
    obtain ⟨C₂, hC₂, hcode₂⟩ := (h' b).forward hC₁ hR
    refine ⟨C₂, hC₂, fun n o hn => ?_⟩
    obtain ⟨m, hm⟩ := hcode₂ n o hn
    exact hcode₁ m o hm
  backward hC hn := by
    obtain ⟨b, w₁, C₁, m₁, hQ, hC₁, hle₁, hm₁⟩ := h.backward hC hn
    obtain ⟨a, w₂, C₂, m₂, hR, hC₂, hle₂, hm₂⟩ := (h' b).backward hC₁ hm₁
    exact ⟨a, w₂, C₂, m₂, ⟨b, w₁, hQ, hR⟩, hC₂, Nat.le_trans hle₂ hle₁, hm₂⟩

theorem behind (h : M.Simulates enter R leave) (hl : ∀ a, M.Leads (leave a) (leave' a)) :
    M.Simulates enter R leave' := by
  refine (h.bind fun a => (done leave' a).before (hl a)).congr fun w a w' => ?_
  constructor
  · intro hR
    exact ⟨a, w', hR, rfl, rfl⟩
  · rintro ⟨b, w₁, hR, rfl, rfl⟩
    exact hR

/-- Code without jumps, in front of the code with which it is left. -/
theorem straight {g : World → Option World} (hc : ∀ i ∈ c, i.isLocal = true)
    (h : ∀ w C, C.Matches M.shapes w → Agrees (fun w' C' => C'.Matches M.shapes w')
      (execAll M.floats M.program 1 c C) (g w)) {a : α} (ha : leave a = rest) :
    M.Simulates (c ++ rest) (fun w o w' => o = a ∧ g w = some w') leave where
  forward {w C _ w'} hC := by
    rintro ⟨rfl, hg⟩
    rcases h w C hC with ⟨-, hnone⟩ | ⟨C', w₁, hexec, hg', hC'⟩
    · rw [hg] at hnone
      cases hnone
    · rw [hg] at hg'
      cases hg'
      refine ⟨C', hC', fun n o hn => ⟨n + c.length, ?_⟩⟩
      rw [ha] at hn
      exact (ends_append hc).2 ⟨C', n, hexec, rfl, hn⟩
  backward {w C n o} hC hn := by
    obtain ⟨C', m, hexec, rfl, hm⟩ := (ends_append hc).1 hn
    rcases h w C hC with ⟨hnone, -⟩ | ⟨C₁, w₁, hexec', hg, hC₁⟩
    · rw [hexec] at hnone
      cases hnone
    · rw [hexec] at hexec'
      cases hexec'
      rw [← ha] at hm
      exact ⟨a, w₁, C', m, ⟨rfl, hg⟩, hC₁, Nat.le_add_right m _, hm⟩

/-- The code of a test, in front of a jump to where the outcome leads. -/
theorem branch {test : World → Option (Bool × World)} {v : Ir.Operand}
    {yes no : Ir.Label} {leave : Bool → List Instr} (sense : Bool → Bool)
    (hc : ∀ i ∈ c, i.isLocal = true)
    (h : ∀ w C, C.Matches M.shapes w → Agrees (fun r C' => C'.Matches M.shapes r.2 ∧
      C'.value M.floats v = some (.bool (sense r.1))) (execAll M.floats M.program 1 c C) (test w))
    (hl : ∀ b, fromLabel (if sense b then yes else no) M.main = some (leave b)) :
    M.Simulates (c ++ .jumpIf v yes no :: rest) (fun w b w' => test w = some (b, w')) leave where
  forward {w C b w'} hC ht := by
    rcases h w C hC with ⟨-, hnone⟩ | ⟨C', r, hexec, hr, hC', hv⟩
    · rw [ht] at hnone
      cases hnone
    · rw [ht] at hr
      cases hr
      have hstep := State.step_jumpIf (p := M.program) (c := rest) M.labels_tail hv (hl b)
      refine ⟨C', hC', fun n o hn => ⟨n + 1 + c.length, ?_⟩⟩
      exact (ends_append hc).2 ⟨C', n + 1, hexec, rfl, (ends_step hstep).2 ⟨n, rfl, hn⟩⟩
  backward {w C n o} hC hn := by
    obtain ⟨C', m, hexec, rfl, hm⟩ := (ends_append hc).1 hn
    rcases h w C hC with ⟨hnone, -⟩ | ⟨C₁, r, hexec', hr, hC₁, hv⟩
    · rw [hexec] at hnone
      cases hnone
    · rw [hexec] at hexec'
      cases hexec'
      have hstep := State.step_jumpIf (p := M.program) (c := rest) M.labels_tail hv (hl r.1)
      obtain ⟨m', rfl, hm'⟩ := (ends_step hstep).1 hm
      exact ⟨r.1, r.2, C', m', hr, hC₁, by omega, hm'⟩

/-- A loop from its test on. The body is entered through a label, so every round takes a step. -/
theorem loop {test : World → Option (Bool × World)}
    {round : World → Option Transition → World → Prop} {head body exit : List Instr}
    {leave : α → List Instr} {a : α} (ha : leave a = exit)
    (ht : M.Simulates head (fun w b w' => test w = some (b, w'))
      fun b => if b then .label l :: body else exit)
    (hr : M.Simulates body round fun o => if o = some .breakLoop then exit else head) :
    M.Simulates head (fun w o w' => o = a ∧ Loops test round w w') leave where
  forward {w C _ w'} hC := by
    rintro ⟨rfl, hloop⟩
    rw [ha]
    -- by the rounds, from the first one on
    induction hloop generalizing C with
    | done htest => exact ht.forward hC htest
    | leave htest hround =>
      obtain ⟨C₁, hC₁, hcode₁⟩ := ht.forward hC htest
      obtain ⟨C₂, hC₂, hcode₂⟩ := hr.forward hC₁ hround
      refine ⟨C₂, hC₂, fun n o hn => ?_⟩
      obtain ⟨m, hm⟩ := hcode₂ n o hn
      obtain ⟨m', hm'⟩ := (Leads.label (l := l)).forward hm
      exact hcode₁ m' o hm'
    | again htest hround hne _ ih =>
      obtain ⟨C₁, hC₁, hcode₁⟩ := ht.forward hC htest
      obtain ⟨C₂, hC₂, hcode₂⟩ := hr.forward hC₁ hround
      obtain ⟨C₃, hC₃, hcode₃⟩ := ih hC₂
      refine ⟨C₃, hC₃, fun n o hn => ?_⟩
      obtain ⟨m, hm⟩ := hcode₃ n o hn
      obtain ⟨m₂, hm₂⟩ := hcode₂ m o (by rwa [if_neg hne])
      obtain ⟨m₁, hm₁⟩ := (Leads.label (l := l)).forward hm₂
      exact hcode₁ m₁ o hm₁
  backward {w C n o} hC hn := by
    -- the number of steps to the end decreases with every round
    induction n using Nat.strongRecOn generalizing w C with
    | _ n ih =>
      obtain ⟨b, w₁, C₁, m₁, htest, hC₁, hle₁, hm₁⟩ := ht.backward hC hn
      cases b with
      | false =>
        rw [← ha] at hm₁
        exact ⟨a, w₁, C₁, m₁, ⟨rfl, .done htest⟩, hC₁, hle₁, hm₁⟩
      | true =>
        obtain ⟨m₂, rfl, hm₂⟩ := (ends_step State.step_label).1 hm₁
        obtain ⟨o', w₂, C₂, m₃, hround, hC₂, hle₂, hm₃⟩ := hr.backward hC₁ hm₂
        by_cases hbreak : o' = some .breakLoop
        · subst hbreak
          rw [if_pos rfl, ← ha] at hm₃
          exact ⟨a, w₂, C₂, m₃, ⟨rfl, .leave htest hround⟩, hC₂, by omega, hm₃⟩
        · rw [if_neg hbreak] at hm₃
          obtain ⟨_, w₃, C₃, m₄, ⟨rfl, hloop⟩, hC₃, hle₃, hm₄⟩ :=
            ih m₃ (by omega) hC₂ hm₃
          exact ⟨_, w₃, C₃, m₄, ⟨rfl, .again htest hround hbreak hloop⟩, hC₃, by omega, hm₄⟩

end Simulates

end Setting

end MiniPascal
