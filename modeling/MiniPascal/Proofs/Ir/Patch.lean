import MiniPascal.Ir.Patch

/-! Resolving transitions and dropping dead code, as operations on lists. -/

namespace MiniPascal.Ir

/-- An instruction when its loop is complete. -/
def Instr.resolved (exit next : Label) : Instr → Instr
  | .transition kind none => .transition kind (some (Transition.target kind exit next))
  | i => i

theorem Instr.resolved_of_ne {i : Instr} (h : ∀ kind, i ≠ .transition kind none)
    (exit next : Label) : i.resolved exit next = i := by
  unfold Instr.resolved
  split
  · rename_i kind
    exact absurd rfl (h kind)
  · rfl

/-- No transition is without a target. -/
def Settled (code : List Instr) : Prop := ∀ kind, .transition kind none ∉ code

theorem settled_append {c d : List Instr} : Settled (c ++ d) ↔ Settled c ∧ Settled d := by
  simp only [Settled, List.mem_append, not_or, forall_and]

theorem Settled.sublist {c d : List Instr} (h : Settled d) (hs : c.Sublist d) : Settled c :=
  fun kind hm => h kind (hs.subset hm)

theorem Settled.resolved {code : List Instr} (h : Settled code) (exit next : Label) :
    code.map (Instr.resolved exit next) = code := by
  refine (List.map_congr_left fun i hi => ?_).trans (List.map_id code)
  exact Instr.resolved_of_ne (fun kind hk => h kind (hk ▸ hi)) exit next

theorem settled_resolved (exit next : Label) (code : List Instr) :
    Settled (code.map (Instr.resolved exit next)) := by
  intro kind h
  obtain ⟨i, -, hi⟩ := List.mem_map.1 h
  unfold Instr.resolved at hi
  split at hi
  · cases hi
  · rename_i hne
    exact hne kind hi

theorem settled_iff {code : List Instr} :
    Settled code ↔ ∀ i ∈ code, i.isUnresolved = false := by
  refine ⟨fun h i hi => Bool.eq_false_iff.2 fun hu => ?_, fun h kind hm => nomatch h _ hm⟩
  obtain ⟨kind, rfl⟩ := Instr.isUnresolved_iff.1 hu
  exact h kind hi

theorem Settled.countP {code : List Instr} (h : Settled code) :
    code.countP Instr.isUnresolved = 0 :=
  List.countP_eq_zero.2 fun i hi => Bool.eq_false_iff.1 (settled_iff.1 h i hi)

/-! ### Resolving transitions -/

section

variable {exit next : Label} {code code' : List Instr}

theorem resolveFirst?_eq_none : resolveFirst? exit next code = none ↔ Settled code := by
  rw [resolveFirst?, Option.map_eq_none_iff, firstUnresolved?, List.findIdx?_eq_none_iff,
    settled_iff]

/-- What is to come of the code does not change while its transitions are resolved. -/
theorem map_resolved_of_resolveFirst? (h : resolveFirst? exit next code = some code') :
    code'.map (Instr.resolved exit next) = code.map (Instr.resolved exit next) := by
  obtain ⟨before, kind, after, -, rfl, rfl⟩ := exists_of_resolveFirst? h
  rw [List.map_append, List.map_append, List.map_cons, List.map_cons]
  rfl

theorem resolveTransitions_eq (exit next : Label) (code : List Instr) :
    (resolveTransitions exit next code).1 = code.map (Instr.resolved exit next) := by
  fun_induction resolveTransitions exit next code with
  | case1 code h => exact ((resolveFirst?_eq_none.1 h).resolved exit next).symm
  | case2 code code₁ h code₂ n hrest ih =>
    rw [hrest] at ih
    exact ih.trans (map_resolved_of_resolveFirst? h)

end

/-! ### Dropping dead code -/

/-- Whether the instructions behind this one are dropped. -/
def Instr.skips (skipping : Bool) : Instr → Bool
  | .label _ => false
  | .transition _ (some _) => true
  | _ => skipping

/-- What is left of one instruction. -/
def Instr.left (skipping : Bool) (i : Instr) : List Instr :=
  match i with
  | .label _ => [i]
  | _ => if skipping then [] else [i]

theorem dropDead_cons (b : Bool) (i : Instr) (c : List Instr) :
    dropDead b (i :: c) = i.left b ++ dropDead (i.skips b) c := by
  cases i with
  | transition kind target => cases target <;> cases b <;> simp [dropDead, Instr.left, Instr.skips]
  | _ => cases b <;> simp [dropDead, Instr.left, Instr.skips]

/-- Whether instructions behind some code are dropped. -/
def skips (skipping : Bool) (code : List Instr) : Bool :=
  code.foldl (fun b i => i.skips b) skipping

theorem skips_append (b : Bool) (c d : List Instr) : skips b (c ++ d) = skips (skips b c) d :=
  List.foldl_append

theorem dropDead_append (b : Bool) (c d : List Instr) :
    dropDead b (c ++ d) = dropDead b c ++ dropDead (skips b c) d := by
  induction c generalizing b with
  | nil => rfl
  | cons i c ih =>
    rw [List.cons_append, dropDead_cons, dropDead_cons, ih, List.append_assoc]
    rfl

theorem Instr.left_cases (b : Bool) (i : Instr) :
    i.left b = [i] ∨ i.left b = [] ∧ b = true ∧ i.skips b = true := by
  cases b
  · exact .inl (by cases i <;> rfl)
  · cases i with
    | label => exact .inl rfl
    | transition _ target => exact .inr ⟨rfl, rfl, by cases target <;> rfl⟩
    | _ => exact .inr ⟨rfl, rfl, rfl⟩

theorem Instr.skips_mono {b b' : Bool} (h : b' = true → b = true) {i : Instr}
    (hi : i.skips b' = true) : i.skips b = true := by
  cases i with
  | transition _ target => cases target <;> simp_all [skips]
  | _ => simp_all [skips]

theorem dropDead_sublist (b : Bool) (c : List Instr) : (dropDead b c).Sublist c := by
  fun_induction dropDead b c with
  | case1 => exact .slnil
  | case2 _ l c ih => exact ih.cons_cons _
  | case3 kind l c ih => exact ih.cons _
  | case4 kind l c b hb ih => exact ih.cons_cons _
  | case5 i c h₁ h₂ ih => exact ih.cons _
  | case6 i c b h₁ h₂ hb ih => exact ih.cons_cons _

/-- Two lists of which the same is left wherever they stand. -/
structure SameLive (c d : List Instr) : Prop where
  drop : ∀ b, dropDead b c = dropDead b d
  skips : ∀ b, skips b c = skips b d

namespace SameLive

theorem refl (c : List Instr) : SameLive c c := ⟨fun _ => rfl, fun _ => rfl⟩

theorem trans {c d e : List Instr} (h : SameLive c d) (h' : SameLive d e) : SameLive c e :=
  ⟨fun b => (h.drop b).trans (h'.drop b), fun b => (h.skips b).trans (h'.skips b)⟩

theorem append {c c' d d' : List Instr} (h : SameLive c c') (h' : SameLive d d') :
    SameLive (c ++ d) (c' ++ d') where
  drop b := by rw [dropDead_append, dropDead_append, h.drop, h.skips, h'.drop]
  skips b := by rw [skips_append, skips_append, h.skips, h'.skips]

/-- Dropping dead code leaves what is left wherever the code stands. -/
theorem dropDead (c : List Instr) : SameLive (dropDead false c) c := by
  have h : ∀ b b', (b' = true → b = true) → Ir.dropDead b (Ir.dropDead b' c) = Ir.dropDead b c ∧
      Ir.skips b (Ir.dropDead b' c) = Ir.skips b c := by
    induction c with
    | nil => exact fun _ _ _ => ⟨rfl, rfl⟩
    | cons i c ih =>
      intro b b' hb
      rw [dropDead_cons b']
      rcases i.left_cases b' with hl | ⟨hl, hb', hs⟩
      · have ih := ih (i.skips b) (i.skips b') fun hs => Instr.skips_mono hb hs
        rw [hl, List.singleton_append, dropDead_cons b, dropDead_cons b, ih.1]
        exact ⟨rfl, ih.2⟩
      · cases hb'
        cases hb rfl
        have ih := ih true true fun h => h
        rw [hl, hs, List.nil_append, dropDead_cons, hl, hs]
        refine ⟨ih.1, ih.2.trans ?_⟩
        simp only [Ir.skips, List.foldl_cons, hs]
  exact ⟨fun b => (h b false nofun).1, fun b => (h b false nofun).2⟩

end SameLive

/-- Code of which nothing is dropped, and behind which nothing is. -/
structure Live (c : List Instr) : Prop where
  drop : dropDead false c = c
  skips : skips false c = false

namespace Live

theorem nil : Live [] := ⟨rfl, rfl⟩

theorem append {c d : List Instr} (hc : Live c) (hd : Live d) : Live (c ++ d) where
  drop := by rw [dropDead_append, hc.drop, hc.skips, hd.drop]
  skips := by rw [skips_append, hc.skips, hd.skips]

end Live

/-- Whether the instruction only computes: it is no label and goes nowhere. -/
def Instr.isPlain : Instr → Bool
  | .alloca .. | .label _ | .jump _ | .jumpIf .. | .transition .. | .ret _ => false
  | _ => true

/-- Code without transitions. -/
def Steady (code : List Instr) : Prop := ∀ kind target, .transition kind target ∉ code

theorem steady_append {c d : List Instr} : Steady (c ++ d) ↔ Steady c ∧ Steady d := by
  simp only [Steady, List.mem_append, not_or, forall_and]

theorem Steady.settled {c : List Instr} (h : Steady c) : Settled c := fun kind => h kind none

theorem steady_of_plain {c : List Instr} (h : ∀ i ∈ c, i.isPlain = true) : Steady c :=
  fun _ _ hm => absurd (h _ hm) nofun

theorem Steady.live {c : List Instr} (h : Steady c) : Live c := by
  induction c with
  | nil => exact .nil
  | cons i c ih =>
    have hc := ih fun kind target hm => h kind target (List.mem_cons_of_mem i hm)
    have hi : i.skips false = false := by
      cases i with
      | transition kind target => exact absurd List.mem_cons_self (h kind target)
      | _ => rfl
    have hl : i.left false = [i] := by cases i <;> rfl
    refine ⟨?_, ?_⟩
    · rw [dropDead_cons, hl, hi, hc.drop, List.singleton_append]
    · rw [Ir.skips, List.foldl_cons, hi]
      exact hc.skips

/-- A completed loop from the label of its body on. Its transitions have targets, nothing is left to
drop, and the same is left of it as of the direct code. -/
theorem loop_closed {exit next start : Label} {c d tail : List Instr}
    (hd : SameLive d (c.map (Instr.resolved exit next))) (ht : Steady tail)
    (hs : skips true tail = false) :
    let code := dropDead false ((.label start :: (c ++ tail)).map (Instr.resolved exit next))
    Settled code ∧ Live code ∧ SameLive (.label start :: (d ++ tail)) code := by
  have hmap : (.label start :: (c ++ tail)).map (Instr.resolved exit next) =
      .label start :: (c.map (Instr.resolved exit next) ++ tail) := by
    rw [List.map_cons, List.map_append, ht.settled.resolved]
    rfl
  have hskips : ∀ b e, skips b (.label start :: (e ++ tail)) = false := by
    intro b e
    have hb : ∀ b', skips b' tail = false := fun b' => by
      cases b'
      · exact ht.live.skips
      · exact hs
    rw [← List.cons_append, skips_append]
    exact hb _
  intro code
  have hcode := SameLive.dropDead ((.label start :: (c ++ tail)).map (Instr.resolved exit next))
  refine ⟨(settled_resolved exit next _).sublist (dropDead_sublist false _), ⟨?_, ?_⟩, ?_⟩
  · exact hcode.drop false
  · rw [hcode.skips, hmap, hskips]
  · refine SameLive.trans ?_ ⟨fun b => (hcode.drop b).symm, fun b => (hcode.skips b).symm⟩
    rw [hmap]
    exact (SameLive.refl [.label start]).append (hd.append (.refl tail))

end MiniPascal.Ir
