import MiniPascal.Scope.Stack

/-! A name by itself stands for its innermost declaration, a call for the innermost routine of the
name. -/

namespace MiniPascal

namespace Scope

/-- The routine that a name is declared as. -/
def routine? (s : Scope) (n : Name) : Option Routine :=
  match s.get? n with
  | some (.routine r) => some r
  | _ => none

theorem routine?_eq_some {s : Scope} {n : Name} {r : Routine} :
    s.routine? n = some r ↔ s.get? n = some (.routine r) := by
  unfold routine?
  split
  · rename_i q h
    rw [h, Option.some.injEq, Option.some.injEq, Declaration.routine.injEq]
  · rename_i h
    exact ⟨nofun, fun hr => absurd hr (h r)⟩

end Scope

namespace Scopes

/-- The visible scopes, from the innermost to that of the main program. -/
def frames (s : Scopes) : List Scope :=
  s.levels.flatMap (fun l => [l.locals, l.params]) ++ [s.globals]

/-- The innermost declaration of a name. -/
def innermost? (s : Scopes) (n : Name) : Option Declaration := s.frames.findSome? (·.get? n)

/-- The innermost declaration of a name as a routine. -/
def innermostRoutine? (s : Scopes) (n : Name) : Option Routine := s.frames.findSome? (·.routine? n)

/-- The innermost declaration of the name is a variable of a routine further out. -/
def Captured (s : Scopes) (n : Name) : Prop :=
  ∃ p t depth, s.find? n = some (.var p t, depth) ∧ depth ≠ 0 ∧ depth ≠ s.depth

variable {s : Scopes} {n : Name}

/-- The routine that a call stands for is declared in some scope; further in the name is not
declared, or as something else. -/
theorem innermostRoutine?_eq_some {r : Routine} :
    s.innermostRoutine? n = some r ↔ ∃ before frame after, s.frames = before ++ frame :: after ∧
      frame.get? n = some (.routine r) ∧ ∀ f ∈ before, ∀ q, f.get? n ≠ some (.routine q) := by
  unfold innermostRoutine?
  rw [List.findSome?_eq_some_iff]
  refine exists_congr fun before => exists_congr fun frame => exists_congr fun after =>
    and_congr_right fun _ => and_congr Scope.routine?_eq_some (forall₂_congr fun f _ => ?_)
  constructor
  · intro hf q hq
    rw [Scope.routine?_eq_some.2 hq] at hf
    cases hf
  · intro hf
    cases hr : f.routine? n with
    | none => rfl
    | some q => exact absurd (Scope.routine?_eq_some.1 hr) (hf q)

/-- If the innermost declaration is a routine, a call stands for that one. -/
theorem innermostRoutine?_of_innermost? {r : Routine} (h : s.innermost? n = some (.routine r)) :
    s.innermostRoutine? n = some r := by
  obtain ⟨before, frame, after, hs, hf, hb⟩ := List.findSome?_eq_some_iff.1 h
  refine innermostRoutine?_eq_some.2 ⟨before, frame, after, hs, hf, fun f hm q hq => ?_⟩
  rw [hb f hm] at hq
  cases hq

theorem find?_innermost : (s.find? n).map Prod.fst = s.innermost? n := by
  have hgo : ∀ ls : List Level, (find?.go s n ls).map Prod.fst =
      (ls.flatMap (fun l => [l.locals, l.params]) ++ [s.globals]).findSome? (·.get? n) := by
    intro ls
    induction ls with
    | nil =>
      rw [find?.go, Option.map_map]
      show Option.map id _ = _
      rw [Option.map_id, List.flatMap_nil, List.nil_append, List.findSome?_singleton]
      rfl
    | cons l ls ih =>
      rw [find?.go, List.flatMap_cons]
      unfold Level.get?
      cases hl : l.locals.get? n with
      | some d => simp [hl]
      | none =>
        cases hp : l.params.get? n with
        | some d => simp [hl, hp]
        | none => simpa [hl, hp] using ih
  exact hgo s.levels

theorem findSome?_levels (ls : List Level) :
    ls.findSome? (·.getRoutine? n) =
      (ls.flatMap fun l => [l.locals, l.params]).findSome? (·.routine? n) := by
  induction ls with
  | nil => rfl
  | cons l ls ih =>
    have hl : l.getRoutine? n = (l.locals.routine? n).or (l.params.routine? n) := by
      unfold Level.getRoutine? Scope.routine?
      rcases l.locals.get? n with _ | _ | _ | _ | _ <;>
        rcases l.params.get? n with _ | _ | _ | _ | _ <;> rfl
    rw [List.findSome?_cons, List.flatMap_cons, List.findSome?_append, ← ih, hl]
    cases h : l.locals.routine? n <;> cases h' : l.params.routine? n <;>
      simp [h, h']

/-- A call stands for the innermost routine of the name. -/
theorem lookupRoutine_eq_ok {name : Located Name} {r : Routine} :
    s.lookupRoutine name = .ok r ↔ s.innermostRoutine? name.value = some r := by
  unfold lookupRoutine innermostRoutine? frames
  rw [List.findSome?_append, ← findSome?_levels, List.findSome?_singleton]
  cases s.levels.findSome? (·.getRoutine? name.value) with
  | some q => simp
  | none =>
    rw [Option.none_or]
    unfold Scope.routine?
    rcases s.globals.get? name.value with _ | _ | _ | _ | _ <;> simp

/-- A name by itself stands for its innermost declaration. -/
theorem lookup_eq_ok {name : Located Name} {d : Declaration} {st : Storage}
    (h : s.lookup name = .ok ⟨d, st⟩) : s.innermost? name.value = some d := by
  rw [← find?_innermost]
  unfold lookup at h
  split at h
  · cases h
  · rename_i d' depth hf
    split at h
    · cases h
    · cases h
      rw [hf]
      rfl

/-- A name by itself resolves to nothing if it is not declared, or if its innermost declaration is a
variable of a routine further out. -/
theorem lookup_eq_error {name : Located Name} {e : Located SemanticError}
    (h : s.lookup name = .error e) : s.innermost? name.value = none ∨ s.Captured name.value := by
  rw [← find?_innermost]
  unfold lookup at h
  split at h
  · rename_i hf
    exact .inl (by rw [hf]; rfl)
  · rename_i d depth hf
    split at h
    · rename_i hv
      simp only [Bool.and_eq_true, decide_eq_true_eq] at hv
      obtain ⟨⟨hvar, h0⟩, hdepth⟩ := hv
      cases d with
      | var p t => exact .inr ⟨p, t, depth, hf, h0, hdepth⟩
      | const | type | routine => cases hvar
    · cases h

end Scopes

end MiniPascal
