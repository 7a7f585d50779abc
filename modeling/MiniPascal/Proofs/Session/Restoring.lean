import Mathlib
import MiniPascal.Proofs.Reading.Protocol
import MiniPascal.Proofs.Scope.Frames
import MiniPascal.Proofs.Session.Agreement

/-! When a routine has been read, only its entry in the innermost frame is new, or has got its body.
-/

namespace MiniPascal

namespace Grammar

variable {text name : String} {path : List String} {s s' : Scopes} {c c₁ c₂ : Cursor}
  {isFunction : Bool} {g : Heading}

/-- What a routine of this heading does to the declarations of the innermost scope. -/
inductive Heading.Settles (g : Heading) :
    List (Name × Declaration) → List (Name × Declaration) → Prop
  | announced {entries : List (Name × Declaration)} (hf : g.forward = true)
    (hn : ∀ e ∈ entries, e.1.canonical ≠ g.name.canonical) :
    Settles g entries (entries ++ [(g.name, .routine g.routine)])
  | defined {entries : List (Name × Declaration)} (body : Block) (hf : g.forward = false)
    (hn : ∀ e ∈ entries, e.1.canonical ≠ g.name.canonical) :
    Settles g entries
      (entries ++ [(g.name, .routine { g.routine with body := some body, forward := false })])
  /-- A routine that has been declared `forward` keeps its place and its heading. -/
  | completed {before behind : List (Name × Declaration)} {m : Name} {r : Routine} (body : Block)
    (hf : g.forward = false) (hm : m.canonical = g.name.canonical) (hr : r.forward = true)
    (hsig : r.sameSignature g.routine = true) :
    Settles g (before ++ (m, .routine r) :: behind)
      (before ++ (m, .routine { r with body := some body, forward := false }) :: behind)

/-- A definition that is registered is completed when its body has been read. -/
theorem settles_of_register {body : Block}
    (hnodup : (s.top.entries.map fun e => e.1.canonical).Nodup) (hf : g.forward = false)
    (hs : register s g.name g.routine false = .ok s') :
    ∃ entries, g.Settles s.top.entries entries ∧
      s'.withTop (s'.top.modify g.name (.complete body)) = s.withTop ⟨entries⟩ := by
  rcases Declares.register_cases hs with ⟨hc, rfl⟩ | ⟨rfl, -, r, hget, hr, hsig⟩
  · refine ⟨_, .defined body hf (Scope.contains_eq_false.1 hc), ?_⟩
    have hnodup' := Scope.nodup_snoc (d := .routine g.routine) hnodup hc
    rw [Scopes.withTop_withTop, Scopes.top_withTop, Scope.modify_split hnodup' rfl rfl]
    rfl
  · obtain ⟨m, hm, hname⟩ := Scope.get?_mem hget
    obtain ⟨before, behind, hsplit⟩ := List.append_of_mem hm
    have hmodify := Scope.modify_split hnodup hsplit hname (.complete body)
    rw [hsplit, hmodify]
    exact ⟨_, .completed body hf hname hr hsig, rfl⟩

/-- A routine that is read changes its own entry in the innermost scope only. -/
theorem routine_settles (hnodup : (s.top.entries.map fun e => e.1.canonical).Nodup)
    (hg : Starts path s c isFunction c₁ g c₂) {t : Cursor.Taken c₁ Scopes}
    (hd : routine path s isFunction c₁ = .ok t) :
    ∃ entries, g.Settles s.top.entries entries ∧ t.value = s.withTop ⟨entries⟩ := by
  rcases hg.cases hd with ⟨hf, hs₁⟩ | ⟨hf, s₁, s₂, inner, ss, hs₁, hs₂, hinner, hvalue⟩
  · rcases Declares.register_cases hs₁ with ⟨hc, hs⟩ | ⟨-, hforward, -⟩
    · exact ⟨_, .announced hf (Scope.contains_eq_false.1 hc), hs⟩
    · cases hforward
  · -- whatever is declared in the body is in the scope that is left
    have hdeclares := declarations_declares _ _ _ _ hinner
    have hframe := ((Declares.enterBody_declares hs₂).trans hdeclares).frame
    obtain ⟨entries, hsettles, hwith⟩ := settles_of_register hnodup hf hs₁
    refine ⟨entries, hsettles, ?_⟩
    rw [hvalue, Declares.leaveBody_enter hframe]
    exact hwith

end Grammar

namespace Session

open Cursor Grammar

/-- Reading a routine restores the session. Wherever a routine is declared in a text and can be
read, with any number of loops around: it is read as by the grammar, and afterwards the path and the
number of loops are as before, there are as many frames, and those below the innermost one are the
same. In the innermost one only the entry of the routine differs. If the name is new it stands
behind all others. If it has been declared `forward`, the entry is where it was, with its heading,
and has got its body. -/
theorem routine_restores {text name : String} {path : List String} {scopes : Scopes}
    {c c₁ : Cursor} {gs : List Heading} {isFunction : Bool} {token : Token}
    {h : c₁.size < c.size} (hr : Reaches text name .any path scopes c gs)
    (hk : c.accept routine? = .ok (some ⟨(isFunction, token), c₁, h⟩)) (loops : Nat) :
    routine isFunction c₁ ⟨scopes, loops, path⟩ =
      (Grammar.routine path scopes isFunction c₁).map (fun t =>
        (⟨(), t.rest, t.lt⟩, ⟨t.value, loops, path⟩)) ∧
    ∀ t s', routine isFunction c₁ ⟨scopes, loops, path⟩ = .ok (t, s') →
      s'.path = path ∧ s'.loops = loops ∧
      s'.scopes.stack.frames.length = scopes.stack.frames.length ∧
      ∃ g c₂ f frames entries, Starts path scopes c isFunction c₁ g c₂ ∧
        scopes.stack.frames = f :: frames ∧
        s'.scopes.stack.frames = { f with scope := ⟨entries⟩ } :: frames ∧
        g.Settles f.scope.entries entries := by
  have hleads := routine_leads ⟨scopes, loops, path⟩ isFunction c₁
  refine ⟨hleads, ?_⟩
  intro t s' hd
  unfold Leads at hleads
  rw [hd] at hleads
  cases hread : Grammar.routine path scopes isFunction c₁ with
  | error e =>
    rw [hread] at hleads
    cases hleads
  | ok t₀ =>
    rw [hread] at hleads
    cases hleads
    -- the session keeps the path and the loops, so the rest is a fact about the grammar's scopes
    obtain ⟨g, c₂, hg⟩ := exists_starts hk hread
    obtain ⟨entries, hsettles, hvalue⟩ := routine_settles hr.tracked.nodup hg hread
    obtain ⟨f, frames, hframes, htop, hwith⟩ := scopes.stack_split
    have hframes' : t₀.value.stack.frames = { f with scope := ⟨entries⟩ } :: frames := by
      rw [hvalue, hwith]
    refine ⟨rfl, rfl, ?_, g, c₂, f, frames, entries, hg, hframes, hframes', ?_⟩
    · show t₀.value.stack.frames.length = _
      rw [hframes', hframes, List.length_cons, List.length_cons]
    · rw [htop]
      exact hsettles

theorem routine_restores_forward :
    ∃ scopes c gs token c₁ h t s',
      Reaches ("procedure a; forward; procedure A; function n: integer; begin n := 1 end; " ++
        "begin repeat a until true end; begin end.") "t" .any [] scopes c gs ∧
      c.accept routine? = .ok (some ⟨(false, token), c₁, h⟩) ∧
      routine false c₁ ⟨scopes, 2, []⟩ = .ok (t, s') ∧ s'.path = [] ∧ s'.loops = 2 ∧
      s'.scopes.stack.frames.length = scopes.stack.frames.length ∧
      (scopes.top.routines.map fun e => e.2.forward) = [true] ∧
      (s'.scopes.top.routines.map fun e => e.2.forward) = [false] := by
  generalize htext :
    "procedure a; forward; procedure A; function n: integer; begin n := 1 end; " ++
      "begin repeat a until true end; begin end." = text
  -- the rules come behind the `forward` declaration, and the definition can be read there
  have hrun : (match Cursor.ofText text with
    | .error _ => false
    | .ok c₀ =>
      match header "t" c₀ with
      | .error _ => false
      | .ok ⟨_, c₁, _⟩ =>
        match c₁.accept routine? with
        | .error _ | .ok none => false
        | .ok (some ⟨(isFunction, _), c₂, _⟩) =>
          match Grammar.routine [] .empty isFunction c₂ with
          | .error _ => false
          | .ok ⟨scopes, c₃, _⟩ =>
            match c₃.accept routine? with
            | .error _ | .ok none => false
            | .ok (some ⟨(isFunction, _), c₄, _⟩) =>
              match Grammar.routine [] scopes isFunction c₄ with
              | .error _ => false
              | .ok ⟨scopes', _, _⟩ =>
                !isFunction && (scopes.top.routines.map fun e => e.2.forward) == [true] &&
                  (scopes'.top.routines.map fun e => e.2.forward) == [false]) = true := by
    rw [← htext]
    cbv
  split at hrun
  · cases hrun
  rename_i c₀ hc₀
  split at hrun
  · cases hrun
  rename_i c₁ hle hheader
  split at hrun
  · cases hrun
  · cases hrun
  rename_i isFunction token c₂ hlt hkeyword
  split at hrun
  · cases hrun
  rename_i scopes c₃ hlt' hannounced
  split at hrun
  · cases hrun
  · cases hrun
  rename_i isFunction' token' c₄ hlt₄ hkeyword'
  split at hrun
  · cases hrun
  rename_i scopes' c₅ hlt₅ hdefined
  simp only [Bool.and_eq_true, beq_iff_eq, Bool.not_eq_true'] at hrun
  obtain ⟨⟨rfl, hwaiting⟩, hdone⟩ := hrun
  obtain ⟨g, c', hg⟩ := exists_starts hkeyword hannounced
  have hr := (Reaches.start hc₀ hheader).routine hg hannounced
  have hd : routine false c₄ ⟨scopes, 2, []⟩ = .ok (⟨(), c₅, hlt₅⟩, ⟨scopes', 2, []⟩) := by
    rw [routine_leads ⟨scopes, 2, []⟩ false c₄, hdefined]
    rfl
  obtain ⟨hpath, hloops, hframes, -⟩ := (routine_restores hr hkeyword' 2).2 _ _ hd
  exact ⟨scopes, c₃, _, token', c₄, hlt₄, _, _, hr, hkeyword', hd, hpath, hloops, hframes,
    hwaiting, hdone⟩

end Session

end MiniPascal
