import MiniPascal.Proofs.Checked.Preorder
import MiniPascal.Proofs.Reading.Declares
import MiniPascal.Proofs.Reading.Program

/-! What holds of all types and all bodies of a program, by the recursion of the rules for
declarations. -/

namespace MiniPascal

/-- A declaration whose types have one property and whose bodies have another, with all that is
declared in it. Constants are literals of 32 bits. -/
inductive Declaration.Meets (T : Ty → Prop) (S : List Stmt → Prop) : Declaration → Prop
  | var {p : Position} {t : Ty} (ht : T t) : Meets T S (.var p t)
  | const {p : Position} {value : Expr}
    (hv : ∃ c q, Constant.Fits c ∧ value = .ofConstant c q) : Meets T S (.const p value)
  | type {p : Position} {t : Ty} (ht : T t) : Meets T S (.type p t)
  | routine {r : Routine} (hp : ∀ e ∈ r.params.entries, Meets T S e.2)
    (hr : ∀ t ∈ r.returns, T t) (hd : ∀ b ∈ r.body, ∀ e ∈ b.scope.entries, Meets T S e.2)
    (hs : ∀ b ∈ r.body, S b.statements) : Meets T S (.routine r)

/-- A program whose types have one property and whose bodies have another. -/
structure Program.Meets (T : Ty → Prop) (S : List Stmt → Prop) (p : Program) : Prop where
  scope : p.scope.All (Declaration.Meets T S)
  statements : S p.statements

section

variable {T : Ty → Prop} {S : List Stmt → Prop}

theorem Declaration.Meets.sound (hT : ∀ t, T t → t.WellFormed) {d : Declaration}
    (h : d.Meets T S) : d.Sound := by
  cases h with
  | var ht => exact hT _ ht
  | const hv => exact hv
  | type ht => exact hT _ ht
  | routine => trivial

theorem Scopes.All.sound_of_meets (hT : ∀ t, T t → t.WellFormed) {s : Scopes}
    (hs : s.All (Declaration.Meets T S)) : s.Sound where
  globals e he := (hs.globals e he).sound hT
  levels l hl := ⟨fun e he => ((hs.levels l hl).1 e he).sound hT,
    fun e he => ((hs.levels l hl).2 e he).sound hT⟩

/-- What holds of a declared routine holds of the routines in it. -/
theorem Declaration.Meets.of_mem_preorder {d : Declaration} (h : d.Meets T S)
    {path : List String} {e : List String × Routine} (he : e ∈ d.preorder path) :
    (Declaration.routine e.2).Meets T S := by
  induction h generalizing path with
  | var | const | type => simp [preorder] at he
  | @routine r hp hr hd hs _ ih =>
    rw [preorder, Routine.preorder_eq] at he
    rcases List.mem_cons.1 he with rfl | he
    · exact .routine hp hr hd hs
    · cases hb : r.body with
      | none =>
        rw [hb] at he
        cases he
      | some b =>
        rw [hb] at he
        obtain ⟨n, q, hq, he⟩ := mem_preorderOfEntries.1 he
        exact ih b hb _ hq (by rwa [preorder])

theorem Program.Meets.routine {p : Program} (h : p.Meets T S) {e : List String × Routine}
    (he : e ∈ p.routines) : (Declaration.routine e.2).Meets T S := by
  obtain ⟨n, r, hr, he⟩ := mem_preorderOfEntries.1 he
  have hmem : e ∈ (Declaration.routine r).preorder ([] ++ [n.canonical]) := by
    rwa [Declaration.preorder]
  exact (h.scope _ hr).of_mem_preorder hmem

/-- A body has the property of all bodies of the program. -/
theorem Program.Meets.body {p : Program} (h : p.Meets T S)
    {locals : List (Name × Ty)} {body : List Stmt} (hb : p.HasBody locals body) :
    S body := by
  cases hb with
  | main => exact h.statements
  | routine he hb =>
    cases h.routine he with
    | routine _ _ _ hs => exact hs _ hb

end

namespace Grammar

open Cursor

/-- Types and bodies have the properties, in texts of at most so many tokens, if
all that is visible has them. -/
structure Inherits (N : Nat) (T : Ty → Prop) (S : List Stmt → Prop) : Prop where
  sound : ∀ t, T t → t.WellFormed
  type : ∀ {s : Scopes} {c : Cursor}, s.All (Declaration.Meets T S) → c.Spelled → c.size ≤ N →
    Read.Ensures (typeName s c) fun t => T t.value
  body : ∀ {s : Scopes} {c : Cursor}, s.All (Declaration.Meets T S) → c.Spelled → c.size ≤ N →
    Read.Ensures (compound s false c) fun t => S t.value

section

variable {N : Nat} {T : Ty → Prop} {S : List Stmt → Prop}

theorem empty_meets : Scope.empty.All (Declaration.Meets T S) := List.forall_mem_nil _

theorem declareAll_meets {s : Scopes} (hs : s.All (Declaration.Meets T S)) {scope : Scope}
    (h : scope.All (Declaration.Meets T S)) :
    Read.Ensures (declareAll s scope) (Scopes.All (Declaration.Meets T S)) := by
  apply declareAll_keeps ?_ hs h
  intro s s' n d hs hd hdeclare
  obtain ⟨-, -, rfl⟩ := Scopes.declare_eq_ok hdeclare
  exact hs.withTop (hs.top.snoc hd)

theorem register_meets {s : Scopes} (hs : s.All (Declaration.Meets T S)) (n : Name) {r : Routine}
    (hr : (Declaration.routine r).Meets T S) (forward : Bool) :
    Read.Ensures (register s n r forward) (Scopes.All (Declaration.Meets T S)) := by
  intro s' h
  rcases Declares.register_cases h with ⟨-, rfl⟩ | ⟨rfl, -⟩
  · exact hs.withTop (hs.top.snoc hr)
  · exact hs

theorem enterBody_meets {s : Scopes} (hs : s.All (Declaration.Meets T S)) (n : Name) {r : Routine}
    (hp : r.params.All (Declaration.Meets T S)) (hr : ∀ t ∈ r.returns, T t) :
    Read.Ensures (enterBody s n r) (Scopes.All (Declaration.Meets T S)) := by
  intro s' h
  have henter := hs.enter hp
  rcases Declares.enterBody_cases h with ⟨rfl, -⟩ | ⟨t, ht, hd⟩
  · exact henter
  · obtain ⟨-, -, rfl⟩ := Scopes.declare_eq_ok hd
    exact henter.withTop (henter.top.snoc (.var (hr t ht)))

/-- A routine that has got its body holds what was declared in it and its statements. -/
theorem leaveBody_meets {s : Scopes} (hs : s.All (Declaration.Meets T S)) (n : Name)
    {ss : List Stmt} (hss : S ss) :
    (leaveBody s n ss).All (Declaration.Meets T S) := by
  have hleave : s.leave.1.All (Declaration.Meets T S) ∧ s.leave.2.All (Declaration.Meets T S) := by
    obtain ⟨g, _ | ⟨l, ls⟩⟩ := s
    · exact ⟨empty_meets, hs⟩
    · obtain ⟨hl, hls⟩ := List.forall_mem_cons.1 hs.levels
      exact ⟨hl.2, hs.globals, hls⟩
  obtain ⟨hlocals, houter⟩ := hleave
  apply houter.withTop
  rintro ⟨m, d⟩ hm
  rcases Scope.mem_complete hm with ⟨hd, -⟩ | ⟨d', hd', -, rfl⟩
  · exact houter.top _ hd
  · cases houter.top _ hd' with
    | var ht => exact .var ht
    | const hv => exact .const hv
    | type ht => exact .type ht
    | routine hp hr =>
      refine .routine hp hr ?_ ?_
      · rintro _ ⟨⟩
        exact hlocals
      · rintro _ ⟨⟩
        exact hss

variable (h : Inherits N T S)
include h

section

variable {s : Scopes} (hs : s.All (Declaration.Meets T S))
include hs

theorem typeName_meets {c : Cursor} (hc : c.Spelled) (hN : c.size ≤ N) :
    Read.Ensures (typeName s c) fun t => T t.value ∧ t.rest.Spelled :=
  fun t ht => ⟨h.type hs hc hN t ht,
    (typeName_wellFormed (hs.sound_of_meets h.sound) hc t ht).2⟩

theorem compound_meets {c : Cursor} (hc : c.Spelled) (hN : c.size ≤ N) :
    Read.Ensures (compound s false c) fun t => S t.value ∧ t.rest.Spelled :=
  fun t ht => ⟨h.body hs hc hN t ht,
    (compound_checked (hs.sound_of_meets h.sound) false hc t ht).spelled⟩

theorem sectionDeclaration_meets (sec : Section) {c : Cursor} (hc : c.Spelled)
    (hN : c.size ≤ N) :
    Read.Ensures (sectionDeclaration sec s c) fun t =>
      t.value.All (Declaration.Meets T S) ∧ t.rest.Spelled := by
  have hsound := hs.sound_of_meets h.sound
  cases sec with
  | vars =>
    show Read.Ensures (variableDeclaration s c) _
    unfold variableDeclaration
    refine .bind (identifiers_spelled hc) ?_
    rintro ⟨names, c₁, h₁⟩ ⟨_, hc₁⟩
    refine .bind (symbol_spelled hc₁ _) ?_
    rintro ⟨_, c₂, h₂⟩ hc₂
    refine .bind (typeName_meets h hs hc₂ (by omega)) ?_
    rintro ⟨t, c₃, h₃⟩ ⟨ht, hc₃⟩
    refine .bind (symbol_spelled hc₃ _) ?_
    rintro ⟨_, c₄, h₄⟩ hc₄
    exact .bind (addVariables_all empty_meets (fun _ => .var ht) names)
      fun scope hscope => .pure ⟨hscope, hc₄⟩
  | consts =>
    show Read.Ensures (constantDeclaration s c) _
    unfold constantDeclaration
    refine .bind (identifier_spelled hc) ?_
    rintro ⟨name, c₁, h₁⟩ ⟨_, hc₁⟩
    refine .bind (symbol_spelled hc₁ _) ?_
    rintro ⟨_, c₂, h₂⟩ hc₂
    refine .bind (expression_checked hsound hc₂) ?_
    rintro ⟨e, c₃, h₃⟩ ⟨_, hc₃⟩
    refine .bind (constantOf_ensures e) fun v hv => ?_
    refine .bind (symbol_spelled hc₃ _) ?_
    rintro ⟨_, c₄, h₄⟩ hc₄
    exact .pure ⟨List.forall_mem_singleton.2 (.const hv), hc₄⟩
  | types =>
    show Read.Ensures (typeDeclaration s c) _
    unfold typeDeclaration
    refine .bind (identifier_spelled hc) ?_
    rintro ⟨name, c₁, h₁⟩ ⟨_, hc₁⟩
    refine .bind (symbol_spelled hc₁ _) ?_
    rintro ⟨_, c₂, h₂⟩ hc₂
    refine .bind (typeName_meets h hs hc₂ (by omega)) ?_
    rintro ⟨t, c₃, h₃⟩ ⟨ht, hc₃⟩
    refine .bind (symbol_spelled hc₃ _) ?_
    rintro ⟨_, c₄, h₄⟩ hc₄
    exact .pure ⟨List.forall_mem_singleton.2 (.type ht), hc₄⟩

theorem parameterGroups_meets {params : Scope} (hp : params.All (Declaration.Meets T S))
    {c : Cursor} (hc : c.Spelled) (hN : c.size ≤ N) :
    Read.Ensures (parameterGroups s params c) fun t =>
      t.value.All (Declaration.Meets T S) ∧ t.rest.Spelled := by
  have hgroup : Read.Ensures (variableGroup s params c) fun t =>
      t.value.All (Declaration.Meets T S) ∧ t.rest.Spelled := by
    unfold variableGroup
    refine .bind (identifiers_spelled hc) ?_
    rintro ⟨names, c₁, h₁⟩ ⟨_, hc₁⟩
    refine .bind (symbol_spelled hc₁ _) ?_
    rintro ⟨_, c₂, h₂⟩ hc₂
    refine .bind (typeName_meets h hs hc₂ (by omega)) ?_
    rintro ⟨t, c₃, h₃⟩ ⟨ht, hc₃⟩
    exact .bind (addVariables_all hp (fun _ => .var ht) names)
      fun scope hscope => .pure ⟨hscope, hc₃⟩
  unfold parameterGroups
  refine .bind hgroup ?_
  rintro ⟨params, c₁, h₁⟩ ⟨hp, hc₁⟩
  refine .bind (acceptSymbol_spelled hc₁ _) fun o ho => ?_
  rcases o with _ | ⟨_, c₂, h₂⟩
  · exact .pure ⟨hp, hc₁⟩
  · refine .bind (parameterGroups_meets hp (ho _ rfl) (by omega)) ?_
    rintro ⟨params, c₃, h₃⟩ hparams
    exact .pure hparams
termination_by c.size

theorem parameters_meets {c : Cursor} (hc : c.Spelled) (hN : c.size ≤ N) :
    Read.Ensures (parameters s c) fun t =>
      t.value.All (Declaration.Meets T S) ∧ t.rest.Spelled := by
  unfold parameters
  refine .bind (acceptSymbol_spelled hc _) fun o ho => ?_
  rcases o with _ | ⟨_, c₁, h₁⟩
  · exact .pure ⟨empty_meets, hc⟩
  · have hc₁ := ho _ rfl
    dsimp only
    split
    · refine .bind (symbol_spelled hc₁ _) ?_
      rintro ⟨_, c₂, h₂⟩ hc₂
      exact .pure ⟨empty_meets, hc₂⟩
    · refine .bind (parameterGroups_meets h hs empty_meets hc₁ (by omega)) ?_
      rintro ⟨params, c₂, h₂⟩ ⟨hp, hc₂⟩
      refine .bind (symbol_spelled hc₂ _) ?_
      rintro ⟨_, c₃, h₃⟩ hc₃
      exact .pure ⟨hp, hc₃⟩

theorem resultType_meets (isFunction : Bool) {c : Cursor} (hc : c.Spelled) (hN : c.size ≤ N) :
    Read.Ensures (resultType s isFunction c) fun t =>
      (∀ u ∈ t.value, T u) ∧ t.rest.Spelled := by
  unfold resultType
  split
  · refine .bind (symbol_spelled hc _) ?_
    rintro ⟨_, c₁, h₁⟩ hc₁
    refine .bind (typeName_meets h hs hc₁ (by omega)) ?_
    rintro ⟨t, c₂, h₂⟩ ⟨ht, hc₂⟩
    refine .pure ⟨?_, hc₂⟩
    rintro _ ⟨⟩
    exact ht
  · exact .pure ⟨nofun, hc⟩

theorem heading_meets (path : List String) (isFunction : Bool) {c : Cursor} (hc : c.Spelled)
    (hN : c.size ≤ N) :
    Read.Ensures (heading path s isFunction c) fun t =>
      (t.value.2.params.All (Declaration.Meets T S) ∧ (∀ u ∈ t.value.2.returns, T u) ∧
        t.value.2.body = none) ∧ t.rest.Spelled := by
  unfold heading
  refine .bind (identifier_spelled hc) ?_
  rintro ⟨name, c₁, h₁⟩ ⟨_, hc₁⟩
  refine .bind (parameters_meets h hs hc₁ (by omega)) ?_
  rintro ⟨params, c₂, h₂⟩ ⟨hp, hc₂⟩
  refine .bind (resultType_meets h hs isFunction hc₂ (by omega)) ?_
  rintro ⟨returns, c₃, h₃⟩ ⟨hr, hc₃⟩
  refine .bind (symbol_spelled hc₃ _) ?_
  rintro ⟨_, c₄, h₄⟩ hc₄
  exact .pure ⟨⟨hp, hr, rfl⟩, hc₄⟩

end

theorem sectionDeclarations_meets (sec : Section) {s : Scopes}
    (hs : s.All (Declaration.Meets T S)) {c : Cursor} (hc : c.Spelled) (hN : c.size ≤ N) :
    Read.Ensures (sectionDeclarations sec s c) fun t =>
      t.value.All (Declaration.Meets T S) ∧ t.rest.Spelled := by
  unfold sectionDeclarations
  refine .bind (sectionDeclaration_meets h hs sec hc hN) ?_
  rintro ⟨scope, c₁, h₁⟩ ⟨hscope, hc₁⟩
  refine .bind (declareAll_meets hs hscope) fun s₁ hs₁ => ?_
  dsimp only
  split
  · refine .bind (sectionDeclarations_meets sec hs₁ hc₁ (by omega)) ?_
    rintro ⟨s₂, c₂, h₂⟩ hs₂
    exact .pure hs₂
  · exact .pure ⟨hs₁, hc₁⟩
termination_by c.size

mutual

/-- All types and bodies of declarations have the properties. -/
theorem declarations_meets (path : List String) {s : Scopes}
    (hs : s.All (Declaration.Meets T S)) {c : Cursor} (hc : c.Spelled) (hN : c.size ≤ N) :
    Read.Ensures (declarations path s c) fun t =>
      t.value.All (Declaration.Meets T S) ∧ t.rest.Spelled := by
  unfold declarations
  refine .bind (accept_spelled hc _) fun o ho => ?_
  rcases o with _ | ⟨⟨sec, _⟩, c₁, h₁⟩
  swap
  · refine .bind (sectionDeclarations_meets h sec hs (ho _ rfl).2.2 (by omega)) ?_
    rintro ⟨s₁, c₂, h₂⟩ ⟨hs₁, hc₂⟩
    refine .bind (declarations_meets path hs₁ hc₂ (by omega)) ?_
    rintro ⟨s₂, c₃, h₃⟩ hs₂
    exact .pure hs₂
  refine .bind (accept_spelled hc _) fun o ho => ?_
  rcases o with _ | ⟨⟨isFunction, _⟩, c₁, h₁⟩
  swap
  · refine .bind (routine_meets path hs isFunction (ho _ rfl).2.2 (by omega)) ?_
    rintro ⟨s₁, c₂, h₂⟩ ⟨hs₁, hc₂⟩
    refine .bind (declarations_meets path hs₁ hc₂ (by omega)) ?_
    rintro ⟨s₂, c₃, h₃⟩ hs₂
    exact .pure hs₂
  exact .step fun _ => .pure ⟨hs, hc⟩
termination_by c.size

theorem routine_meets (path : List String) {s : Scopes} (hs : s.All (Declaration.Meets T S))
    (isFunction : Bool) {c : Cursor} (hc : c.Spelled) (hN : c.size ≤ N) :
    Read.Ensures (routine path s isFunction c) fun t =>
      t.value.All (Declaration.Meets T S) ∧ t.rest.Spelled := by
  unfold routine
  refine .bind (heading_meets h hs path isFunction hc hN) ?_
  rintro ⟨⟨n, r⟩, c₁, h₁⟩ ⟨⟨hp, hr, hb⟩, hc₁⟩
  have hroutine : (Declaration.routine r).Meets T S := by
    refine .routine hp hr ?_ ?_ <;>
    · intro b hmem
      rw [hb] at hmem
      cases hmem
  refine .bind (register_meets hs n hroutine _) fun s₁ hs₁ => ?_
  dsimp only
  split
  · -- a heading only
    refine .bind (keyword_spelled hc₁ _) ?_
    rintro ⟨_, c₂, h₂⟩ hc₂
    refine .bind (symbol_spelled hc₂ _) ?_
    rintro ⟨_, c₃, h₃⟩ hc₃
    exact .pure ⟨hs₁, hc₃⟩
  · -- a definition
    refine .bind (enterBody_meets hs₁ n hp hr) fun s₂ hs₂ => ?_
    refine .bind (declarations_meets (path ++ [n.canonical]) hs₂ hc₁ (by omega)) ?_
    rintro ⟨s₃, c₂, h₂⟩ ⟨hs₃, hc₂⟩
    have hN₂ : c₂.size ≤ N := by omega
    refine .bind (compound_meets h hs₃ hc₂ hN₂) ?_
    rintro ⟨ss, c₃, h₃⟩ ⟨hss, hc₃⟩
    refine .bind (symbol_spelled hc₃ _) ?_
    rintro ⟨_, c₄, h₄⟩ hc₄
    exact .pure ⟨leaveBody_meets hs₃ n hss, hc₄⟩
termination_by c.size

end

end

end Grammar

/-- All types and all bodies of a program that has been read have properties that types and bodies
inherit. -/
theorem Program.ofText_meets {T : Ty → Prop} {S : List Stmt → Prop} {text name : String}
    {p : Program} (h : Grammar.Inherits text.length T S) (hp : ofText text name = .ok p) :
    p.Meets T S := by
  have hread : Read.Ensures (ofText text name) (Program.Meets T S) := by
    unfold ofText ofCursor
    refine .bind (Cursor.ofText_ensures text) ?_
    rintro c ⟨hc, hsize⟩
    refine .bind (Grammar.header_ensures name hc) ?_
    rintro ⟨name, c₁, h₁⟩ hc₁
    have hempty : Scopes.empty.All (Declaration.Meets T S) :=
      ⟨Grammar.empty_meets, List.forall_mem_nil _⟩
    refine .bind (Grammar.declarations_meets h [] hempty hc₁ (by omega)) ?_
    rintro ⟨s, c₂, h₂⟩ ⟨hs, hc₂⟩
    refine .bind (Grammar.compound_meets h hs hc₂ (by omega)) ?_
    rintro ⟨ss, c₃, h₃⟩ ⟨hss, _⟩
    exact .step fun _ => .step fun _ => .pure ⟨hs.globals, hss⟩
  exact hread p hp

end MiniPascal
