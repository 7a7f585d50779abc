import Mathlib.Data.List.Nodup
import MiniPascal.Proofs.Checked.Program

/-! The routines of a program in preorder. -/

namespace MiniPascal

mutual

/-- A routine and those declared in it, in the order of their first headings, each with the path to
it: the names of the routines around it and its own. -/
def Routine.preorder (path : List String) : Routine → List (List String × Routine)
  | r@⟨_, _, _, _, none, _⟩ => [(path, r)]
  | r@⟨_, _, _, _, some ⟨⟨entries⟩, _⟩, _⟩ => (path, r) :: preorderOfEntries path entries

/-- The routines among some declarations and those in them. -/
def preorderOfEntries (path : List String) :
    List (Name × Declaration) → List (List String × Routine)
  | [] => []
  | (n, d) :: entries => d.preorder (path ++ [n.canonical]) ++ preorderOfEntries path entries

/-- A declared routine and those in it. -/
def Declaration.preorder (path : List String) : Declaration → List (List String × Routine)
  | .routine r => r.preorder path
  | .var .. | .const .. | .type .. => []

end

/-- All routines of a program in preorder, with the paths to them. -/
def Program.routines (p : Program) : List (List String × Routine) :=
  preorderOfEntries [] p.scope.entries

/-- All that the statements of a program can use somewhere: its variables, and all its routines. -/
def Program.allDeclared (p : Program) : Environment :=
  ⟨p.scope.vars, p.routines.map fun e => e.2.signature⟩

theorem Routine.preorder_eq (path : List String) (r : Routine) : r.preorder path =
    (path, r) :: (match r.body with
      | none => []
      | some body => preorderOfEntries path body.scope.entries) := by
  obtain ⟨_, _, _, _, _ | ⟨⟨_⟩, _⟩, _⟩ := r <;> rw [preorder]

theorem mem_preorderOfEntries {path : List String} {entries : List (Name × Declaration)}
    {e : List String × Routine} : e ∈ preorderOfEntries path entries ↔
      ∃ n r, (n, .routine r) ∈ entries ∧ e ∈ r.preorder (path ++ [n.canonical]) := by
  induction entries with
  | nil => simp [preorderOfEntries]
  | cons d entries ih =>
    obtain ⟨m, d⟩ := d
    rw [preorderOfEntries, List.mem_append, ih]
    cases d <;> simp [Declaration.preorder, or_and_right, exists_or]

/-- All routines in one that obeys the rules obey them too, with the variables of the same main
program. -/
theorem Routine.Checked.of_mem_preorder {E : Environment} {path : List String} {r : Routine}
    (h : r.Checked E path) {e : List String × Routine} (he : e ∈ r.preorder path) :
    ∃ E' : Environment, E'.vars = E.vars ∧ e.2.Checked E' e.1 := by
  induction h with
  | @intro E path r body hp hb hv hl hr hs hn ih =>
    rw [preorder_eq, hb] at he
    -- further in there are more routines to call, but the variables are those of the main program
    rcases List.mem_cons.1 he with rfl | he
    · exact ⟨E, rfl, .intro hp hb hv hl hr hs hn⟩
    · obtain ⟨n, q, hq, he⟩ := mem_preorderOfEntries.1 he
      exact ih n q hq he

theorem Program.Checked.of_mem_routines {p : Program} (h : p.Checked) {e : List String × Routine}
    (he : e ∈ p.routines) : ∃ E : Environment, E.vars = p.scope.vars ∧ e.2.Checked E e.1 := by
  obtain ⟨n, r, hr, he⟩ := mem_preorderOfEntries.1 he
  exact (h.routines n r hr).of_mem_preorder he

theorem Program.environment_le_allDeclared (p : Program) : p.environment.Le p.allDeclared := by
  refine ⟨fun _ => id, fun σ hσ => ?_⟩
  obtain ⟨n, r, hr, rfl⟩ := Scope.mem_signatures.1 hσ
  refine List.mem_map.2 ⟨([n.canonical], r), mem_preorderOfEntries.2 ⟨n, r, hr, ?_⟩, rfl⟩
  rw [Routine.preorder_eq]
  exact List.mem_cons_self

theorem Program.Checked.main {p : Program} (h : p.Checked) :
    ∀ s ∈ p.statements, s.Checked (.ofVars p.allDeclared []) false := fun s hs =>
  (h.statements s hs).mono (Context.ofScopes_le p.environment_le_allDeclared .empty .empty)

/-! ### Bodies -/

/-- The variables and the statements of a body: that of a routine or that of the main program. -/
inductive Program.HasBody (p : Program) : List (Name × Ty) → List Stmt → Prop
  | main : HasBody p [] p.statements
  | routine {e : List String × Routine} {body : Block} (he : e ∈ p.routines)
    (hb : e.2.body = some body) :
    HasBody p (e.2.params.vars ++ body.scope.vars) body.statements

/-- The statements obey the rules, where they use these variables of a routine and what the
environment has. -/
def Obeys (E : Environment) (locals : List (Name × Ty)) (body : List Stmt) : Prop :=
  ∀ s ∈ body, s.Checked (.ofVars E locals) false

/-- The statements of all routines in one that obeys the rules obey them in a larger environment,
if it has all of these routines. -/
theorem Routine.Checked.obeys {E E' : Environment} {path : List String} {r : Routine}
    (h : r.Checked E path) (hE : E.Le E') (hr : ∀ e ∈ r.preorder path, e.2.signature ∈ E'.routines)
    {e : List String × Routine} (he : e ∈ r.preorder path) {body : Block}
    (hb : e.2.body = some body) :
    Obeys E' (e.2.params.vars ++ body.scope.vars) body.statements := by
  induction h with
  | @intro E path r b hp hrb hv hl hret hs _ ih =>
    -- the routines that are declared here are in preorder, so the larger environment has them
    have hpre : r.preorder path = (path, r) :: preorderOfEntries path b.scope.entries := by
      rw [preorder_eq, hrb]
    rw [hpre, List.forall_mem_cons] at hr
    have hin : (E.inside b.scope).Le E' := by
      refine ⟨hE.vars, List.append_subset.2 ⟨hE.routines, fun σ hσ => ?_⟩⟩
      obtain ⟨n, q, hq, rfl⟩ := Scope.mem_signatures.1 hσ
      refine hr.2 (path ++ [n.canonical], q) (mem_preorderOfEntries.2 ⟨n, q, hq, ?_⟩)
      rw [Routine.preorder_eq]
      exact List.mem_cons_self
    rw [hpre] at he
    rcases List.mem_cons.1 he with rfl | he
    · cases hrb.symm.trans hb
      exact fun s hm => (hs s hm).mono (Context.ofScopes_le hin _ _)
    · obtain ⟨n, q, hq, he⟩ := mem_preorderOfEntries.1 he
      exact ih n q hq hin (fun e he => hr.2 e (mem_preorderOfEntries.2 ⟨n, q, hq, he⟩)) he

/-- The statements of every body obey the rules, with all that the program declares. -/
theorem Program.Checked.obeys {p : Program} (h : p.Checked) {locals : List (Name × Ty)}
    {body : List Stmt} (hb : p.HasBody locals body) : Obeys p.allDeclared locals body := by
  cases hb with
  | main => exact h.main
  | routine he hb =>
    obtain ⟨n, r, hr, he⟩ := mem_preorderOfEntries.1 he
    have hroutines : ∀ e ∈ r.preorder ([] ++ [n.canonical]),
        e.2.signature ∈ p.allDeclared.routines := fun e he =>
      List.mem_map.2 ⟨e, mem_preorderOfEntries.2 ⟨n, r, hr, he⟩, rfl⟩
    exact (h.routines n r hr).obeys p.environment_le_allDeclared hroutines he hb

/-! ### Paths -/

/-- Paths that start with the given one, all different. -/
structure DifferentBelow (path : List String) (paths : List (List String)) : Prop where
  below : ∀ l ∈ paths, path <+: l
  nodup : paths.Nodup

theorem eq_of_prefix_snoc {path l : List String} {v w : String} (hv : path ++ [v] <+: l)
    (hw : path ++ [w] <+: l) : v = w := by
  have hle : (path ++ [v]).length ≤ (path ++ [w]).length := by simp
  have h := (List.prefix_of_prefix_length_le hv hw hle).eq_of_length (by simp)
  simpa using h

/-- The paths behind different names differ. -/
theorem preorderOfEntries_paths (path : List String) {entries : List (Name × Declaration)}
    (hn : (entries.map fun e => e.1.canonical).Nodup)
    (h : ∀ n r, (n, .routine r) ∈ entries → DifferentBelow (path ++ [n.canonical])
      ((r.preorder (path ++ [n.canonical])).map Prod.fst)) :
    ((preorderOfEntries path entries).map Prod.fst).Nodup ∧
      ∀ l ∈ (preorderOfEntries path entries).map Prod.fst,
        ∃ e ∈ entries, path ++ [e.1.canonical] <+: l := by
  induction entries with
  | nil => exact ⟨.nil, List.forall_mem_nil _⟩
  | cons e entries ih =>
    obtain ⟨n, d⟩ := e
    rw [List.map_cons, List.nodup_cons] at hn
    obtain ⟨hnodup, hbelow⟩ := ih hn.2 fun m r hm => h m r (List.mem_cons_of_mem _ hm)
    have hd : DifferentBelow (path ++ [n.canonical])
        ((d.preorder (path ++ [n.canonical])).map Prod.fst) := by
      cases d with
      | routine r => exact h n r List.mem_cons_self
      | var | const | type => exact ⟨List.forall_mem_nil _, .nil⟩
    rw [preorderOfEntries, List.map_append]
    refine ⟨List.nodup_append.2 ⟨hd.nodup, hnodup, ?_⟩, List.forall_mem_append.2 ⟨?_, ?_⟩⟩
    · -- a path behind two names would make the names equal
      rintro l hl _ hl' rfl
      obtain ⟨e, he, hle⟩ := hbelow l hl'
      have hne := eq_of_prefix_snoc (hd.below l hl) hle
      exact hn.1 (hne ▸ List.mem_map_of_mem he)
    · exact fun l hl => ⟨(n, d), List.mem_cons_self, hd.below l hl⟩
    · intro l hl
      obtain ⟨e, he, hle⟩ := hbelow l hl
      exact ⟨e, List.mem_cons_of_mem _ he, hle⟩

/-- The routines in one that obeys the rules have different paths, which lead on from its own. -/
theorem Routine.Checked.paths {E : Environment} {path : List String} {r : Routine}
    (h : r.Checked E path) : DifferentBelow path ((r.preorder path).map Prod.fst) := by
  induction h with
  | @intro E path r body hp hb hv hl hr hs _ ih =>
    -- the routines declared in this one have different names
    obtain ⟨hnodup, hbelow⟩ := preorderOfEntries_paths path hl.nodup ih
    rw [preorder_eq, hb, List.map_cons]
    refine ⟨List.forall_mem_cons.2 ⟨List.prefix_rfl, fun l hm => ?_⟩,
      List.nodup_cons.2 ⟨fun hm => ?_, hnodup⟩⟩
    · obtain ⟨e, -, he⟩ := hbelow l hm
      exact (List.prefix_append _ _).trans he
    · -- all paths behind the names are longer than the routine's own
      obtain ⟨e, -, he⟩ := hbelow path hm
      have hle := he.length_le
      rw [List.length_append, List.length_singleton] at hle
      omega

/-- A path of names, which lead somewhere. -/
structure IsPath (path : List String) : Prop where
  nonempty : path ≠ []
  words : ∀ w ∈ path, '.' ∉ w.toList

theorem Routine.Checked.isPath {E : Environment} {path : List String} {r : Routine}
    (h : r.Checked E path) (hpath : IsPath path) : ∀ e ∈ r.preorder path, IsPath e.1 := by
  induction h with
  | @intro E path r body hp hb hv hl hr hs _ ih =>
    rw [preorder_eq, hb]
    refine List.forall_mem_cons.2 ⟨hpath, fun e he => ?_⟩
    obtain ⟨n, q, hq, he⟩ := mem_preorderOfEntries.1 he
    refine ih n q hq ⟨by simp, List.forall_mem_append.2 ⟨hpath.words, ?_⟩⟩ e he
    exact List.forall_mem_singleton.2 (hl.words _ hq).dot_notMem

/-- Paths that are joined by dots can be read off the result. -/
theorem IsPath.intercalate_inj {l m : List String} (hl : IsPath l) (hm : IsPath m)
    (h : ".".intercalate l = ".".intercalate m) : l = m := by
  have hsplit : ∀ {l : List String}, IsPath l →
      (".".intercalate l).toList.splitOn '.' = l.map String.toList := by
    intro l hl
    rw [String.toList_intercalate]
    refine List.splitOn_intercalate '.' ?_ (by simpa using hl.nonempty)
    simpa using hl.words
  have hlists : l.map String.toList = m.map String.toList := by
    calc
      l.map String.toList = (".".intercalate l).toList.splitOn '.' := (hsplit hl).symm
      _ = (".".intercalate m).toList.splitOn '.' := by rw [h]
      _ = m.map String.toList := hsplit hm
  exact (List.map_injective_iff.2 fun _ _ => String.toList_injective) hlists

namespace Program.Checked

variable {p : Program} (h : p.Checked)
include h

theorem isPath : ∀ e ∈ p.routines, IsPath e.1 := by
  intro e he
  obtain ⟨n, r, hr, he⟩ := mem_preorderOfEntries.1 he
  refine (h.routines n r hr).isPath ⟨by simp, ?_⟩ e he
  exact List.forall_mem_singleton.2 (h.named.words _ hr).dot_notMem

/-- Different routines of a program have different symbols. -/
theorem nodup_symbols : (p.routines.map fun e => ".".intercalate e.1).Nodup := by
  obtain ⟨hnodup, -⟩ := preorderOfEntries_paths [] h.named.nodup
    fun n r hr => (h.routines n r hr).paths
  have hinj : ∀ l ∈ p.routines.map Prod.fst, ∀ m ∈ p.routines.map Prod.fst,
      ".".intercalate l = ".".intercalate m → l = m := by
    intro l hl m hm hlm
    obtain ⟨e, he, rfl⟩ := List.mem_map.1 hl
    obtain ⟨e', he', rfl⟩ := List.mem_map.1 hm
    exact (h.isPath e he).intercalate_inj (h.isPath e' he') hlm
  have := List.Nodup.map_on hinj hnodup
  rwa [List.map_map] at this

end Program.Checked

end MiniPascal
