import Mathlib.Algebra.Group.Nat.Defs
import MiniPascal.Proofs.Lowering.Appends
import MiniPascal.Proofs.Lowering.Names

/-! Counting with 32 bits. -/

namespace MiniPascal.Lowering

/-- The state with counts that have no bounds. -/
def Generator.unbounded (g : Generator UInt32) : Generator :=
  { g with
    labels := g.labels.toNat
    names := g.names.map fun n => (n.1, n.2.toNat)
    overflowed := false }

/-- All counts have 32 bits. -/
structure Generator.Fits (g : Generator) : Prop where
  labels : g.labels < 2 ^ 32
  names : ∀ name, countOf name g.names < 2 ^ 32

/-- No count of one state is higher than in another. -/
structure Generator.CountsLe (g g' : Generator) : Prop where
  labels : g.labels ≤ g'.labels
  names : ∀ name, countOf name g.names ≤ countOf name g'.names

namespace Generator

theorem CountsLe.trans {g g' g'' : Generator} (h : g.CountsLe g') (h' : g'.CountsLe g'') :
    g.CountsLe g'' :=
  ⟨Nat.le_trans h.labels h'.labels, fun name => Nat.le_trans (h.names name) (h'.names name)⟩

theorem Fits.mono {g g' : Generator} (h : g'.Fits) (hle : g.CountsLe g') : g.Fits :=
  ⟨Nat.lt_of_le_of_lt hle.labels h.labels,
    fun name => Nat.lt_of_le_of_lt (hle.names name) (h.names name)⟩

theorem countOf_unbounded (name : String) (names : List (String × UInt32)) :
    countOf name (names.map fun n => (n.1, n.2.toNat)) = (countOf name names).toNat := by
  induction names with
  | nil => rfl
  | cons n names ih =>
    simp only [List.map_cons, countOf]
    split
    · rfl
    · exact ih

theorem fits_unbounded (g : Generator UInt32) : g.unbounded.Fits := by
  refine ⟨g.labels.toNat_lt, fun name => ?_⟩
  rw [unbounded, countOf_unbounded]
  exact (countOf name g.names).toNat_lt

end Generator

theorem isLast_iff (n : UInt32) : Counter.isLast n = true ↔ n.toNat = 2 ^ 32 - 1 := by
  show decide (n = UInt32.ofNat (UInt32.size - 1)) = true ↔ _
  rw [decide_eq_true_iff, ← UInt32.toNat_inj]
  rfl

theorem toNat_next {n : UInt32} (h : Counter.isLast n = false) :
    (Counter.next n).toNat = n.toNat + 1 := by
  have hlast : n.toNat ≠ 2 ^ 32 - 1 := fun hn => by
    rw [(isLast_iff n).2 hn] at h
    cases h
  have hlt := n.toNat_lt
  show (n + 1).toNat = _
  rw [UInt32.toNat_add, UInt32.toNat_one, Nat.mod_eq_of_lt (by omega)]

theorem le_next {n : UInt32} (h : Counter.isLast n = false) : n ≤ Counter.next n := by
  rw [UInt32.le_iff_toNat_le, toNat_next h]
  exact Nat.le_succ _

theorem countUp_unbounded {name : String} {names : List (String × UInt32)}
    (h : Counter.isLast (countOf name names) = false) :
    countUp name (names.map fun n => (n.1, n.2.toNat)) =
      (countUp name names).map fun n => (n.1, n.2.toNat) := by
  induction names with
  | nil => rfl
  | cons n names ih =>
    rw [countOf] at h
    simp only [List.map_cons, countUp]
    split
    · rename_i hn
      rw [if_pos hn] at h
      rw [List.map_cons, toNat_next h, Counter.next_nat]
    · rename_i hn
      rw [if_neg hn] at h
      rw [List.map_cons, ih h]

/-! ### Steps -/

variable {α β : Type}

/-- A step that counts with 32 bits does what another does without bounds, as long as no count
overflows. -/
structure Mirrors (m : Step α) (m' : StepOf UInt32 α) : Prop where
  overflowed : ∀ g, g.overflowed = true → (m' g).2.overflowed = true
  agrees : ∀ g, (m' g).2.overflowed = false → m g.unbounded = ((m' g).1, (m' g).2.unbounded)

/-- Moreover it overflows only where a count without bounds gets too high. -/
structure Narrows (m : Step α) (m' : StepOf UInt32 α) : Prop extends Mirrors m m' where
  counts : ∀ g : Generator, g.CountsLe (m g).2
  fits : ∀ g, g.overflowed = false → (m g.unbounded).2.Fits → (m' g).2.overflowed = false

namespace Mirrors

variable {m : Step α} {m' : StepOf UInt32 α} {f : α → Step β} {f' : α → StepOf UInt32 β}

/-- If a count has not overflowed in the end, it has not before. -/
theorem not_overflowed (h : Mirrors m m') {g : Generator UInt32}
    (hg : (m' g).2.overflowed = false) : g.overflowed = false :=
  Bool.eq_false_iff.2 fun ho => Bool.false_ne_true (hg.symm.trans (h.overflowed g ho))

theorem bind (hm : Mirrors m m') (hf : ∀ a, Mirrors (f a) (f' a)) :
    Mirrors (m >>= f) (m' >>= f') where
  overflowed g hg := (hf _).overflowed _ (hm.overflowed g hg)
  agrees g hg := by
    have hmid : (m' g).2.overflowed = false := (hf (m' g).1).not_overflowed hg
    show f (m g.unbounded).1 (m g.unbounded).2 = _
    rw [hm.agrees g hmid]
    exact (hf _).agrees _ hg

end Mirrors

namespace Narrows

variable {m : Step α} {m' : StepOf UInt32 α} {f : α → Step β} {f' : α → StepOf UInt32 β}

theorem bind (hm : Narrows m m') (hf : ∀ a, Narrows (f a) (f' a)) :
    Narrows (m >>= f) (m' >>= f') where
  toMirrors := hm.toMirrors.bind fun a => (hf a).toMirrors
  counts g := (hm.counts g).trans ((hf _).counts _)
  fits g hg hfits := by
    have hmid : (m' g).2.overflowed = false :=
      hm.fits g hg (hfits.mono ((hf (m g.unbounded).1).counts _))
    have hfits : (f (m g.unbounded).1 (m g.unbounded).2).2.Fits := hfits
    rw [hm.agrees g hmid] at hfits
    exact (hf _).fits _ hmid hfits

/-- A step that counts nothing. -/
theorem of_steady (hm : ∀ g, (m g).2.labels = g.labels ∧ (m g).2.names = g.names)
    (ho : ∀ g, (m' g).2.overflowed = g.overflowed)
    (h : ∀ g, m g.unbounded = ((m' g).1, (m' g).2.unbounded)) : Narrows m m' where
  overflowed g hg := (ho g).trans hg
  agrees g _ := h g
  counts g := by
    obtain ⟨hl, hn⟩ := hm g
    exact ⟨Nat.le_of_eq hl.symm, fun name => Nat.le_of_eq (by rw [hn])⟩
  fits g hg _ := (ho g).trans hg

theorem pure (a : α) : Narrows (Pure.pure a) (Pure.pure a) :=
  .of_steady (fun _ => ⟨rfl, rfl⟩) (fun _ => rfl) fun _ => rfl

theorem push (i : Ir.Instr) : Narrows (Lowering.push i) (Lowering.push i) :=
  .of_steady (fun _ => ⟨rfl, rfl⟩) (fun _ => rfl) fun _ => rfl

theorem alloca (slot : String) (t : Ir.Ty) :
    Narrows (Lowering.alloca slot t) (Lowering.alloca slot t) :=
  .of_steady (fun _ => ⟨rfl, rfl⟩) (fun _ => rfl) fun _ => rfl

theorem here : Narrows Lowering.here Lowering.here :=
  .of_steady (fun _ => ⟨rfl, rfl⟩) (fun _ => rfl) fun _ => rfl

theorem closeLoop (start : Nat) (exit next : Ir.Label) :
    Narrows (Lowering.closeLoop start exit next) (Lowering.closeLoop start exit next) :=
  .of_steady (fun _ => ⟨rfl, rfl⟩) (fun _ => rfl) fun _ => rfl

theorem textGlobal (s : String) : Narrows (Lowering.textGlobal s) (Lowering.textGlobal s) := by
  refine .of_steady (fun g => ?_) (fun g => ?_) fun g => ?_
  all_goals
    unfold Lowering.textGlobal
    by_cases hs : s ∈ g.texts <;> simp [modifyGet, MonadStateOf.modifyGet, StateT.modifyGet, hs,
      Generator.unbounded, Pure.pure]

theorem formatGlobal (s : String) :
    Narrows (Lowering.formatGlobal s) (Lowering.formatGlobal s) := by
  refine .of_steady (fun g => ?_) (fun g => ?_) fun g => ?_
  all_goals
    unfold Lowering.formatGlobal
    by_cases hs : s ∈ g.formats <;> simp [modifyGet, MonadStateOf.modifyGet, StateT.modifyGet, hs,
      Generator.unbounded, Pure.pure]

theorem newLabel : Narrows Lowering.newLabel Lowering.newLabel where
  overflowed g hg := by
    show (Counter.isLast g.labels || g.overflowed) = true
    rw [hg, Bool.or_true]
  agrees g hg := by
    have hlast : Counter.isLast g.labels = false := (Bool.or_eq_false_iff.1 hg).1
    show (g.labels.toNat, { g.unbounded with labels := g.labels.toNat + 1 }) =
      (g.labels.toNat, { g.unbounded with labels := (Counter.next g.labels).toNat })
    rw [toNat_next hlast]
  counts g := ⟨Nat.le_succ _, fun _ => Nat.le_refl _⟩
  fits g hg hfits := by
    have hlt : g.labels.toNat + 1 < 2 ^ 32 := hfits.labels
    refine Bool.or_eq_false_iff.2 ⟨Bool.eq_false_iff.2 fun hlast => ?_, hg⟩
    rw [isLast_iff] at hlast
    omega

theorem newName (p : Position) (suffix : String) :
    Narrows (Lowering.newName p suffix) (Lowering.newName p suffix) where
  overflowed g hg := by
    show (Counter.isLast (countOf (baseName p suffix) g.names) || g.overflowed) = true
    rw [hg, Bool.or_true]
  agrees g hg := by
    have hlast : Counter.isLast (countOf (baseName p suffix) g.names) = false :=
      (Bool.or_eq_false_iff.1 hg).1
    let base := baseName p suffix
    show (numbered base (countOf base g.unbounded.names),
      { g.unbounded with names := countUp base g.unbounded.names }) =
      (numbered base (countOf base g.names).toNat, { g.unbounded with
        names := (countUp base g.names).map fun n => (n.1, n.2.toNat) })
    rw [← countUp_unbounded hlast, ← Generator.countOf_unbounded]
    rfl
  counts g := by
    refine ⟨Nat.le_refl _, fun name => ?_⟩
    show _ ≤ countOf name (countUp (baseName p suffix) g.names)
    rw [countOf_countUp]
    split
    · exact Nat.le_succ _
    · exact Nat.le_refl _
  fits g hg hfits := by
    refine Bool.or_eq_false_iff.2 ⟨Bool.eq_false_iff.2 fun hlast => ?_, hg⟩
    -- an overflow would bring the count to 2^32 without bounds, where it does not fit
    have hlt := hfits.names (baseName p suffix)
    have hnames : (Lowering.newName p suffix g.unbounded).2.names =
        countUp (baseName p suffix) g.unbounded.names := rfl
    rw [hnames, countOf_countUp, if_pos rfl, Generator.unbounded, Generator.countOf_unbounded,
      Counter.next_nat] at hlt
    rw [isLast_iff] at hlast
    omega

end Narrows

theorem Composed.narrows {m : Step α} {m' : StepOf UInt32 α} (h : Composed m m') :
    Narrows m m' := by
  induction h with
  | pure a => exact .pure a
  | bind _ _ ihm ihf => exact .bind ihm ihf
  | push => exact .push _
  | newName p suffix => exact .newName p suffix
  | newLabel => exact .newLabel
  | alloca slot t => exact .alloca slot t
  | usesPrintf => exact .of_steady (fun _ => ⟨rfl, rfl⟩) (fun _ => rfl) fun _ => rfl
  | textGlobal s => exact .textGlobal s
  | formatGlobal s => exact .formatGlobal s

/-! ### Statements -/

mutual

/-- Lowering a statement with 32-bit counts overflows exactly where its counts do not fit. -/
theorem narrows_statement : ∀ s : Stmt, Narrows (statement s) (statement s)
  | .block ss => by
    rw [statement, statement]
    exact narrows_statements ss
  | .ifElse condition yes none => by
    rw [statement, statement]
    -- composed steps have been narrowed once for all, so only labels and parts are left
    refine .bind (composed_value condition).narrows fun _ => ?_
    refine .bind .newLabel fun _ => .bind .newLabel fun _ => ?_
    refine .bind (.push _) fun _ => .bind (.push _) fun _ => ?_
    refine .bind (narrows_statement yes) fun _ => ?_
    exact .bind (.push _) fun _ => .push _
  | .ifElse condition yes (some no) => by
    rw [statement, statement]
    refine .bind (composed_value condition).narrows fun _ => ?_
    refine .bind .newLabel fun _ => .bind .newLabel fun _ => .bind .newLabel fun _ => ?_
    refine .bind (.push _) fun _ => .bind (.push _) fun _ => ?_
    refine .bind (narrows_statement yes) fun _ => ?_
    refine .bind (.push _) fun _ => .bind (.push _) fun _ => ?_
    refine .bind (narrows_statement no) fun _ => ?_
    exact .bind (.push _) fun _ => .push _
  | .while condition body => by
    rw [statement, statement]
    refine .bind .newLabel fun _ => .bind .newLabel fun _ => .bind .newLabel fun _ => ?_
    refine .bind (.push _) fun _ => .bind (.push _) fun _ => ?_
    refine .bind (composed_value condition).narrows fun _ => .bind (.push _) fun _ => ?_
    refine .bind .here fun _ => .bind (.push _) fun _ => ?_
    refine .bind (narrows_statement body) fun _ => ?_
    exact .bind (.push _) fun _ => .bind (.push _) fun _ => .closeLoop _ _ _
  | .repeatUntil body condition => by
    rw [statement, statement]
    refine .bind .newLabel fun _ => .bind .newLabel fun _ => .bind .newLabel fun _ => ?_
    refine .bind (.push _) fun _ => .bind .here fun _ => .bind (.push _) fun _ => ?_
    refine .bind (narrows_statement body) fun _ => ?_
    refine .bind (.push _) fun _ => .bind (.push _) fun _ => ?_
    refine .bind (composed_value condition).narrows fun _ => ?_
    exact .bind (.push _) fun _ => .bind (.push _) fun _ => .closeLoop _ _ _
  | .forTo p target first bound body => by
    rw [statement, statement]
    refine .bind (composed_loopStart p target first).narrows fun _ => ?_
    refine .bind .newLabel fun _ => .bind .newLabel fun _ => .bind .newLabel fun _ => ?_
    refine .bind (.push _) fun _ => .bind (.push _) fun _ => ?_
    refine .bind (composed_loopTest p target bound).narrows fun _ => .bind (.push _) fun _ => ?_
    refine .bind .here fun _ => .bind (.push _) fun _ => ?_
    refine .bind (narrows_statement body) fun _ => ?_
    exact .bind (.push _) fun _ => .bind (.push _) fun _ => .closeLoop _ _ _
  | .assign target e => by
    rw [statement, statement]
    exact (composed_assign target e).narrows
  | .call p symbol args params returns => by
    rw [statement, statement]
    exact .bind (composed_lowerArguments args params).narrows fun _ => .push _
  | .write newline args => by
    rw [statement, statement]
    exact (composed_write newline args).narrows
  | .transition kind p => by
    rw [statement, statement]
    exact .push _

theorem narrows_statements : ∀ ss : List Stmt, Narrows (statements ss) (statements ss)
  | [] => by
    rw [statements, statements]
    exact .pure ()
  | s :: ss => by
    rw [statements, statements]
    exact .bind (narrows_statement s) fun _ => narrows_statements ss

end

/-- A step overflows exactly if a count has before or a count without bounds gets too high. -/
theorem Narrows.overflowed_iff {m : Step α} {m' : StepOf UInt32 α} (h : Narrows m m')
    (g : Generator UInt32) :
    (m' g).2.overflowed = true ↔ g.overflowed = true ∨ ¬(m g.unbounded).2.Fits := by
  constructor
  · intro ho
    by_contra hn
    obtain ⟨hg, hfits⟩ := not_or.1 hn
    rw [h.fits g (Bool.eq_false_iff.2 hg) (not_not.1 hfits)] at ho
    cases ho
  · rintro (hg | hfits)
    · exact h.overflowed g hg
    · by_contra ho
      rw [h.agrees g (Bool.eq_false_iff.2 ho)] at hfits
      exact hfits (Generator.fits_unbounded _)

end MiniPascal.Lowering
