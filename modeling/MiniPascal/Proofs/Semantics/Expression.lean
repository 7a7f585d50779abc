import MiniPascal.Proofs.Lowering.Names
import MiniPascal.Proofs.Machine.Flow
import MiniPascal.Proofs.Semantics.Image

namespace MiniPascal

open Ir (Value Config)
open Lowering

/-! ### Outcomes -/

section

variable {F : Floats} {p : Ir.Program} {k : Nat}

/-- Where there is a result, code goes through with a certain outcome; where there is none, it
stops. -/
def Agrees {α : Type} (Q : α → Config → Prop) (o : Option Config) (r : Option α) : Prop :=
  (o = none ∧ r = none) ∨ ∃ C a, o = some C ∧ r = some a ∧ Q a C

namespace Agrees

variable {α β : Type} {Q : α → Config → Prop} {R : β → Config → Prop} {o : Option Config}
  {r : Option α}

theorem stuck : Agrees Q none none := .inl ⟨rfl, rfl⟩

theorem result {C : Config} {a : α} (h : Q a C) : Agrees Q (some C) (some a) :=
  .inr ⟨C, a, rfl, rfl, h⟩

theorem bind {f : Config → Option Config} {g : α → Option β} (h : Agrees Q o r)
    (hf : ∀ a C, r = some a → Q a C → Agrees R (f C) (g a)) :
    Agrees R (o.bind f) (r.bind g) := by
  rcases h with ⟨rfl, rfl⟩ | ⟨C, a, rfl, rfl, h⟩
  · exact .stuck
  · exact hf a C rfl h

/-- The outcome as something else that follows from it. -/
theorem imp {P : α → Config → Prop} (h : Agrees Q o r) (hP : ∀ a C, r = some a → Q a C → P a C) :
    Agrees P o r := by
  rcases h with h | ⟨C, a, ho, hr, h⟩
  · exact .inl h
  · exact .inr ⟨C, a, ho, hr, hP a C hr h⟩

/-- What is made of the result needs no code. -/
theorem apply {g : α → Option β} (h : Agrees Q o r)
    (hg : ∀ a C, r = some a → Q a C → ∃ b, g a = some b ∧ R b C) : Agrees R o (r.bind g) := by
  rcases h with ⟨rfl, rfl⟩ | ⟨C, a, rfl, rfl, h⟩
  · exact .stuck
  · obtain ⟨b, hb, hR⟩ := hg a C rfl h
    rw [Option.bind_some, hb]
    exact .result hR

end Agrees

/-- Names that have been given out and names that never are keep their values, and memory and output
are the same. -/
structure Keeps (ν : Names) (C C' : Config) : Prop where
  locals : ∀ x, Fixed ν x → C'.locals x = C.locals x
  memory : C'.memory = C.memory
  output : C'.output = C.output

namespace Keeps

variable {ν μ : Names} {C C' C'' : Config}

theorem refl (ν : Names) (C : Config) : Keeps ν C C := ⟨fun _ _ => rfl, rfl, rfl⟩

theorem trans (h : Keeps ν C C') (h' : Keeps μ C' C'') (hν : ∀ x, Given ν x → Given μ x) :
    Keeps ν C C'' where
  locals x hx := (h'.locals x (hx.mono hν)).trans (h.locals x hx)
  memory := h'.memory.trans h.memory
  output := h'.output.trans h.output

theorem define {x : String} (hx : Given μ x ∧ ¬Given ν x) (v : Value) :
    Keeps ν C (C.define x v) where
  locals y hy := by
    have hne : y ≠ x := by
      rintro rfl
      exact hy.elim hx.2 fun hnever => hnever μ hx.1
    exact Function.update_of_ne hne _ _
  memory := rfl
  output := rfl

theorem holds {S : Store} (h : Keeps ν C C') (hC : C.Holds S) : C'.Holds S := by
  intro x
  rw [h.memory]
  exact hC x

theorem carries {k : Nat} {D : Layout} {ρ : Stores} (h : Keeps ν C C') (hC : C.Carries k D ρ) :
    C'.Carries k D ρ := by
  refine ⟨fun st x t hx => ?_, fun x t hx => ?_⟩
  · rw [h.memory]
    exact hC.memory st x t hx
  · rw [h.locals _ (fixed_addr x ν)]
    exact hC.slot x t hx

end Keeps

/-- Behind some code an operand has a value, and what has been there before is kept. -/
structure Leaves (F : Floats) (ν₁ : Names) (C : Config) (v : Ir.Operand) (ν₂ : Names) (u : Value)
    (C' : Config) : Prop where
  value : C'.value F v = some u
  fixed : ∀ x, v = .local x → Fixed ν₂ x
  keeps : Keeps ν₁ C C'

namespace Leaves

variable {ν₁ ν₂ ν₃ : Names} {C C' C'' : Config} {v : Ir.Operand} {u : Value}

/-- An operand keeps its value while later names are defined, whatever memory holds. -/
theorem stays (h : Leaves F ν₁ C v ν₂ u C') (hk : ∀ x, Fixed ν₂ x → C''.locals x = C'.locals x) :
    C''.value F v = some u := by
  rw [← h.value]
  cases v with
  | «local» x => exact hk x (h.fixed x rfl)
  | _ => rfl

theorem later (h : Leaves F ν₁ C v ν₂ u C') (hk : Keeps ν₂ C' C'') :
    C''.value F v = some u := h.stays hk.locals

/-- An operand that is a constant. -/
theorem const (hv : C.value F v = some u) (hl : ∀ x, v ≠ .local x) (ν : Names) :
    Leaves F ν C v ν u C :=
  ⟨hv, fun x hx => absurd hx (hl x), .refl ν C⟩

/-- The next name is defined. -/
theorem define {s : String} (hs : s ∈ suffixes) (pos : Position) (hk : Keeps ν₁ C C')
    (hν : ∀ x, Given ν₁ x → Given ν₂ x) (u : Value) :
    Leaves F ν₁ C (.local (fresh pos s ν₂)) (spend pos s ν₂) u
      (C'.define (fresh pos s ν₂) u) := by
  have hnew := (New.single hs pos ν₂).given _ List.mem_cons_self
  refine ⟨Function.update_self .., fun x hx => ?_, hk.trans (.define hnew u) hν⟩
  cases hx
  exact .inl hnew.1

end Leaves

/-! ### Single instructions -/

theorem Ir.Config.value_define (F : Floats) (C : Config) (x : String) (u : Value) :
    (C.define x u).value F (.local x) = some u := Function.update_self ..

theorem Ir.Config.value_define_of_ne {C : Config} {x : String} {v : Ir.Operand}
    (h : v ≠ .local x) (u : Value) : (C.define x u).value F v = C.value F v := by
  cases v with
  | «local» y => exact Function.update_of_ne (fun hxy => h (congrArg _ hxy)) _ _
  | _ => rfl

theorem Ir.Config.value_congr {C C' : Config} (h : C'.locals = C.locals) (v : Ir.Operand) :
    C'.value F v = C.value F v := by
  cases v with
  | «local» x => exact congrFun h x
  | _ => rfl

variable {C : Config} {v : Ir.Operand} {D : Layout} {ρ : Stores}

theorem exec_element {s : Site} {n : Int64} {base : Ir.Operand}
    (hb : C.value F base = some (.ptr (s.pointer k))) (hv : C.value F v = some (.int n))
    (x : String) (t : Ir.Ty) : (Ir.Instr.element x t base [.int 0, v]).exec F p k C =
      some (C.define x (.ptr ((s.inner n.toUInt64).pointer k))) := by
  simp only [Ir.Instr.exec, Config.pointer, hb, Config.offsets, hv]
  rfl

theorem exec_load {q : Ir.Pointer} {slot : Ir.Operand} (hs : C.value F slot = some (.ptr q))
    (x : String) (t : Ir.Ty) :
    (Ir.Instr.load x t slot).exec F p k C = (C.read q).map (C.define x) := by
  simp only [Ir.Instr.exec, Config.pointer, hs]
  show (C.read q).bind _ = _
  cases C.read q <;> rfl

theorem exec_negate {y : Double} (hv : C.value F v = some (.double y)) (x : String) :
    (Ir.Instr.negate x v).exec F p k C =
      some (C.define x (Val.double (F.negate y)).image) := by
  rw [Ir.Instr.exec, hv]
  rfl

theorem exec_sitofp {n : Int32} (hv : C.value F v = some (.int n.toInt64)) (x : String)
    (t u : Ir.Ty) : (Ir.Instr.cast x .sitofp t v u).exec F p k C =
      some (C.define x (Val.double (F.ofInt n.toInt)).image) := by
  rw [Ir.Instr.exec, hv]
  show some (C.define x (.double (F.ofInt n.toInt64.toInt))) = _
  rw [Int32.toInt_toInt64]
  rfl

theorem exec_not {b : Bool} (hv : C.value F v = some (.bool b)) (x : String) (t : Ir.Ty) :
    (Ir.Instr.binary x .xor t v (.bool true)).exec F p k C =
      some (C.define x (Val.bool !b).image) := by
  refine (exec_binary hv (w := .bool true) rfl x _ _).trans ?_
  cases b <;> rfl

/-! ### Sites -/

/-- A site that has been found is the right one, or there is none and this one lies outside of its
variable. -/
def Site.Answers (D : Layout) (s : Site) (r : Option Site) : Prop :=
  (r = some s ∧ ∃ t, s.Leads D t) ∨ r = none ∧ s.Dangles D

theorem Site.Answers.known {s : Site} {r : Option Site} (h : s.Answers D r) :
    ∃ u, D s.storage s.place.name = some u := by
  rcases h with ⟨-, t, u, hu, -⟩ | ⟨-, u, hu, -⟩
  · exact ⟨u, hu⟩
  · exact ⟨u, hu⟩

/-- Code goes through and leaves the address of a site, or stops where there is no site. -/
def Locates (F : Floats) (k : Nat) (D : Layout) (ν₁ : Names) (C : Config) (slot : Ir.Operand)
    (ν₂ : Names) (o : Option Config) (r : Option Site) : Prop :=
  (o = none ∧ r = none) ∨
    ∃ (C' : Config) (s : Site), o = some C' ∧
      Leaves F ν₁ C slot ν₂ (.ptr (s.pointer k)) C' ∧ s.Answers D r

variable {Γ : Context} {ν₁ ν₂ ν₃ : Names}

/-- An index leads from the site of an array to that of an element, or out of the array. -/
theorem Site.Answers.element (hΓ : D.Covers Γ) (hρ : ρ.Fits D) {a : Expr} (ha : a.Checked Γ)
    (hd : a.isDesignator = true) {low high : Expr} {t : Ty} (ht : a.type = .array low high t)
    {s : Site} (hs : s.Answers D (a.site F ρ)) (n : Int32) :
    (s.inner (offset (lowBound a.type) n)).Answers D
      ((a.site F ρ).bind (Site.element a.type · n)) := by
  rcases hs with ⟨hs, -⟩ | ⟨hs, hdangles⟩
  · have hleads := (ha.typed hΓ hρ).1 s hs
    rw [hs, Option.bind_some]
    rcases Site.element_cases ht (ha.type_wellFormed hd) (ha.countable hΓ hd) hleads n
      with ⟨he, hl⟩ | ⟨he, hdangles⟩
    · exact .inl ⟨he, _, hl⟩
    · exact .inr ⟨he, hdangles⟩
  · rw [hs]
    exact .inr ⟨rfl, Place.Dangles.inner hdangles _⟩

theorem Locates.load (hρ : ρ.Fits D) {C : Config} (hC : C.Carries k D ρ) {slot : Ir.Operand}
    {o : Option Config} {r : Option Site} (h : Locates F k D ν₁ C slot ν₂ o r)
    (hν : ∀ x, Given ν₁ x → Given ν₂ x) (pos : Position) (t : Ir.Ty) :
    Agrees (fun a C' => Leaves F ν₁ C (.local (fresh pos "" ν₂)) (spend pos "" ν₂) a.image C')
      (o.bind (Ir.execAll F p k [.load (fresh pos "" ν₂) t slot])) (r.bind ρ.read) := by
  rcases h with ⟨rfl, rfl⟩ | ⟨C', s, rfl, hl, hs⟩
  · exact .stuck
  · obtain ⟨u, hu⟩ := hs.known
    rw [Option.bind_some, Ir.execAll_single, exec_load hl.value,
      (hl.keeps.carries hC).read hu]
    rcases hs with ⟨rfl, -⟩ | ⟨rfl, hdangles⟩
    · rw [Option.bind_some]
      cases ρ.read s with
      | none => exact .stuck
      | some a => exact .result (.define (by decide) pos hl.keeps hν a.image)
    · -- an address outside of its variable cannot be read
      rw [Stores.read, ((hρ s.storage).dangles hdangles (.bool true)).1]
      exact .stuck

/-- An index leads to the site of an element if there are an array and an index, and the last
instructions find it. -/
theorem Locates.index (hΓ : D.Covers Γ) (hρ : ρ.Fits D) {pos : Position} {t t' : Ty} {a i : Expr}
    (ha : a.Checked Γ) (hd : a.isDesignator = true) {low high : Expr}
    (ht : a.type = .array low high t') (hi : i.Checked Γ) (hit : i.type = .integer) {C : Config}
    (hC : C.Carries k D ρ) {base slot : Ir.Operand} {c₁ c₂ c₃ : List Ir.Instr} {ν₄ : Names}
    (h₁ : Locates F k D ν₁ C base ν₂ (Ir.execAll F p k c₁ C) (a.site F ρ))
    (h₂ : ∀ C₁, C₁.Carries k D ρ → Agrees (fun u C₂ => Leaves F ν₂ C₁ v ν₃ u.image C₂)
      (Ir.execAll F p k c₂ C₁) (i.evalIn F ρ))
    (h₃ : ∀ C₁ C₂ (s : Site) (n : Int32), Leaves F ν₁ C base ν₂ (.ptr (s.pointer k)) C₁ →
      Leaves F ν₂ C₁ v ν₃ (.int n.toInt64) C₂ → ∃ C₃, Ir.execAll F p k c₃ C₂ = some C₃ ∧
        Leaves F ν₁ C slot ν₄ (.ptr ((s.inner (offset (lowBound a.type) n)).pointer k)) C₃) :
    Locates F k D ν₁ C slot ν₄ (Ir.execAll F p k (c₁ ++ c₂ ++ c₃) C)
      ((Expr.index pos t a i).site F ρ) := by
  rw [Ir.execAll_append, Ir.execAll_append]
  -- code and meaning stop together, at the array or at the index
  rcases h₁ with ⟨ho, hr⟩ | ⟨C₁, s, ho, hl₁, hs⟩
  · rw [ho, Expr.site, hr]
    exact .inl ⟨rfl, rfl⟩
  rcases h₂ C₁ (hl₁.keeps.carries hC) with ⟨ho', hr'⟩ | ⟨C₂, u, ho', hr', hl₂⟩
  · rw [ho, Option.bind_some, ho', Expr.site, hr']
    exact .inl ⟨rfl, by cases a.site F ρ <;> rfl⟩
  obtain ⟨n, rfl⟩ := ((hi.typed hΓ hρ).2 u hr').of_integer hit
  obtain ⟨C₃, hlast, hl₃⟩ := h₃ C₁ C₂ s n hl₁ hl₂
  refine .inr ⟨C₃, _, ?_, hl₃, ?_⟩
  · rw [ho, Option.bind_some, ho', Option.bind_some, hlast]
  · have hsite : (Expr.index pos t a i).site F ρ =
        (a.site F ρ).bind (Site.element a.type · n) := by
      rw [Expr.site, hr']
      rfl
    rw [hsite]
    exact hs.element hΓ hρ ha hd ht n

theorem Locates.field (hΓ : D.Covers Γ) (hρ : ρ.Fits D) {pos : Position} {t : Ty} {r : Expr}
    {n : Name} {slot : Nat} (hr : (Expr.field pos t r n slot).Checked Γ) {C : Config}
    {base : Ir.Operand} {o : Option Config} (h : Locates F k D ν₁ C base ν₂ o (r.site F ρ))
    (hν : ∀ x, Given ν₁ x → Given ν₂ x) (t' : Ir.Ty) :
    Locates F k D ν₁ C (.local (fresh pos ".ptr" ν₂)) (spend pos ".ptr" ν₂)
      (o.bind (Ir.execAll F p k [.element (fresh pos ".ptr" ν₂) t' base
        [.int 0, .int (Int64.ofNat slot)]])) ((Expr.field pos t r n slot).site F ρ) := by
  rcases h with ⟨rfl, hsite⟩ | ⟨C', s, rfl, hl, hs⟩
  · rw [Expr.site, hsite]
    exact .inl ⟨rfl, rfl⟩
  · refine .inr ⟨_, s.field slot, ?_, .define (by decide) pos hl.keeps hν _, ?_⟩
    · rw [Option.bind_some, Ir.execAll_single, exec_element hl.value rfl]
      rfl
    · rcases hs with ⟨hs, -⟩ | ⟨hs, hdangles⟩
      · have hfield : (Expr.field pos t r n slot).site F ρ = some (s.field slot) := by
          rw [Expr.site, hs]
          rfl
        exact .inl ⟨hfield, _, (hr.typed hΓ hρ).1 _ hfield⟩
      · rw [Expr.site, hs]
        exact .inr ⟨rfl, Place.Dangles.inner hdangles _⟩

/-- One more instruction computes a value from what has been computed. -/
theorem Agrees.compute {α : Type} {Q : α → Config → Prop} {o : Option Config} {r : Option α}
    (h : Agrees Q o r) {g : α → Option Val} {i : Ir.Instr} {pos : Position} {s : String}
    {C : Config} (hs : s ∈ suffixes) (hν : ∀ x, Given ν₁ x → Given ν₂ x)
    (hi : ∀ a C', r = some a → Q a C' →
      Keeps ν₁ C C' ∧ i.exec F p k C' = C'.output? (fresh pos s ν₂) (g a)) :
    Agrees (fun u C' => Leaves F ν₁ C (.local (fresh pos s ν₂)) (spend pos s ν₂) u.image C')
      (o.bind (Ir.execAll F p k [i])) (r.bind g) := by
  refine h.bind fun a C' hr hQ => ?_
  obtain ⟨hk, he⟩ := hi a C' hr hQ
  rw [Ir.execAll_single, he]
  cases g a with
  | none => exact .stuck
  | some u => exact .result (.define hs pos hk hν u.image)

/-! ### Expressions -/

theorem toInt32_literal (v : UInt64) : v.toInt64.toInt32 = Int32.ofNat v.toNat := by
  have h : v.toInt64 = Int64.ofNat v.toNat := by
    rw [← UInt64.toInt64_ofNat', UInt64.ofNat_toNat]
  rw [h, Int64.toInt32_ofNat']

/-- An integer literal that obeys the rules is held as it is. -/
theorem toInt64_literal {v : UInt64} (hv : v.toNat ≤ Grammar.literalLimit) :
    (Int32.ofNat v.toNat).toInt64 = v.toInt64 := by
  have hlimit : v.toNat ≤ 0x7fffffff := hv
  have hmax : (v.toNat : Int) ≤ Int32.maxValue.toInt := by
    rw [Int32.toInt_maxValue]
    omega
  rw [Int32.toInt64_ofNat' hmax, ← UInt64.toInt64_ofNat', UInt64.ofNat_toNat]

theorem literal_code {q : Position} {n : UInt64} {e : Expr} {c : List Ir.Instr}
    (h : ValueCode e ν₁ v c ν₂) (he : e = .int q n) : v = .int n.toInt64 ∧ c = [] ∧ ν₂ = ν₁ := by
  subst he
  cases h with
  | int => exact ⟨rfl, rfl, rfl⟩
  | load hs => cases hs

theorem PlaceCode.isDesignator {e : Expr} {slot : Ir.Operand} {c : List Ir.Instr}
    (h : PlaceCode e ν₁ slot c ν₂) : e.isDesignator = true := by
  cases h <;> rfl

theorem binary_of_checked {pos : Position} {t : Ty} {op : BinOp} {l r : Expr}
    (h : (Expr.binary pos t op l r).Checked Γ) : l.Checked Γ ∧ r.Checked Γ ∧
      ∃ s u, t = .scalar s ∧ op.result? l.type r.type = some s ∧
        OperandsFit op l.type r.type s u := by
  cases h with
  | binary hl hr ht =>
    obtain ⟨u, hu⟩ := operands_fit ht
    exact ⟨hl, hr, _, u, rfl, ht, hu⟩

namespace Lowering

mutual

/-- The code of a designator finds its site. -/
theorem PlaceCode.locates (hΓ : D.Covers Γ) (hρ : ρ.Fits D) {e ν₁ slot c ν₂}
    (h : PlaceCode e ν₁ slot c ν₂) (he : e.Checked Γ) (hf : e.callFree = true) (C : Config)
    (hC : C.Carries k D ρ) :
    Locates F k D ν₁ C slot ν₂ (Ir.execAll F p k c C) (e.site F ρ) := by
  match h with
  | @PlaceCode.global pos t n ν =>
    have hleads := (he.typed (F := F) hΓ hρ).1 _ rfl
    exact .inr ⟨C, ⟨.global, n.canonical, []⟩, rfl, .const rfl (by simp) _, .inl ⟨rfl, _, hleads⟩⟩
  | @PlaceCode.routine pos t n ν =>
    have hleads := (he.typed (F := F) hΓ hρ).1 _ rfl
    cases he with | var hn =>
    -- the name of the slot stands for the slot
    refine .inr ⟨C, ⟨.routine, n.canonical, []⟩, rfl, ⟨hC.slot _ _ (hΓ.shape _ _ _ hn), ?_,
      .refl _ _⟩, .inl ⟨rfl, _, hleads⟩⟩
    intro x hx
    cases hx
    exact fixed_addr _ _
  | @PlaceCode.index pos t a i _ _ ν₃ base v c₁ c₂ ha hi hl =>
    cases he with | index ha' hd ht hi' hit =>
    rw [Expr.callFree, Bool.and_eq_true] at hf
    have hnew := ha.new.append hi.new
    refine Locates.index hΓ hρ ha' hd ht hi' hit hC (ha.locates hΓ hρ ha' hf.1 C hC)
      (hi.evaluates hΓ hρ hi' hf.2) ?_
    intro C₁ C₂ s n hl₁ hl₂
    have hptr := Leaves.define (F := F) (s := ".ptr") (by decide) pos
      (hl₁.keeps.trans hl₂.keeps ha.new.mono) hnew.mono
      (Value.ptr ((s.inner n.toInt64.toUInt64).pointer k))
    rw [hl, offset_zero]
    refine ⟨_, ?_, hptr⟩
    rw [Ir.execAll_single, exec_element (hl₁.later hl₂.keeps) hl₂.value]
  | @PlaceCode.rebased pos t a i _ _ ν₃ base v c₁ c₂ ha hi hl =>
    cases he with | index ha' hd ht hi' hit =>
    rw [Expr.callFree, Bool.and_eq_true] at hf
    have hnew := (ha.new.append hi.new).append (.single (s := ".idx") (by decide) pos ν₃)
    refine Locates.index hΓ hρ ha' hd ht hi' hit hC (ha.locates hΓ hρ ha' hf.1 C hC)
      (hi.evaluates hΓ hρ hi' hf.2) ?_
    intro C₁ C₂ s n hl₁ hl₂
    -- the difference is left by an instruction of its own
    have hdiff := Leaves.define (F := F) (s := ".idx") (by decide) pos hl₂.keeps hi.new.mono
      (Value.wrap (n.toInt64 - lowBound a.type))
    have hptr := Leaves.define (F := F) (s := ".ptr") (by decide) pos
      (hl₁.keeps.trans hdiff.keeps ha.new.mono) hnew.mono
      (Value.ptr ((s.inner (offset (lowBound a.type) n)).pointer k))
    refine ⟨_, ?_, hptr⟩
    have hsub := exec_binary (p := p) (k := k) hl₂.value (w := .int (lowBound a.type)) rfl
      (fresh pos ".idx" ν₃) .sub .i32
    rw [Ir.execAll, hsub, Ir.Opcode.apply, Option.map_some, Option.bind_some, Ir.execAll_single,
      exec_element (hl₁.later hdiff.keeps) hdiff.value]
    rfl
  | @PlaceCode.field pos t r n slot _ _ base c hr =>
    have he' := he
    cases he' with | field hr' =>
    rw [Expr.callFree] at hf
    rw [Ir.execAll_append]
    exact Locates.field hΓ hρ he (hr.locates hΓ hρ hr' hf C hC) hr.new.mono _
termination_by structural h

/-- The code of an expression leaves its value. -/
theorem ValueCode.evaluates (hΓ : D.Covers Γ) (hρ : ρ.Fits D) {e ν₁ v c ν₂}
    (h : ValueCode e ν₁ v c ν₂) (he : e.Checked Γ) (hf : e.callFree = true) (C : Config)
    (hC : C.Carries k D ρ) :
    Agrees (fun a C' => Leaves F ν₁ C v ν₂ a.image C') (Ir.execAll F p k c C)
      (e.evalIn F ρ) := by
  match h with
  | .int =>
    cases he with | int hv =>
    refine .result (.const ?_ (by simp) _)
    rw [Val.image, toInt64_literal hv]
    rfl
  | .double => exact .result (.const rfl (by simp) _)
  | .bool => exact .result (.const rfl (by simp) _)
  | .load hs =>
    rw [Ir.execAll_append, Expr.evalIn_designator (PlaceCode.isDesignator hs)]
    exact (hs.locates hΓ hρ he hf C hC).load hρ hC hs.new.mono _ _
  | .plus hv =>
    cases he with | unary he' ht =>
    rw [Expr.callFree] at hf
    refine (hv.evaluates hΓ hρ he' hf C hC).apply ?_
    intro a C' ha hl
    obtain ⟨u, hu, -⟩ := UnaryOp.apply_hasType F ht ((he'.typed hΓ hρ).2 a ha)
    refine ⟨u, hu, ?_⟩
    rwa [UnaryOp.eq_of_apply_plus hu]
  | .negate hv het =>
    cases he with
    | negative => cases het
    | unary he' ht =>
      rw [Expr.callFree] at hf
      rw [Ir.execAll_append]
      refine (hv.evaluates hΓ hρ he' hf C hC).compute (by decide) hv.new.mono ?_
      intro a C' ha hl
      obtain ⟨x, rfl⟩ := ((he'.typed hΓ hρ).2 a ha).of_double het
      exact ⟨hl.keeps, exec_negate hl.value _⟩
  | @ValueCode.minus _ _ e' _ _ v' c' hv het =>
    obtain ⟨-, he'⟩ := operand_of_checked he
    rw [Expr.callFree] at hf
    -- the literal may be too large for an integer, and what is left of it is its sign
    have hint : Agrees (fun a C' => Keeps ν₁ C C' ∧ ∃ m, C'.value F v' = some (.int m) ∧
        a = .int m.toInt32) (Ir.execAll F p k c' C) (e'.evalIn F ρ) := by
      rcases he' with he' | ⟨q, n, hlit⟩
      · refine (hv.evaluates hΓ hρ he' hf C hC).imp ?_
        intro a C' ha hl
        obtain ⟨n, rfl⟩ := ((he'.typed hΓ hρ).2 a ha).of_integer het
        exact ⟨hl.keeps, _, hl.value, by rw [Int32.toInt32_toInt64]⟩
      · obtain ⟨rfl, rfl, rfl⟩ := literal_code hv hlit
        rw [hlit]
        exact .result ⟨.refl _ _, _, rfl, by rw [toInt32_literal]⟩
    rw [Ir.execAll_append]
    refine hint.compute (by decide) hv.new.mono ?_
    rintro _ C' - ⟨hk, m, hm, rfl⟩
    exact ⟨hk, exec_minus hm _ _⟩
  | .not hv het =>
    cases he with | unary he' ht =>
    rw [Expr.callFree] at hf
    rw [Ir.execAll_append]
    refine (hv.evaluates hΓ hρ he' hf C hC).compute (by decide) hv.new.mono ?_
    intro a C' ha hl
    obtain ⟨b, rfl⟩ := ((he'.typed hΓ hρ).2 a ha).of_boolean het
    exact ⟨hl.keeps, exec_not hl.value _ _⟩
  | .complement hv het =>
    cases he with | unary he' ht =>
    rw [Expr.callFree] at hf
    rw [Ir.execAll_append]
    refine (hv.evaluates hΓ hρ he' hf C hC).compute (by decide) hv.new.mono ?_
    intro a C' ha hl
    obtain ⟨n, rfl⟩ := ((he'.typed hΓ hρ).2 a ha).of_integer het
    exact ⟨hl.keeps, exec_complement hl.value _ _⟩
  | .binary hl hr =>
    obtain ⟨hl', hr', s, u, ht, hres, hfit⟩ := binary_of_checked he
    rw [Expr.callFree, Bool.and_eq_true] at hf
    rw [Ir.execAll_append, Ir.execAll_append, Option.bind_assoc]
    refine (hl.evaluates hΓ hρ hl' hf.1 C hC).bind ?_
    intro a C₁ ha hl₁
    refine (hr.evaluates hΓ hρ hr' hf.2 C₁ (hl₁.keeps.carries hC)).compute (by decide)
      (fun x hx => hr.new.mono x (hl.new.mono x hx)) ?_
    intro b C₂ hb hl₂
    refine ⟨hl₁.keeps.trans hl₂.keeps hl.new.mono, ?_⟩
    -- the right operand has defined later names only
    have hv := hl₁.later hl₂.keeps
    have hw := hl₂.value
    rw [ht, hfit.type_eq] at hv hw ⊢
    exact applied_apply hres hfit.type_eq ((hl'.typed hΓ hρ).2 a ha)
      ((hr'.typed hΓ hρ).2 b hb) hv hw _
  | .call ha => cases hf
termination_by structural h

theorem TypedCode.evaluates (hΓ : D.Covers Γ) (hρ : ρ.Fits D) {e t ν₁ v c ν₂}
    (h : TypedCode e t ν₁ v c ν₂) (he : e.Checked Γ) (hf : e.callFree = true) (C : Config)
    (hC : C.Carries k D ρ) :
    Agrees (fun a C' => Leaves F ν₁ C v ν₂ (a.convert F t).image C') (Ir.execAll F p k c C)
      (e.evalIn F ρ) := by
  match h with
  | @TypedCode.widened _ n _ _ ht =>
    cases he with | int hn =>
    -- the literal fits a word, which converts to the double of its value
    have hvalue : (Int32.ofNat n.toNat).toInt = n.toNat :=
      Int32.toInt_ofNat_of_lt (Nat.lt_succ_of_le hn)
    have hconvert := Val.convert_int F (eq_double_of_isDouble ht) (Int32.ofNat n.toNat)
    rw [hvalue] at hconvert
    refine .result (.const ?_ (by simp) _)
    rw [hconvert]
    rfl
  | .cast ht het hv =>
    rw [Ir.execAll_append, ← Option.bind_fun_some (e.evalIn F ρ)]
    refine (hv.evaluates hΓ hρ he hf C hC).bind ?_
    intro a C' ha hl
    obtain ⟨n, rfl⟩ := ((he.typed hΓ hρ).2 a ha).of_integer het
    rw [Ir.execAll_single, exec_sitofp hl.value]
    refine .result ?_
    rw [Val.convert_int F (eq_double_of_isDouble ht)]
    exact .define (by decide) _ hl.keeps hv.new.mono _
  | .same ht hv =>
    refine (hv.evaluates hΓ hρ he hf C hC).imp ?_
    intro a C' ha hl
    rwa [Val.convert_same ((he.typed hΓ hρ).2 a ha) ht]
termination_by structural h

end

end Lowering

/-! ### The main program -/

variable {D : Shapes} {S : Store}

/-- A place that has been found is the right one, or there is none and this one lies outside of its
variable. -/
def Place.Answers (D : Shapes) (q : Place) (r : Option Place) : Prop :=
  r = some q ∨ r = none ∧ q.Dangles D

/-- Code goes through and leaves the address of a place, or stops where there is no place. -/
def Finds (F : Floats) (D : Shapes) (ν₁ : Names) (C : Config) (slot : Ir.Operand) (ν₂ : Names)
    (o : Option Config) (r : Option Place) : Prop :=
  (o = none ∧ r = none) ∨
    ∃ (C' : Config) (q : Place), o = some C' ∧
      Leaves F ν₁ C slot ν₂ (.ptr q.pointer) C' ∧ q.Answers D r

namespace Lowering

variable {e : Expr} {c : List Ir.Instr} {slot : Ir.Operand}

/-- The code of a designator finds its place. -/
theorem PlaceCode.finds (hΓ : D.Covers Γ) (hS : S.Fits D) (h : PlaceCode e ν₁ slot c ν₂)
    (he : e.Checked Γ) (hf : e.callFree = true) (C : Config) (hC : C.Holds S) :
    Finds F D ν₁ C slot ν₂ (Ir.execAll F p k c C) (e.place F S) := by
  rw [← (Expr.site_and_evalIn_const F S e).1]
  rcases h.locates hΓ.layout hS.stores he hf C (hC.carries k D) with
    ⟨ho, hr⟩ | ⟨C', ⟨st, q⟩, ho, hl, hs⟩
  · rw [hr]
    exact .inl ⟨ho, rfl⟩
  · cases st with
    | global =>
      refine .inr ⟨C', q, ho, hl, ?_⟩
      rcases hs with ⟨hr, -⟩ | ⟨hr, hdangles⟩
      · rw [hr]
        exact .inl rfl
      · rw [hr]
        exact .inr ⟨rfl, hdangles⟩
    | routine =>
      obtain ⟨u, hu⟩ := hs.known
      cases hu

/-- The code of an expression leaves its value. -/
theorem ValueCode.agrees (hΓ : D.Covers Γ) (hS : S.Fits D) (h : ValueCode e ν₁ v c ν₂)
    (he : e.Checked Γ) (hf : e.callFree = true) (C : Config) (hC : C.Holds S) :
    Agrees (fun a C' => Leaves F ν₁ C v ν₂ a.image C') (Ir.execAll F p k c C) (e.eval F S) := by
  rw [← (Expr.site_and_evalIn_const F S e).2]
  exact h.evaluates hΓ.layout hS.stores he hf C (hC.carries k D)

theorem TypedCode.agrees {t : Ty} (hΓ : D.Covers Γ) (hS : S.Fits D) (h : TypedCode e t ν₁ v c ν₂)
    (he : e.Checked Γ) (hf : e.callFree = true) (C : Config) (hC : C.Holds S) :
    Agrees (fun a C' => Leaves F ν₁ C v ν₂ (a.convert F t).image C') (Ir.execAll F p k c C)
      (e.eval F S) := by
  rw [← (Expr.site_and_evalIn_const F S e).2]
  exact h.evaluates hΓ.layout hS.stores he hf C (hC.carries k D)

end Lowering

end

end MiniPascal
