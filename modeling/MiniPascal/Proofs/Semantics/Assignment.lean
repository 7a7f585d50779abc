import MiniPascal.Proofs.Semantics.Output

/-! What the code of simple statements and of tests does. -/

namespace MiniPascal

open Ir (Value Config)
open Lowering

/-! ### Writing twice -/

/-- What has been put at the end of a path is there, and can be replaced. -/
theorem Val.replace_again {v v' u : Val} {path : List UInt64} (h : v.replace path u = some v') :
    v'.part path = some u ∧ ∀ w, v'.replace path w = v.replace path w := by
  induction path generalizing v v' with
  | nil =>
    cases h
    exact ⟨rfl, fun _ => rfl⟩
  | cons i path ih =>
    cases v with
    | parts vs =>
      obtain ⟨x, hx, h⟩ := Option.bind_eq_some_iff.1 h
      obtain ⟨x', hx', h⟩ := Option.bind_eq_some_iff.1 h
      cases h
      obtain ⟨hpart, hreplace⟩ := ih hx'
      have hi : i.toNat < vs.length := (List.getElem?_eq_some_iff.1 hx).1
      have hset : (vs.set i.toNat x')[i.toNat]? = some x' := List.getElem?_set_self hi
      refine ⟨?_, fun w => ?_⟩
      · rw [Val.part, hset]
        exact hpart
      · rw [Val.replace, Val.replace, hset, hx]
        simp only [bind, Option.bind, hreplace, List.set_set]
    | int | double | bool => cases h

theorem Store.write_again {S S' : Store} {q : Place} {u : Val} (h : S.write q u = some S') :
    S'.read q = some u ∧ ∀ w, S'.write q w = S.write q w := by
  obtain ⟨v, hv, h⟩ := Option.bind_eq_some_iff.1 h
  obtain ⟨v', hv', h⟩ := Option.bind_eq_some_iff.1 h
  cases h
  obtain ⟨hpart, hreplace⟩ := Val.replace_again hv'
  refine ⟨?_, fun w => ?_⟩
  · rw [Store.read, Function.update_self]
    exact hpart
  · rw [Store.write, Store.write, Function.update_self, hv]
    simp only [bind, Option.bind, hreplace, Function.update_idem]

/-- A value has the type of the place that it is stored in. -/
theorem Val.convert_hasType (F : Floats) {t u : Ty} (h : Typing.assignable t u = true) {v : Val}
    (hv : v.HasType (machineType u)) : (v.convert F t).HasType (machineType t) := by
  by_cases hc : (isDouble t && u.isInteger) = true
  · obtain ⟨ht, hu⟩ := (Bool.and_eq_true _ _).mp hc
    rw [Expr.integer_of_isInteger hu, machineType] at hv
    obtain ⟨n, rfl⟩ := hv.eq_int
    rw [Val.convert_int F (eq_double_of_isDouble ht), eq_double_of_isDouble ht, machineType]
    exact .double
  · have hc := Bool.eq_false_iff.2 hc
    rw [Val.convert_same hv hc, ← machineType_of_assignable h hc]
    exact hv

section

variable {F : Floats} {p : Ir.Program} {k : Nat} {D : Shapes} {Γ : Context} {T : Pool}
  {ν₁ ν₂ ν₃ : Names} {C C' : Config} {S : Store} {w : World} {v slot : Ir.Operand} {q : Place}

/-- The machine is where a world is. -/
structure Ir.Config.Matches (D : Shapes) (C : Config) (w : World) : Prop where
  holds : C.Holds w.store
  fits : w.store.Fits D
  output : C.output = w.output

theorem Keeps.matches (h : Keeps ν₁ C C') (hC : C.Matches D w) : C'.Matches D w :=
  ⟨h.holds hC.holds, hC.fits, h.output.trans hC.output⟩

/-! ### Stores -/

theorem exec_store {q : Ir.Pointer} (hs : C.value F slot = some (.ptr q)) {u : Value}
    (hv : C.value F v = some u) (t : Ir.Ty) :
    (Ir.Instr.store t v slot).exec F p k C = C.write q u := by
  simp only [Ir.Instr.exec, Config.pointer, hs, hv]
  rfl

/-- A value of the right type can be stored in a part of a variable. -/
theorem exec_store_leads (hC : C.Holds S) (hS : S.Fits D)
    (hs : C.value F slot = some (.ptr q.pointer)) {t : Ir.Ty} (hq : q.Leads D t) {u : Val}
    (hv : C.value F v = some u.image) (hu : u.HasType t) (t' : Ir.Ty) :
    ∃ S' C', S.write q u = some S' ∧ S'.Fits D ∧
      (Ir.Instr.store t' v slot).exec F p k C = some C' ∧ C'.Holds S' ∧ C'.locals = C.locals ∧
      C'.output = C.output := by
  obtain ⟨S', hS', hfits⟩ := hS.write hq hu
  rw [exec_store hs hv]
  rcases hC.write q u with ⟨hnone, -⟩ | ⟨S'', C', hS'', hC', hholds, hlocals, houtput⟩
  · rw [hS'] at hnone
    cases hnone
  · rw [hS'] at hS''
    cases hS''
    exact ⟨S', C', hS', hfits, hC', hholds, hlocals, houtput⟩

/-- Nothing can be stored outside of a variable. -/
theorem exec_store_dangles (hC : C.Holds S) (hS : S.Fits D)
    (hs : C.value F slot = some (.ptr q.pointer)) (hq : q.Dangles D) {u : Val}
    (hv : C.value F v = some u.image) (t' : Ir.Ty) :
    (Ir.Instr.store t' v slot).exec F p k C = none := by
  rw [exec_store hs hv]
  rcases hC.write q u with ⟨-, hnone⟩ | ⟨S', -, hS', -⟩
  · exact hnone
  · rw [(hS.dangles hq u).2] at hS'
    cases hS'

/-- The code of an assignment stores the value. -/
theorem assign_agrees (hΓ : D.Covers Γ) {target e : Expr} {c₁ c₂ : List Ir.Instr}
    (he : TypedCode e target.type ν₁ v c₁ ν₂) (ht : PlaceCode target ν₂ slot c₂ ν₃)
    (he' : e.Checked Γ) (ha : Typing.assignable target.type e.type = true)
    (ht' : target.Checked Γ) (hfe : e.callFree = true) (hft : target.callFree = true)
    (hC : C.Matches D w) :
    Agrees (fun w' C' => C'.Matches D w')
      (Ir.execAll F p k (c₁ ++ c₂ ++ [.store (machineType target.type) v slot]) C)
      ((e.eval F w.store).bind fun a => w.assign F target (a.convert F target.type)) := by
  rw [Ir.execAll_append, Ir.execAll_append, Option.bind_assoc]
  refine (he.agrees hΓ hC.fits he' hfe C hC.holds).bind ?_
  intro a C₁ heval hl₁
  have hC₁ := hl₁.keeps.matches hC
  have hat := Val.convert_hasType F ha ((he'.meaning hΓ hC.fits).2 a heval)
  rcases ht.finds (F := F) (p := p) (k := k) hΓ hC₁.fits ht' hft C₁ hC₁.holds
    with ⟨ho, hr⟩ | ⟨C₂, q, ho, hl₂, hq⟩
  · rw [ho, World.assign, hr]
    exact .stuck
  have hC₂ := hl₂.keeps.matches hC₁
  have hv := hl₁.later hl₂.keeps
  rw [ho, Option.bind_some, Ir.execAll_single, World.assign]
  -- the place has a meaning, or it leads out of its array and storing there fails
  rcases hq with hr | ⟨hr, hdangles⟩
  · have hleads := (ht'.meaning hΓ hC.fits).1 q hr
    obtain ⟨S', C', hS', hfits, hstore, hholds, -, houtput⟩ := exec_store_leads (p := p) (k := k)
      hC₂.holds hC₂.fits hl₂.value hleads hv hat (machineType target.type)
    rw [hstore, hr]
    simp only [bind, Option.bind, hS', pure]
    exact .result ⟨hholds, hfits, houtput.trans hC₂.output⟩
  · rw [exec_store_dangles hC₂.holds hC₂.fits hl₂.value hdangles hv, hr]
    exact .stuck

/-! ### Counters -/

/-- One more or less than an integer is computed by one instruction. -/
theorem exec_step {n : Int32} (op : BinOp) (hv : C.value F v = some (.int n.toInt64)) {m : Int32}
    (h : op.onInts n 1 = some (.int m)) (x : String) :
    (applied x op .integer v (.int 1)).exec F p k C = some (C.define x (.int m.toInt64)) := by
  rw [applied_ints hv (w := .int 1) (n := 1) rfl op x, h]
  rfl

/-- The first value of a counter is stored, and then one less than it. -/
theorem exec_startCode (hl : Leaves F ν₁ C' slot ν₂ (.ptr q.pointer) C) (hC : C.Holds S)
    (hS : S.Fits D) (hq : q.Leads D .i32) {n : Int32}
    (hv : C.value F v = some (.int n.toInt64)) (pos : Position) :
    ∃ S' C'', S.write q (.int (n - 1)) = some S' ∧ S'.Fits D ∧
      Ir.execAll F p k (startCode pos v slot ν₂) C = some C'' ∧ C''.Holds S' ∧
      C''.output = C.output := by
  obtain ⟨S₁, C₁, hS₁, hfits₁, hstore₁, hholds₁, hlocals₁, houtput₁⟩ :=
    exec_store_leads (p := p) (k := k) (u := .int n) hC hS hl.value hq hv .int .i32
  obtain ⟨hread, hwrite⟩ := Store.write_again hS₁
  -- the two names are new, so the address is still there
  have hpre := New.single (s := ".pre") (by decide) pos ν₂
  have hdec := New.single (s := ".dec") (by decide) pos (spend pos ".pre" ν₂)
  let C₂ := C₁.define (fresh pos ".pre" ν₂) (.int n.toInt64)
  let C₃ := C₂.define (fresh pos ".dec" (spend pos ".pre" ν₂)) (.int (n - 1).toInt64)
  have hkeeps₂ : Keeps ν₂ C₁ C₂ := .define (hpre.given _ List.mem_cons_self) _
  have hkeeps₃ : Keeps ν₂ C₁ C₃ :=
    hkeeps₂.trans (.define (hdec.given _ List.mem_cons_self) _) hpre.mono
  have hslot₁ : C₁.value F slot = some (.ptr q.pointer) :=
    hl.stays fun x _ => congrFun hlocals₁ x
  have hslot₃ : C₃.value F slot = some (.ptr q.pointer) :=
    hl.stays fun x hx => (hkeeps₃.locals x hx).trans (congrFun hlocals₁ x)
  have hload : (Ir.Instr.load (fresh pos ".pre" ν₂) .i32 slot).exec F p k C₁ = some C₂ := by
    rw [exec_load hslot₁, hholds₁.read, hread]
    rfl
  have hsub := exec_step (p := p) (k := k) (F := F) (C := C₂) (m := n - 1)
    (v := .local (fresh pos ".pre" ν₂)) .sub (Function.update_self ..) rfl
    (fresh pos ".dec" (spend pos ".pre" ν₂))
  obtain ⟨S', C'', hS', hfits', hstore', hholds', -, houtput'⟩ :=
    exec_store_leads (p := p) (k := k) (C := C₃) (u := .int (n - 1))
      (v := .local (fresh pos ".dec" (spend pos ".pre" ν₂))) (hkeeps₃.holds hholds₁) hfits₁ hslot₃
      hq (Function.update_self ..) .int .i32
  refine ⟨S', C'', (hwrite _).symm.trans hS', hfits', ?_, hholds', ?_⟩
  · calc Ir.execAll F p k (startCode pos v slot ν₂) C
      _ = _ := Ir.execAll_step hstore₁ _
      _ = _ := Ir.execAll_step hload _
      _ = _ := Ir.execAll_step hsub _
      _ = some C'' := Ir.execAll_step hstore' []
  · exact houtput'.trans (hkeeps₃.output.trans houtput₁)

/-- One is added to a counter, and the sum is still there. -/
theorem exec_countCode (hl : Leaves F ν₁ C' slot ν₂ (.ptr q.pointer) C) (hC : C.Holds S)
    (hS : S.Fits D) (hq : q.Leads D .i32) (pos : Position) :
    ∃ n S' C'', S.read q = some (.int n) ∧ S.write q (.int (n + 1)) = some S' ∧ S'.Fits D ∧
      Ir.execAll F p k (countCode pos slot ν₂) C = some C'' ∧ C''.Holds S' ∧
      C''.output = C.output ∧
      C''.value F (.local (fresh pos ".next" (spend pos ".cur" ν₂))) =
        some (.int (n + 1).toInt64) := by
  obtain ⟨u, hread, hu⟩ := hS.read hq
  obtain ⟨n, rfl⟩ := hu.eq_int
  have hcur := New.single (s := ".cur") (by decide) pos ν₂
  have hnext := New.single (s := ".next") (by decide) pos (spend pos ".cur" ν₂)
  -- the counter is loaded, and one is added to it, before the sum is stored
  let C₁ := C.define (fresh pos ".cur" ν₂) (.int n.toInt64)
  let C₂ := C₁.define (fresh pos ".next" (spend pos ".cur" ν₂)) (.int (n + 1).toInt64)
  have hkeeps : Keeps ν₂ C C₂ :=
    Keeps.trans (.define (hcur.given _ List.mem_cons_self) (.int n.toInt64))
      (.define (hnext.given _ List.mem_cons_self) _) hcur.mono
  have hload : (Ir.Instr.load (fresh pos ".cur" ν₂) .i32 slot).exec F p k C = some C₁ := by
    rw [exec_load hl.value, hC.read, hread]
    rfl
  have hadd := exec_step (p := p) (k := k) (F := F) (C := C₁) (m := n + 1)
    (v := .local (fresh pos ".cur" ν₂)) .add (Function.update_self ..) rfl
    (fresh pos ".next" (spend pos ".cur" ν₂))
  have hvalue : C₂.value F (.local (fresh pos ".next" (spend pos ".cur" ν₂))) =
      some (Val.int (n + 1)).image := Function.update_self ..
  obtain ⟨S', C'', hS', hfits, hstore, hholds, hlocals, houtput⟩ :=
    exec_store_leads (p := p) (k := k) (hkeeps.holds hC) hS (hl.later hkeeps) hq hvalue .int .i32
  refine ⟨n, S', C'', hread, hS', hfits, ?_, hholds, houtput.trans hkeeps.output, ?_⟩
  · calc Ir.execAll F p k (countCode pos slot ν₂) C
      _ = _ := Ir.execAll_step hload _
      _ = _ := Ir.execAll_step hadd _
      _ = some C'' := Ir.execAll_step hstore []
  · exact (congrFun hlocals _).trans hvalue

/-- The code in front of a counting loop gives the counter its first value less one. -/
theorem startCount_agrees (hΓ : D.Covers Γ) {target first : Expr} {c₁ c₂ : List Ir.Instr}
    (hf : ValueCode first ν₁ v c₁ ν₂) (ht : PlaceCode target ν₂ slot c₂ ν₃)
    (hf' : first.Checked Γ) (hft : first.type = .integer) (ht' : target.Checked Γ)
    (htt : target.type = .integer) (hff : first.callFree = true) (hft' : target.callFree = true)
    (pos : Position) (hC : C.Matches D w) :
    Agrees (fun w' C' => C'.Matches D w')
      (Ir.execAll F p k (c₁ ++ c₂ ++ startCode pos v slot ν₃) C)
      (w.startCount F target first) := by
  rw [Ir.execAll_append, Ir.execAll_append, Option.bind_assoc, World.startCount]
  refine (hf.agrees hΓ hC.fits hf' hff C hC.holds).bind ?_
  intro a C₁ heval hl₁
  have hC₁ := hl₁.keeps.matches hC
  obtain ⟨n, rfl⟩ := hf'.eval_int hΓ hC.fits hft heval
  show Agrees _ _ (w.assign F target (.int (n - 1)))
  rcases ht.finds (F := F) (p := p) (k := k) hΓ hC₁.fits ht' hft' C₁ hC₁.holds
    with ⟨ho, hr⟩ | ⟨C₂, q, ho, hl₂, hq⟩
  · rw [ho, World.assign, hr]
    exact .stuck
  have hC₂ := hl₂.keeps.matches hC₁
  have hv := hl₁.later hl₂.keeps
  rw [ho, Option.bind_some, World.assign]
  -- the place has a meaning, or it leads out of its array and storing there fails
  rcases hq with hr | ⟨hr, hdangles⟩
  · have hleads := (ht'.meaning hΓ hC.fits).1 q hr
    rw [htt, machineType] at hleads
    obtain ⟨S', C', hS', hfits, hcode, hholds, houtput⟩ :=
      exec_startCode (p := p) (k := k) hl₂ hC₂.holds hC₂.fits hleads hv pos
    rw [hcode, hr]
    simp only [bind, Option.bind, hS', pure]
    exact .result ⟨hholds, hfits, houtput.trans hC₂.output⟩
  · rw [startCode, Ir.execAll, exec_store_dangles (u := .int n) hC₂.holds hC₂.fits hl₂.value
      hdangles hv, hr]
    exact .stuck

theorem compare_le {m n : Int32} :
    BinOp.lessEqual.onInts m n = some (.bool (decide (m ≤ n))) := by
  have hle : (compare m.toInt n.toInt).isLE = decide (m ≤ n) := by
    rw [Bool.eq_iff_iff, decide_eq_true_iff, Std.isLE_compare, Int32.le_iff_toInt_le]
  rw [← hle]
  rfl

/-- The code of the test of a counting loop counts and compares. -/
theorem count_agrees (hΓ : D.Covers Γ) {target bound : Expr} {u : Ir.Operand} {ν₄ : Names}
    {c₁ c₂ : List Ir.Instr} {pos : Position} (ht : PlaceCode target ν₁ slot c₁ ν₂)
    (hb : ValueCode bound (spend pos ".next" (spend pos ".cur" ν₂)) u c₂ ν₄)
    (ht' : target.Checked Γ) (htt : target.type = .integer) (hb' : bound.Checked Γ)
    (hbt : bound.type = .integer) (hft : target.callFree = true) (hfb : bound.callFree = true)
    (hC : C.Matches D w) :
    Agrees (fun r C' => C'.Matches D r.2 ∧
        C'.value F (.local (fresh pos ".cmp" ν₄)) = some (.bool r.1))
      (Ir.execAll F p k (c₁ ++ countCode pos slot ν₂ ++ c₂ ++
        [.compare (fresh pos ".cmp" ν₄) .sle .i32
          (.local (fresh pos ".next" (spend pos ".cur" ν₂))) u]) C)
      (w.count F target bound) := by
  rw [Ir.execAll_append, Ir.execAll_append, Ir.execAll_append, World.count]
  rcases ht.finds (F := F) (p := p) (k := k) hΓ hC.fits ht' hft C hC.holds
    with ⟨ho, hr⟩ | ⟨C₁, q, ho, hl, hq⟩
  · rw [ho, hr]
    exact .stuck
  have hC₁ := hl.keeps.matches hC
  rw [ho, Option.bind_some]
  rcases hq with hr | ⟨hr, hdangles⟩
  · have hleads := (ht'.meaning hΓ hC.fits).1 q hr
    rw [htt, machineType] at hleads
    obtain ⟨n, S', C₂, hread, hS', hfits, hcode, hholds, houtput, hvalue⟩ :=
      exec_countCode (p := p) (k := k) hl hC₁.holds hC₁.fits hleads pos
    -- the sum is left for the comparison while the bound is evaluated
    have hsum : Leaves F ν₂ C₂ (.local (fresh pos ".next" (spend pos ".cur" ν₂)))
        (spend pos ".next" (spend pos ".cur" ν₂)) (.int (n + 1).toInt64) C₂ := by
      refine ⟨hvalue, fun x hx => ?_, .refl ν₂ C₂⟩
      cases hx
      exact .inl ((New.single (s := ".next") (by decide) pos _).given _ List.mem_cons_self).1
    rw [hcode, Option.bind_some, hr]
    simp only [bind, Option.bind_some, hread, Val.int?, hS']
    refine (hb.agrees hΓ hfits hb' hfb C₂ hholds).bind ?_
    intro a C₃ heval hl₃
    obtain ⟨limit, rfl⟩ := hb'.eval_int hΓ hfits hbt heval
    have hcompare : (Ir.Instr.compare (fresh pos ".cmp" ν₄) .sle .i32
        (.local (fresh pos ".next" (spend pos ".cur" ν₂))) u).exec F p k C₃ =
        some (C₃.define (fresh pos ".cmp" ν₄) (.bool (decide (n + 1 ≤ limit)))) := by
      have happlied := applied_ints (p := p) (k := k) (hsum.later hl₃.keeps) hl₃.value .lessEqual
        (fresh pos ".cmp" ν₄)
      rw [compare_le] at happlied
      exact happlied
    rw [Ir.execAll_step hcompare []]
    refine .result ⟨⟨?_, hfits, ?_⟩, Function.update_self ..⟩
    · exact hl₃.keeps.holds hholds
    · exact hl₃.keeps.output.trans (houtput.trans hC₁.output)
  · have hread : w.store.read q = none := (hC.fits.dangles hdangles (.bool true)).1
    rw [countCode, Ir.execAll, exec_load hl.value, hC₁.holds.read, hread, hr]
    exact .stuck

/-! ### Tests and output -/

theorem test_agrees (hΓ : D.Covers Γ) {test : Expr} {c : List Ir.Instr}
    (h : ValueCode test ν₁ v c ν₂) (he : test.Checked Γ) (ht : test.type = .boolean)
    (hf : test.callFree = true) (hC : C.Matches D w) :
    Agrees (fun r C' => C'.Matches D r.2 ∧ C'.value F v = some (.bool r.1))
      (Ir.execAll F p k c C) (w.test F test) := by
  rw [World.test]
  refine (h.agrees hΓ hC.fits he hf C hC.holds).apply ?_
  intro a C' heval hl
  obtain ⟨b, rfl⟩ := he.eval_bool hΓ hC.fits ht heval
  exact ⟨(b, w), rfl, hl.keeps.matches hC, hl.value⟩

theorem exec_printf {format text : String} {u : Ir.Operand} {vs : List (Ir.Ty × Ir.Operand)}
    {xs : List Value} {x : Value} (hu : C.value F u = some x) (hx : p.decode x = some format)
    (hvs : (vs.mapM fun a => C.value F a.2) = some xs)
    (hprint : p.print F format.toList xs = some text) (t t' : Ir.Ty) (name : String)
    (fixed : Option (List Ir.Ty)) :
    (Ir.Instr.call none t name fixed ((t', u) :: vs)).exec F p k C =
      some { C with output := C.output ++ text } := by
  have harguments : (((t', u) :: vs).mapM fun a => C.value F a.2) = some (x :: xs) := by
    rw [List.mapM_cons, hu, hvs]
    rfl
  rw [Ir.Instr.exec, harguments]
  simp only [hx, hprint, bind, Option.bind, pure]
  rfl

/-- The code of a statement that writes prints what is shown. -/
theorem write_agrees (hΓ : D.Covers Γ) (hT : p.Decodes T) {newline : Bool} {args : List WriteArg}
    {f : String} {vs : List (Ir.Ty × Ir.Operand)} {c : List Ir.Instr}
    (h : WriteCode T args ν₁ f vs c ν₂) (hf : lineFormat newline f ∈ T.formats)
    (ha : ∀ a ∈ args, a.Checked Γ) (hfree : ∀ a ∈ args, a.callFree = true)
    (hC : C.Matches D w) :
    Agrees (fun w' C' => C'.Matches D w')
      (Ir.execAll F p k (c ++ [.call none .i32 "printf" (some [.ptr])
        ((.ptr, .global (T.formatName (lineFormat newline f))) :: vs)]) C)
      ((w.shownAll F args).bind fun text =>
        some { w with output := w.output ++ text ++ if newline then "\n" else "" }) := by
  rw [Ir.execAll_append]
  refine (h.agrees hΓ hC.fits hT ha hfree C hC.holds).bind ?_
  intro text C' _ hshows
  have hC' := hshows.keeps.matches hC
  obtain ⟨xs, hxs, hprint⟩ := hshows.print
  -- what is printed so far does not depend on how the format goes on
  have hline : p.print F (lineFormat newline f).toList xs =
      some (text ++ if newline then "\n" else "") := by
    cases newline
    · have := hprint []
      rw [List.append_nil] at this
      exact this
    · rw [lineFormat, if_pos rfl, String.toList_append]
      exact hprint ['\n']
  have hcall := exec_printf (k := k) (u := .global (T.formatName (lineFormat newline f))) rfl
    (hT.format _ hf) hxs hline .i32 .ptr "printf" (some [.ptr])
  rw [Ir.execAll_step hcall []]
  refine .result ⟨hC'.holds, hC'.fits, ?_⟩
  rw [← hC'.output, String.append_assoc]

end

end MiniPascal
