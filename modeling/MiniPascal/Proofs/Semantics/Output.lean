import MiniPascal.Proofs.Lowering.WellTyped
import MiniPascal.Proofs.Semantics.Expression

namespace MiniPascal

open Ir (Value Config)
open Lowering

/-! ### Constant texts -/

/-- The bytes of a text without the end mark are those of the text. -/
theorem text_textBytes (s : String) : Utf8.text (textBytes s).dropLast = s := by
  rw [textBytes, List.dropLast_concat, Utf8.text_toUTF8]

namespace Ir.Program

variable {p : Ir.Program} {T : Pool}

/-- The texts and formats of a pool are what pointers to their globals stand for. -/
structure Decodes (p : Ir.Program) (T : Pool) : Prop where
  text : ∀ s ∈ T.texts, p.decode (.ptr ⟨.global (T.textName s), []⟩) = some s
  format : ∀ s ∈ T.formats, p.decode (.ptr ⟨.global (T.formatName s), []⟩) = some s

theorem decode_of_mem (hp : ∀ x ∈ p.globals, ∀ y ∈ p.globals, x.name = y.name → x = y)
    {x s : String} (hx : .text x (textBytes s) ∈ p.globals) :
    p.decode (.ptr ⟨.global x, []⟩) = some s := by
  have htext : p.text? x = some (textBytes s) := by
    cases h : p.text? x with
    | none =>
      have := List.findSome?_eq_none_iff.1 h _ (List.mem_reverse.2 hx)
      simp at this
    | some bytes =>
      obtain ⟨y, hy, hfound⟩ := List.exists_of_findSome?_eq_some h
      cases y with
      | «variable» => cases hfound
      | text x' bytes' =>
        have hname : x' = x := by
          by_contra hne
          simp [hne] at hfound
        have := hp _ hx _ (List.mem_reverse.1 hy) hname.symm
        cases this
        simpa using hfound.symm
  rw [decode, htext]
  show (if textBytes s = [] then none else _) = some s
  rw [if_neg (by simp [textBytes]), text_textBytes]

/-- A pool is decoded in a program whose globals hold it besides the variables. -/
theorem decodes {vars : List (Name × MiniPascal.Ty)} {added : List Ir.Global} (hv : Distinct vars)
    (hp : p.globals = globalVariables vars ++ added) (ha : ∀ x, x ∈ added ↔ T.Holds x) :
    p.Decodes T := by
  have hnames := globals_eq_of_name hv ha
  have hmem : ∀ x, T.Holds x → x ∈ p.globals := by
    intro x hx
    rw [hp]
    exact List.mem_append_right _ ((ha x).2 hx)
  rw [← hp] at hnames
  constructor
  · intro s hs
    exact decode_of_mem hnames (hmem _ (.inl ⟨s, hs, rfl⟩))
  · intro s hs
    exact decode_of_mem hnames (hmem _ (.inr ⟨s, hs, rfl⟩))

end Ir.Program

/-! ### Formats -/

section

variable {F : Floats} {p : Ir.Program} {k : Nat} {D : Shapes} {Γ : Context} {T : Pool}
  {ν₁ ν₂ ν₃ : Names}

/-- A directive in front of a format prints a text for a value in front of the others. -/
def Puts (F : Floats) (p : Ir.Program) (directive : String) (u : Value) (text : String) : Prop :=
  ∀ cs xs, p.print F (directive.toList ++ cs) (u :: xs) = (p.print F cs xs).map (text ++ ·)

/-- Behind some code the values of arguments are there, and for a format that begins with the given
one a text is printed in front of what is printed for the rest of it. -/
structure Shows (F : Floats) (p : Ir.Program) (ν : Names) (C : Config) (format : String)
    (vs : List (Ir.Ty × Ir.Operand)) (text : String) (C' : Config) : Prop where
  keeps : Keeps ν C C'
  print : ∃ xs, (vs.mapM fun a => C'.value F a.2) = some xs ∧
    ∀ cs, p.print F (format.toList ++ cs) xs = (p.print F cs []).map (text ++ ·)

/-- One more argument in front of others. -/
theorem Agrees.argument {w : World} {a : WriteArg} {args : List WriteArg} {directive f : String}
    {t : Ir.Ty} {v : Ir.Operand} {vs : List (Ir.Ty × Ir.Operand)} {c d : List Ir.Instr}
    {C : Config} (hC : C.Holds w.store) (hν : ∀ x, Given ν₁ x → Given ν₂ x)
    (h : Agrees (fun text C' => ∃ u, Leaves F ν₁ C v ν₂ u C' ∧ Puts F p directive u text)
      (Ir.execAll F p k c C) (w.shown F a))
    (h' : ∀ C', C'.Holds w.store →
      Agrees (Shows F p ν₂ C' f vs) (Ir.execAll F p k d C') (w.shownAll F args)) :
    Agrees (Shows F p ν₁ C (directive ++ f) ((t, v) :: vs)) (Ir.execAll F p k (c ++ d) C)
      (w.shownAll F (a :: args)) := by
  rw [Ir.execAll_append, World.shownAll]
  refine h.bind ?_
  rintro head C₁ - ⟨u, hl, hputs⟩
  refine (h' C₁ (hl.keeps.holds hC)).apply ?_
  intro tail C₂ _ hshows
  obtain ⟨xs, hxs, hprint⟩ := hshows.print
  refine ⟨head ++ tail, rfl, hl.keeps.trans hshows.keeps hν, u :: xs, ?_, ?_⟩
  · rw [List.mapM_cons, hl.later hshows.keeps, hxs]
    rfl
  · intro cs
    rw [String.toList_append, List.append_assoc, hputs, hprint, Option.map_map]
    congr 1
    funext rest
    exact String.append_assoc.symm

theorem puts_integer (n : Int32) :
    Puts F p "%d" (Val.int n).image (toString n.toInt) := by
  intro cs xs
  show p.print F ('%' :: 'd' :: cs) (.int n.toInt64 :: xs) = _
  rw [Ir.Program.print, Int32.toInt_toInt64]
  cases p.print F cs xs <;> rfl

theorem puts_double (x : Double) : Puts F p "%f" (Val.double x).image (F.format x) := by
  intro cs xs
  show p.print F ('%' :: 'f' :: cs) (.double x :: xs) = _
  rw [Ir.Program.print]
  cases p.print F cs xs <;> rfl

theorem puts_text {u : Value} {s : String} (h : p.decode u = some s) : Puts F p "%s" u s := by
  intro cs xs
  show p.print F ('%' :: 's' :: cs) (u :: xs) = _
  rw [Ir.Program.print, h]
  cases p.print F cs xs <;> rfl

/-- A truth value is converted to an integer before it is printed. -/
theorem puts_boolean (b : Bool) :
    Puts F p "%d" (.int (if b then 1 else 0)) (if b then "1" else "0") := by
  cases b
  · exact puts_integer 0
  · exact puts_integer 1

theorem exec_zext {C : Config} {v : Ir.Operand} {b : Bool} (hv : C.value F v = some (.bool b))
    (x : String) (t u : Ir.Ty) : (Ir.Instr.cast x .zext t v u).exec F p k C =
      some (C.define x (.int (if b then 1 else 0))) := by
  rw [Ir.Instr.exec, hv]
  rfl

/-- The code of arguments leaves their values, and `printf` prints them as they are shown. -/
theorem Lowering.WriteCode.agrees {w : World} (hΓ : D.Covers Γ) (hS : w.store.Fits D)
    (hT : p.Decodes T) {args f vs c} (h : WriteCode T args ν₁ f vs c ν₂)
    (ha : ∀ a ∈ args, a.Checked Γ) (hf : ∀ a ∈ args, a.callFree = true) (C : Config)
    (hC : C.Holds w.store) :
    Agrees (Shows F p ν₁ C f vs) (Ir.execAll F p k c C) (w.shownAll F args) := by
  induction h generalizing C with
  | @nil ν =>
    refine .result ⟨.refl ν C, [], rfl, ?_⟩
    intro cs
    show p.print F cs [] = _
    cases p.print F cs [] <;> simp
  | text hs _ ih =>
    rw [List.forall_mem_cons] at ha hf
    refine Agrees.argument (c := []) hC (fun _ hx => hx) ?_ (ih ha.2 hf.2)
    exact .result ⟨_, .const rfl (by simp) _, puts_text (hT.text _ hs)⟩
  | integer ht he _ ih =>
    rw [List.forall_mem_cons] at ha hf
    obtain ⟨he', -⟩ := ha.1
    refine Agrees.argument hC he.new.mono ?_ (ih ha.2 hf.2)
    refine (he.agrees hΓ hS he' hf.1 C hC).apply ?_
    intro a C' ha hl
    obtain ⟨n, rfl⟩ := he'.eval_int hΓ hS ht ha
    exact ⟨_, rfl, _, hl, puts_integer n⟩
  | double ht he _ ih =>
    rw [List.forall_mem_cons] at ha hf
    obtain ⟨he', -⟩ := ha.1
    refine Agrees.argument hC he.new.mono ?_ (ih ha.2 hf.2)
    refine (he.agrees hΓ hS he' hf.1 C hC).apply ?_
    intro a C' ha hl
    obtain ⟨x, rfl⟩ := he'.eval_double hΓ hS ht ha
    exact ⟨_, rfl, _, hl, puts_double x⟩
  | @boolean e _ _ ν _ _ _ _ _ _ ht he _ ih =>
    rw [List.forall_mem_cons] at ha hf
    obtain ⟨he', -⟩ := ha.1
    -- a truth value is widened before it is passed, which takes one more name
    have hcast := New.single (s := ".cast") (by decide) e.position ν
    refine Agrees.argument hC (fun x hx => hcast.mono x (he.new.mono x hx)) ?_ (ih ha.2 hf.2)
    rw [Ir.execAll_append]
    refine (he.agrees hΓ hS he' hf.1 C hC).bind ?_
    intro a C' ha hl
    obtain ⟨b, rfl⟩ := he'.eval_bool hΓ hS ht ha
    rw [Ir.execAll_single, exec_zext hl.value]
    exact .result ⟨_, .define (by decide) _ hl.keeps he.new.mono _, puts_boolean b⟩

end

end MiniPascal
