import Mathlib
import MiniPascal.Proofs.Lowering.Typing
import MiniPascal.Proofs.Reading.Regular

/-! The numbers in lowered programs have 32 bits, but for the size of the least one. -/

namespace MiniPascal

namespace Ir

/-- If the operand is a number, it is one of 32 bits. -/
def Operand.IsWord : Operand → Prop
  | .int v => Grammar.fitsWord v = true
  | _ => True

/-- What a number among the operands of an instruction can be, if records have at most `N` fields: a
number of 32 bits, the size of the least such number, where it is taken from zero, or the place of a
field with more fields in front of it than 32 bits count. -/
inductive Number (N : Nat) : Instr → Int64 → Prop
  | word {i v} (h : -2147483648 ≤ v.toInt ∧ v.toInt ≤ 2147483647) : Number N i v
  | least {output} :
    Number N (.binary output .sub .i32 (.int 0) (.int 2147483648)) 2147483648
  | place {output t base slot} (hs : 2147483648 ≤ slot) (h : slot < N) :
    Number N (.element output t base [.int 0, .int (Int64.ofNat slot)]) (Int64.ofNat slot)

/-- All numbers among the operands of the instruction are such numbers. -/
def Instr.Numbered (N : Nat) (i : Instr) : Prop := ∀ v, .int v ∈ i.operands → Number N i v

theorem Instr.numbered_of_words {N : Nat} {i : Instr} (h : ∀ x ∈ i.operands, x.IsWord) :
    i.Numbered N :=
  fun v hv => .word ((Grammar.fitsWord_iff v).1 (h _ hv))

end Ir

/-! ### Numbers of 32 bits -/

/-- The literals that signs stand in front of are numbers of 32 bits, but one. -/
theorem fitsWord_or_eq {n : UInt64} (h : n.toNat ≤ 0x80000000) :
    Grammar.fitsWord n.toInt64 = true ∨ n.toInt64 = 2147483648 := by
  have hn := toInt_toInt64 (Nat.le_trans h (by decide))
  rcases Nat.lt_or_eq_of_le h with hlt | heq
  · refine .inl ((Grammar.fitsWord_iff _).2 ?_)
    omega
  · refine .inr (Int64.toInt_inj.1 ?_)
    rw [hn, heq]
    rfl

/-- The lower bound of a regular type is a number of 32 bits. -/
theorem Ty.Regular.lowBound {N : Nat} {t : Ty} (h : t.Regular N) :
    Grammar.fitsWord (Lowering.lowBound t) = true := by
  cases t with
  | scalar | record => rfl
  | array low high element =>
    obtain ⟨l, k, hbounds, hl, -⟩ := h.wellFormed.bounds
    rw [Lowering.lowBound, hbounds]
    exact hl

namespace Lowering

open Ir (Operand Instr)

/-- All instructions are numbered. -/
def AllNumbered (N : Nat) (c : List Instr) : Prop := ∀ i ∈ c, i.Numbered N

section

variable {N : Nat} {Γ : Context}

@[simp] theorem allNumbered_nil : AllNumbered N [] := List.forall_mem_nil _

@[simp] theorem allNumbered_append {c d : List Instr} :
    AllNumbered N (c ++ d) ↔ AllNumbered N c ∧ AllNumbered N d := List.forall_mem_append

@[simp] theorem allNumbered_cons {i : Instr} {c : List Instr} :
    AllNumbered N (i :: c) ↔ i.Numbered N ∧ AllNumbered N c := List.forall_mem_cons

theorem allNumbered_snoc {c : List Instr} {i : Instr} (hc : AllNumbered N c)
    (hi : i.Numbered N) : AllNumbered N (c ++ [i]) :=
  allNumbered_append.2 ⟨hc, List.forall_mem_singleton.2 hi⟩

theorem isWord_local (x : String) : (Operand.local x).IsWord := trivial

theorem isWord_zero : (Operand.int 0).IsWord := rfl

/-! ### Single instructions -/

theorem numbered_of_nil {i : Instr} (h : i.operands = []) : i.Numbered N := by
  refine Instr.numbered_of_words ?_
  rw [h]
  exact List.forall_mem_nil _

theorem numbered_one {i : Instr} {v : Operand} (h : i.operands = [v]) (hv : v.IsWord) :
    i.Numbered N := by
  refine Instr.numbered_of_words ?_
  rw [h]
  exact List.forall_mem_singleton.2 hv

theorem numbered_two {i : Instr} {v w : Operand} (h : i.operands = [v, w]) (hv : v.IsWord)
    (hw : w.IsWord) : i.Numbered N := by
  refine Instr.numbered_of_words ?_
  rw [h]
  exact List.forall_mem_cons.2 ⟨hv, List.forall_mem_singleton.2 hw⟩

theorem numbered_call {output : Option String} {returns : Ir.Ty} {target : String}
    {variadic : Option (List Ir.Ty)} {vs : List (Ir.Ty × Operand)} (h : ∀ a ∈ vs, a.2.IsWord) :
    (Instr.call output returns target variadic vs).Numbered N := by
  refine Instr.numbered_of_words fun x hx => ?_
  obtain ⟨a, ha, rfl⟩ := List.mem_map.1 hx
  exact h a ha

theorem numbered_element {output : String} {t : Ir.Ty} {base v : Operand} (hb : base.IsWord)
    (hv : v.IsWord) : (Instr.element output t base [.int 0, v]).Numbered N := by
  refine Instr.numbered_of_words ?_
  refine List.forall_mem_cons.2 ⟨hb, List.forall_mem_cons.2 ⟨isWord_zero, ?_⟩⟩
  exact List.forall_mem_singleton.2 hv

/-- The instruction that finds a field, of which there are no more than `N`. -/
theorem numbered_field {output : String} {t : Ir.Ty} {base : Operand} {slot : Nat}
    (hb : base.IsWord) (hs : slot < N) :
    (Instr.element output t base [.int 0, .int (Int64.ofNat slot)]).Numbered N := by
  by_cases hword : slot ≤ 0x7fffffff
  · refine numbered_element hb ((Grammar.fitsWord_iff _).2 ?_)
    rw [Int64.toInt_ofNat_of_lt (by omega)]
    omega
  · intro v hv
    have hv : .int v = base ∨ v = 0 ∨ v = Int64.ofNat slot := by
      simpa [Instr.operands] using hv
    rcases hv with rfl | rfl | rfl
    · exact .word ((Grammar.fitsWord_iff v).1 hb)
    · exact .word (by decide)
    · exact .place (by omega) hs

theorem numbered_applied {op : BinOp} {t : Ty} {v w : Operand} (hv : v.IsWord) (hw : w.IsWord)
    (output : String) : (applied output op t v w).Numbered N := by
  unfold applied
  split <;> exact numbered_two rfl hv hw

/-- A negated literal, which may be the size of the least number of 32 bits. -/
theorem numbered_negative {output : String} {n : UInt64} (h : n.toNat ≤ 0x80000000) :
    (Instr.binary output .sub .i32 (.int 0) (.int n.toInt64)).Numbered N := by
  rcases fitsWord_or_eq h with hn | hn
  · exact numbered_two rfl isWord_zero hn
  · rw [hn]
    intro v hv
    have hv : v = 0 ∨ v = 2147483648 := by simpa [Instr.operands] using hv
    rcases hv with rfl | rfl
    · exact .word (by decide)
    · exact .least

/-! ### Expressions -/

theorem isWord_literal {n : UInt64} (h : n.toNat ≤ Grammar.literalLimit) :
    (Operand.int n.toInt64).IsWord := by
  have hle : n.toNat ≤ 0x7fffffff := h
  have hn := toInt_toInt64 (Nat.le_trans hle (by decide))
  refine (Grammar.fitsWord_iff _).2 ?_
  omega

/-- A field is in its place among the fields of a regular record. -/
theorem slot_lt {r : Expr} (hr : r.type.Regular N) {fields : List (Name × Ty)}
    (ht : r.type = .record fields) {n : Name} {slot : Nat} {t : Ty}
    (hf : Ty.findField n fields = some (slot, t)) : slot < N := by
  rw [ht] at hr
  obtain ⟨m, hget, -⟩ := Ty.findField_getElem hf
  obtain ⟨hlt, -⟩ := List.getElem?_eq_some_iff.1 hget
  exact Nat.lt_of_lt_of_le hlt hr.length_le

mutual

theorem PlaceCode.numbered (hΓ : Γ.Regular N) {e ν₁ slot c ν₂} (h : PlaceCode e ν₁ slot c ν₂)
    (he : e.Checked Γ) : slot.IsWord ∧ AllNumbered N c := by
  match h with
  | .global | .routine => exact ⟨trivial, allNumbered_nil⟩
  | .index ha hi _ =>
    cases he with | index ha' _ _ hi' _ =>
    obtain ⟨hbase, hc₁⟩ := ha.numbered hΓ ha'
    obtain ⟨hv, hc₂⟩ := hi.numbered hΓ hi'
    exact ⟨trivial, allNumbered_snoc (allNumbered_append.2 ⟨hc₁, hc₂⟩) (numbered_element hbase hv)⟩
  | .rebased ha hi _ =>
    cases he with | index ha' _ _ hi' _ =>
    obtain ⟨hbase, hc₁⟩ := ha.numbered hΓ ha'
    obtain ⟨hv, hc₂⟩ := hi.numbered hΓ hi'
    have hlow := (ha'.type_regular hΓ).lowBound
    refine ⟨trivial, allNumbered_append.2 ⟨allNumbered_append.2 ⟨hc₁, hc₂⟩, ?_⟩⟩
    refine allNumbered_cons.2 ⟨numbered_two rfl hv hlow, List.forall_mem_singleton.2 ?_⟩
    exact numbered_element hbase (isWord_local _)
  | .field hr =>
    cases he with | field hr' _ ht hf =>
    obtain ⟨hbase, hc⟩ := hr.numbered hΓ hr'
    have hslot := slot_lt (hr'.type_regular hΓ) ht hf
    exact ⟨trivial, allNumbered_snoc hc (numbered_field hbase hslot)⟩
termination_by structural h

theorem ValueCode.numbered (hΓ : Γ.Regular N) {e ν₁ v c ν₂} (h : ValueCode e ν₁ v c ν₂)
    (he : e.Checked Γ) : v.IsWord ∧ AllNumbered N c := by
  match h with
  | .int => cases he with | int hn => exact ⟨isWord_literal hn, allNumbered_nil⟩
  | .double | .bool => exact ⟨trivial, allNumbered_nil⟩
  | .load hs =>
    obtain ⟨hslot, hc⟩ := hs.numbered hΓ he
    exact ⟨trivial, allNumbered_snoc hc (numbered_one rfl hslot)⟩
  | .plus hv =>
    cases he with | unary he' _ =>
    exact hv.numbered hΓ he'
  | .negate hv ht =>
    cases he with
    | negative => cases ht
    | unary he' _ =>
      obtain ⟨hw, hc⟩ := hv.numbered hΓ he'
      exact ⟨trivial, allNumbered_snoc hc (numbered_one rfl hw)⟩
  | .minus hv _ =>
    cases he with
    | negative hn =>
      cases hv with
      -- a literal behind a minus may be the size of the least number
      | int => exact ⟨trivial, allNumbered_snoc allNumbered_nil (numbered_negative hn)⟩
      | load hs => cases hs
    | unary he' _ =>
      obtain ⟨hw, hc⟩ := hv.numbered hΓ he'
      exact ⟨trivial, allNumbered_snoc hc (numbered_two rfl isWord_zero hw)⟩
  | .not hv _ =>
    cases he with | unary he' _ =>
    obtain ⟨hw, hc⟩ := hv.numbered hΓ he'
    exact ⟨trivial, allNumbered_snoc hc (numbered_two rfl hw trivial)⟩
  | .complement hv _ =>
    cases he with | unary he' _ =>
    obtain ⟨hw, hc⟩ := hv.numbered hΓ he'
    have hones : (Operand.int (-1)).IsWord := rfl
    exact ⟨trivial, allNumbered_snoc hc (numbered_two rfl hw hones)⟩
  | .binary hl hr =>
    obtain ⟨hl', hr', -⟩ := operands_of_checked he
    obtain ⟨hv, hc₁⟩ := hl.numbered hΓ hl'
    obtain ⟨hw, hc₂⟩ := hr.numbered hΓ hr'
    exact ⟨trivial, allNumbered_snoc (allNumbered_append.2 ⟨hc₁, hc₂⟩)
      (numbered_applied hv hw _)⟩
  | .call ha =>
    cases he with | call _ ha' _ =>
    obtain ⟨hvs, hc⟩ := ha.numbered hΓ ha'
    exact ⟨trivial, allNumbered_snoc hc (numbered_call hvs)⟩
termination_by structural h

theorem TypedCode.numbered (hΓ : Γ.Regular N) {e t ν₁ v c ν₂} (h : TypedCode e t ν₁ v c ν₂)
    (he : e.Checked Γ) : v.IsWord ∧ AllNumbered N c := by
  match h with
  | .widened _ => exact ⟨trivial, allNumbered_nil⟩
  | .cast _ _ hv =>
    obtain ⟨hw, hc⟩ := hv.numbered hΓ he
    exact ⟨trivial, allNumbered_snoc hc (numbered_one rfl hw)⟩
  | .same _ hv => exact hv.numbered hΓ he
termination_by structural h

theorem ArgsCode.numbered (hΓ : Γ.Regular N) {es ts ν₁ vs c ν₂} (h : ArgsCode es ts ν₁ vs c ν₂)
    (hes : ∀ e ∈ es, e.Checked Γ) : (∀ a ∈ vs, a.2.IsWord) ∧ AllNumbered N c := by
  match h with
  | .nil => exact ⟨List.forall_mem_nil _, allNumbered_nil⟩
  | .cons he hes' =>
    obtain ⟨h₁, h₂⟩ := List.forall_mem_cons.1 hes
    obtain ⟨hv, hc₁⟩ := he.numbered hΓ h₁
    obtain ⟨hvs, hc₂⟩ := hes'.numbered hΓ h₂
    exact ⟨List.forall_mem_cons.2 ⟨hv, hvs⟩, allNumbered_append.2 ⟨hc₁, hc₂⟩⟩
termination_by structural h

end

/-! ### Statements -/

theorem WriteCode.numbered {T : Pool} (hΓ : Γ.Regular N) {args ν₁ f vs c ν₂}
    (h : WriteCode T args ν₁ f vs c ν₂) (ha : ∀ a ∈ args, a.Checked Γ) :
    (∀ a ∈ vs, a.2.IsWord) ∧ AllNumbered N c := by
  induction h with
  | nil => exact ⟨List.forall_mem_nil _, allNumbered_nil⟩
  | text _ _ ih =>
    obtain ⟨hvs, hc⟩ := ih (List.forall_mem_cons.1 ha).2
    exact ⟨List.forall_mem_cons.2 ⟨trivial, hvs⟩, hc⟩
  | integer _ he _ ih | double _ he _ ih =>
    obtain ⟨⟨he', -⟩, ha⟩ := List.forall_mem_cons.1 ha
    obtain ⟨hv, hc₁⟩ := he.numbered hΓ he'
    obtain ⟨hvs, hc₂⟩ := ih ha
    exact ⟨List.forall_mem_cons.2 ⟨hv, hvs⟩, allNumbered_append.2 ⟨hc₁, hc₂⟩⟩
  | boolean _ he _ ih =>
    obtain ⟨⟨he', -⟩, ha⟩ := List.forall_mem_cons.1 ha
    obtain ⟨hv, hc₁⟩ := he.numbered hΓ he'
    obtain ⟨hvs, hc₂⟩ := ih ha
    exact ⟨List.forall_mem_cons.2 ⟨isWord_local _, hvs⟩,
      allNumbered_append.2 ⟨allNumbered_snoc hc₁ (numbered_one rfl hv), hc₂⟩⟩

theorem startCode_numbered (p : Position) {v slot : Operand} (hv : v.IsWord) (hs : slot.IsWord)
    (ν : Names) : AllNumbered N (startCode p v slot ν) := by
  have hone : (Operand.int 1).IsWord := rfl
  refine allNumbered_cons.2 ⟨numbered_two rfl hv hs, allNumbered_cons.2 ⟨numbered_one rfl hs, ?_⟩⟩
  refine allNumbered_cons.2 ⟨numbered_two rfl (isWord_local _) hone, ?_⟩
  exact List.forall_mem_singleton.2 (numbered_two rfl (isWord_local _) hs)

theorem countCode_numbered (p : Position) {slot : Operand} (hs : slot.IsWord) (ν : Names) :
    AllNumbered N (countCode p slot ν) := by
  have hone : (Operand.int 1).IsWord := rfl
  refine allNumbered_cons.2 ⟨numbered_one rfl hs, ?_⟩
  refine allNumbered_cons.2 ⟨numbered_two rfl (isWord_local _) hone, ?_⟩
  exact List.forall_mem_singleton.2 (numbered_two rfl (isWord_local _) hs)

theorem label_numbered (l : Ir.Label) : (Instr.label l).Numbered N := numbered_of_nil rfl

theorem jump_numbered (l : Ir.Label) : (Instr.jump l).Numbered N := numbered_of_nil rfl

theorem jumpIf_numbered {v : Operand} (hv : v.IsWord) (yes no : Ir.Label) :
    (Instr.jumpIf v yes no).Numbered N := numbered_one rfl hv

/-- The direct code of a statement that obeys the rules is numbered. -/
theorem StmtCode.numbered {T : Pool} (hΓ : Γ.Regular N) {exit next s σ d σ'}
    (h : StmtCode T exit next s σ d σ') {b : Bool} (hs : s.Checked Γ b) : AllNumbered N d := by
  induction h generalizing b with
  | blockNil | writeNothing => exact allNumbered_nil
  | blockCons _ _ ih₁ ih₂ =>
    cases hs with | block hs =>
    obtain ⟨h₁, h₂⟩ := List.forall_mem_cons.1 hs
    exact allNumbered_append.2 ⟨ih₁ h₁, ih₂ (.block h₂)⟩
  | ifThen ht _ ih =>
    cases hs with | ifThen ht' _ hy =>
    obtain ⟨hv, hc⟩ := ht.numbered hΓ ht'
    simp [hc, ih hy, jumpIf_numbered hv, jump_numbered, label_numbered]
  | ifElse ht _ _ ihy ihn =>
    cases hs with | ifElse ht' _ hy hn =>
    obtain ⟨hv, hc⟩ := ht.numbered hΓ ht'
    simp [hc, ihy hy, ihn hn, jumpIf_numbered hv, jump_numbered, label_numbered]
  | «while» ht _ ih =>
    cases hs with | «while» ht' _ hb =>
    obtain ⟨hv, hc⟩ := ht.numbered hΓ ht'
    simp [hc, ih hb, jumpIf_numbered hv, jump_numbered, label_numbered]
  | repeatUntil _ ht ih =>
    cases hs with | repeatUntil hb ht' =>
    obtain ⟨hv, hc⟩ := ht.numbered hΓ ht'
    simp [hc, ih hb, jumpIf_numbered hv, jump_numbered, label_numbered]
  | forTo hf ht ht' hb _ ih =>
    cases hs with | forTo htc _ _ hfc _ hbc _ hsc =>
    obtain ⟨hv, hc₁⟩ := hf.numbered hΓ hfc
    obtain ⟨hslot, hc₂⟩ := ht.numbered hΓ htc
    obtain ⟨hslot', hc₃⟩ := ht'.numbered hΓ htc
    obtain ⟨hw, hc₄⟩ := hb.numbered hΓ hbc
    have htest : ∀ output x, (Instr.compare output .sle .i32 (.local x) _).Numbered N :=
      fun output x => numbered_two rfl (isWord_local x) hw
    simp [hc₁, hc₂, hc₃, hc₄, ih hsc, startCode_numbered _ hv hslot, countCode_numbered _ hslot',
      htest, jumpIf_numbered (isWord_local _), jump_numbered, label_numbered]
  | assign he ht =>
    cases hs with | assign ht' _ he' =>
    obtain ⟨hv, hc₁⟩ := he.numbered hΓ he'
    obtain ⟨hslot, hc₂⟩ := ht.numbered hΓ ht'
    exact allNumbered_snoc (allNumbered_append.2 ⟨hc₁, hc₂⟩) (numbered_two rfl hv hslot)
  | call ha =>
    cases hs with | call _ ha' _ =>
    obtain ⟨hvs, hc⟩ := ha.numbered hΓ ha'
    exact allNumbered_snoc hc (numbered_call hvs)
  | write hw _ =>
    cases hs with | write ha =>
    obtain ⟨hvs, hc⟩ := hw.numbered hΓ ha
    exact allNumbered_snoc hc (numbered_call (List.forall_mem_cons.2 ⟨trivial, hvs⟩))
  | transition => exact List.forall_mem_singleton.2 (numbered_of_nil rfl)

/-- The direct code of a block is that of its statements. -/
theorem StmtCode.mem_block {T : Pool} {exit next : Ir.Label} {ss : List Stmt} {σ σ' : Supply}
    {d : List Instr} (h : StmtCode T exit next (.block ss) σ d σ') {i : Instr} (hi : i ∈ d) :
    ∃ s ∈ ss, ∃ σ₁ c σ₂, StmtCode T exit next s σ₁ c σ₂ ∧ i ∈ c := by
  induction ss generalizing σ d with
  | nil =>
    cases h
    cases hi
  | cons s ss ih =>
    cases h with | blockCons hs hss =>
    rcases List.mem_append.1 hi with hi | hi
    · exact ⟨s, List.mem_cons_self, _, _, _, hs, hi⟩
    · obtain ⟨s', hs', hcode⟩ := ih hss hi
      exact ⟨s', List.mem_cons_of_mem s hs', hcode⟩

/-! ### Functions -/

/-- The code of a function is numbered if its statements are regular. -/
theorem FunctionCode.numbered {T : Pool} {P : OfBody} {l l' : Nat} {f : Ir.Function}
    (hP : ∀ locals body, P locals body → ∀ st ∈ body, st.Regular N)
    (h : FunctionCode T P l f l') : AllNumbered N f.body := by
  obtain @⟨name, returns, params, vars, body, d, tail, _, hv, hs, hb, ht⟩ := h
  obtain ⟨ν, hd⟩ := hb.code
  refine allNumbered_append.2 ⟨?_, allNumbered_append.2 ⟨allNumbered_append.2 ⟨?_, ?_⟩, ?_⟩⟩
  · intro i hi
    obtain ⟨v, -, rfl⟩ := List.mem_map.1 hi
    exact numbered_of_nil rfl
  · intro i hi
    obtain ⟨v, -, rfl⟩ := List.mem_map.1 hi
    exact numbered_two rfl (isWord_local _) (isWord_local _)
  · -- each statement is regular in a context of its own
    intro i hi
    obtain ⟨st, hst, _, c, _, hcode, hi⟩ := hd.mem_block ((Ir.dropDead_sublist false d).subset hi)
    obtain ⟨Γ, hΓ, hchecked⟩ := hP _ _ hs st hst
    exact hcode.numbered hΓ hchecked i hi
  · cases ht with
    | nothing => exact List.forall_mem_singleton.2 (numbered_of_nil rfl)
    | result =>
      exact allNumbered_cons.2 ⟨numbered_one rfl (isWord_local _),
        List.forall_mem_singleton.2 (numbered_one rfl (isWord_local _))⟩
    | zero => exact List.forall_mem_singleton.2 (numbered_one rfl isWord_zero)

end

end Lowering

namespace Program

/-- The numbers in a compiled program are numbers of 32 bits, but for the size of the least of
these, and for places in records with more fields than 32 bits count. -/
theorem compile_numbers {text name : String} {ir : Ir.Program} (h : compile text name = .ok ir) :
    ∀ f ∈ ir.functions, ∀ i ∈ f.body, ∀ v, .int v ∈ i.operands → Ir.Number text.length i v := by
  obtain ⟨p, hread, rfl, hp, -⟩ := compile_eq_ok h
  obtain ⟨T, fs, main, l, hl⟩ := hp.lowered
  have hregular := ofText_regular hread
  intro f hf
  obtain ⟨m, m', hcode⟩ := hl.bodies.mem f hf
  exact hcode.numbered fun _ _ hb => hregular.body hb

theorem compile_numbers_negated :
    ∃ ir, compile "begin writeln(-1) end." "t" = .ok ir ∧
      ∀ f ∈ ir.functions, ∀ i ∈ f.body, ∀ v, .int v ∈ i.operands →
        Ir.Number "begin writeln(-1) end.".length i v := by
  obtain ⟨ir, h⟩ := exists_compile "begin writeln(-1) end." "t" (by cbv)
  exact ⟨ir, h, compile_numbers h⟩

/-- A constant can be the least number of 32 bits; the size that is taken from zero is no number of
32 bits. -/
theorem compile_least :
    ∃ ir, compile "const m=-2147483647-1;var x:integer;begin x:=m end." "t" = .ok ir ∧
      ∃ f ∈ ir.functions, ∃ i ∈ f.body, ∃ v, .int v ∈ i.operands ∧
        ¬ (-2147483648 ≤ v.toInt ∧ v.toInt ≤ 2147483647) := by
  have hcompile : compile "const m=-2147483647-1;var x:integer;begin x:=m end." "t" =
      .ok ⟨[], [.variable "global_x" .i32], [⟨"main", .i32, [],
        [.binary "s1-46" .sub .i32 (.int 0) (.int 2147483648),
          .store .i32 (.local "s1-46") (.global "global_x"), .ret (some (.i32, .int 0))]⟩]⟩ := by
    cbv
  have hoperand : .int 2147483648 ∈ Ir.Instr.operands
      (.binary "s1-46" .sub .i32 (.int 0) (.int 2147483648)) := by simp [Ir.Instr.operands]
  exact ⟨_, hcompile, _, List.mem_cons_self, _, List.mem_cons_self, 2147483648, hoperand,
    by decide⟩

end Program

end MiniPascal
