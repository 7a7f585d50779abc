import Mathlib
import MiniPascal.Proofs.Checked.Parts
import MiniPascal.Proofs.Reading.Regular

/-! Types in programs that are read are well formed, wherever they occur. -/

namespace MiniPascal

variable {N : Nat}

/-- Declarations whose types are regular, and whose statements obey the rules for such types, are
made of regular parts. -/
theorem Declaration.Meets.parts {d : Declaration}
    (h : d.Meets (Ty.Regular N) fun ss => ∀ st ∈ ss, st.Regular N) :
    ∀ x ∈ d.parts, x.Regular N := by
  induction h with
  | var ht | type ht =>
    rw [Declaration.parts]
    exact ht.parts
  | const hv =>
    obtain ⟨c, p, -, rfl⟩ := hv
    rw [Declaration.parts]
    exact Expr.ofConstant_parts c p
  | @routine r _ hr _ hs ihp ihd =>
    obtain ⟨_, _, ⟨params⟩, returns, body, _⟩ := r
    have hheading : ∀ x ∈ partsOfEntries params ++ Ty.partsOfAll returns.toList, x.Regular N := by
      refine List.forall_mem_append.2 ⟨partsOfEntries_regular ihp, ?_⟩
      exact Ty.partsOfAll_regular fun t ht => hr t (Option.mem_toList.1 ht)
    rcases body with _ | ⟨⟨entries⟩, ss⟩
    · rw [Declaration.parts, Routine.parts]
      exact hheading
    · rw [Declaration.parts, Routine.parts]
      refine List.forall_mem_append.2 ⟨List.forall_mem_append.2 ⟨hheading, ?_⟩, ?_⟩
      · exact partsOfEntries_regular (ihd _ rfl)
      · exact Stmt.partsOfAll_regular fun st hst => (hs _ rfl st hst).parts

theorem Program.Meets.parts {p : Program}
    (h : p.Meets (Ty.Regular N) fun ss => ∀ st ∈ ss, st.Regular N) :
    ∀ x ∈ p.parts, x.Regular N := by
  refine List.forall_mem_append.2 ⟨?_, ?_⟩
  · exact partsOfEntries_regular fun e he => (h.scope e he).parts
  · exact Stmt.partsOfAll_regular fun st hst => (h.statements st hst).parts

/-- An integer literal, possibly with a minus sign in front, and the number that it stands for. -/
inductive Expr.IsLiteral : Expr → Int → Prop
  | plain {p : Position} {v : UInt64} : IsLiteral (int p v) v.toNat
  | negated {p q : Position} {v : UInt64} :
    IsLiteral (unary p .integer .minus (int q v)) (-v.toNat)

theorem Expr.ofConstant_isLiteral {n : Int64} (h : Grammar.fitsWord n = true) (p : Position) :
    (ofConstant (.int n) p).IsLiteral n.toInt := by
  rcases word_cases h with ⟨k, hk, hn, he, hu⟩ | ⟨k, hk, hn, he, hu⟩
  · have hvalue : ((UInt64.ofNat k).toNat : Int) = n.toInt := by
      rw [toNat_ofNat_word (by omega), he, Int64.toInt_ofNat_of_lt (by omega)]
    rw [ofConstant, if_neg hn, hu, ← hvalue]
    exact .plain
  · have hvalue : (-(UInt64.ofNat k).toNat : Int) = n.toInt := by
      rw [toNat_ofNat_word hk, he, Int64.toInt_neg_ofNat_of_le (by omega)]
    rw [ofConstant, if_pos hn, hu, ← hvalue]
    exact .negated

/-- The types and expressions of a program that has been read are well formed, wherever they occur:
the bounds of an array are literals of 32 bits in order, and its length is what they say; the names
of a record's fields differ; and a field is selected by the place of its name in the type of its
record. -/
theorem Program.ofText_parts {text name : String} {p : Program} (h : ofText text name = .ok p) :
    (∀ low high element, .type (.array low high element) ∈ p.parts →
      ∃ (l k : Int) (n : UInt64), low.IsLiteral l ∧ high.IsLiteral k ∧
        -2147483648 ≤ l ∧ l ≤ k ∧ k ≤ 2147483647 ∧
        (Ty.array low high element).length? = some n ∧ (n.toNat : Int) = k - l + 1 ∧
        1 ≤ n.toNat ∧ n.toNat ≤ 4294967296) ∧
    (∀ fields, .type (.record fields) ∈ p.parts →
      (fields.map fun f => f.1.canonical).Nodup) ∧
    ∀ pos t r n slot, .expr (.field pos t r n slot) ∈ p.parts →
      ∃ fields m, r.type = .record fields ∧ fields[slot]? = some (m, t) ∧
        m.canonical = n.canonical := by
  have hparts := (ofText_regular h).parts
  refine ⟨?_, ?_, ?_⟩
  · intro low high element hmem
    have hregular : (Ty.array low high element).Regular text.length := hparts _ hmem
    have hwellFormed := hregular.wellFormed
    rw [Ty.WellFormed] at hwellFormed
    obtain ⟨⟨l, k, p, q, rfl, rfl, hl, hk, hle⟩, -⟩ := hwellFormed
    have hlength : (Ty.array (.ofConstant (.int l) p) (.ofConstant (.int k) q) element).length? =
        some (k - l + 1).toUInt64 := by
      simp only [Ty.length?, Ty.bounds, Expr.asConstant_ofConstant hl,
        Expr.asConstant_ofConstant hk]
      rfl
    -- 64 bits hold the length, which is positive
    have hcount := toNat_toUInt64 (k - l + 1)
    rw [toInt_length_word hl hk, if_neg (by omega)] at hcount
    have hl32 := (Grammar.fitsWord_iff l).1 hl
    have hk32 := (Grammar.fitsWord_iff k).1 hk
    exact ⟨l.toInt, k.toInt, _, Expr.ofConstant_isLiteral hl p, Expr.ofConstant_isLiteral hk q,
      hl32.1, hle, hk32.2, hlength, hcount, by omega, by omega⟩
  · intro fields hmem
    have hregular : (Ty.record fields).Regular text.length := hparts _ hmem
    exact hregular.nodup
  · intro pos t r n slot hmem
    exact hparts _ hmem

/-- A field of a record in an array whose lower bound is negative. -/
theorem Program.ofText_parts_selection : ∃ p,
    ofText "var g: array[-1..1] of record a: double end; begin g[0].a := 1 end." "" = .ok p ∧
    (p.parts.any fun x => match x with
      | .expr (.field ..) => true
      | _ => false) = true ∧
    (∀ low high element, .type (.array low high element) ∈ p.parts →
      ∃ (l k : Int) (n : UInt64), low.IsLiteral l ∧ high.IsLiteral k ∧
        -2147483648 ≤ l ∧ l ≤ k ∧ k ≤ 2147483647 ∧
        (Ty.array low high element).length? = some n ∧ (n.toNat : Int) = k - l + 1 ∧
        1 ≤ n.toNat ∧ n.toNat ≤ 4294967296) ∧
    (∀ fields, .type (.record fields) ∈ p.parts →
      (fields.map fun f => f.1.canonical).Nodup) ∧
    ∀ pos t r n slot, .expr (.field pos t r n slot) ∈ p.parts →
      ∃ fields m, r.type = .record fields ∧ fields[slot]? = some (m, t) ∧
        m.canonical = n.canonical := by
  obtain ⟨p, hp, hfield⟩ := @exists_ofText
    "var g: array[-1..1] of record a: double end; begin g[0].a := 1 end." ""
    (fun p => p.parts.any fun x => match x with
      | .expr (.field ..) => true
      | _ => false) (by cbv)
  exact ⟨p, hp, hfield, ofText_parts hp⟩

end MiniPascal
