import Mathlib.Data.Nat.Digits.Defs
import MiniPascal.Proofs.Recoding.Syntax
import MiniPascal.Proofs.Token.Separators

/-! Integers in every base. -/

namespace MiniPascal.Token

open State

/-! ### Digits and what they denote -/

/-- The character is the digit of a value; letters may be in either case. -/
def IsDigit (c : Char) (v : Nat) : Prop := c = Nat.digitChar v ∨ c = (Nat.digitChar v).toUpper

instance {c : Char} {v : Nat} : Decidable (IsDigit c v) := inferInstanceAs (Decidable (_ ∨ _))

/-- The characters are digits of a base, with any zeros in front, and denote a number. -/
def Denotes (base : Nat) (ds : List Char) (n : Nat) : Prop :=
  ∃ vs, List.Forall₂ (fun c v => v < base ∧ IsDigit c v) ds vs ∧ n = Nat.ofDigits base vs.reverse

/-- The bases of numerals. -/
inductive Base where
  | binary | octal | decimal | hexadecimal
  deriving DecidableEq, Repr

namespace Base

/-- The number of digits. -/
def radix : Base → Nat
  | binary => 2 | octal => 8 | decimal => 10 | hexadecimal => 16

/-- What stands in front of the digits. -/
def mark : Base → List Char
  | binary => ['%'] | octal => ['&'] | decimal => [] | hexadecimal => ['$']

/-- The text of a numeral. -/
def numeral (b : Base) (ds : List Char) : List Char := b.mark ++ ds

/-- The test for digits. -/
def isDigit : Base → Char → Bool
  | binary => isBinaryDigit | octal => isOctalDigit | decimal => Char.isDigit
  | hexadecimal => isHexDigit

/-- The text does not go on with a numeral in front of it: it does not start with a digit, and
behind a decimal numeral neither with the mark of an exponent nor with a point and a digit. -/
structure Ends (b : Base) (rest : List Char) : Prop where
  digit : ∀ c ∈ rest.head?, ∀ v < b.radix, ¬IsDigit c v
  exponent : b = decimal → rest.head? ≠ some 'e' ∧ rest.head? ≠ some 'E'
  point : b = decimal → ∀ c cs, rest = '.' :: c :: cs → ∀ v < 10, ¬IsDigit c v

theorem radix_le (b : Base) : b.radix ≤ 16 := by cases b <;> decide

/-- The test finds the digits of the base. -/
theorem isDigit_iff (b : Base) (c : Char) : b.isDigit c = true ↔ ∃ v < b.radix, IsDigit c v := by
  constructor
  · have hdigit : ∀ b : Base, ∀ n < 128, b.isDigit (Char.ofNat n) = true →
        ∃ v < b.radix, Char.ofNat n = Nat.digitChar v ∨
          Char.ofNat n = (Nat.digitChar v).toUpper := by
      intro b
      cases b <;> decide +kernel
    intro hc
    by_cases hlow : c.toNat < 128
    · have hascii := hdigit b c.toNat hlow
      rw [Char.ofNat_toNat] at hascii
      exact hascii hc
    · have hhigh := high_of_le (Nat.le_of_not_lt hlow)
      cases b <;> simp [isDigit, hhigh.binary, hhigh.octal, hhigh.digit, hhigh.hex] at hc
  · have hchar : ∀ b : Base, ∀ v < b.radix, b.isDigit (Nat.digitChar v) = true ∧
        b.isDigit (Nat.digitChar v).toUpper = true := by
      intro b
      cases b <;> decide
    rintro ⟨v, hv, rfl | rfl⟩
    · exact (hchar b v hv).1
    · exact (hchar b v hv).2

/-- Behind the numeral stands no digit. -/
theorem Ends.isDigit_head {b : Base} {rest : List Char} (h : b.Ends rest) :
    ∀ c ∈ rest.head?, b.isDigit c = false := by
  intro c hc
  rw [Bool.eq_false_iff]
  intro hdigit
  obtain ⟨v, hv, hcv⟩ := (b.isDigit_iff c).1 hdigit
  exact h.digit c hc v hv hcv

end Base

variable {b : Base} {ds rest : List Char} {n : Nat} {keep : Bool} {p : Position}

theorem IsDigit.value_eq {c : Char} {v : Nat} (h : IsDigit c v) (hv : v < 16) :
    digitValue c = v := by
  have hchar : ∀ v < 16, digitValue (Nat.digitChar v) = v ∧
      digitValue (Nat.digitChar v).toUpper = v := by decide
  rcases h with rfl | rfl
  · exact (hchar v hv).1
  · exact (hchar v hv).2

namespace Denotes

theorem isDigit (h : Denotes b.radix ds n) : ∀ d ∈ ds, b.isDigit d = true := by
  obtain ⟨vs, hvs, -⟩ := h
  induction hvs with
  | nil => exact List.forall_mem_nil _
  | cons hd _ ih => exact List.forall_mem_cons.2 ⟨(b.isDigit_iff _).2 ⟨_, hd⟩, ih⟩

/-- Reading the digits from left to right gives the number that they denote. -/
theorem ofDigits_eq (h : Denotes b.radix ds n) : ofDigits b.radix ds = n := by
  obtain ⟨vs, hvs, rfl⟩ := h
  -- `m` is the number that has been read in front of the remaining digits
  have hfold : ∀ m, ds.foldl (fun n d => n * b.radix + digitValue d) m =
      vs.foldl (fun n v => v + b.radix * n) m := by
    induction hvs with
    | nil => exact fun _ => rfl
    | @cons d v ds vs hd _ ih =>
      intro m
      have hvalue : digitValue d = v := hd.2.value_eq (Nat.lt_of_lt_of_le hd.1 b.radix_le)
      have hstep : m * b.radix + digitValue d = v + b.radix * m := by
        rw [hvalue, Nat.mul_comm, Nat.add_comm]
      rw [List.foldl_cons, List.foldl_cons, hstep]
      exact ih _
  rw [ofDigits, hfold, Nat.ofDigits_eq_foldr, List.foldr_reverse]
  rfl

end Denotes

/-! ### Where a numeral ends -/

/-- Behind the digits of a decimal numeral the automaton stops, or it goes on to a point and stops
there, and then gives the point back. -/
theorem stops_decimal (hne : ds ≠ []) (hds : ∀ d ∈ ds, d.isDigit = true)
    (hrest : Base.Ends .decimal rest) :
    ∃ s w more, start.Stops (ds ++ rest) s w more ∧
      accept s w more = some ⟨integer 10 ds, ds, rest⟩ := by
  have hmany : ds ∈ many Char.isDigit := mem_many.2 ⟨hne, hds⟩
  have hdigit : ∀ c ∈ rest.head?, c.isDigit = false := hrest.isDigit_head
  obtain ⟨hlower, hupper⟩ := hrest.exponent rfl
  by_cases hpoint : rest.head? = some '.'
  · -- the point is taken, and no digit follows it
    obtain ⟨cs, rfl⟩ := List.head?_eq_some_iff.1 hpoint
    have hrun : start.run (ds ++ ['.']) = some .integerDot :=
      run_start.2 (Language.append_mem_mul hmany (Set.mem_singleton _))
    have hstuck : ∀ c ∈ cs.head?, State.integerDot.after c = none := by
      intro c hc
      obtain ⟨more, rfl⟩ := List.head?_eq_some_iff.1 hc
      have hnot : c.isDigit = false := by
        rw [Bool.eq_false_iff]
        intro hcd
        obtain ⟨v, hv, hcv⟩ := (Base.isDigit_iff .decimal c).1 hcd
        exact hrest.point rfl c more rfl v hv hcv
      simp [State.after, edges, hnot]
    refine ⟨.integerDot, ds ++ ['.'], cs, ⟨?_, hrun, hstuck⟩, ?_⟩
    · rw [List.append_assoc, List.singleton_append]
    · rw [accept, List.dropLast_concat]
  · -- no point, and no mark of an exponent
    have hrun : start.run ds = some .integer := run_start.2 hmany
    have hstuck : ∀ c ∈ rest.head?, State.integer.after c = none := by
      intro c hc
      have hne : c ≠ '.' ∧ c ≠ 'e' ∧ c ≠ 'E' := by
        refine ⟨?_, ?_, ?_⟩ <;> rintro rfl
        · exact hpoint hc
        · exact hlower hc
        · exact hupper hc
      simp [State.after, edges, isExponentMark, hdigit c hc, hne]
    exact ⟨.integer, ds, rest, ⟨rfl, hrun, hstuck⟩, rfl⟩

/-- Behind a mark the automaton stays in one state as long as there are digits. -/
theorem stops_marked {s : State} {mark : Char} {q : Char → Bool}
    (hreads : s.reads = {[mark]} * many q) (hedges : s.edges = [(q, s)]) (hne : ds ≠ [])
    (hds : ∀ d ∈ ds, q d = true) (hrest : ∀ c ∈ rest.head?, q c = false) :
    start.Stops (mark :: ds ++ rest) s (mark :: ds) rest := by
  have hmem : mark :: ds ∈ s.reads := by
    rw [hreads]
    exact Language.append_mem_mul (Set.mem_singleton [mark]) (mem_many.2 ⟨hne, hds⟩)
  refine ⟨rfl, run_start.2 hmem, ?_⟩
  intro c hc
  simp [State.after, hedges, hrest c hc]

/-- The automaton takes all of a numeral and nothing behind it. -/
theorem stops_numeral (hne : ds ≠ []) (hds : Denotes b.radix ds n) (hrest : b.Ends rest) :
    ∃ s w more, start.Stops (b.numeral ds ++ rest) s w more ∧
      accept s w more = some ⟨integer b.radix ds, b.numeral ds, rest⟩ := by
  have hdigits := hds.isDigit
  have hend := hrest.isDigit_head
  cases b with
  | decimal => exact stops_decimal hne hdigits hrest
  | binary => exact ⟨.binary, _, _, stops_marked rfl rfl hne hdigits hend, rfl⟩
  | octal => exact ⟨.octal, _, _, stops_marked rfl rfl hne hdigits hend, rfl⟩
  | hexadecimal => exact ⟨.hex, _, _, stops_marked rfl rfl hne hdigits hend, rfl⟩

/-- The token of a numeral. -/
def ofNumeral (b : Base) (p : Position) (ds : List Char) (n : Nat) : Token :=
  ⟨p, .integer, String.ofList (b.numeral ds), .integer n⟩

/-- What a numeral is read as. -/
def numeralResult (b : Base) (p : Position) (ds : List Char) (n : Nat) : Result :=
  if n < UInt64.size then .ok (ofNumeral b p ds n)
  else .error ⟨p, .integerOverflow (String.ofList ds)⟩

theorem numeralResult_of_lt (h : n < UInt64.size) :
    numeralResult b p ds n = .ok (ofNumeral b p ds n) :=
  if_pos h

theorem numeralResult_of_le (h : UInt64.size ≤ n) :
    numeralResult b p ds n = .error ⟨p, .integerOverflow (String.ofList ds)⟩ :=
  if_neg (Nat.not_lt_of_le h)

/-- A numeral is one result, wherever it stands. -/
theorem scanFrom_numeral (hne : ds ≠ []) (hds : Denotes b.radix ds n) (hrest : b.Ends rest) :
    scanFrom keep p (b.numeral ds ++ rest) =
      numeralResult b p ds n :: scanFrom keep (p.afterAll (b.numeral ds)) rest := by
  obtain ⟨s, w, more, hstops, haccept⟩ := stops_numeral hne hds hrest
  have hresult : Cut.result? ⟨integer b.radix ds, b.numeral ds, rest⟩ keep p =
      some (numeralResult b p ds n) := by
    rw [integer, hds.ofDigits_eq, numeralResult]
    split
    · rfl
    · rfl
  rw [scanFrom_of_stops hstops haccept, hresult]
  rfl

end MiniPascal.Token
