import Mathlib.Computability.Language
import MiniPascal.Token.Lexeme

namespace MiniPascal.Token

open Computability

/-- One character with the given property. -/
def one (p : Char → Bool) : Language Char := {w | ∃ c, p c = true ∧ w = [c]}

/-- One or more characters with the given property. -/
def many (p : Char → Bool) : Language Char := one p * (one p)∗

/-- The marks of an exponent. -/
def isExponentMark (c : Char) : Bool := c = 'e' || c = 'E'

/-- The signs of an exponent. -/
def isSign (c : Char) : Bool := c = '+' || c = '-'

/-! ### The classes of lexemes -/

/-- Identifiers and keywords. -/
def words : Language Char := one isWordStart * (one isWordPart)∗

def integers : Language Char :=
  many Char.isDigit + {['$']} * many isHexDigit + {['&']} * many isOctalDigit +
    {['%']} * many isBinaryDigit

/-- Digits with a point between them. -/
def fractions : Language Char := many Char.isDigit * ({['.']} * many Char.isDigit)

/-- What stands in front of an exponent. -/
def mantissas : Language Char := many Char.isDigit * (1 + {['.']} * many Char.isDigit)

/-- Numbers with an exponent. -/
def scientifics : Language Char :=
  mantissas * one isExponentMark * (1 + one isSign) * many Char.isDigit

def doubles : Language Char := fractions + scientifics

/-- The insides of strings. -/
def quotes : Language Char := (one (· ≠ '\'') + {['\'', '\'']})∗

def strings : Language Char := {['\'']} * quotes * {['\'']}

def comments : Language Char :=
  {['/', '/']} * (one (· ≠ '\n'))∗ + {['\x7b']} * (one (· ≠ '\x7d'))∗ * {['\x7d']}

def symbols : Language Char := {w | ∃ s : Symbol, s.chars = w}

/-- All lexemes. -/
def lexemes : Language Char := words + integers + doubles + strings + comments + symbols

/-- A beginning of some text of the language. -/
def Begins (l : Language Char) (w : List Char) : Prop := ∃ v, w ++ v ∈ l

/-- The longest beginning of a text with which some lexeme begins. -/
structure Longest (text w : List Char) : Prop where
  append : ∃ rest, w ++ rest = text
  begins : Begins lexemes w
  maximal : ∀ u v, u ++ v = text → Begins lexemes u → u.length ≤ w.length

/-! ### Membership -/

variable {p : Char → Bool} {l m : Language Char} {v w : List Char} {c : Char}

theorem mem_one_of (hc : p c = true) : [c] ∈ one p := ⟨c, hc, rfl⟩

theorem mem_star_one : w ∈ (one p)∗ ↔ ∀ c ∈ w, p c = true := by
  constructor
  · intro h
    obtain ⟨ws, rfl, hws⟩ := Language.mem_kstar.1 h
    intro c hc
    obtain ⟨u, hu, hc⟩ := List.mem_flatten.1 hc
    obtain ⟨d, hd, rfl⟩ := hws u hu
    rw [List.mem_singleton.1 hc]
    exact hd
  · intro h
    refine Language.mem_kstar.2 ⟨w.map fun c => [c], (List.flatMap_singleton' w).symm, ?_⟩
    intro u hu
    obtain ⟨c, hc, rfl⟩ := List.mem_map.1 hu
    exact mem_one_of (h c hc)

theorem mem_many : w ∈ many p ↔ w ≠ [] ∧ ∀ c ∈ w, p c = true := by
  constructor
  · intro h
    obtain ⟨_, ⟨c, hc, rfl⟩, v, hv, rfl⟩ := Language.mem_mul.1 h
    refine ⟨List.cons_ne_nil c v, ?_⟩
    exact List.forall_mem_cons.2 ⟨hc, mem_star_one.1 hv⟩
  · rintro ⟨hne, h⟩
    obtain ⟨c, v, rfl⟩ := List.exists_cons_of_ne_nil hne
    obtain ⟨hc, hv⟩ := List.forall_mem_cons.1 h
    exact Language.append_mem_mul (mem_one_of hc) (mem_star_one.2 hv)

theorem mem_words : w ∈ words ↔ ∃ c v, w = c :: v ∧ isWordStart c = true ∧
    ∀ d ∈ v, isWordPart d = true := by
  constructor
  · intro h
    obtain ⟨_, ⟨c, hc, rfl⟩, v, hv, rfl⟩ := Language.mem_mul.1 h
    exact ⟨c, v, rfl, hc, mem_star_one.1 hv⟩
  · rintro ⟨c, v, rfl, hc, hv⟩
    exact Language.append_mem_mul (mem_one_of hc) (mem_star_one.2 hv)

theorem snoc_mem_star (hv : v ∈ l∗) (hw : w ∈ l) : v ++ w ∈ l∗ :=
  Set.mem_of_mem_of_subset (Language.append_mem_mul hv hw) (kstar_mul_le_kstar (a := l))

theorem snoc_mem_many (hv : v ∈ many p) (hc : p c = true) : v ++ [c] ∈ many p := by
  obtain ⟨-, hv⟩ := mem_many.1 hv
  refine mem_many.2 ⟨List.append_ne_nil_of_right_ne_nil v (List.cons_ne_nil c []), ?_⟩
  exact List.forall_mem_append.2 ⟨hv, List.forall_mem_singleton.2 hc⟩

theorem one_mem_many (hc : p c = true) : [c] ∈ many p :=
  mem_many.2 ⟨List.cons_ne_nil c [], List.forall_mem_singleton.2 hc⟩

/-- A character behind the second factor of a product. -/
theorem snoc_mem_mul {m' : Language Char} (hv : v ∈ l * m)
    (h : ∀ u ∈ m, u ++ [c] ∈ m') : v ++ [c] ∈ l * m' := by
  obtain ⟨a, ha, b, hb, rfl⟩ := Language.mem_mul.1 hv
  rw [List.append_assoc]
  exact Language.append_mem_mul ha (h b hb)

theorem mem_mul_of_nil (hv : v ∈ l) (hm : [] ∈ m) : v ∈ l * m := by
  have h := Language.append_mem_mul hv hm
  rwa [List.append_nil] at h

theorem many_le_mantissas (hv : v ∈ many Char.isDigit) : v ∈ mantissas :=
  mem_mul_of_nil hv (.inl rfl)

theorem fractions_le_mantissas (hv : v ∈ fractions) : v ∈ mantissas := by
  obtain ⟨a, ha, b, hb, rfl⟩ := Language.mem_mul.1 hv
  exact Language.append_mem_mul ha (.inr hb)

end MiniPascal.Token
