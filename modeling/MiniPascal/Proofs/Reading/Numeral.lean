import MiniPascal.Grammar.Program
import MiniPascal.Proofs.Printing.Expression
import MiniPascal.Proofs.Token.Numeral

/-! Integers where an expression is expected: an expression takes 31 bits of an integer and a token
64, so there are two limits. -/

namespace MiniPascal

open Grammar Token Cursor Read

namespace Grammar

/-- What a rule reads from the start of a text on, and the cursor behind it. -/
def readText {α : Type} (rule : (c : Cursor) → Read (Taken c α)) (p : Position) (text : List Char)
    (stop : Position) : Read (α × Cursor) := do
  let c ← onText p text stop
  let t ← rule c
  return (t.value, t.rest)

variable {α : Type} {rule : (c : Cursor) → Read (Taken c α)} {s : Scopes} {c d : Cursor} {e : Expr}
  {fault : Located Fault} {p stop : Position} {text : List Char} {n : Nat} {l : Precedence}

theorem readText_ok {v : α} (hc : onText p text stop = .ok c)
    (h : Succeeds (rule c) (·.Is v d)) : readText rule p text stop = .ok (v, d) := by
  obtain ⟨_, ht, hlt, rfl⟩ := h
  rw [readText, hc]
  show (rule c >>= fun t => pure (t.value, t.rest)) = _
  rw [ht]
  rfl

theorem readText_error (hc : onText p text stop = .ok c) (h : rule c = .error fault) :
    readText rule p text stop = .error fault := by
  rw [readText, hc]
  show (rule c >>= fun t => pure (t.value, t.rest)) = _
  rw [h]
  rfl

theorem readText_fault (h : onText p text stop = .error fault) :
    readText rule p text stop = .error fault := by
  rw [readText, h]
  rfl

/-! ### Numbers -/

theorem number_ok (hkind : c.current.kind = .integer) (hn : c.current.literal = .integer n)
    (hle : n ≤ literalLimit) (hd : c.advance = .ok d) :
    Succeeds (number c) (·.Is (.int c.current.position (UInt64.ofNat n)) d) := by
  have hliteral : literal c.current = .ok (.int c.current.position (UInt64.ofNat n)) := by
    rw [literal, hn]
    exact if_pos hle
  unfold number
  apply Succeeds.bind (expect_of_advance (by simp [hkind]) hd)
  rintro _ ⟨hlt, rfl⟩
  simp only [hliteral]
  exact .pure ⟨_, rfl⟩

theorem number_overflow (hkind : c.current.kind = .integer)
    (hn : c.current.literal = .integer n) (hlt : literalLimit < n) (hd : c.advance = .ok d) :
    number c = .error ⟨c.current.position, .lexical (.integerOverflow c.current.text)⟩ := by
  have hliteral : literal c.current =
      .error ⟨c.current.position, .lexical (.integerOverflow c.current.text)⟩ := by
    rw [literal, hn]
    exact if_neg (Nat.not_le_of_lt hlt)
  obtain ⟨_, hexpect, hrest, rfl⟩ := expect_of_advance (c := c) (by simp [hkind]) hd
  rw [number, hexpect]
  show (literal c.current >>= fun e => pure _) = _
  rw [hliteral]
  rfl

theorem number_fault (hkind : c.current.kind = .integer) (h : c.advance = .error fault) :
    number c = .error fault := by
  rw [number, expect_fault (by simp [hkind]) h]
  rfl

theorem primary_eq_number (hkind : c.current.kind = .integer) : primary s c = number c := by
  unfold primary
  simp only [hkind]

theorem unary_eq_primary (hkind : c.current.kind = .integer) : unary s c = primary s c := by
  unfold unary
  rw [accept_none (by rw [hkind]; rfl)]
  rfl

/-! ### Levels of operators -/

/-- What holds of the reading of a first operand, and is kept by the rule of each level, holds of
the reading of the expression. -/
theorem expression_of_levels {P : Read (Taken c Expr) → Prop} (hunary : P (unary s c))
    (hlevel : ∀ l, P (operand s l c) → P (operation s l c)) : P (expression s c) :=
  expression_of_operation (hlevel .relational (operand_of_levels hunary hlevel _)) hlevel

/-- What is read first and no operator goes on with is all of the expression. -/
theorem expression_of_unary (h : Succeeds (unary s c) (·.Is e d))
    (hd : ∀ l : Precedence, l.operator? d.current.kind = none) :
    Succeeds (expression s c) (·.Is e d) := by
  refine expression_of_levels (P := fun r => Succeeds r (·.Is e d)) h ?_
  intro l hoperand
  exact continues_of_operand hoperand e d (operations_none (hd l))

/-- A fault in what is read first is a fault of the expression. -/
theorem expression_fault (h : unary s c = .error fault) : expression s c = .error fault :=
  expression_error (operation_error (operand_error h .relational))

end Grammar

/-! ### Numerals -/

namespace Token

variable {b : Base} {ds rest : List Char} {n : Nat} {p stop : Position} {s : Scopes} {d : Cursor}
  {fault : Located Fault}

/-- Going on behind a token leads to the cursor in front of what follows it. -/
theorem advance_onText (t : Token) :
    advance ⟨t, scanFrom false p rest, stop⟩ = onText p rest stop := by
  unfold onText advance
  cases scanFrom false p rest with
  | nil => rfl
  | cons r rs => cases r <;> rfl

theorem onText_numeral (hne : ds ≠ []) (hds : Denotes b.radix ds n) (hrest : b.Ends rest)
    (hlt : n < UInt64.size) : onText p (b.numeral ds ++ rest) stop =
      .ok ⟨ofNumeral b p ds n, scanFrom false (p.afterAll (b.numeral ds)) rest, stop⟩ := by
  rw [onText, scanFrom_numeral hne hds hrest, numeralResult_of_lt hlt]
  rfl

theorem onText_overflow (hne : ds ≠ []) (hds : Denotes b.radix ds n) (hrest : b.Ends rest)
    (hle : UInt64.size ≤ n) : onText p (b.numeral ds ++ rest) stop =
      .error ⟨p, .lexical (.integerOverflow (String.ofList ds))⟩ := by
  rw [onText, scanFrom_numeral hne hds hrest, numeralResult_of_le hle]
  rfl

/-- Where the next token can be fetched, the limit of expressions decides. -/
theorem readText_numeral (hne : ds ≠ []) (hds : Denotes b.radix ds n) (hrest : b.Ends rest)
    (hlt : n < UInt64.size) (hd : onText (p.afterAll (b.numeral ds)) rest stop = .ok d) :
    (n ≤ literalLimit →
      readText (primary s) p (b.numeral ds ++ rest) stop = .ok (.int p (UInt64.ofNat n), d) ∧
      ((∀ l : Precedence, l.operator? d.current.kind = none) →
        readText (expression s) p (b.numeral ds ++ rest) stop =
          .ok (.int p (UInt64.ofNat n), d))) ∧
    (literalLimit < n → readText (expression s) p (b.numeral ds ++ rest) stop =
      .error ⟨p, .lexical (.integerOverflow (String.ofList (b.numeral ds)))⟩) := by
  -- `c` is the cursor on the numeral
  obtain ⟨c, hc⟩ : ∃ c : Cursor,
      c = ⟨ofNumeral b p ds n, scanFrom false (p.afterAll (b.numeral ds)) rest, stop⟩ := ⟨_, rfl⟩
  have htext : onText p (b.numeral ds ++ rest) stop = .ok c := by
    rw [hc]
    exact onText_numeral hne hds hrest hlt
  have hnext : c.advance = .ok d := by rw [hc, advance_onText, hd]
  have hkind : c.current.kind = .integer := by rw [hc]; rfl
  have hliteral : c.current.literal = .integer n := by rw [hc]; rfl
  have hposition : c.current.position = p := by rw [hc]; rfl
  constructor
  · intro hle
    have hnumber := number_ok hkind hliteral hle hnext
    rw [hposition, ← primary_eq_number (s := s) hkind] at hnumber
    refine ⟨readText_ok htext hnumber, fun hoperator => ?_⟩
    rw [← unary_eq_primary hkind] at hnumber
    exact readText_ok htext (expression_of_unary hnumber hoperator)
  · intro hlarge
    have hnumber := number_overflow hkind hliteral hlarge hnext
    have hspelling : c.current.text = String.ofList (b.numeral ds) := by rw [hc]; rfl
    rw [hposition, hspelling, ← primary_eq_number (s := s) hkind,
      ← unary_eq_primary hkind] at hnumber
    exact readText_error htext (expression_fault hnumber)

/-- Where the next token cannot be fetched, its fault comes first. -/
theorem readText_numeral_fault (hne : ds ≠ []) (hds : Denotes b.radix ds n) (hrest : b.Ends rest)
    (hlt : n < UInt64.size) (h : onText (p.afterAll (b.numeral ds)) rest stop = .error fault) :
    readText (expression s) p (b.numeral ds ++ rest) stop = .error fault := by
  apply readText_error (onText_numeral hne hds hrest hlt)
  apply expression_fault
  rw [unary_eq_primary rfl, primary_eq_number rfl]
  apply number_fault rfl
  rw [advance_onText, h]

/-- A numeral in front of a text that does not go on with it is one token, whose value is its number
in decimal notation, or an overflow at its place if the number takes more than 64 bits. Where an
expression is expected, an overflow of the token is the fault. Else, if what follows the numeral
starts with a lexical error, this is the fault; and if not, the literal of the number is read
exactly if the number is at most 2147483647, and otherwise the fault is an overflow at the place of
the numeral. -/
theorem numeral_value (b : Base) (ds rest : List Char) (n : Nat) (hne : ds ≠ [])
    (hds : Denotes b.radix ds n) (hrest : b.Ends rest) :
    (∀ keep p,
      (n < 2 ^ 64 → ∃ t,
        scanFrom keep p (b.numeral ds ++ rest) =
          .ok t :: scanFrom keep (p.afterAll (b.numeral ds)) rest ∧
        t.position = p ∧ t.kind = .integer ∧ t.text = String.ofList (b.numeral ds) ∧
        t.value = toString n) ∧
      (2 ^ 64 ≤ n → scanFrom keep p (b.numeral ds ++ rest) =
        .error ⟨p, .integerOverflow (String.ofList ds)⟩ ::
          scanFrom keep (p.afterAll (b.numeral ds)) rest)) ∧
    ∀ s p stop,
      (2 ^ 64 ≤ n → readText (expression s) p (b.numeral ds ++ rest) stop =
        .error ⟨p, .lexical (.integerOverflow (String.ofList ds))⟩) ∧
      (n < 2 ^ 64 → ∀ fault, onText (p.afterAll (b.numeral ds)) rest stop = .error fault →
        readText (expression s) p (b.numeral ds ++ rest) stop = .error fault) ∧
      (n < 2 ^ 64 → ∀ d, onText (p.afterAll (b.numeral ds)) rest stop = .ok d →
        (n ≤ 2147483647 → ∃ v, v.toNat = n ∧
          readText (primary s) p (b.numeral ds ++ rest) stop = .ok (.int p v, d) ∧
          ((∀ l : Precedence, l.operator? d.current.kind = none) →
            readText (expression s) p (b.numeral ds ++ rest) stop = .ok (.int p v, d))) ∧
        (2147483647 < n → readText (expression s) p (b.numeral ds ++ rest) stop =
          .error ⟨p, .lexical (.integerOverflow (String.ofList (b.numeral ds)))⟩)) := by
  refine ⟨fun keep p => ⟨fun hlt => ?_, fun hle => ?_⟩, fun s p stop => ⟨fun hle => ?_, ?_, ?_⟩⟩
  · -- the token
    refine ⟨ofNumeral b p ds n, ?_, rfl, rfl, rfl, rfl⟩
    rw [scanFrom_numeral hne hds hrest, numeralResult_of_lt hlt]
  · rw [scanFrom_numeral hne hds hrest, numeralResult_of_le hle]
  · -- the expression: an overflow of the token, a fault behind it, or the literal
    exact readText_fault (onText_overflow hne hds hrest hle)
  · exact fun hlt fault => readText_numeral_fault hne hds hrest hlt
  · intro hlt d hd
    obtain ⟨hsmall, hlarge⟩ := readText_numeral (s := s) hne hds hrest hlt hd
    refine ⟨fun hle => ⟨UInt64.ofNat n, ?_, hsmall hle⟩, hlarge⟩
    exact UInt64.toNat_ofNat_of_lt' hlt

/-- Zeros in front of a range. -/
theorem numeral_value_range :
    ['0', '0', '7'] ≠ [] ∧ Denotes 10 ['0', '0', '7'] 7 ∧ Base.decimal.Ends ['.', '.', '9'] ∧
      (∃ t, scanFrom true .start "007..9".toList =
          .ok t :: scanFrom true ⟨1, 4⟩ ['.', '.', '9'] ∧
        t.position = .start ∧ t.kind = .integer ∧ t.text = "007" ∧ t.value = "7") ∧
      ∀ s, ∃ v d, v.toNat = 7 ∧ d.current.text = ".." ∧
        readText (expression s) .start "007..9".toList ⟨1, 7⟩ = .ok (.int .start v, d) := by
  have hds : Denotes 10 ['0', '0', '7'] 7 := ⟨[0, 0, 7], by decide, rfl⟩
  have hrest : Base.decimal.Ends ['.', '.', '9'] := by
    refine ⟨?_, fun _ => by decide, ?_⟩
    · rintro _ ⟨⟩
      decide
    · rintro _ _ _ ⟨⟩
      decide
  obtain ⟨hscan, hread⟩ :=
    numeral_value .decimal ['0', '0', '7'] ['.', '.', '9'] 7 (by decide) hds hrest
  have hnext : onText ⟨1, 4⟩ ['.', '.', '9'] ⟨1, 7⟩ =
      .ok ⟨⟨⟨1, 4⟩, .symbol .doubleDot, "..", .plain⟩,
        [.ok ⟨⟨1, 6⟩, .integer, "9", .integer 9⟩], ⟨1, 7⟩⟩ := by cbv
  refine ⟨by decide, hds, hrest, (hscan true .start).1 (by decide), fun s => ?_⟩
  obtain ⟨v, hv, -, hexpression⟩ :=
    ((hread s .start ⟨1, 7⟩).2.2 (by decide) _ hnext).1 (by decide)
  refine ⟨v, _, hv, rfl, hexpression ?_⟩
  intro l
  cases l <;> rfl

end Token

/-- An unknown symbol behind a numeral hides that the numeral is too large. -/
theorem Program.ofText_numeral_hidden :
    Denotes 10 "2147483648".toList 2147483648 ∧ Base.decimal.Ends "#) end.".toList ∧
      ofText "begin write(2147483648#) end." "t" =
        .error ⟨⟨1, 23⟩, .lexical (.unknownSymbol '#')⟩ ∧
      ∀ digits, ofText "begin write(2147483648#) end." "t" ≠
        .error ⟨⟨1, 13⟩, .lexical (.integerOverflow digits)⟩ := by
  have hds : Denotes 10 "2147483648".toList 2147483648 :=
    ⟨[2, 1, 4, 7, 4, 8, 3, 6, 4, 8], by decide, rfl⟩
  have hrest : Base.decimal.Ends "#) end.".toList := by
    refine ⟨?_, fun _ => by decide, ?_⟩
    · rintro _ ⟨⟩
      decide
    · rintro _ _ _ ⟨⟩
  have hread : ofText "begin write(2147483648#) end." "t" =
      .error ⟨⟨1, 23⟩, .lexical (.unknownSymbol '#')⟩ := by cbv
  refine ⟨hds, hrest, hread, fun digits h => ?_⟩
  rw [hread] at h
  cases h

end MiniPascal
