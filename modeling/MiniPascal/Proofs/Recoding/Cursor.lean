import MiniPascal.Grammar.Cursor
import MiniPascal.Proofs.Recoding.Scope

/-! A cursor hands out the tokens of a recoded text as it does those of the text. -/

namespace MiniPascal

namespace Fault

/-- The parts of the reading that find faults. -/
inductive Phase where
  | lexer | parser | semantic
  deriving DecidableEq, Repr

/-- The kinds of faults. -/
inductive Kind where
  | unknownSymbol | malformedNumber | integerOverflow | unterminated
  | unexpectedSymbol | unexpectedSymbolBefore
  | unknownIdentifier | duplicateDeclaration | unexpectedType | other
  deriving DecidableEq, Repr

def phase : Fault → Phase
  | .unexpected _ | .expected .. => .parser
  | .lexical _ => .lexer
  | .semantic _ => .semantic

def kind : Fault → Kind
  | .unexpected _ => .unexpectedSymbol
  | .expected .. => .unexpectedSymbolBefore
  | .lexical (.unknownSymbol _) => .unknownSymbol
  | .lexical (.malformedNumber _) => .malformedNumber
  | .lexical (.integerOverflow _) => .integerOverflow
  | .lexical .unterminatedString | .lexical .unterminatedComment => .unterminated
  | .semantic (.unknownIdentifier _) => .unknownIdentifier
  | .semantic (.duplicateDeclaration _) => .duplicateDeclaration
  | .semantic (.unexpectedType _) => .unexpectedType
  | .semantic _ => .other

end Fault

theorem Cursor.take_value {c : Cursor} {h : c.current.kind ≠ .endOfFile}
    {t : Taken c Token} (ht : c.take h = .ok t) : t.value = c.current := by
  unfold take at ht
  split at ht
  · cases ht
    rfl
  · cases ht

/-- What is taken is the token in sight, which is of the expected kind. -/
theorem Cursor.expect_value {c : Cursor} {kind : Token.Kind} {t : Taken c Token}
    (ht : c.expect kind = .ok t) :
    t.value = c.current ∧ c.current.kind = kind ∧ kind ≠ .endOfFile := by
  unfold expect at ht
  split at ht
  · cases ht
  · rename_i hend
    split at ht
    · rename_i hkind
      exact ⟨take_value ht, hkind, hkind ▸ hend⟩
    · cases ht

namespace Recoding

variable (ρ : Recoding)

/-! ### Texts -/

theorem text_fixed {s : String} (h : s.toList.all (fun ch => ch.toLower = ch) = true) :
    ρ.text s = s := by
  have hmap : s.toList.map ρ.letter = s.toList := by
    have hid : s.toList.map ρ.letter = s.toList.map id :=
      List.map_congr_left fun ch hch => ρ.fixed ch (of_decide_eq_true (List.all_eq_true.1 h ch hch))
    rw [hid, List.map_id]
  rw [text, hmap, String.ofList_toList]

@[simp] theorem text_append (s t : String) : ρ.text (s ++ t) = ρ.text s ++ ρ.text t := by
  simp [text]

@[simp] theorem text_quoted (s : String) : ρ.text (quoted s) = quoted (ρ.text s) := by
  have hquote : ρ.text "`" = "`" := ρ.text_fixed (by decide)
  simp only [quoted, text_append, hquote]

theorem text_repr (n : Nat) : ρ.text (toString n) = toString n := by
  refine ρ.text_fixed (List.all_eq_true.2 fun ch hch => decide_eq_true ?_)
  rw [Nat.toString_eq_repr, Nat.toList_repr] at hch
  exact toLower_of_isDigit ch (Nat.isDigit_of_mem_toDigits (by decide) (by decide) hch)

theorem text_toString (n : Int) : ρ.text (toString n) = toString n := by
  cases n with
  | ofNat n => exact ρ.text_repr n
  | negSucc n =>
    have hminus : ρ.text "-" = "-" := ρ.text_fixed (by decide)
    show ρ.text ("-" ++ toString (n + 1)) = "-" ++ toString (n + 1)
    rw [text_append, hminus, text_repr]

/-! ### Faults -/

def lexError : LexError → LexError
  | .unknownSymbol ch => .unknownSymbol (ρ.letter ch)
  | .malformedNumber s => .malformedNumber (ρ.text s)
  | .integerOverflow digits => .integerOverflow (ρ.text digits)
  | .unterminatedString => .unterminatedString
  | .unterminatedComment => .unterminatedComment

def fault : Fault → Fault
  | .unexpected found => .unexpected (ρ.text found)
  | .expected kind found => .expected kind (ρ.text found)
  | .lexical e => .lexical (ρ.lexError e)
  | .semantic e => .semantic (ρ.semanticError e)

@[simp] theorem phase_fault (f : Fault) : (ρ.fault f).phase = f.phase := by cases f <;> rfl

@[simp] theorem kind_fault (f : Fault) : (ρ.fault f).kind = f.kind := by
  rcases f with found | ⟨kind, found⟩ | e | e
  · rfl
  · rfl
  · cases e <;> rfl
  · cases e <;> rfl

/-- The result of reading, recoded. -/
def read {α β : Type} (f : α → β) : Read α → Read β
  | .ok a => .ok (f a)
  | .error e => .error (ρ.located ρ.fault e)

/-- The second reading goes as the first does. -/
def Recodes {α β : Type} (f : α → β) (x : Read α) (x' : Read β) : Prop := x' = ρ.read f x

namespace Recodes

variable {ρ} {α β γ δ : Type} {f : α → β}

theorem ok {a : α} {b : β} (h : b = f a) : ρ.Recodes f (.ok a) (.ok b) := congrArg Except.ok h

theorem pure {a : α} {b : β} (h : b = f a) : ρ.Recodes f (Pure.pure a) (Pure.pure b) := ok h

theorem error {e e' : Located Fault} (h : e' = ρ.located ρ.fault e) :
    ρ.Recodes f (.error e) (.error e') := congrArg Except.error h

/-- Two steps in a row, where the second may use that the first has given its result. -/
theorem bind_of_ok {g : γ → δ} {x : Read α} {x' : Read β} {k : α → Read γ} {k' : β → Read δ}
    (hx : ρ.Recodes f x x') (hk : ∀ a, x = .ok a → ρ.Recodes g (k a) (k' (f a))) :
    ρ.Recodes g (x >>= k) (x' >>= k') := by
  subst hx
  cases x with
  | error e => rfl
  | ok a => exact hk a rfl

theorem bind {g : γ → δ} {x : Read α} {x' : Read β} {k : α → Read γ} {k' : β → Read δ}
    (hx : ρ.Recodes f x x') (hk : ∀ a, ρ.Recodes g (k a) (k' (f a))) :
    ρ.Recodes g (x >>= k) (x' >>= k') := bind_of_ok hx fun a _ => hk a

theorem checked {r : Checked α} {r' : Checked β} (h : r' = ρ.checked f r) :
    ρ.Recodes f (Read.checked r) (Read.checked r') := by
  subst h
  cases r <;> rfl

/-- What the second reading gives comes from what the first gives. -/
theorem exists_of_ok {x : Read α} {x' : Read β} {b : β} (h : ρ.Recodes f x x') (hb : x' = .ok b) :
    ∃ a, x = .ok a ∧ f a = b := by
  rw [Recodes, hb] at h
  cases x with
  | error e => cases h
  | ok a => exact ⟨a, rfl, (Except.ok.inj h).symm⟩

end Recodes

/-! ### Cursors -/

/-- A token, recoded. The content of a string stays, and so does the end of the text. -/
def token (t : Token) : Token :=
  ⟨ρ.position t.position, t.kind, if t.kind = .endOfFile then t.text else ρ.text t.text,
    if t.kind = .string then .string t.value else t.literal⟩

/-- A token or an error in its place, recoded. -/
def result : Token.Result → Token.Result
  | .ok t => .ok (ρ.token t)
  | .error e => .error (ρ.located ρ.lexError e)

def cursor (c : Cursor) : Cursor :=
  ⟨ρ.token c.current, c.pending.map ρ.result, ρ.position c.stop⟩

@[simp] theorem kind_cursor (c : Cursor) : (ρ.cursor c).current.kind = c.current.kind := rfl

@[simp] theorem position_cursor (c : Cursor) :
    (ρ.cursor c).current.position = ρ.position c.current.position := rfl

@[simp] theorem size_cursor (c : Cursor) : (ρ.cursor c).size = c.size := by
  simp only [Cursor.size, kind_cursor]
  simp only [cursor, List.length_map]

@[simp] theorem sees_cursor (c : Cursor) (s : Symbol) : (ρ.cursor c).sees s = c.sees s := rfl

@[simp] theorem seesKeyword_cursor (c : Cursor) (k : Keyword) :
    (ρ.cursor c).seesKeyword k = c.seesKeyword k := rfl

theorem token_endOfFile (p : Position) : ρ.token (.endOfFile p) = .endOfFile (ρ.position p) := by
  simp [token, Token.endOfFile]

theorem describe_token (t : Token) : (ρ.token t).describe = ρ.text t.describe := by
  have hend : ρ.text "end of file" = "end of file" := ρ.text_fixed (by decide)
  simp only [Token.describe, token]
  split
  · exact hend.symm
  · exact (ρ.text_quoted t.text).symm

theorem text_token {t : Token} (h : t.kind ≠ .endOfFile) : (ρ.token t).text = ρ.text t.text :=
  if_neg h

theorem value_token {t : Token} (h : t.kind = .string) : (ρ.token t).value = t.value := by
  simp only [token, h, if_true, Token.value]

section

variable {c : Cursor} {α β : Type}

/-- What has been taken, recoded. -/
def taken (f : α → β) (t : Cursor.Taken c α) : Cursor.Taken (ρ.cursor c) β :=
  ⟨f t.value, ρ.cursor t.rest, by simpa only [size_cursor] using t.lt⟩

/-- What has been passed, recoded. -/
def passed (f : α → β) (t : Cursor.Passed c α) : Cursor.Passed (ρ.cursor c) β :=
  ⟨f t.value, ρ.cursor t.rest, by simpa only [size_cursor] using t.le⟩

variable {ρ} {f : α → β}

theorem Recodes.pure_taken {t : Cursor.Taken c α} {u : Cursor.Taken (ρ.cursor c) β}
    (hvalue : u.value = f t.value) (hrest : u.rest = ρ.cursor t.rest) :
    ρ.Recodes (ρ.taken f) (Pure.pure t) (Pure.pure u) := by
  obtain ⟨value, rest, lt⟩ := u
  subst hvalue hrest
  exact .pure rfl

theorem Recodes.pure_passed {t : Cursor.Passed c α} {u : Cursor.Passed (ρ.cursor c) β}
    (hvalue : u.value = f t.value) (hrest : u.rest = ρ.cursor t.rest) :
    ρ.Recodes (ρ.passed f) (Pure.pure t) (Pure.pure u) := by
  obtain ⟨value, rest, le⟩ := u
  subst hvalue hrest
  exact .pure rfl

end

variable (c : Cursor)

theorem advance_cursor : ρ.Recodes ρ.cursor c.advance (ρ.cursor c).advance := by
  obtain ⟨current, pending, stop⟩ := c
  cases pending with
  | nil =>
    refine .ok ?_
    simp only [cursor, token_endOfFile]
  | cons r rest =>
    cases r with
    | ok t => exact .ok rfl
    | error e => exact .error rfl

theorem take_cursor (h : c.current.kind ≠ .endOfFile) :
    ρ.Recodes (ρ.taken ρ.token) (c.take h) ((ρ.cursor c).take h) := by
  have hadvance := ρ.advance_cursor c
  unfold Cursor.take
  split
  · rename_i d hd
    rw [hd] at hadvance
    split
    · rename_i d' hd'
      refine .ok ?_
      have hrest : d' = ρ.cursor d := by
        rw [Recodes, hd'] at hadvance
        exact Except.ok.inj hadvance
      subst hrest
      rfl
    · rename_i e he
      rw [Recodes, he] at hadvance
      cases hadvance
  · rename_i e he
    rw [he] at hadvance
    split
    · rename_i d' hd'
      rw [Recodes, hd'] at hadvance
      cases hadvance
    · rename_i e' he'
      rw [Recodes, he'] at hadvance
      exact .error (Except.error.inj hadvance)

theorem missing_cursor {α β : Type} {f : α → β} (kind : Token.Kind) :
    ρ.Recodes f (c.missing kind) ((ρ.cursor c).missing kind) := by
  refine .error ?_
  simp only [located, fault, position_cursor, ← describe_token]
  rfl

theorem unexpected_cursor {α β : Type} {f : α → β} :
    ρ.Recodes f c.unexpected (ρ.cursor c).unexpected := by
  refine .error ?_
  simp only [located, fault, position_cursor, ← describe_token]
  rfl

theorem expect_cursor (kind : Token.Kind) :
    ρ.Recodes (ρ.taken ρ.token) (c.expect kind) ((ρ.cursor c).expect kind) := by
  have hkind := ρ.kind_cursor c
  unfold Cursor.expect
  by_cases hend : c.current.kind = .endOfFile
  · rw [dif_pos hend, dif_pos (hkind.trans hend)]
    exact ρ.missing_cursor c kind
  rw [dif_neg hend, dif_neg (hkind ▸ hend)]
  by_cases hk : c.current.kind = kind
  · rw [if_pos hk, if_pos (hkind.trans hk)]
    exact ρ.take_cursor c hend
  · rw [if_neg hk, if_neg (hkind ▸ hk)]
    exact ρ.missing_cursor c kind

theorem symbol_cursor (s : Symbol) :
    ρ.Recodes (ρ.taken ρ.token) (c.symbol s) ((ρ.cursor c).symbol s) := ρ.expect_cursor c _

theorem keyword_cursor (k : Keyword) :
    ρ.Recodes (ρ.taken ρ.token) (c.keyword k) ((ρ.cursor c).keyword k) := ρ.expect_cursor c _

theorem identifier_cursor :
    ρ.Recodes (ρ.taken (ρ.located ρ.name)) c.identifier (ρ.cursor c).identifier := by
  unfold Cursor.identifier
  refine .bind_of_ok (ρ.expect_cursor c _) ?_
  rintro ⟨t, d, hd⟩ ht
  obtain ⟨hvalue, hkind, hend⟩ := Cursor.expect_value ht
  have htext : (ρ.token t).text = ρ.text t.text := by
    refine ρ.text_token ?_
    simp only at hvalue
    rwa [hvalue, hkind]
  refine .pure ?_
  simp only [taken, located, name, htext]
  rfl

theorem accept_cursor {α : Type} (select : Token.Kind → Option α) :
    ρ.Recodes (Option.map (ρ.taken (Prod.map id ρ.token))) (c.accept select)
      ((ρ.cursor c).accept select) := by
  have hkind := ρ.kind_cursor c
  unfold Cursor.accept
  by_cases hend : c.current.kind = .endOfFile
  · rw [dif_pos hend, dif_pos (hkind.trans hend)]
    exact .ok rfl
  rw [dif_neg hend, dif_neg (hkind ▸ hend)]
  have hselect : select (ρ.cursor c).current.kind = select c.current.kind := rfl
  rw [hselect]
  cases select c.current.kind with
  | none => exact .ok rfl
  | some a =>
    refine .bind (ρ.take_cursor c hend) ?_
    rintro ⟨t, d, hd⟩
    exact .pure rfl

theorem acceptSymbol_cursor (s : Symbol) :
    ρ.Recodes (Option.map (ρ.taken ρ.token)) (c.acceptSymbol s)
      ((ρ.cursor c).acceptSymbol s) := by
  unfold Cursor.acceptSymbol
  refine .bind (ρ.accept_cursor c _) ?_
  rintro (_ | ⟨⟨_, t⟩, d, hd⟩)
  · exact .pure rfl
  · exact .pure rfl

theorem acceptKeyword_cursor (k : Keyword) :
    ρ.Recodes (Option.map (ρ.taken ρ.token)) (c.acceptKeyword k)
      ((ρ.cursor c).acceptKeyword k) := by
  unfold Cursor.acceptKeyword
  refine .bind (ρ.accept_cursor c _) ?_
  rintro (_ | ⟨⟨_, t⟩, d, hd⟩)
  · exact .pure rfl
  · exact .pure rfl

theorem finish_cursor : ρ.Recodes id c.finish (ρ.cursor c).finish := by
  have hkind := ρ.kind_cursor c
  unfold Cursor.finish
  by_cases hend : c.current.kind = .endOfFile
  · rw [if_pos hend, if_pos (hkind.trans hend)]
    exact .ok rfl
  · rw [if_neg hend, if_neg (hkind ▸ hend)]
    exact ρ.missing_cursor c _

theorem identifiers_cursor (c : Cursor) :
    ρ.Recodes (ρ.taken (List.map (ρ.located ρ.name))) c.identifiers (ρ.cursor c).identifiers := by
  rw [Cursor.identifiers, Cursor.identifiers.eq_def (ρ.cursor c)]
  refine .bind (ρ.identifier_cursor c) ?_
  rintro ⟨name, c₁, h₁⟩
  refine .bind (ρ.acceptSymbol_cursor c₁ .comma) ?_
  rintro (_ | ⟨_, c₂, h₂⟩)
  · exact .pure rfl
  · refine .bind (identifiers_cursor c₂) ?_
    rintro ⟨names, c₃, h₃⟩
    exact .pure rfl
termination_by c.size

end Recoding

end MiniPascal
