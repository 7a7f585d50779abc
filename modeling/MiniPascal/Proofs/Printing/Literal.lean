import MiniPascal.Proofs.Ir.Constant
import MiniPascal.Proofs.Printing.Token
import MiniPascal.Proofs.Semantics.Output

/-! A text goes whole through the compiler. -/

namespace MiniPascal

open Grammar Token Cursor Read

/-- The text of a program whose only statement writes a literal. -/
def literalProgram (s : String) : String :=
  "begin write('" ++ String.ofList (doubled s.toList) ++ "') end."

/-! ### Reading -/

/-- The token at a place. -/
def Token.place (t : Token) (p : Position) : Token := { t with position := p }

section

variable {t : Token} {s : State} {p : Position} {w rest : List Char}

theorem scanFrom_place (ht : t.Printable) (hw : t.text.toList = w)
    (hrun : State.start.run w = some s) (hstuck : ∀ c ∈ rest.head?, s.after c = none) :
    scanFrom false p (w ++ rest) =
      .ok (t.place p) :: scanFrom false (p.afterAll w) rest := by
  subst hw
  exact scanFrom_alone ht.alone ht.comment hrun hstuck

end

theorem scan_literalProgram (s : String) :
    ∃ p₁ p₂ p₃ p₄ p₅ p₆ p₇, scan (literalProgram s) false =
      [.ok ((ofKeyword .kwBegin).place p₁), .ok ((ofName ⟨"write"⟩).place p₂),
        .ok ((ofSymbol .openParen).place p₃), .ok ((ofString s).place p₄),
        .ok ((ofSymbol .closeParen).place p₅), .ok ((ofKeyword .kwEnd).place p₆),
        .ok ((ofSymbol .dot).place p₇)] := by
  have hwrite : (ofName ⟨"write"⟩).Printable :=
    ofName_printable ⟨State.run_start (s := .word).1 (by decide), by decide⟩
  have htext : (literalProgram s).toList = ['b', 'e', 'g', 'i', 'n'] ++ ' ' ::
      (['w', 'r', 'i', 't', 'e'] ++ (['('] ++ (('\'' :: doubled s.toList ++ ['\'']) ++
        ([')'] ++ ' ' :: (['e', 'n', 'd'] ++ (['.'] ++ [])))))) := by
    simp [literalProgram]
  rw [scan, htext,
    scanFrom_place (w := ['b', 'e', 'g', 'i', 'n']) (ofKeyword_printable .kwBegin) rfl rfl
      (by rintro _ ⟨⟩; rfl),
    scanFrom_blank rfl,
    scanFrom_place (w := ['w', 'r', 'i', 't', 'e']) hwrite rfl rfl (by rintro _ ⟨⟩; rfl),
    scanFrom_place (w := ['(']) (ofSymbol_printable .openParen) String.toList_ofList rfl
      (by rintro _ ⟨⟩; rfl),
    scanFrom_place (w := '\'' :: doubled s.toList ++ ['\'']) (ofString_printable s)
      String.toList_ofList (ofString_run s) (by rintro _ ⟨⟩; rfl),
    scanFrom_place (w := [')']) (ofSymbol_printable .closeParen) String.toList_ofList rfl
      (by rintro _ ⟨⟩; rfl),
    scanFrom_blank rfl,
    scanFrom_place (w := ['e', 'n', 'd']) (ofKeyword_printable .kwEnd) rfl rfl
      (by rintro _ ⟨⟩; rfl),
    scanFrom_place (w := ['.']) (ofSymbol_printable .dot) String.toList_ofList rfl
      (fun _ h => absurd h (Option.not_mem_none _)),
    scanFrom]
  exact ⟨_, _, _, _, _, _, _, rfl⟩

/-- A cursor in front of a text without errors is a cursor in front of its tokens. -/
theorem Cursor.ofText_of_scan {text : String} {t : Token} {ts : List Token}
    (h : scan text false = .ok t :: ts.map .ok) (hts : ∀ u ∈ t :: ts, u.kind ≠ .endOfFile) :
    Cursor.ofText text = .ok ((⟨.endOfFile (endPosition text), [], endPosition text⟩ :
      Cursor).behind (t :: ts)) := by
  obtain ⟨-, hts⟩ := List.forall_mem_cons.1 hts
  have hend : results ⟨.endOfFile (endPosition text), [], endPosition text⟩ = [] := by
    simp [results]
  unfold Cursor.ofText
  rw [h, behind_cons, push, results_behind hts, hend, List.append_nil, behind_stop]
  rfl

section

variable {t t₁ t₂ t₃ t₄ t₅ t₆ t₇ : Token} {c d : Cursor}

theorem reads_header (name : String) (hc : c.current.kind ≠ .keyword .kwProgram) :
    Succeeds (header name c) (·.Is name c) := by
  unfold header
  apply Succeeds.step (acceptKeyword_none hc)
  exact .pure ⟨_, rfl⟩

theorem reads_declarations (hc : c.current.kind = .keyword .kwBegin) :
    Succeeds (declarations [] .empty c) (·.Is .empty c) := by
  unfold declarations
  apply Succeeds.step (accept_none (by rw [hc]; rfl))
  apply Succeeds.step (accept_none (by rw [hc]; rfl))
  apply Succeeds.step (a := ()) rfl
  exact .pure ⟨_, rfl⟩

/-- What follows the name of the statement. -/
theorem reads_literalArgument (h₃ : t₃.kind = .symbol .openParen) (h₄ : t₄.kind = .string)
    (h₅ : t₅.kind = .symbol .closeParen) :
    Succeeds (writeStatement .empty false (c.behind [t₃, t₄, t₅]))
      (·.Is (.write false [.text t₄.value]) c) := by
  have hsees : ((c.push t₅).push t₄).sees .closeParen = false :=
    sees_of_ne (by rw [push_current, h₄]; nofun)
  have hcomma : (c.push t₅).current.kind ≠ .symbol .comma := by
    rw [push_current, h₅]
    exact kind_symbol_ne (by decide)
  have harg : Succeeds (writeArg .empty ((c.push t₅).push t₄))
      (·.Is (.text t₄.value) (c.push t₅)) := by
    unfold writeArg
    rw [if_pos (show ((c.push t₅).push t₄).current.kind = .string from h₄), ← h₄]
    apply Succeeds.bind (expect_push (by simp [h₄]))
    rintro _ ⟨h, rfl⟩
    exact .pure ⟨_, rfl⟩
  have hargs : Succeeds (writeArgs .empty ((c.push t₅).push t₄))
      (·.Is [.text t₄.value] (c.push t₅)) := by
    unfold writeArgs
    apply Succeeds.bind harg
    rintro _ ⟨h, rfl⟩
    apply Succeeds.step (acceptSymbol_none hcomma)
    exact .pure ⟨_, rfl⟩
  simp only [behind_cons, behind_nil]
  unfold writeStatement
  apply Succeeds.bind (acceptSymbol_push h₃)
  rintro _ ⟨_, rfl, h, rfl⟩
  simp only [hsees, Bool.false_eq_true, if_false]
  apply Succeeds.bind hargs
  rintro _ ⟨h, rfl⟩
  apply Succeeds.bind (symbol_push h₅)
  rintro _ ⟨h, rfl⟩
  exact .pure ⟨_, rfl⟩

/-- Tokens of these kinds are read as the program that writes a text. -/
theorem reads_literal (name : String)
    (h₁ : t₁.kind = .keyword .kwBegin) (h₂ : t₂.kind = .identifier) (hwrite : t₂.text = "write")
    (h₃ : t₃.kind = .symbol .openParen) (h₄ : t₄.kind = .string)
    (h₅ : t₅.kind = .symbol .closeParen) (h₆ : t₆.kind = .keyword .kwEnd)
    (h₇ : t₇.kind = .symbol .dot) (hd : d.current.kind = .endOfFile) :
    Succeeds (Program.ofCursor name (d.behind [t₁, t₂, t₃, t₄, t₅, t₆, t₇]))
      (· = ⟨name, .empty, [.write false [.text t₄.value]]⟩) := by
  -- each rule from the inside out hands on the tokens that the next one takes
  let c := d.behind [t₆, t₇]
  have hstatement : Succeeds (statement .empty false ((c.behind [t₃, t₄, t₅]).push t₂))
      (·.Is (some (.write false [.text t₄.value])) c) := by
    have hnamed : Succeeds
        (namedStatement .empty ⟨t₂.position, ⟨t₂.text⟩⟩ (c.behind [t₃, t₄, t₅]))
        (·.Is (.write false [.text t₄.value]) c) := by
      have hlookup : ∃ e, Scopes.empty.lookup ⟨t₂.position, ⟨"write"⟩⟩ = .error e := ⟨_, rfl⟩
      have hwrites : writes? ⟨"write"⟩ = some false := by decide
      obtain ⟨e, hlookup⟩ := hlookup
      unfold namedStatement
      simp only [hwrite, hlookup, hwrites]
      exact reads_literalArgument h₃ h₄ h₅
    unfold statement
    simp only [push_current, h₂]
    apply Succeeds.bind (identifier_push h₂)
    rintro _ ⟨h, rfl⟩
    apply Succeeds.bind hnamed
    rintro _ ⟨h, rfl⟩
    exact .pure ⟨_, rfl⟩
  have hstatements : Succeeds (statements .empty false ((c.behind [t₃, t₄, t₅]).push t₂))
      (·.Is [.write false [.text t₄.value]] c) := by
    unfold statements
    apply Succeeds.bind hstatement
    rintro _ ⟨h, rfl⟩
    apply Succeeds.step (acceptSymbol_none (by show t₆.kind ≠ _; rw [h₆]; nofun))
    exact .pure ⟨_, rfl⟩
  have hcompound : Succeeds
      (compound .empty false (((c.behind [t₃, t₄, t₅]).push t₂).push t₁))
      (·.Is [.write false [.text t₄.value]] (d.push t₇)) := by
    unfold compound
    apply Succeeds.bind (keyword_push h₁)
    rintro _ ⟨h, rfl⟩
    apply Succeeds.bind hstatements
    rintro _ ⟨h, rfl⟩
    apply Succeeds.bind (keyword_push h₆)
    rintro _ ⟨h, rfl⟩
    exact .pure ⟨_, rfl⟩
  unfold Program.ofCursor
  apply Succeeds.bind (reads_header name (by show t₁.kind ≠ _; rw [h₁]; nofun))
  rintro _ ⟨h, rfl⟩
  apply Succeeds.bind (reads_declarations h₁)
  rintro _ ⟨h, rfl⟩
  apply Succeeds.bind hcompound
  rintro _ ⟨h, rfl⟩
  apply Succeeds.bind (symbol_push h₇)
  rintro _ ⟨h, rfl⟩
  apply Succeeds.step (if_pos hd)
  exact .pure rfl

end

theorem Program.ofText_literal (s name : String) :
    ofText (literalProgram s) name = .ok ⟨name, .empty, [.write false [.text s]]⟩ := by
  obtain ⟨p₁, p₂, p₃, p₄, p₅, p₆, p₇, hscan⟩ := scan_literalProgram s
  let tokens := [(ofKeyword .kwBegin).place p₁, (ofName ⟨"write"⟩).place p₂,
    (ofSymbol .openParen).place p₃, (ofString s).place p₄, (ofSymbol .closeParen).place p₅,
    (ofKeyword .kwEnd).place p₆, (ofSymbol .dot).place p₇]
  let e := endPosition (literalProgram s)
  have hcursor : Cursor.ofText (literalProgram s) =
      .ok ((⟨.endOfFile e, [], e⟩ : Cursor).behind tokens) :=
    Cursor.ofText_of_scan hscan (by simp [Token.place, ofKeyword, ofName, ofSymbol, ofString])
  have hread : Succeeds (ofCursor name ((⟨.endOfFile e, [], e⟩ : Cursor).behind tokens))
      (· = ⟨name, .empty, [.write false [.text s]]⟩) :=
    reads_literal name rfl rfl rfl rfl rfl rfl rfl rfl rfl
  obtain ⟨p, hp, rfl⟩ := hread
  unfold ofText
  rw [hcursor]
  exact hp

/-! ### Writing -/

/-- The lines of a program that writes one constant: it is passed for `%s`. -/
def literalLines (constant : String) : List String :=
  ["declare i32 @printf(ptr, ...)", "",
    "@.str.0 = private unnamed_addr constant " ++ constant,
    "@.fmt.0 = private unnamed_addr constant [3 x i8] c\"%s\\00\"", "",
    "define i32 @main() \x7b", "entry:",
    "  call i32 (ptr, ...) @printf(ptr @.fmt.0, ptr @.str.0)", "  ret i32 0", "\x7d"]

theorem literalLines_inj {c₁ c₂ : String} (h : literalLines c₁ = literalLines c₂) : c₁ = c₂ := by
  have hline := (List.cons.inj (List.cons.inj (List.cons.inj h).2).2).1
  have htext := congrArg String.toList hline
  rw [String.toList_append, String.toList_append] at htext
  exact String.toList_inj.1 (List.append_cancel_left htext)

open Lowering in
theorem emit_literal (s name : String) :
    (Program.mk name .empty [.write false [.text s]]).lower.emit =
      .ofLines (literalLines (Ir.describeConstant (textBytes s))) := by
  let str := ".str." ++ toString 0
  let fmt := ".fmt." ++ toString 0
  let call : Ir.Instr :=
    .call none .i32 "printf" (some [.ptr]) [(.ptr, .global fmt), (.ptr, .global str)]
  have hlower : (Program.mk name .empty [.write false [.text s]]).lower =
      ⟨[printf], [.text str (textBytes s), .text fmt (textBytes "%s")],
        [⟨"main", .i32, [], [call, .ret (some (.i32, .int 0))]⟩]⟩ := rfl
  have hstr : str = ".str.0" := by decide
  have hfmt : fmt = ".fmt.0" := by decide
  have hline : (Ir.Global.text ".fmt.0" (textBytes "%s")).line =
      "@.fmt.0 = private unnamed_addr constant [3 x i8] c\"%s\\00\"" := by decide +kernel
  rw [hlower]
  simp only [call, hstr, hfmt]
  show Ir.Emission.ofLines [printf.line, "", (Ir.Global.text ".str.0" (textBytes s)).line,
    (Ir.Global.text ".fmt.0" (textBytes "%s")).line, _, _, _, _, _, _] = _
  rw [hline, Ir.line_text]
  rfl

/-- The program of a literal is compiled to one that passes some bytes for `%s`. -/
def PassesConstant (s name : String) (bytes : List UInt8) : Prop :=
  ∃ p constant, Program.compile (literalProgram s) name = .ok p ∧
    p.emit = .ofLines (literalLines constant) ∧ Ir.constant? constant = some bytes

theorem passesConstant_textBytes (s name : String) :
    PassesConstant s name (Lowering.textBytes s) := by
  refine ⟨_, _, ?_, emit_literal s name, Ir.constant?_describeConstant _⟩
  rw [Program.compile, Program.ofText_literal]
  rfl

theorem PassesConstant.unique {s name : String} {b₁ b₂ : List UInt8}
    (h₁ : PassesConstant s name b₁) (h₂ : PassesConstant s name b₂) : b₁ = b₂ := by
  obtain ⟨p, c₁, hp, hemit₁, hbytes₁⟩ := h₁
  obtain ⟨q, c₂, hq, hemit₂, hbytes₂⟩ := h₂
  cases hp.symm.trans hq
  cases literalLines_inj (congrArg Ir.Emission.lines (hemit₁.symm.trans hemit₂))
  exact Option.some.inj (hbytes₁.symm.trans hbytes₂)

/-- What C reads of the constant of a text is the text up to its first character zero. -/
theorem readText_textBytes (s : String) :
    Ir.readText (Lowering.textBytes s) =
      (String.ofList (s.toList.takeWhile (· ≠ '\x00'))).toUTF8.toList := by
  have hread : Ir.readText (s.toList.flatMap String.utf8EncodeChar ++ [0]) =
      encode (s.toList.takeWhile (· ≠ '\x00')) := Ir.readText_encode _
  rw [Lowering.textBytes, toUTF8_toList, hread, toUTF8_toList, String.toList_ofList]
  rfl

/-- Every text is accepted between quotes. The constant that is passed for `%s` holds exactly its
bytes and a zero; C reads all of the text, or what stands in front of its first character zero. -/
theorem compile_literal (s name : String) :
    ∃ bytes, PassesConstant s name bytes ∧ bytes = s.toUTF8.toList ++ [0] ∧
      Ir.readText bytes = (String.ofList (s.toList.takeWhile (· ≠ '\x00'))).toUTF8.toList ∧
      ('\x00' ∉ s.toList → Ir.readText bytes = s.toUTF8.toList) := by
  refine ⟨_, passesConstant_textBytes s name, rfl, readText_textBytes s, ?_⟩
  intro hzero
  have hwhole : s.toList.takeWhile (· ≠ '\x00') = s.toList :=
    List.takeWhile_eq_self_iff.2 fun c hc => decide_eq_true fun h => hzero (h ▸ hc)
  rw [readText_textBytes, hwhole, String.ofList_toList]

/-- What stands behind a character zero is not printed. -/
theorem literal_cut_at_zero :
    ¬ ∃ bytes, PassesConstant "a\x00b" "cut" bytes ∧
      Ir.readText bytes = "a\x00b".toUTF8.toList := by
  rintro ⟨bytes, hbytes, hread⟩
  cases hbytes.unique (passesConstant_textBytes _ _)
  revert hread
  decide +kernel

end MiniPascal
