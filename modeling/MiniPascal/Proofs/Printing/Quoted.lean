import MiniPascal.Proofs.Printing.Token

/-! Strings in quotes, each quote within them written twice. -/

namespace MiniPascal.Token

open Computability State

/-- The text of a string in quotes. -/
def quoted (s : String) : String := String.ofList ('\'' :: doubled s.toList ++ ['\''])

variable {keep : Bool} {p : Position} {v rest : List Char} {t : Token}

/-- Doubling brings back the inside of a string, which has its quotes in pairs. -/
theorem doubled_unquote (hv : v ∈ quotes) : doubled (unquote v) = v := by
  obtain ⟨ws, rfl, hws⟩ := Language.mem_kstar.1 hv
  clear hv
  -- one character that is no quote, or two quotes, go in front of the rest
  induction ws with
  | nil => rfl
  | cons w ws ih =>
    obtain ⟨hw, hmore⟩ := List.forall_mem_cons.1 hws
    have hrest := ih hmore
    rw [List.flatten_cons]
    rcases hw with ⟨c, hc, rfl⟩ | hpair
    · have hne : c ≠ '\'' := of_decide_eq_true hc
      have hunquote : unquote (c :: ws.flatten) = c :: unquote ws.flatten := by
        rw [unquote]
        rintro ds rfl
        exact absurd rfl hne
      rw [List.singleton_append, hunquote, doubled, if_neg hne, hrest]
    · obtain rfl : w = ['\'', '\''] := hpair
      have hunquote : unquote ('\'' :: '\'' :: ws.flatten) = '\'' :: unquote ws.flatten := by
        rw [unquote]
      rw [List.cons_append, List.singleton_append, hunquote, doubled, if_pos rfl, hrest]

/-- Only a further quote goes on with a string that has been closed. -/
theorem strQuote_after {c : Char} (hc : c ≠ '\'') : State.strQuote.after c = none := by
  simp [State.after, edges, hc]

/-- A quoted string is read whole, wherever it stands. -/
theorem scanFrom_quoted (s : String) (h : rest.head? ≠ some '\'') :
    scanFrom keep p ((quoted s).toList ++ rest) = .ok ⟨p, .string, quoted s, .string s⟩ ::
      scanFrom keep (p.afterAll (quoted s).toList) rest := by
  have htext : (quoted s).toList = '\'' :: doubled s.toList ++ ['\''] := String.toList_ofList
  have hstuck : ∀ c ∈ rest.head?, State.strQuote.after c = none := by
    intro c hc
    apply strQuote_after
    rintro rfl
    exact h hc
  have hinside : ('\'' :: doubled s.toList ++ ['\'']).tail.dropLast = doubled s.toList := by simp
  have haccept : accept .strQuote (quoted s).toList rest =
      some ⟨.token .string (.string s), (quoted s).toList, rest⟩ := by
    rw [accept, htext, hinside, unquote_doubled, String.ofList_toList]
  have hrun : start.run (quoted s).toList = some .strQuote := htext ▸ ofString_run s
  rw [scanFrom_of_stops ⟨rfl, hrun, hstuck⟩ haccept]
  simp [Cut.result?]

/-- The text of a string token is its value in quotes. -/
theorem Alone.quoted_value (ht : t.Alone) (hkind : t.kind = .string) : quoted t.value = t.text := by
  obtain ⟨s, hrun, haccept⟩ := ht
  rw [hkind] at haccept
  obtain ⟨rfl, -⟩ := accept_string haccept
  -- the walk has read a quote, the inside and a quote
  obtain ⟨a, ha, _, rfl, htext⟩ := Language.mem_mul.1 (run_start.1 hrun)
  obtain ⟨_, rfl, v, hv, rfl⟩ := Language.mem_mul.1 ha
  have hvalue : t.value = String.ofList (unquote v) := by
    have hinside : (['\''] ++ v ++ ['\'']).tail.dropLast = v := List.dropLast_concat
    rw [← htext, accept, hinside] at haccept
    have hliteral := congrArg Cut.verdict (Option.some.inj haccept)
    rw [value, ← (Verdict.token.inj hliteral).2]
  rw [quoted, hvalue, String.toList_ofList, doubled_unquote hv]
  apply String.toList_inj.1
  rw [String.toList_ofList, ← htext]
  rfl

/-- Reading strings and quoting them undo each other. The first token of a quoted string, with
nothing or anything but a quote behind it, is a string token with all of its text and with the
string for its value. And the text of every string token of a text is its value in quotes. -/
theorem scan_quoted (keep : Bool) :
    (∀ s rest : String, rest.toList.head? ≠ some '\'' →
      ∃ t, scan (quoted s ++ rest) keep =
          .ok t :: scanFrom keep (Position.start.afterAll (quoted s).toList) rest.toList ∧
        t.kind = .string ∧ t.text = quoted s ∧ t.value = s) ∧
    ∀ text t, .ok t ∈ scan text keep → t.kind = .string → t.text = quoted t.value := by
  constructor
  · intro s rest h
    refine ⟨⟨.start, .string, quoted s, .string s⟩, ?_, rfl, rfl, rfl⟩
    rw [scan, String.toList_append]
    exact scanFrom_quoted s h
  · intro text t ht hkind
    exact ((alone_of_mem_scan text keep ht).quoted_value hkind).symm

/-- Quotes at both ends of the string, a line feed in it, and another string behind it. -/
theorem scan_quoted_twice :
    "+'b'".toList.head? ≠ some '\'' ∧ quoted "'a\n''" = "'''a\n'''''" ∧
      ∃ t, scan ("'''a\n'''''" ++ "+'b'") true =
          .ok t :: scanFrom true ⟨2, 6⟩ "+'b'".toList ∧
        t.kind = .string ∧ t.text = "'''a\n'''''" ∧ t.value = "'a\n''" := by
  have h : "+'b'".toList.head? ≠ some '\'' := by decide
  have htext : quoted "'a\n''" = "'''a\n'''''" := by decide
  have hread := (scan_quoted true).1 "'a\n''" "+'b'" h
  rw [htext] at hread
  exact ⟨h, htext, hread⟩

end MiniPascal.Token
