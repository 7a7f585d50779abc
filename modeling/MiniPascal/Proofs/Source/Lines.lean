import Mathlib.Data.List.Induction
import MiniPascal.Source.Text
import MiniPascal.Token.Lexeme

/-! The line in which a position lies. -/

namespace MiniPascal

namespace Source

variable {c x : Char} {cs u v above last rest line : List Char} {lines : List (List Char)}

/-! ### Lines of a text in parts -/

/-- A text that breaks off in front of a line. -/
def EndsLine (above : List Char) : Prop := above = [] ∨ ∃ u, above = u ++ ['\n']

theorem exists_line (before : List Char) :
    ∃ above last, before = above ++ last ∧ EndsLine above ∧ '\n' ∉ last := by
  induction before using List.reverseRecOn with
  | nil => exact ⟨[], [], rfl, .inl rfl, List.not_mem_nil⟩
  | append_singleton before c ih =>
    by_cases hc : c = '\n'
    · subst hc
      exact ⟨before ++ ['\n'], [], (List.append_nil _).symm, .inr ⟨before, rfl⟩, List.not_mem_nil⟩
    · obtain ⟨above, last, rfl, habove, hlast⟩ := ih
      refine ⟨above, last ++ [c], List.append_assoc above last [c], habove, ?_⟩
      intro hmem
      rcases List.mem_append.1 hmem with hmem | hmem
      · exact hlast hmem
      · exact hc (List.mem_singleton.1 hmem).symm

theorem prepend_append (h : lines ≠ []) (more : List (List Char)) :
    prepend c (lines ++ more) = prepend c lines ++ more := by
  cases lines with
  | nil => exact absurd rfl h
  | cons line lines => rfl

theorem length_prepend (h : lines ≠ []) : (prepend c lines).length = lines.length := by
  cases lines with
  | nil => exact absurd rfl h
  | cons line lines => rfl

/-- A character stays in its line unless it ends that line. -/
theorem splitLines_cons (hc : c ≠ '\n') (hcs : cs.head? ≠ some '\n') :
    splitLines (c :: cs) = prepend c (splitLines cs) := by
  apply splitLines.eq_4
  · intro _ _ hnext
    subst hnext
    exact hcs rfl
  · exact hc

theorem splitLines_ne_nil (h : cs ≠ []) : splitLines cs ≠ [] := by
  unfold splitLines
  split
  · exact absurd rfl h
  · exact List.cons_ne_nil _ _
  · exact List.cons_ne_nil _ _
  · unfold prepend
    split
    · exact List.cons_ne_nil _ _
    · exact List.cons_ne_nil _ _

/-- A text is cut behind each line feed. -/
theorem splitLines_newline (u v : List Char) :
    splitLines (u ++ '\n' :: v) = splitLines (u ++ ['\n']) ++ splitLines v ∧
      (splitLines (u ++ ['\n'])).length = u.count '\n' + 1 := by
  fun_induction splitLines u with
  | case1 => exact ⟨rfl, rfl⟩
  | case2 cs ih =>
    obtain ⟨hsplit, hlength⟩ := ih
    simp [splitLines, hsplit, hlength]
  | case3 cs ih =>
    obtain ⟨hsplit, hlength⟩ := ih
    simp [splitLines, hsplit, hlength]
  | case4 c cs hreturn hc ih =>
    obtain ⟨hsplit, hlength⟩ := ih
    have hcount : (c :: cs).count '\n' = cs.count '\n' := by
      rw [List.count_cons_of_ne]
      exact hc
    by_cases hend : c = '\r' ∧ cs = []
    · obtain ⟨rfl, rfl⟩ := hend
      exact ⟨rfl, rfl⟩
    · have hnext : ∀ w, (cs ++ '\n' :: w) ≠ [] := by
        intro w
        exact List.append_ne_nil_of_right_ne_nil _ (List.cons_ne_nil _ _)
      -- what ends the line of a carriage return is not the line feed of `u ++ ['\n']`
      have hcons : ∀ w, splitLines (c :: (cs ++ '\n' :: w)) =
          prepend c (splitLines (cs ++ '\n' :: w)) := by
        intro w
        apply splitLines.eq_4 _ _ _ hc
        intro more hr hmore
        cases cs with
        | nil => exact hend ⟨hr, rfl⟩
        | cons d ds =>
          obtain ⟨rfl, -⟩ := List.cons.inj hmore
          exact hreturn ds hr rfl
      rw [List.cons_append, List.cons_append, hcons v, hcons [], hsplit, hcount]
      exact ⟨prepend_append (splitLines_ne_nil (hnext [])) _,
        (length_prepend (splitLines_ne_nil (hnext []))).trans hlength⟩

theorem splitLines_append (h : EndsLine above) (rest : List Char) :
    splitLines (above ++ rest) = splitLines above ++ splitLines rest ∧
      (splitLines above).length = above.count '\n' := by
  rcases h with rfl | ⟨u, rfl⟩
  · exact ⟨rfl, rfl⟩
  · obtain ⟨hsplit, hlength⟩ := splitLines_newline u rest
    constructor
    · rw [List.append_assoc]
      exact hsplit
    · rw [hlength, List.count_append]
      rfl

/-- What follows the last line feed is a line. -/
theorem splitLines_last (hlast : '\n' ∉ last) (hne : last ≠ []) : splitLines last = [last] := by
  induction last with
  | nil => exact absurd rfl hne
  | cons c cs ih =>
    obtain ⟨hc, hcs⟩ := not_or.1 (mt List.mem_cons.2 hlast)
    have hhead : cs.head? ≠ some '\n' := by
      intro hhead
      exact hcs (List.mem_of_mem_head? hhead)
    rw [splitLines_cons (Ne.symm hc) hhead]
    by_cases hnil : cs = []
    · subst hnil
      rfl
    · rw [ih hcs hnil]
      rfl

/-- A character that is no blank stands in its line behind what precedes it there. -/
theorem splitLines_open (hlast : '\n' ∉ last) (hx : Token.isBlank x = false) (rest : List Char) :
    ∃ more lines, splitLines (last ++ x :: rest) = (last ++ x :: more) :: lines := by
  have hne : x ≠ '\n' := by
    intro hx'
    subst hx'
    cases hx
  induction last with
  | nil =>
    have hreturn : x ≠ '\r' := by
      intro hx'
      subst hx'
      cases hx
    have hcons : splitLines (x :: rest) = prepend x (splitLines rest) := by
      apply splitLines.eq_4 _ _ _ hne
      intro _ hr
      exact absurd hr hreturn
    rw [List.nil_append, hcons]
    cases splitLines rest with
    | nil => exact ⟨[], [], rfl⟩
    | cons line lines => exact ⟨line, lines, rfl⟩
  | cons c cs ih =>
    obtain ⟨hc, hcs⟩ := not_or.1 (mt List.mem_cons.2 hlast)
    obtain ⟨more, lines, hlines⟩ := ih hcs
    -- a line feed may not come next, or the character before it would end a line
    have hhead : (cs ++ x :: rest).head? ≠ some '\n' := by
      intro hhead
      cases cs with
      | nil => exact hne (Option.some.inj hhead)
      | cons d cs => exact hcs (List.mem_of_mem_head? hhead)
    rw [List.cons_append, splitLines_cons (Ne.symm hc) hhead, hlines]
    exact ⟨more, lines, rfl⟩

/-- No line goes over a line feed. -/
theorem not_mem_splitLines (cs : List Char) : ∀ line ∈ splitLines cs, '\n' ∉ line := by
  fun_induction splitLines cs with
  | case1 => exact List.forall_mem_nil _
  | case2 cs ih => exact List.forall_mem_cons.2 ⟨List.not_mem_nil, ih⟩
  | case3 cs ih => exact List.forall_mem_cons.2 ⟨List.not_mem_nil, ih⟩
  | case4 c cs hreturn hc ih =>
    have hne : '\n' ≠ c := fun h => hc h.symm
    cases hlines : splitLines cs with
    | nil =>
      rw [prepend]
      exact List.forall_mem_singleton.2 (mt List.mem_singleton.1 hne)
    | cons line lines =>
      rw [hlines] at ih
      obtain ⟨hline, hmore⟩ := List.forall_mem_cons.1 ih
      rw [prepend]
      have hfirst : '\n' ∉ c :: line := List.not_mem_cons_of_ne_of_not_mem hne hline
      exact List.forall_mem_cons.2 ⟨hfirst, hmore⟩

/-- The lines from a number on are those of the rest of the text. -/
theorem line?_eq (source : Source) (htext : source.text.toList = above ++ rest)
    (habove : EndsLine above) (k : Nat) :
    source.line? (1 + above.count '\n' + k) = ((splitLines rest)[k]?).map String.ofList := by
  obtain ⟨hsplit, hlength⟩ := splitLines_append habove rest
  have hne : 1 + above.count '\n' + k ≠ 0 := by omega
  have hindex : 1 + above.count '\n' + k - 1 = (splitLines above).length + k := by omega
  rw [line?, if_neg hne, lines, htext, hsplit, hindex, List.getElem?_map]
  rw [List.getElem?_append_right (Nat.le_add_right _ _), Nat.add_sub_cancel_left]

end Source

namespace Position

variable {p : Position} {above last w : List Char}

/-! ### Positions by lines -/

theorem line_afterAll (p : Position) (w : List Char) :
    (p.afterAll w).line = p.line + w.count '\n' := by
  induction w generalizing p with
  | nil => rfl
  | cons c w ih =>
    rw [afterAll_cons, ih, after]
    by_cases hc : c = '\n'
    · subst hc
      rw [if_pos rfl, List.count_cons_self]
      show p.line + 1 + w.count '\n' = p.line + (w.count '\n' + 1)
      omega
    · rw [if_neg hc, List.count_cons_of_ne hc]
      split
      · rfl
      · rfl

/-- Within a line every character takes a column at least, and but for tabs just one. -/
theorem column_afterAll (hw : '\n' ∉ w) :
    p.column + w.length ≤ (p.afterAll w).column ∧
      ('\t' ∉ w → (p.afterAll w).column = p.column + w.length) := by
  induction w generalizing p with
  | nil => exact ⟨Nat.le_refl _, fun _ => rfl⟩
  | cons c w ih =>
    obtain ⟨hc, hw⟩ := not_or.1 (mt List.mem_cons.2 hw)
    obtain ⟨hle, heq⟩ := ih (p := p.after c) hw
    rw [afterAll_cons, List.length_cons]
    rw [after, if_neg (Ne.symm hc)] at hle heq ⊢
    by_cases htab : c = '\t'
    · subst htab
      rw [if_pos rfl] at hle heq ⊢
      have hcolumn : p.tab.column = 1 + ((p.column - 1) / 4 + 1) * 4 := rfl
      constructor
      · omega
      · intro h
        exact absurd List.mem_cons_self h
    · rw [if_neg htab] at hle heq ⊢
      have hcolumn : p.advance.column = p.column + 1 := rfl
      constructor
      · omega
      · intro h
        have hmore := heq (mt (List.mem_cons_of_mem c) h)
        omega

/-- Behind whole lines and a part of the next one. -/
theorem afterAll_line (habove : Source.EndsLine above) (hlast : '\n' ∉ last) :
    (start.afterAll (above ++ last)).line = 1 + above.count '\n' ∧
      1 + last.length ≤ (start.afterAll (above ++ last)).column ∧
      ('\t' ∉ last → (start.afterAll (above ++ last)).column = 1 + last.length) := by
  have hline : (start.afterAll above).line = 1 + above.count '\n' := line_afterAll start above
  have hcolumn : (start.afterAll above).column = 1 := by
    rcases habove with rfl | ⟨u, rfl⟩
    · rfl
    · rw [afterAll_append]
      rfl
  rw [afterAll_append, line_afterAll, hline, List.count_eq_zero.2 hlast, ← hcolumn]
  exact ⟨rfl, column_afterAll hlast⟩

end Position

end MiniPascal
