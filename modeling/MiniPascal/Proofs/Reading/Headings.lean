import MiniPascal.Proofs.Reading.Declares

/-! The headings of a declaration part in order. What fails at a declaration that a text reaches
fails for the whole text. -/

namespace MiniPascal

namespace Read

theorem fails_here {α β : Type} {r : Read α} {e : Located Fault} (h : r = .error e)
    (f : α → Read β) : r >>= f = .error e := by
  rw [h]
  rfl

theorem fails_later {α β : Type} {r : Read α} {a : α} {f : α → Read β} {e : Located Fault}
    (h : r = .ok a) (hf : f a = .error e) : r >>= f = .error e := by
  rw [h]
  exact hf

end Read

namespace Grammar

open Cursor

/-- The heading of a routine in a declaration part: of its definition, or of a `forward`
declaration. -/
structure Heading where
  name : Name
  routine : Routine
  forward : Bool

/-- The headings of a name, ignoring the case of its letters. -/
def Heading.of (n : Name) (hs : List Heading) : List Heading := hs.filter fun g => g.name == n

/-- What comes next in a declaration part: any declaration, or one more of a section. -/
inductive Place where
  | any
  | more (s : Section)

/-- A routine is declared in front of the cursor `c`: its first keyword is taken up to `c₁`, and its
heading up to `c₂`. -/
structure Starts (path : List String) (s : Scopes) (c : Cursor) (isFunction : Bool) (c₁ : Cursor)
    (g : Heading) (c₂ : Cursor) : Prop where
  keyword : ∃ token h, c.accept routine? = .ok (some ⟨(isFunction, token), c₁, h⟩)
  heading : ∃ h, heading path s isFunction c₁ = .ok ⟨(g.name, g.routine), c₂, h⟩
  forward : g.forward = c₂.seesKeyword .kwForward

/-- The rules come to a declaration of the text: to this place and cursor in the part of the routine
of this path, with this visible and these headings read in the part so far. -/
inductive Reaches (text name : String) :
    Place → List String → Scopes → Cursor → List Heading → Prop
  /-- The main program starts behind its header. -/
  | start {c₀ c : Cursor} {title : String} {h : c.size ≤ c₀.size} (hc : Cursor.ofText text = .ok c₀)
    (hh : header name c₀ = .ok ⟨title, c, h⟩) : Reaches text name .any [] .empty c []
  /-- A section is entered. -/
  | enter {path : List String} {s : Scopes} {c c₁ : Cursor} {gs : List Heading} {sec : Section}
    {token : Token} {h : c₁.size < c.size} (hr : Reaches text name .any path s c gs)
    (hk : c.accept section? = .ok (some ⟨(sec, token), c₁, h⟩)) :
    Reaches text name (.more sec) path s c₁ gs
  /-- A declaration of a section is read; the section goes on at a name. -/
  | plain {path : List String} {s s' : Scopes} {c c₁ : Cursor} {gs : List Heading} {sec : Section}
    {scope : Scope} {h : c₁.size < c.size} (hr : Reaches text name (.more sec) path s c gs)
    (hd : sectionDeclaration sec s c = .ok ⟨scope, c₁, h⟩) (hs : declareAll s scope = .ok s') :
    Reaches text name (if c₁.current.kind = .identifier then .more sec else .any) path s' c₁ gs
  /-- A routine is read, whether it is a definition or a `forward` declaration. -/
  | routine {path : List String} {s s' : Scopes} {c c₁ c₂ c₃ : Cursor} {gs : List Heading}
    {isFunction : Bool} {g : Heading} {h : c₃.size < c₁.size}
    (hr : Reaches text name .any path s c gs) (hg : Starts path s c isFunction c₁ g c₂)
    (hd : routine path s isFunction c₁ = .ok ⟨s', c₃, h⟩) :
    Reaches text name .any path s' c₃ (gs ++ [g])
  /-- The body of a definition is entered. -/
  | body {path : List String} {s s₁ s₂ : Scopes} {c c₁ c₂ : Cursor} {gs : List Heading}
    {isFunction : Bool} {g : Heading} (hr : Reaches text name .any path s c gs)
    (hg : Starts path s c isFunction c₁ g c₂) (hf : g.forward = false)
    (hs : register s g.name g.routine false = .ok s₁)
    (he : enterBody s₁ g.name g.routine = .ok s₂) :
    Reaches text name .any (path ++ [g.name.canonical]) s₂ c₂ []

/-- What reading a routine does once its heading is known. -/
theorem Starts.cases {path : List String} {s : Scopes} {c c₁ c₂ : Cursor} {isFunction : Bool}
    {g : Heading} (hg : Starts path s c isFunction c₁ g c₂) {t : Taken c₁ Scopes}
    (hd : Grammar.routine path s isFunction c₁ = .ok t) :
    g.forward = true ∧ register s g.name g.routine true = .ok t.value ∨
    g.forward = false ∧ ∃ s₁ s₂ inner ss, register s g.name g.routine false = .ok s₁ ∧
      enterBody s₁ g.name g.routine = .ok s₂ ∧
      declarations (path ++ [g.name.canonical]) s₂ c₂ = .ok inner ∧
      t.value = leaveBody inner.value g.name ss := by
  obtain ⟨n, r, c₃, h₃, hh, hcases⟩ := routine_cases hd
  obtain ⟨hlt, hheading⟩ := hg.heading
  rw [hheading] at hh
  cases hh
  rw [hg.forward]
  exact hcases

/-! ### Faults -/

/-- What is still to be read of a declaration part ends in a fault. -/
def Place.Fails (e : Located Fault) : Place → List String → Scopes → Cursor → Prop
  | .any, path, s, c => declarations path s c = .error e
  | .more sec, path, s, c => sectionDeclarations sec s c = .error e ∨
    ∃ t, sectionDeclarations sec s c = .ok t ∧ declarations path t.value t.rest = .error e

section

variable {path : List String} {s s' : Scopes} {c c₁ c₂ : Cursor} {e : Located Fault}

/-- No keyword starts a section and a routine. -/
theorem accept_section?_of_routine? {t : Taken c (Bool × Token)}
    (h : c.accept routine? = .ok (some t)) : c.accept section? = .ok none := by
  unfold accept at h ⊢
  by_cases hend : c.current.kind = .endOfFile
  · rw [dif_pos hend]
  · have hsec : section? c.current.kind = none := by
      rw [dif_neg hend] at h
      unfold routine? at h
      split at h
      · cases h
      · rename_i hk
        split at hk
        · rename_i hkind
          rw [hkind]
          rfl
        · rename_i hkind
          rw [hkind]
          rfl
        · cases hk
    rw [dif_neg hend, hsec]

/-- A section that is entered belongs to the part. -/
theorem Place.Fails.enter {sec : Section} {token : Token} {h : c₁.size < c.size}
    (hk : c.accept section? = .ok (some ⟨(sec, token), c₁, h⟩))
    (he : (Place.more sec).Fails e path s c₁) : Place.any.Fails e path s c := by
  show declarations path s c = .error e
  rw [declarations]
  refine Read.fails_later hk ?_
  rcases he with he | ⟨t, ht, he⟩
  · exact Read.fails_here he _
  · exact Read.fails_later ht (Read.fails_here he _)

/-- A section goes on behind a declaration, and the part behind a section. -/
theorem Place.Fails.plain {sec : Section} {scope : Scope} {h : c₁.size < c.size}
    (hd : sectionDeclaration sec s c = .ok ⟨scope, c₁, h⟩) (hs : declareAll s scope = .ok s')
    (he : (if c₁.current.kind = .identifier then Place.more sec else .any).Fails e path s' c₁) :
    (Place.more sec).Fails e path s c := by
  show sectionDeclarations sec s c = .error e ∨
    ∃ t, sectionDeclarations sec s c = .ok t ∧ declarations path t.value t.rest = .error e
  rw [sectionDeclarations, hd]
  simp only [bind, Except.bind, hs]
  by_cases hk : c₁.current.kind = .identifier
  · simp only [if_pos hk] at he ⊢
    rcases he with he | ⟨t, ht, he⟩
    · simp [he]
    · refine .inr ⟨_, by rw [ht]; rfl, he⟩
  · simp only [if_neg hk] at he ⊢
    exact .inr ⟨_, rfl, he⟩

/-- A routine belongs to the part. -/
theorem Place.Fails.routine {isFunction : Bool} {g : Heading}
    (hg : Starts path s c isFunction c₁ g c₂)
    (he : Grammar.routine path s isFunction c₁ = .error e) : Place.any.Fails e path s c := by
  obtain ⟨token, h, hk⟩ := hg.keyword
  show declarations path s c = .error e
  rw [declarations]
  refine Read.fails_later (accept_section?_of_routine? hk) ?_
  exact Read.fails_later hk (Read.fails_here he _)

/-- The part goes on behind a routine. -/
theorem Place.Fails.after {isFunction : Bool} {g : Heading} {c₃ : Cursor}
    {h : c₃.size < c₁.size} (hg : Starts path s c isFunction c₁ g c₂)
    (hd : Grammar.routine path s isFunction c₁ = .ok ⟨s', c₃, h⟩)
    (he : Place.any.Fails e path s' c₃) : Place.any.Fails e path s c := by
  obtain ⟨token, h, hk⟩ := hg.keyword
  show declarations path s c = .error e
  rw [declarations]
  refine Read.fails_later (accept_section?_of_routine? hk) ?_
  exact Read.fails_later hk (Read.fails_later hd (Read.fails_here he _))

/-- A heading that cannot be registered ends the routine. -/
theorem routine_error_of_register {isFunction : Bool} {g : Heading}
    (hg : Starts path s c isFunction c₁ g c₂)
    (he : register s g.name g.routine g.forward = .error e) :
    routine path s isFunction c₁ = .error e := by
  obtain ⟨h, hh⟩ := hg.heading
  rw [routine]
  refine Read.fails_later hh ?_
  rw [hg.forward] at he
  exact Read.fails_here he _

/-- The body of a definition belongs to the routine. -/
theorem routine_error_of_body {isFunction : Bool} {g : Heading} {s₁ s₂ : Scopes}
    (hg : Starts path s c isFunction c₁ g c₂) (hf : g.forward = false)
    (hs : register s g.name g.routine false = .ok s₁)
    (hb : enterBody s₁ g.name g.routine = .ok s₂)
    (he : declarations (path ++ [g.name.canonical]) s₂ c₂ = .error e) :
    routine path s isFunction c₁ = .error e := by
  obtain ⟨h, hh⟩ := hg.heading
  have hseen : c₂.seesKeyword .kwForward = false := hg.forward.symm.trans hf
  rw [routine]
  refine Read.fails_later hh ?_
  simp only [hseen]
  refine Read.fails_later hs ?_
  exact Read.fails_later hb (Read.fails_here he _)

end

/-- What fails where the rules come to fails for the whole text. -/
theorem Reaches.fails {text name : String} {place : Place} {path : List String} {s : Scopes}
    {c : Cursor} {gs : List Heading} (hr : Reaches text name place path s c gs)
    {e : Located Fault} (he : place.Fails e path s c) :
    Program.ofText text name = .error e := by
  induction hr with
  | start hc hh =>
    refine Read.fails_later hc ?_
    exact Read.fails_later hh (Read.fails_here he _)
  | enter _ hk ih => exact ih (he.enter hk)
  | plain _ hd hs ih => exact ih (.plain hd hs he)
  | routine _ hg hd ih => exact ih (.after hg hd he)
  | body _ hg hf hs hb ih => exact ih (.routine hg (routine_error_of_body hg hf hs hb he))

end Grammar

end MiniPascal
