import MiniPascal.Proofs.Token.Calls
import MiniPascal.Proofs.Trace.Program

/-! Cutting a text and reading it come to an end. -/

namespace MiniPascal

namespace Event

/-- How many tokens are left where one is fetched. -/
def fetched? : Event → Option Nat
  | fetch left => some left
  | enter .. => none

/-- How many tokens are left where a rule starts. -/
def entered? (r : Rule) : Event → Option Nat
  | fetch _ => none
  | enter r' left => if r' = r then some left else none

variable {e : Event} {r : Rule} {n : Nat}

theorem level_of_fetched (h : e.fetched? = some n) : e.level = 64 * n := by
  cases e with
  | fetch left =>
    obtain rfl := Option.some.inj h
    rfl
  | enter r left => cases h

theorem level_of_entered (h : e.entered? r = some n) : e.level = r.level n := by
  cases e with
  | fetch left => cases h
  | enter r' left =>
    have h : (if r' = r then some left else none) = some n := h
    by_cases hr : r' = r
    · rw [if_pos hr] at h
      obtain rfl := Option.some.inj h
      rw [← hr]
      rfl
    · rw [if_neg hr] at h
      cases h

end Event

namespace Traced

variable {α : Type} (m : Traced α)

/-- The fetches on the way, each with the number of tokens left. -/
def fetches : List Nat := m.trace.filterMap Event.fetched?

/-- The starts of a rule on the way, each with the number of tokens left. -/
def entries (r : Rule) : List Nat := m.trace.filterMap (Event.entered? r)

end Traced

namespace Traces

variable {α : Type} {r : Read α} {m : Traced α} {hi : Nat} {lo : α → Nat}

theorem falling (h : Traces r m hi lo) : m.trace.Pairwise fun e e' => e'.level < e.level :=
  List.pairwise_map.1 h.falls

/-- Between two fetches tokens are consumed. -/
theorem fetches_pairwise (h : Traces r m hi lo) : m.fetches.Pairwise (· > ·) := by
  apply List.Pairwise.filterMap _ _ h.falling
  intro e e' hlt n hn n' hn'
  rw [Event.level_of_fetched hn, Event.level_of_fetched hn'] at hlt
  omega

/-- Between two starts of one rule tokens are consumed. -/
theorem entries_pairwise (h : Traces r m hi lo) (rule : Rule) :
    (m.entries rule).Pairwise (· > ·) := by
  apply List.Pairwise.filterMap _ _ h.falling
  intro e e' hlt n hn n' hn'
  rw [Event.level_of_entered hn, Event.level_of_entered hn'] at hlt
  unfold Rule.level at hlt
  omega

theorem fetches_lt (h : Traces r m hi lo) : ∀ n ∈ m.fetches, 64 * n < hi := by
  intro n hn
  obtain ⟨e, he, hfetched⟩ := List.mem_filterMap.1 hn
  rw [← Event.level_of_fetched hfetched]
  exact h.below e he

/-- Falling numbers below a bound are no more than the bound. -/
theorem length_le_of_falling {ns : List Nat} {bound : Nat} (hfalls : ns.Pairwise (· > ·))
    (hlt : ∀ n ∈ ns, n < bound) : ns.length ≤ bound := by
  induction ns generalizing bound with
  | nil => exact Nat.zero_le bound
  | cons n ns ih =>
    obtain ⟨hn, hns⟩ := List.pairwise_cons.1 hfalls
    have hlength : ns.length ≤ n := ih hns hn
    have hbound : n < bound := hlt n List.mem_cons_self
    rw [List.length_cons]
    omega

end Traces

/-! ### The tokenizer -/

open Token

namespace Tokenizer

/-- The answers to so many calls for the next result. -/
def calls : Nat → Tokenizer → List (Option Result)
  | 0, _ => []
  | k + 1, t => t.next?.1 :: calls k t.next?.2

theorem calls_finished (k : Nat) {t : Tokenizer} (h : t.finished = true) :
    t.calls k = List.replicate k none := by
  induction k with
  | zero => rfl
  | succ k ih =>
    have hnext : t.next? = (none, t) := by rw [next?, if_pos h]
    rw [calls, hnext, List.replicate_succ, ih]

/-- The calls give the pending results, and then no more. -/
theorem calls_eq (k : Nat) {t : Tokenizer} (h : t.finished = false)
    (hpending : ∀ r ∈ t.pending, ¬ IsEnd r) :
    t.calls k = (t.pending.take k).map some ++ List.replicate (k - t.pending.length) none := by
  induction k generalizing t with
  | zero =>
    rw [List.take_zero, Nat.zero_sub]
    rfl
  | succ k ih =>
    obtain ⟨pending, stop, current, finished⟩ := t
    obtain rfl : finished = false := h
    cases pending with
    | nil =>
      have hcalls := calls_finished k (t := ⟨[], stop, some (.endOfFile stop), true⟩) rfl
      rw [calls, next?_nil, hcalls]
      rfl
    | cons r rest =>
      obtain ⟨hr, hrest⟩ := List.forall_mem_cons.1 hpending
      obtain ⟨current', hnext⟩ := next?_cons rest stop current hr
      have hmore := ih (t := ⟨rest, stop, current', false⟩) rfl hrest
      rw [calls, hnext, hmore, List.length_cons, Nat.add_sub_add_right]
      rfl

end Tokenizer

/-- Cutting a text and reading it come to an end. A run of the automaton ends at the end of the text
or cuts off a piece. So the calls of the tokenizer give no more results than the text has
characters, and behind them none. A program is read, or an error is found, with at most two fetches
more than there are tokens and lexical errors, and whenever a rule starts again on the way, fewer of
them are left. -/
theorem frontEnd_terminates :
    (∀ cs, match automaton cs with
      | none => cs = []
      | some cut => cut.text ≠ [] ∧ cut.text ++ cut.rest = cs) ∧
    (∀ text keep k,
      (Tokenizer.ofText text keep).calls k = ((scan text keep).take k).map some ++
        List.replicate (k - (scan text keep).length) none ∧
      (scan text keep).length ≤ text.length) ∧
    ∀ text name, (Traced.ofText text name).outcome = Program.ofText text name ∧
      (Traced.ofText text name).fetches.length ≤ (scan text false).length + 2 ∧
      ∀ r, ((Traced.ofText text name).entries r).Pairwise (· > ·) := by
  refine ⟨?_, ?_, ?_⟩
  · intro cs
    cases cs with
    | nil => rfl
    | cons c cs =>
      obtain ⟨piece, htext, -⟩ := lexeme_of c cs
      rw [automaton_lexeme]
      dsimp only
      constructor
      · rw [htext]
        exact List.cons_ne_nil c piece
      · exact lexeme_append c cs
  · intro text keep k
    constructor
    · apply Tokenizer.calls_eq k rfl
      intro r hr
      exact scan_not_isEnd hr
    · have hlength := scanFrom_length_le keep Position.start text.toList
      rwa [String.length_toList] at hlength
  · intro text name
    have htraces := Traces.ofText text name
    have hfetches : (Traced.ofText text name).fetches.length ≤ (scan text false).length + 2 := by
      -- the levels of the fetches fall, so there are no more of them than levels
      apply Traces.length_le_of_falling htraces.fetches_pairwise
      intro n hn
      have hlt := htraces.fetches_lt n hn
      omega
    exact ⟨htraces.outcome, hfetches, htraces.entries_pairwise⟩

end MiniPascal
