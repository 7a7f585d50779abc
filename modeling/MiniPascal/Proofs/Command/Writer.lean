import Mathlib.Data.List.Basic
import MiniPascal.Command.Writer
import MiniPascal.Source.Utf8

/-! What a writer has handed over, whatever becomes of its requests. -/

namespace MiniPascal.Command

/-! ### Scripts -/

namespace Script

variable {α β σ : Type}

/-- However the requests of a script are answered, its value and its events have a property. -/
def Ensures : Script α → (α → List Event → Prop) → Prop
  | done a, Q => Q a []
  | ask r next, Q => ∀ answer, (next answer).Ensures fun a es => Q a (⟨r, answer⟩ :: es)

variable {x : Script α} {f : α → Script β} {Q P : α → List Event → Prop}
  {R : β → List Event → Prop}

theorem Ensures.mono (h : x.Ensures Q) (hQ : ∀ a es, Q a es → P a es) : x.Ensures P := by
  induction x generalizing Q P with
  | done a => exact hQ a [] h
  | ask r next ih => exact fun answer => ih answer (h answer) fun a es => hQ a _

theorem Ensures.bind (h : x.Ensures fun a es => (f a).Ensures fun b es' => R b (es ++ es')) :
    (x >>= f).Ensures R := by
  induction x generalizing R with
  | done a => exact h
  | ask r next ih => exact fun answer => ih answer (h answer)

theorem Ensures.pure {a : α} (h : Q a []) : (Pure.pure a : Script α).Ensures Q := h

theorem Ensures.request {r : Request} {f : r.Answer → Script β}
    (h : ∀ answer, (f answer).Ensures fun b es => R b (⟨r, answer⟩ :: es)) :
    (Script.request r >>= f).Ensures R := h

/-- The property holds of every run. -/
theorem Ensures.run (h : x.Ensures Q) (system : System σ) (s : σ) :
    Q (x.run system s).value (x.run system s).events := by
  induction x generalizing Q s with
  | done a => exact h
  | ask r next ih => exact ih _ (h (system r s).1) (system r s).2

end Script

/-! ### Bytes -/

theorem bytesOf_append (s t : String) : bytesOf (s ++ t) = bytesOf s ++ bytesOf t := by
  simp only [bytesOf, toUTF8_toList, String.toList_append, List.flatMap_append]

theorem bytesOf_join (ss : List String) : bytesOf (String.join ss) = ss.flatMap bytesOf := by
  induction ss with
  | nil => simp [bytesOf, String.join]
  | cons s ss ih => rw [String.join_cons, bytesOf_append, ih, List.flatMap_cons]

/-! ### Events -/

section

variable {e : Event} {es es' : List Event} {sink : Sink}

@[simp]
theorem delivered_nil : delivered sink [] = [] := rfl

@[simp]
theorem delivered_cons : delivered sink (e :: es) = e.taken sink ++ delivered sink es := rfl

@[simp]
theorem delivered_append : delivered sink (es ++ es') = delivered sink es ++ delivered sink es' :=
  List.flatMap_append

theorem Event.taken_eq_nil (h : e.request.sink? ≠ some sink) : e.taken sink = [] := by
  obtain ⟨r, answer⟩ := e
  cases r with
  | write target bytes => exact if_neg fun hsink => h (congrArg some hsink)
  | _ => rfl

theorem delivered_eq_nil (h : ∀ e ∈ es, e.request.sink? ≠ some sink) : delivered sink es = [] :=
  List.flatMap_eq_nil_iff.2 fun e he => Event.taken_eq_nil (h e he)

/-- The event is a write to the sink. -/
def Event.Writes (sink : Sink) (e : Event) : Prop := ∃ bytes, e.request = .write sink bytes

theorem Event.Writes.sink?_eq (h : e.Writes sink) : e.request.sink? = some sink := by
  obtain ⟨bytes, h⟩ := h
  rw [h]
  rfl

theorem delivered_of_writes {other : Sink} (h : ∀ e ∈ es, e.Writes sink) (hne : sink ≠ other) :
    delivered other es = [] := by
  refine delivered_eq_nil fun e he => ?_
  rw [(h e he).sink?_eq]
  exact fun hsink => hne (Option.some.inj hsink)

end

/-! ### Uses of a writer -/

theorem mapError_eq_ok (message : String) {result : Except Failure Unit} :
    result.mapError (Failure.within message) = .ok () ↔ result = .ok () := by
  cases result with
  | ok => rfl
  | error f => exact iff_of_false nofun nofun

/-- What has become of a writer that was to write some bytes. What it has handed over and what it
keeps back are the beginning of the bytes, and all of them unless a request was refused. -/
structure Sent (w : Writer) (bytes : List UInt8) (result : Except Failure Unit) (w' : Writer)
    (events : List Event) : Prop where
  writer : w' = { w with pending := w'.pending }
  writes : ∀ e ∈ events, e.Writes w.sink
  room : w.pending.length ≤ w.capacity → w'.pending.length ≤ w.capacity
  begun : delivered w.sink events ++ w'.pending <+: w.pending ++ bytes
  whole : result = .ok () → delivered w.sink events ++ w'.pending = w.pending ++ bytes
  granted : result = .ok () ↔ ∀ e ∈ events, e.Granted

namespace Sent

variable {w w' w'' : Writer} {bytes bytes' : List UInt8} {result : Except Failure Unit}
  {f : Failure} {es es' : List Event}

theorem of_eq (hw : w' = { w with pending := w'.pending })
    (hes : ∀ e ∈ es, e.Writes w.sink ∧ e.Granted)
    (hroom : w.pending.length ≤ w.capacity → w'.pending.length ≤ w.capacity)
    (h : delivered w.sink es ++ w'.pending = w.pending ++ bytes) : Sent w bytes (.ok ()) w' es where
  writer := hw
  writes e he := (hes e he).1
  room := hroom
  begun := h ▸ List.prefix_rfl
  whole _ := h
  granted := iff_of_true rfl fun e he => (hes e he).2

theorem nil : Sent w [] (.ok ()) w [] :=
  of_eq rfl nofun id (List.append_nil _).symm

theorem sink_eq (h : Sent w bytes result w' es) : w'.sink = w.sink := by
  rw [h.writer]

theorem capacity_eq (h : Sent w bytes result w' es) : w'.capacity = w.capacity := by
  rw [h.writer]

/-- Nothing is written behind a failure. -/
theorem stop (h : Sent w bytes (.error f) w' es) : Sent w (bytes ++ bytes') (.error f) w' es where
  writer := h.writer
  writes := h.writes
  room := h.room
  begun := by
    rw [← List.append_assoc]
    exact h.begun.trans (List.prefix_append _ _)
  whole := nofun
  granted := h.granted

/-- More bytes are written behind those that have been written. -/
theorem andThen (h : Sent w bytes (.ok ()) w' es) (h' : Sent w' bytes' result w'' es') :
    Sent w (bytes ++ bytes') result w'' (es ++ es') := by
  have hsink := h.sink_eq
  have hwhole : delivered w.sink (es ++ es') ++ w''.pending =
      delivered w.sink es ++ (delivered w'.sink es' ++ w''.pending) := by
    rw [delivered_append, List.append_assoc, hsink]
  have hsofar : w.pending ++ (bytes ++ bytes') =
      delivered w.sink es ++ (w'.pending ++ bytes') := by
    rw [← List.append_assoc, ← h.whole rfl, List.append_assoc]
  refine ⟨?_, ?_, fun hroom => ?_, ?_, fun hok => ?_, ?_⟩
  · rw [h'.writer, h.writer]
  · exact List.forall_mem_append.2 ⟨h.writes, hsink ▸ h'.writes⟩
  · have hcapacity := h.capacity_eq
    rw [← hcapacity] at hroom ⊢
    exact h'.room (hcapacity.symm ▸ h.room (hcapacity ▸ hroom))
  · rw [hwhole, hsofar]
    exact (List.prefix_append_right_inj _).2 h'.begun
  · rw [hwhole, hsofar, h'.whole hok]
  · rw [h'.granted, List.forall_mem_append, ← h.granted]
    exact (and_iff_right rfl).symm

theorem mapError (message : String) (h : Sent w bytes result w' es) :
    Sent w bytes (result.mapError (Failure.within message)) w' es := by
  have hok : result.mapError _ = .ok () ↔ result = .ok () := mapError_eq_ok message
  exact ⟨h.writer, h.writes, h.room, h.begun, fun h' => h.whole (hok.1 h'), hok.trans h.granted⟩

end Sent

/-- The use of a writer writes some bytes. -/
def Writing.Sends (use : Writing) (bytes : List UInt8) (w : Writer) : Prop :=
  (use w).Ensures fun r es => Sent w bytes r.1 r.2 es

namespace Writing

open Script

variable {first second use : Writing} {bytes bytes' : List UInt8} {w : Writer}

theorem sends_skip : skip.Sends [] w := Sent.nil

theorem sends_andThen (hfirst : first.Sends bytes w) (hsecond : ∀ w, second.Sends bytes' w) :
    (first.andThen second).Sends (bytes ++ bytes') w := by
  refine Ensures.bind (hfirst.mono ?_)
  rintro ⟨_ | ⟨⟩, w'⟩ es h
  · exact .pure (by rw [List.append_nil]; exact h.stop)
  · exact (hsecond w').mono fun r es' h' => h.andThen h'

theorem within_ensures {Q : Except Failure Unit → Writer → List Event → Prop} (message : String)
    (h : (use w).Ensures fun r es => Q r.1 r.2 es)
    (hQ : ∀ result w' es, Q result w' es → Q (result.mapError (Failure.within message)) w' es) :
    (use.within message w).Ensures fun r es => Q r.1 r.2 es := by
  refine Ensures.bind (h.mono ?_)
  rintro ⟨result, w'⟩ es h
  refine .pure ?_
  rw [List.append_nil]
  exact hQ result w' es h

theorem sends_within (message : String) (h : use.Sends bytes w) :
    (use.within message).Sends bytes w :=
  within_ensures message h fun _ _ _ h => h.mapError message

theorem sends_all {ι : Type} {f : ι → Writing} {g : ι → List UInt8}
    (h : ∀ i w, (f i).Sends (g i) w) (l : List ι) : (all (l.map f)).Sends (l.flatMap g) w := by
  induction l generalizing w with
  | nil => exact sends_skip
  | cons i l ih => exact sends_andThen (h i w) fun _ => ih

/-- A refused write leaves the beginning of the bytes. -/
theorem sent_refused {bs rest : List UInt8} {f : Failure} {r : Refusal} {w' : Writer}
    (hw : w' = { w with pending := rest }) (hroom : rest.length ≤ w.pending.length)
    (h : bs.take r.taken ++ rest <+: w.pending ++ bytes) :
    Sent w bytes (.error f) w' [⟨.write w.sink bs, .error r⟩] where
  writer := by rw [hw]
  writes := List.forall_mem_singleton.2 ⟨bs, rfl⟩
  room := by
    rw [hw]
    exact Nat.le_trans hroom
  begun := by
    rw [hw]
    simpa [Event.taken] using h
  whole := nofun
  granted := iff_of_false nofun fun hgranted => nomatch hgranted _ (List.mem_singleton.2 rfl)

theorem sends_handOver (hw : w.pending = []) : (handOver bytes).Sends bytes w := by
  unfold Sends handOver
  split
  · next h =>
    rw [h]
    exact sends_skip
  · rintro (r | ⟨⟩)
    · have hself : w = { w with pending := [] } := by rw [← hw]
      refine sent_refused hself (Nat.zero_le _) ?_
      rw [hw, List.append_nil]
      exact List.take_prefix _ _
    · refine .of_eq rfl (List.forall_mem_singleton.2 ⟨⟨bytes, rfl⟩, rfl⟩) id ?_
      simp [Event.taken, hw]

/-- The use of a writer writes some bytes and keeps nothing back unless it fails. -/
def Flushes (use : Writing) (bytes : List UInt8) (w : Writer) : Prop :=
  (use w).Ensures fun r es => Sent w bytes r.1 r.2 es ∧ (r.1 = .ok () → r.2.pending = [])

theorem flushes_flush : flush.Flushes [] w := by
  unfold Flushes flush
  split
  · next h => exact ⟨Sent.nil, fun _ => h⟩
  · rintro (r | ⟨⟩)
    · refine ⟨sent_refused rfl (List.length_drop ▸ Nat.sub_le _ _) ?_, nofun⟩
      exact ⟨[], by rw [List.append_nil, List.append_nil, List.take_append_drop]⟩
    · refine ⟨.of_eq rfl (List.forall_mem_singleton.2 ⟨⟨_, rfl⟩, rfl⟩) (fun _ => Nat.zero_le _) ?_,
        fun _ => rfl⟩
      simp [Event.taken]

theorem sends_flush : flush.Sends [] w := flushes_flush.mono fun _ _ h => h.1

theorem flushes_within (message : String) (h : use.Flushes bytes w) :
    (use.within message).Flushes bytes w :=
  within_ensures (Q := fun result w' es => Sent w bytes result w' es ∧
      (result = .ok () → w'.pending = [])) message h
    fun _ _ _ h => ⟨h.1.mapError message, fun hok => h.2 ((mapError_eq_ok message).1 hok)⟩

theorem flushes_andThen (huse : use.Sends bytes w) (hflush : ∀ w, second.Flushes [] w) :
    (use.andThen second).Flushes bytes w := by
  refine Ensures.bind (huse.mono ?_)
  rintro ⟨_ | ⟨⟩, w'⟩ es h
  · refine .pure ?_
    rw [List.append_nil]
    exact ⟨h, nofun⟩
  · refine (hflush w').mono fun r es' h' => ⟨?_, h'.2⟩
    have hsent := h.andThen h'.1
    rwa [List.append_nil] at hsent

/-- Bytes are handed over past the buffer only when nothing is in it. -/
theorem sends_put : (put bytes).Sends bytes w := by
  -- behind a flush, or where there is room
  have hbehind {w : Writer} (h : w.pending.length + bytes.length ≤ w.capacity ∨ w.pending = []) :
      (if w.capacity ≤ bytes.length then handOver bytes else keep bytes).Sends bytes w := by
    split
    · next hlarge =>
      refine sends_handOver (h.elim (fun hroom => ?_) id)
      exact List.length_eq_zero_iff.1 (by omega)
    · next hsmall =>
      refine Sent.of_eq rfl nofun (fun hroom => ?_) (List.nil_append _)
      show (w.pending ++ bytes).length ≤ w.capacity
      rw [List.length_append]
      rcases h with h | h
      · exact h
      · rw [h, List.length_nil]
        omega
  unfold Sends put
  dsimp only
  split
  · refine Ensures.bind (flushes_flush.mono ?_)
    rintro ⟨_ | ⟨⟩, w'⟩ es ⟨h, hempty⟩
    · exact .pure (by rw [List.append_nil]; exact h.stop)
    · have hcapacity : w'.capacity = w.capacity := h.capacity_eq
      rw [← hcapacity]
      exact (hbehind (.inr (hempty rfl))).mono fun r es' h' => h.andThen h'
  · next hroom => exact hbehind (.inl (Nat.le_of_not_lt hroom))

theorem splitLast_append (bytes : List UInt8) :
    (splitLast bytes).1 ++ (splitLast bytes).2 = bytes := by
  rw [splitLast, ← List.reverse_append, List.takeWhile_append_dropWhile, List.reverse_reverse]

theorem sends_putLines : (putLines bytes).Sends bytes w := by
  have happend := splitLast_append bytes
  unfold Sends putLines
  rcases hsplit : splitLast bytes with ⟨lines, rest⟩
  rw [hsplit] at happend
  dsimp only at happend ⊢
  rw [← happend]
  refine sends_andThen ?_ fun w => sends_put
  split
  · next hlines =>
    rw [hlines]
    split
    · exact sends_flush
    · exact sends_skip
  · split
    · next hw => exact sends_handOver hw
    · have h : ((put lines).andThen flush).Sends (lines ++ []) w :=
        sends_andThen sends_put fun w => sends_flush
      rwa [List.append_nil] at h

theorem sends_write : (write bytes).Sends bytes w := by
  unfold Sends write
  split
  · exact sends_putLines
  · exact sends_put

end Writing

end MiniPascal.Command
