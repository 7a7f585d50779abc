import MiniPascal.Command.Workspace
import MiniPascal.Proofs.Command.Writer
import MiniPascal.Proofs.Lowering.Flow

/-! Where the command puts the text of a program, whatever the operating system answers. -/

namespace MiniPascal

/-- A program that obeys the rules can be written to its end. -/
theorem Program.Checked.emits {p : Program} (hp : p.Checked) : p.lower.emit.failure = none := by
  obtain ⟨T, hcode, -⟩ := hp.functionsCode
  obtain ⟨-, -, hflows⟩ := hcode.flows
  obtain ⟨prelude, h⟩ := Ir.Program.emit_lines fun f hf =>
    have ⟨_, _, _, _, hflow⟩ := hflows f hf
    (Ir.Function.emit_ends hflow.settled hflow.ends).1
  rw [h]
  rfl

namespace Command

open Script Writing

/-! ### Texts -/

namespace Runtime

variable {rt : Runtime} {w : Writer}

theorem sends_writeText (text : String) : (rt.writeText text).Sends (bytesOf text) w := by
  have h : (rt.writeText text).Sends ((rt.pieces text).flatMap bytesOf) w :=
    sends_all (fun _ _ => sends_write) (rt.pieces text)
  rwa [← bytesOf_join, rt.join_pieces] at h

theorem sends_writeLines (lines : List String) :
    (rt.writeLines lines).Sends (bytesOf (String.join (lines.map (· ++ "\n")))) w := by
  rw [bytesOf_join, List.flatMap_map]
  exact sends_all (fun line _ => sends_writeText (line ++ "\n")) lines

theorem sends_emit {e : Ir.Emission} (h : e.failure = none) :
    (rt.emit e).Sends (bytesOf e.text) w := by
  have hsends : (rt.emit e).Sends (bytesOf e.text ++ []) w := by
    refine sends_andThen (sends_writeLines e.lines) fun w => ?_
    rw [h]
    exact sends_skip
  rwa [List.append_nil] at hsends

theorem complain_ensures (text : String) :
    (rt.complain text).Ensures fun _ es => ∀ e ∈ es, e.Writes .stderr := by
  refine Ensures.bind ((sends_writeText text).mono fun r es h => .pure ?_)
  rw [List.append_nil]
  exact h.writes

/-- A success is not reported, and a failure is reported on the error output. -/
theorem report_ensures (result : Except Failure Unit) :
    (rt.report result).Ensures fun exit es => (∀ e ∈ es, e.Writes .stderr) ∧
      (exit = 0 ∧ result = .ok () ∧ es = [] ∨ exit = 1 ∧ result ≠ .ok ()) := by
  rcases result with f | ⟨⟩
  · refine Ensures.bind ((complain_ensures f.describe).mono fun _ es h => .pure ?_)
    rw [List.append_nil]
    exact ⟨h, .inr ⟨rfl, nofun⟩⟩
  · exact ⟨nofun, .inl ⟨rfl, rfl, rfl⟩⟩

end Runtime

/-! ### Diagnostics -/

/-- The command ends with some diagnostics and does nothing else. A write that is refused is a
panic. -/
structure Rejects (d : Diagnostics) (exit : UInt32) (events : List Event) : Prop where
  writes : ∀ e ∈ events, e.Writes .stderr
  granted : (∀ e ∈ events, e.Granted) → exit = 1 ∧ delivered .stderr events = bytesOf d.describe
  refused : (∃ e ∈ events, ¬ e.Granted) → exit = 101

/-- A writer that keeps nothing back has handed everything over. -/
theorem Sent.delivered_eq {sink : Sink} {bytes : List UInt8} {w' : Writer} {es : List Event}
    (h : Sent (.direct sink) bytes (.ok ()) w' es) : delivered sink es = bytes := by
  have hempty : w'.pending = [] := List.length_eq_zero_iff.1 (Nat.le_zero.1 (h.room le_rfl))
  simpa [hempty, Writer.direct] using h.whole rfl

theorem Runtime.rejects (rt : Runtime) (d : Diagnostics) : (rt.reject d).Ensures (Rejects d) := by
  refine Ensures.bind ((sends_writeText d.describe).mono ?_)
  rintro ⟨_ | ⟨⟩, w⟩ es h
  · refine Ensures.bind ((complain_ensures _).mono fun _ es' h' => .pure ?_)
    rw [List.append_nil]
    refine ⟨List.forall_mem_append.2 ⟨h.writes, h'⟩, fun hgranted => ?_, fun _ => rfl⟩
    cases h.granted.2 (List.forall_mem_append.1 hgranted).1
  · refine .pure ?_
    rw [List.append_nil]
    refine ⟨h.writes, fun _ => ⟨rfl, h.delivered_eq⟩, ?_⟩
    rintro ⟨e, he, hrefused⟩
    exact absurd (h.granted.1 rfl e he) hrefused

/-! ### The text of a program -/

theorem Options.sink_cases (o : Options) :
    o.sink = none ∨ o.sink = some .stdout ∨ (∃ path, o.sink = some (.file path)) ∨
      o.sink = some (.linker o.linkerArguments) := by
  unfold Options.sink
  split
  · split
    · exact .inr (.inl rfl)
    · exact .inr (.inr (.inl ⟨_, rfl⟩))
  · split
    · exact .inl rfl
    · exact .inr (.inr (.inr rfl))

/-- Whether a request opens a sink. -/
def Request.opens : Request → Bool
  | create _ | start _ => true
  | _ => false

/-- What becomes of a text that is to go to a sink, if there is one. The command touches no other
sink, but for reports of failures. The sink gets the beginning of the text, and all of it unless a
request for the sink is refused; it gets nothing if it cannot be opened. A success means that it has
got all. -/
structure Delivers (sink : Option Sink) (text : List UInt8) (exit : UInt32)
    (events : List Event) : Prop where
  code : exit = 0 ∨ exit = 1
  elsewhere : ∀ e ∈ events, ∀ s ∈ e.request.sink?, sink = some s ∨ e.Writes .stderr
  begun : ∀ s ∈ sink, delivered s events <+: text
  whole : ∀ s ∈ sink, (∀ e ∈ events, e.request.sink? = some s → e.Granted) →
    delivered s events = text
  unopened : ∀ s ∈ sink, (∃ e ∈ events, e.request.opens = true ∧ ¬ e.Granted) →
    delivered s events = []
  success : exit = 0 → delivered .stderr events = [] ∧ ∃ s ∈ sink, delivered s events = text

/-- What has become of a text for a sink before the end is reported. -/
structure Filled (sink : Sink) (text : List UInt8) (result : Except Failure Unit)
    (events : List Event) : Prop where
  elsewhere : ∀ e ∈ events, ∀ s ∈ e.request.sink?, s = sink
  begun : delivered sink events <+: text
  whole : (∀ e ∈ events, e.request.sink? = some sink → e.Granted) → delivered sink events = text
  unopened : (∃ e ∈ events, e.request.opens = true ∧ ¬ e.Granted) → delivered sink events = []
  success : result = .ok () → delivered sink events = text

section

variable {sink : Sink} {text : List UInt8} {exit : UInt32} {result : Except Failure Unit}
  {e : Event} {es es' : List Event}

theorem Event.Writes.not_opens (h : e.Writes sink) : e.request.opens = false := by
  obtain ⟨bytes, h⟩ := h
  rw [h]
  rfl

/-- The end is reported before what was left over is tried again. -/
theorem Filled.delivers {es'' : List Event} (h : Filled sink text result (es ++ es''))
    (hne : .stderr ≠ sink) (hes' : ∀ e ∈ es', e.Writes .stderr)
    (hexit : exit = 0 ∧ result = .ok () ∧ es' = [] ∨ exit = 1 ∧ result ≠ .ok ()) :
    Delivers (some sink) text exit (es ++ (es' ++ es'')) := by
  have hdelivered : delivered sink (es ++ (es' ++ es'')) = delivered sink (es ++ es'') := by
    simp only [delivered_append, delivered_of_writes hes' hne, List.nil_append]
  have hmem {e : Event} (he : e ∈ es ++ es'') : e ∈ es ++ (es' ++ es'') := by
    rw [List.mem_append] at he
    exact he.elim (List.mem_append_left _) fun he =>
      List.mem_append_right _ (List.mem_append_right _ he)
  -- the report goes to the error output alone, so the sink has what it had without it
  refine ⟨hexit.imp And.left And.left, fun e he s hs => ?_, ?_, ?_, ?_, fun hzero => ?_⟩
  · by_cases he' : e ∈ es'
    · exact .inr (hes' e he')
    · have he'' : e ∈ es ++ es'' := by simpa [he'] using he
      rw [h.elsewhere e he'' s hs]
      exact .inl rfl
  · rintro _ ⟨⟩
    rw [hdelivered]
    exact h.begun
  · rintro _ ⟨⟩ hgranted
    rw [hdelivered]
    exact h.whole fun e he => hgranted e (hmem he)
  · rintro _ ⟨⟩ ⟨e, he, hopens, hrefused⟩
    have he'' : e ∈ es ++ es'' := by
      have hne : e ∉ es' := fun he' => by
        rw [(hes' e he').not_opens] at hopens
        cases hopens
      simpa [hne] using he
    rw [hdelivered]
    exact h.unopened ⟨e, he'', hopens, hrefused⟩
  · obtain ⟨-, hok, rfl⟩ | ⟨hone, -⟩ := hexit
    · rw [List.nil_append]
      exact ⟨delivered_eq_nil fun e he hs => hne (h.elsewhere e he _ hs), sink, rfl, h.success hok⟩
    · rw [hone] at hzero
      cases hzero

/-- A sink that has been opened is filled by the use of its writer, and what is left over is tried
once more. -/
theorem Sent.filled {w w' w'' : Writer} {result' : Except Failure Unit}
    (h : Sent w text result w' es) (hw : w.pending = []) (hw' : result = .ok () → w'.pending = [])
    (h' : Sent w' [] result' w'' es') : Filled w.sink text result (es ++ es') := by
  have hbegun := h.begun
  have hrest := h'.begun
  rw [hw, List.nil_append] at hbegun
  rw [h.sink_eq, List.append_nil] at hrest
  have hleft : delivered w.sink es' <+: w'.pending := (List.prefix_append _ _).trans hrest
  -- a use that succeeds leaves nothing over, so trying again writes nothing
  have hsuccess : result = .ok () → delivered w.sink (es ++ es') = text := by
    intro hok
    have hwhole := h.whole hok
    rw [hw' hok, List.append_nil, hw, List.nil_append] at hwhole
    rw [hw' hok] at hleft
    rw [delivered_append, hwhole, List.prefix_nil.1 hleft, List.append_nil]
  refine ⟨?_, ?_, fun hgranted => hsuccess (h.granted.2 fun e he => ?_), ?_, hsuccess⟩
  · have hsink : ∀ e ∈ es ++ es', e.request.sink? = some w.sink := List.forall_mem_append.2
      ⟨fun e he => (h.writes e he).sink?_eq, fun e he => h.sink_eq ▸ (h'.writes e he).sink?_eq⟩
    intro e he s hs
    exact (Option.some.inj ((hsink e he).symm.trans hs)).symm
  · rw [delivered_append]
    exact ((List.prefix_append_right_inj _).2 hleft).trans hbegun
  · exact hgranted e (List.mem_append_left _ he) (h.writes e he).sink?_eq
  · rintro ⟨e, he, hopens, -⟩
    have hnot : e.request.opens = false :=
      (List.mem_append.1 he).elim (fun he => (h.writes e he).not_opens)
        fun he => (h'.writes e he).not_opens
    rw [hnot] at hopens
    cases hopens

/-- An event that writes nothing, has to do with no other sink and does not fail to open it. -/
structure Event.Tends (sink : Sink) (e : Event) : Prop where
  sole : ∀ s ∈ e.request.sink?, s = sink
  taken : e.taken sink = []
  opened : e.request.opens = true → e.Granted

theorem delivered_of_tends (h : ∀ e ∈ es, e.Tends sink) : delivered sink es = [] :=
  List.flatMap_eq_nil_iff.2 fun e he => (h e he).taken

/-- The sink is opened before and closed behind, and more may fail by then. -/
theorem Filled.around {before after : List Event} {result' : Except Failure Unit}
    (h : Filled sink text result es) (hbefore : ∀ e ∈ before, e.Tends sink)
    (hafter : ∀ e ∈ after, e.Tends sink) (hresult : result' = .ok () → result = .ok ()) :
    Filled sink text result' (before ++ (es ++ after)) := by
  have hdelivered : delivered sink (before ++ (es ++ after)) = delivered sink es := by
    rw [delivered_append, delivered_append, delivered_of_tends hbefore, delivered_of_tends hafter,
      List.nil_append, List.append_nil]
  refine ⟨?_, hdelivered ▸ h.begun, fun hgranted => ?_, ?_, fun hok => ?_⟩
  · exact List.forall_mem_append.2 ⟨fun e he => (hbefore e he).sole,
      List.forall_mem_append.2 ⟨h.elsewhere, fun e he => (hafter e he).sole⟩⟩
  · rw [hdelivered]
    exact h.whole fun e he =>
      hgranted e (List.mem_append_right _ (List.mem_append_left _ he))
  · rintro ⟨e, he, hopens, hrefused⟩
    rw [hdelivered]
    simp only [List.mem_append] at he
    obtain he | he | he := he
    · exact absurd ((hbefore e he).opened hopens) hrefused
    · exact h.unopened ⟨e, he, hopens, hrefused⟩
    · exact absurd ((hafter e he).opened hopens) hrefused
  · rw [hdelivered]
    exact h.success (hresult hok)

/-- Nothing is written to a sink that is not opened. -/
theorem filled_of_refused {f : Failure} (hsink : e.request.sink? = some sink)
    (hrefused : ¬ e.Granted) (htaken : e.taken sink = []) : Filled sink text (.error f) [e] := by
  have hdelivered : delivered sink [e] = [] := by
    rw [delivered_cons, htaken, delivered_nil, List.nil_append]
  refine ⟨List.forall_mem_singleton.2 fun s hs => ?_, hdelivered ▸ List.nil_prefix,
    fun hgranted => absurd (hgranted e (List.mem_singleton.2 rfl) hsink) hrefused,
    fun _ => hdelivered, nofun⟩
  exact (Option.some.inj (hsink.symm.trans hs)).symm

end

namespace Runtime

variable (rt : Runtime) {e : Ir.Emission} (o : Options)

/-- A use of the standard output that keeps nothing back at its end. -/
theorem conclude_delivers {use : Writing} {text : List UInt8} (huse : use.Flushes text .stdout) :
    (conclude use rt.report).Ensures (Delivers (some .stdout) text) := by
  refine Ensures.bind (huse.mono ?_)
  rintro ⟨result, w⟩ es ⟨h, hempty⟩
  refine Ensures.bind ((report_ensures result).mono fun exit es' hreport => ?_)
  refine Ensures.bind (sends_flush.mono fun r es'' hflush => .pure ?_)
  rw [List.append_nil]
  exact (h.filled rfl hempty hflush).delivers nofun hreport.1 hreport.2

theorem toFile_filled (path : String) (he : e.failure = none) :
    (rt.toFile path e).Ensures (Filled (.file path) (bytesOf e.text)) := by
  have hsends : ((rt.emit e).within (String.join ["Failed to emit to file: ", path])).Sends
      (bytesOf e.text) (.direct (.file path)) := sends_within _ (sends_emit he)
  refine Ensures.request fun answer => ?_
  rcases answer with r | ⟨⟩
  · exact .pure (filled_of_refused rfl nofun rfl)
  · refine Ensures.bind (hsends.mono ?_)
    rintro ⟨result, w⟩ es h
    refine Ensures.request fun answer => .pure ?_
    have hempty : w.pending = [] := List.length_eq_zero_iff.1 (Nat.le_zero.1 (h.room le_rfl))
    have hfilled := h.filled rfl (fun _ => hempty) .nil
    rw [List.append_nil] at hfilled
    have hcreate : Event.Tends (.file path) ⟨.create path, .ok ()⟩ :=
      ⟨fun s hs => (Option.some.inj hs).symm, rfl, fun _ => rfl⟩
    have hclose : Event.Tends (.file path) ⟨.close (.file path), answer⟩ :=
      ⟨fun s hs => (Option.some.inj hs).symm, rfl, nofun⟩
    exact hfilled.around (List.forall_mem_singleton.2 hcreate)
      (List.forall_mem_singleton.2 hclose) id

theorem finish_ensures (sink : Sink) : finish.Ensures fun _ es => ∀ e ∈ es, e.Tends sink := by
  have herrors (answer) : Event.Tends sink ⟨.errors, answer⟩ := ⟨nofun, rfl, nofun⟩
  have hwait (answer) : Event.Tends sink ⟨.wait, answer⟩ := ⟨nofun, rfl, nofun⟩
  refine Ensures.request fun answer => ?_
  rcases answer with r | errors
  · exact .pure (List.forall_mem_singleton.2 (herrors _))
  · refine Ensures.request fun answer => ?_
    rcases answer with r | status <;>
      exact .pure (List.forall_mem_cons.2 ⟨herrors _, List.forall_mem_singleton.2 (hwait _)⟩)

theorem toLinker_filled (he : e.failure = none) :
    (rt.toLinker o e).Ensures (Filled (.linker o.linkerArguments) (bytesOf e.text)) := by
  refine Ensures.request fun answer => ?_
  rcases answer with r | ⟨⟩
  · exact .pure (filled_of_refused rfl nofun rfl)
  have hstart : Event.Tends (.linker o.linkerArguments) ⟨.start o.linkerArguments, .ok ()⟩ :=
    ⟨fun s hs => (Option.some.inj hs).symm, rfl, fun _ => rfl⟩
  have hclose (answer) : Event.Tends (.linker o.linkerArguments)
      ⟨.close (.linker o.linkerArguments), answer⟩ :=
    ⟨fun s hs => (Option.some.inj hs).symm, rfl, nofun⟩
  have hemit : ((rt.emit e).within "Failed to emit IR to the linker").Sends (bytesOf e.text)
      (.buffered (.linker o.linkerArguments)) := sends_within _ (sends_emit he)
  have huse := flushes_andThen hemit fun w =>
    flushes_within (String.join ["Failed to generate executable: ", o.target])
      (flushes_within "I/O error" flushes_flush)
  refine Ensures.bind (huse.mono ?_)
  rintro ⟨result, w⟩ es ⟨h, hempty⟩
  refine Ensures.bind (sends_flush.mono fun r es' hflush => ?_)
  refine Ensures.request fun answer => ?_
  -- what is behind the uses of the writer does not matter for the sink
  have hfilled {result' : Except Failure Unit} {after : List Event}
      (hafter : ∀ e ∈ after, e.Tends (.linker o.linkerArguments))
      (hresult : result' = .ok () → result = .ok ()) :
      Filled (.linker o.linkerArguments) (bytesOf e.text) result'
        (⟨.start o.linkerArguments, .ok ()⟩ ::
          (es ++ (es' ++ ⟨.close (.linker o.linkerArguments), answer⟩ :: after))) := by
    have hall := (h.filled rfl hempty hflush).around (List.forall_mem_singleton.2 hstart)
      (List.forall_mem_cons.2 ⟨hclose answer, hafter⟩) hresult
    rwa [List.append_assoc] at hall
  rcases result with f | ⟨⟩
  · exact .pure (hfilled nofun nofun)
  · have hfinish := finish_ensures (.linker o.linkerArguments)
    refine Ensures.bind (hfinish.mono fun result' es'' hes => .pure ?_)
    rw [List.append_nil]
    exact hfilled hes fun _ => rfl

/-- The text of a program is delivered to the sink that the options ask for. -/
theorem delivers (he : e.failure = none) :
    (rt.deliver o e).Ensures (Delivers o.sink (bytesOf e.text)) := by
  have hreport {sink : Sink} {x : Script (Except Failure Unit)} (hne : .stderr ≠ sink)
      (h : x.Ensures (Filled sink (bytesOf e.text))) :
      (x >>= rt.report).Ensures (Delivers (some sink) (bytesOf e.text)) := by
    refine Ensures.bind (h.mono fun result es h => (report_ensures result).mono ?_)
    rintro exit es' ⟨hes', hexit⟩
    rw [← List.append_nil es] at h
    have hdelivers := h.delivers hne hes' hexit
    rwa [List.append_nil] at hdelivers
  unfold deliver
  obtain hsink | hsink | ⟨path, hsink⟩ | hsink := o.sink_cases <;> rw [hsink]
  · -- no executable goes to the standard output
    refine (report_ensures _).mono ?_
    rintro exit es ⟨hes, ⟨-, hok, -⟩ | ⟨rfl, -⟩⟩
    · cases hok
    · exact ⟨.inr rfl, fun e he s hs => .inr (hes e he), nofun, nofun, nofun, nofun⟩
  · exact rt.conclude_delivers (flushes_andThen
      (sends_within "Failed to emit to stdout" (sends_emit he)) fun _ => flushes_flush)
  · exact hreport nofun (rt.toFile_filled path he)
  · exact hreport nofun (rt.toLinker_filled o he)

end Runtime

/-! ### Runs -/

section

variable {σ : Type} {system : System σ} {start : σ} {rt : Runtime} {o : Options} {text : String}

theorem run_main (hread : (system (.read o.input) start).1 = .ok text)
    (htokens : o.tokens = false) :
    (rt.main o).run system start =
      let rest := (rt.compile o ⟨o.input, text⟩).run system (system (.read o.input) start).2
      { rest with events := ⟨.read o.input, .ok text⟩ :: rest.events } := by
  rcases h : system (.read o.input) start with ⟨answer, s⟩
  rw [h] at hread
  obtain rfl : answer = .ok text := hread
  have hcompile : (if o.tokens then rt.printTokens ⟨o.input, text⟩
      else rt.compile o ⟨o.input, text⟩) = rt.compile o ⟨o.input, text⟩ := by
    rw [htokens]
    rfl
  show Script.run system (.ask (.read o.input) _) start = _
  rw [Script.run, h, ← hcompile]
  rfl

/-- On every operating system that has the text of the input, the command delivers nothing but
diagnostics for what is no program. Of a program it delivers the text, to the one sink that the
options ask for. -/
theorem main_delivers (hread : (system (.read o.input) start).1 = .ok text)
    (htokens : o.tokens = false) :
    ∃ es, ((rt.main o).run system start).events = ⟨.read o.input, .ok text⟩ :: es ∧
      (∀ e, Program.ofText text o.input = .error e →
        Rejects (faultDiagnostics ⟨o.input, text⟩ e) ((rt.main o).run system start).value es) ∧
      ∀ p, Program.ofText text o.input = .ok p → o.ast = false →
        p.lower.emit.failure = none ∧
          Delivers o.sink (bytesOf p.lower.emit.text) ((rt.main o).run system start).value es := by
  rw [run_main hread htokens]
  refine ⟨_, rfl, fun e he => ?_, fun p hp hast => ?_⟩
  · have hcompile : rt.compile o ⟨o.input, text⟩ =
        rt.reject (faultDiagnostics ⟨o.input, text⟩ e) := by
      rw [Runtime.compile, he]
    rw [hcompile]
    exact (rt.rejects _).run system _
  · have hemits := (Program.ofText_checked hp).1.emits
    have hcompile : rt.compile o ⟨o.input, text⟩ = rt.deliver o p.lower.emit := by
      rw [Runtime.compile, hp]
      simp [hast]
    rw [hcompile]
    exact ⟨hemits, (rt.delivers o hemits).run system _⟩

end

/-- A text for a file, in a folder with nothing else in it. -/
theorem main_delivers_file :
    ∃ p es, Program.ofText "begin write('hi') end." "in.pas" = .ok p ∧
      Delivers (some (.file "out.ll")) (bytesOf p.lower.emit.text)
        ((Runtime.plain.main ⟨"in.pas", true, true, some "out.ll", false, false⟩).run
          Workspace.system ⟨⟨[("in.pas", "begin write('hi') end.")]⟩, none, none⟩).value es := by
  obtain ⟨p, hp, -⟩ := @Program.exists_ofText "begin write('hi') end." "in.pas" (fun _ => true)
    (by decide +kernel)
  have hread : (Workspace.system (.read "in.pas")
      ⟨⟨[("in.pas", "begin write('hi') end.")]⟩, none, none⟩).1 =
        .ok "begin write('hi') end." := by decide +kernel
  obtain ⟨es, -, -, h⟩ := @main_delivers _ _ _ Runtime.plain
    ⟨"in.pas", true, true, some "out.ll", false, false⟩ _ hread rfl
  exact ⟨p, es, hp, (h p hp rfl).2⟩

/-- An operating system that has a text to read and refuses all other requests. -/
def refusing (text : String) : System Unit
  | .read _, s => (.ok text, s)
  | _, s => (.error ⟨Directory.noSpace, 0⟩, s)

/-- A device may be opened and take nothing of a text, and there may be no room for diagnostics. -/
theorem main_falls_short :
    (∃ p, Program.ofText "begin end." "in.pas" = .ok p ∧
      let r := (Runtime.plain.main ⟨"in.pas", true, false, some "/dev/full", false, false⟩).run
        Workspace.system ⟨⟨[("in.pas", "begin end.")]⟩, none, none⟩
      (∃ e ∈ r.events, e.request = .create "/dev/full" ∧ e.answer.isOk = true) ∧
        delivered (.file "/dev/full") r.events ≠ bytesOf p.lower.emit.text) ∧
    ∃ e, Program.ofText "end" "in.pas" = .error e ∧
      let r := (Runtime.plain.main ⟨"in.pas", true, false, none, false, false⟩).run
        (refusing "end") ()
      r.value ≠ 1 ∧ delivered .stderr r.events ≠
        bytesOf (faultDiagnostics ⟨"in.pas", "end"⟩ e).describe := by
  constructor
  · -- the device is opened, and takes nothing
    obtain ⟨p, hp, htext⟩ := @Program.exists_ofText "begin end." "in.pas"
      (fun p => bytesOf p.lower.emit.text ≠ []) (by decide +kernel)
    refine ⟨p, hp, by decide +kernel, ?_⟩
    have hnothing : delivered (.file "/dev/full")
        ((Runtime.plain.main ⟨"in.pas", true, false, some "/dev/full", false, false⟩).run
          Workspace.system ⟨⟨[("in.pas", "begin end.")]⟩, none, none⟩).events = [] := by
      decide +kernel
    rw [hnothing]
    exact (of_decide_eq_true htext).symm
  · -- the diagnostics cannot be written, so the command panics
    obtain ⟨e, he, htext⟩ := @Program.exists_refusal "end" "in.pas"
      (fun e => bytesOf (faultDiagnostics ⟨"in.pas", "end"⟩ e).describe ≠ []) (by decide +kernel)
    refine ⟨e, he, by decide +kernel, ?_⟩
    have hnothing : delivered .stderr
        ((Runtime.plain.main ⟨"in.pas", true, false, none, false, false⟩).run
          (refusing "end") ()).events = [] := by decide +kernel
    rw [hnothing]
    exact (of_decide_eq_true htext).symm

end Command

end MiniPascal
