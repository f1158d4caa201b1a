import CppEtudes.Stackcollapse.Model.Stackcollapse

/-!
# Sections and what is left of them

The sections of an input by its events alone: a complete one, an
unfinished one, and what may follow it (`Open.next`). The script follows
that reading (`Open.Holds.transfer`). A line that may not follow is where
it starts over, so that what it prints are the sections behind the last
such place (`mem_stack_run_iff`).
-/

namespace CppEtudes

namespace Stackcollapse

open Calltree

variable {t : Text} {ctx : Ctx} {es : List Event}

/-! ## Reading the events -/

/-- `$ctx->{thread}` of a header. -/
def threadText (threadName threadId : Text) : Text :=
  threadName ++ "(thread_id=".toList ++ threadId ++ ")".toList

/-- **A complete section**: a header, a first frame and at least one more. -/
structure Section where
  threadName : Text
  threadId : Text
  first : Text
  rest : List Text
  rest_ne_nil : rest ≠ []

namespace Section

/-- Its events, up to the blank line or the end of the input. -/
def events (s : Section) : List Event :=
  .sectBegin s.threadName s.threadId :: .sectFirst s.first :: s.rest.map .sectRest ++ [.sectEnd]

/-- Its collapsed stack: the thread, and the frames with the first one
last. -/
def collapsed (s : Section) : Text :=
  ";".toList.intercalate (threadText s.threadName s.threadId :: (s.first :: s.rest).reverse)

/-- The line the script prints for it. -/
def printed (s : Section) : Text := s.collapsed ++ " 1".toList

end Section

/-- An unfinished section, or none. -/
inductive Open
  | none
  | header (threadName threadId : Text)
  | frames (threadName threadId first : Text) (rest : List Text)

namespace Open

def events : Open → List Event
  | .none => []
  | .header threadName threadId => [.sectBegin threadName threadId]
  | .frames threadName threadId first rest =>
    .sectBegin threadName threadId :: .sectFirst first :: rest.map .sectRest

/-- **What an event makes of it**: what is unfinished then and the section
that was completed, or nothing where the event is out of order. -/
def next : Open → Event → Option (Open × List Section)
  | .none, .sectBegin threadName threadId => some (.header threadName threadId, [])
  | .header threadName threadId, .sectFirst first =>
    some (.frames threadName threadId first [], [])
  | .frames threadName threadId first rest, .sectRest frame =>
    some (.frames threadName threadId first (rest ++ [frame]), [])
  | .frames threadName threadId first (frame :: rest), .sectEnd =>
    some (.none, [⟨threadName, threadId, first, frame :: rest, List.cons_ne_nil _ _⟩])
  | _, _ => Option.none

/-- No event is lost. -/
theorem events_next {o o' : Open} {e : Event} {ss : List Section} (h : o.next e = some (o', ss)) :
    ss.flatMap Section.events ++ o'.events = o.events ++ [e] := by
  unfold next at h
  split at h
  · cases h; rfl
  · cases h; rfl
  · cases h
    simp only [events, List.flatMap_nil, List.nil_append, List.map_append, List.map_singleton,
      List.cons_append]
  · cases h
    simp only [events, Section.events, List.flatMap_cons, List.flatMap_nil, List.append_nil]
  · cases h

/-- **The script has read the unfinished section** and nothing behind it. -/
def Holds (ctx : Ctx) : Open → Prop
  | .none => ctx.state = .sectEnd
  | .header threadName threadId => ctx.state = .sectBegin ∧
    ctx.thread = some (threadText threadName threadId) ∧ ctx.partialStack = some []
  | .frames threadName threadId first rest =>
    ctx.state = (if rest = [] then .sectFirst else .sectRest) ∧
    ctx.thread = some (threadText threadName threadId) ∧
    ctx.partialStack = some (first :: rest).reverse

/-- An event out of order starts the script over. -/
theorem Holds.transfer_eq_init {o : Open} {e : Event} (h : o.Holds ctx)
    (he : o.next e = Option.none) : ctx.transfer e = Ctx.init := by
  have herr : ∀ {sect : Sect}, ctx.state = sect → Ctx.stateTrans sect e = Option.none →
      ctx.transfer e = Ctx.init := by
    intro sect hstate htrans
    rw [Ctx.transfer, hstate, htrans]
    rfl
  cases o with
  | none => cases e <;> first | exact herr h rfl | cases he
  | header threadName threadId => cases e <;> first | exact herr h.1 rfl | cases he
  | frames threadName threadId first rest =>
    cases rest with
    | nil => cases e <;> first | exact herr h.1 rfl | cases he
    | cons frame rest => cases e <;> first | exact herr h.1 rfl | cases he

/-- The end of a section with frames collects them. -/
theorem mem_stack_sectEnd {frames : List Text} (h : ctx.partialStack = some frames)
    (hne : frames ≠ []) : t ∈ ctx.sectEnd.stack ↔
      t ∈ ctx.stack ∨ t = ";".toList.intercalate (ctx.thread.getD [] :: frames) := by
  obtain ⟨frame, frames, rfl⟩ := List.exists_cons_of_ne_nil hne
  simp only [Ctx.sectEnd, h, AList.mem_insert]
  exact or_comm

/-- **One step.** The script follows an event that is in order, and
collects the section that it completes. -/
theorem Holds.transfer {o o' : Open} {e : Event} {ss : List Section} (h : o.Holds ctx)
    (he : o.next e = some (o', ss)) :
    o'.Holds (ctx.transfer e) ∧
      ∀ t, t ∈ (ctx.transfer e).stack ↔ t ∈ ctx.stack ∨ t ∈ ss.map Section.collapsed := by
  have hstep : ∀ {sect : Sect} {f : Ctx → Ctx}, ctx.state = sect →
      Ctx.stateTrans sect e = some f → ctx.transfer e = { f ctx with state := e.sect } := by
    intro sect f hstate htrans
    rw [Ctx.transfer, hstate, htrans]
  unfold next at he
  split at he
  · cases he
    rw [hstep h rfl]
    exact ⟨⟨rfl, rfl, rfl⟩, fun t => by simp [Ctx.sectBegin]⟩
  · cases he
    obtain ⟨hstate, hthread, hpartial⟩ := h
    rw [hstep hstate rfl]
    exact ⟨⟨rfl, hthread, by rw [Ctx.sectBody, hpartial]; rfl⟩, fun t => by simp [Ctx.sectBody]⟩
  · next threadName threadId first rest frame =>
    cases he
    obtain ⟨hstate, hthread, hpartial⟩ := h
    have htrans : Ctx.stateTrans (if rest = [] then .sectFirst else .sectRest) (.sectRest frame) =
        some (Ctx.sectBody frame) := by
      split_ifs <;> rfl
    rw [hstep hstate htrans]
    refine ⟨⟨?_, hthread, ?_⟩, fun t => by simp [Ctx.sectBody]⟩
    · rw [if_neg (List.append_ne_nil_of_right_ne_nil rest (List.cons_ne_nil frame []))]
      rfl
    · rw [Ctx.sectBody, hpartial]
      simp
  · next threadName threadId first frame rest =>
    cases he
    obtain ⟨hstate, hthread, hpartial⟩ := h
    rw [hstep hstate rfl]
    refine ⟨rfl, fun t => ?_⟩
    have hend := mem_stack_sectEnd (t := t) hpartial (by simp)
    rw [hthread, Option.getD_some] at hend
    rw [List.map_singleton, List.mem_singleton]
    exact hend
  · cases he

end Open

/-! ## Runs -/

/-- The script after the events. -/
def run (ctx : Ctx) (es : List Event) : Ctx := es.foldl Ctx.transfer ctx

theorem run_append (ctx : Ctx) (es es' : List Event) : run ctx (es ++ es') = run (run ctx es) es' :=
  List.foldl_append

theorem run_concat (ctx : Ctx) (es : List Event) (e : Event) :
    run ctx (es ++ [e]) = (run ctx es).transfer e := run_append ctx es [e]

/-- Sections one directly after another. -/
def Whole (es : List Event) : Prop := ∃ ss : List Section, es = ss.flatMap Section.events

/-- **No section is open behind the events**: they are complete sections
and unfinished ones, each of these with an event out of order behind it. -/
inductive Idle : List Event → Prop
  | nil : Idle []
  | complete {es : List Event} (h : Idle es) (s : Section) : Idle (es ++ s.events)
  | broken {es : List Event} (h : Idle es) {o : Open} {e : Event} (he : o.next e = none) :
    Idle (es ++ o.events ++ [e])

theorem Idle.sections {es : List Event} (h : Idle es) (ss : List Section) :
    Idle (es ++ ss.flatMap Section.events) := by
  induction ss generalizing es with
  | nil => rwa [List.flatMap_nil, List.append_nil]
  | cons s ss ih =>
    rw [List.flatMap_cons, ← List.append_assoc]
    exact ih (h.complete s)

/-- A section that is collected behind the events with that stack. -/
def Collected (t : Text) (es : List Event) : Prop :=
  ∃ before s after, es = before ++ s.events ++ after ∧ Idle before ∧ Whole after ∧
    Section.collapsed s = t

/-! ### What is in the events is read -/

/-- An unfinished section is read, and leaves the collected ones alone. -/
theorem run_open (h : ctx.state = .sectEnd) (o : Open) :
    o.Holds (run ctx o.events) ∧ ∀ t, t ∈ (run ctx o.events).stack ↔ t ∈ ctx.stack := by
  have hstep : ∀ {o o' : Open} {e : Event}, o.events ++ [e] = o'.events →
      o.next e = some (o', []) → (o.Holds (run ctx o.events) ∧
        ∀ t, t ∈ (run ctx o.events).stack ↔ t ∈ ctx.stack) →
      o'.Holds (run ctx o'.events) ∧ ∀ t, t ∈ (run ctx o'.events).stack ↔ t ∈ ctx.stack := by
    rintro o o' e hevents hnext ⟨hholds, hstack⟩
    obtain ⟨hholds', hstack'⟩ := hholds.transfer hnext
    rw [← hevents, run_concat]
    refine ⟨hholds', fun t => ?_⟩
    rw [hstack' t, hstack t, List.map_nil]
    simp
  have hnone : Open.none.Holds (run ctx Open.none.events) ∧
      ∀ t, t ∈ (run ctx Open.none.events).stack ↔ t ∈ ctx.stack := ⟨h, fun _ => Iff.rfl⟩
  have hheader : ∀ threadName threadId, (Open.header threadName threadId).Holds
      (run ctx (Open.header threadName threadId).events) ∧ ∀ t,
        t ∈ (run ctx (Open.header threadName threadId).events).stack ↔ t ∈ ctx.stack :=
    fun threadName threadId => hstep rfl rfl hnone
  cases o with
  | none => exact hnone
  | header threadName threadId => exact hheader threadName threadId
  | frames threadName threadId first rest =>
    induction rest using List.reverseRecOn with
    | nil => exact hstep (o := .header threadName threadId) rfl rfl (hheader threadName threadId)
    | append_singleton rest frame ih =>
      refine hstep (e := .sectRest frame) ?_ rfl ih
      simp only [Open.events, List.map_append, List.map_singleton, List.cons_append]

/-- A complete one is collected. -/
theorem run_section (h : ctx.state = .sectEnd) (s : Section) :
    (run ctx s.events).state = .sectEnd ∧
      ∀ t, t ∈ (run ctx s.events).stack ↔ t ∈ ctx.stack ∨ t = s.collapsed := by
  obtain ⟨threadName, threadId, first, rest, hrest⟩ := s
  obtain ⟨frame, rest, rfl⟩ := List.exists_cons_of_ne_nil hrest
  obtain ⟨hholds, hstack⟩ := run_open h (.frames threadName threadId first (frame :: rest))
  obtain ⟨hholds', hstack'⟩ := hholds.transfer (e := .sectEnd) rfl
  rw [← run_concat] at hholds' hstack'
  refine ⟨hholds', fun t => (hstack' t).trans ?_⟩
  rw [hstack t, List.map_singleton, List.mem_singleton]

theorem run_sections (h : ctx.state = .sectEnd) (ss : List Section) :
    (run ctx (ss.flatMap Section.events)).state = .sectEnd ∧
      ∀ t, t ∈ (run ctx (ss.flatMap Section.events)).stack ↔
        t ∈ ctx.stack ∨ t ∈ ss.map Section.collapsed := by
  induction ss generalizing ctx with
  | nil => exact ⟨h, fun t => by simp [run]⟩
  | cons s ss ih =>
    obtain ⟨hstate, hstack⟩ := run_section h s
    obtain ⟨hstate', hstack'⟩ := ih hstate
    rw [List.flatMap_cons, run_append]
    refine ⟨hstate', fun t => ?_⟩
    rw [hstack' t, hstack t, List.map_cons, List.mem_cons, or_assoc]

/-- A broken one is not, nor is what was collected before. -/
theorem run_broken (h : ctx.state = .sectEnd) {o : Open} {e : Event} (he : o.next e = none) :
    run ctx (o.events ++ [e]) = Ctx.init := by
  rw [run_concat]
  exact (run_open h o).1.transfer_eq_init he

theorem Idle.run {es : List Event} (hes : Idle es) (h : ctx.state = .sectEnd) :
    (run ctx es).state = .sectEnd := by
  induction hes with
  | nil => exact h
  | complete _ s ih =>
    rw [run_append]
    exact (run_section ih s).1
  | broken _ he ih =>
    rw [List.append_assoc, run_append, run_broken ih he]
    rfl

/-! ### What is read is in the events -/

/-- **The run**, from a place where no section is open: the events up to
the last one out of order, the sections collected since, and what is
unfinished. -/
theorem exists_reading (h : ctx.state = .sectEnd) (es : List Event) :
    ∃ (before : List Event) (ss : List Section) (o : Open),
      es = before ++ ss.flatMap Section.events ++ o.events ∧ Idle before ∧ o.Holds (run ctx es) ∧
      ∀ t, t ∈ (run ctx es).stack ↔
        before = [] ∧ t ∈ ctx.stack ∨ t ∈ ss.map Section.collapsed := by
  induction es using List.reverseRecOn with
  | nil => exact ⟨[], [], .none, rfl, .nil, h, fun t => by simp [run]⟩
  | append_singleton es e ih =>
    obtain ⟨before, ss, o, hes, hidle, hholds, hstack⟩ := ih
    rw [run_concat]
    rcases hnext : o.next e with _ | ⟨o', ss'⟩
    · -- the event is out of order: everything up to it is behind
      rw [hholds.transfer_eq_init hnext]
      refine ⟨es ++ [e], [], .none, ?_, hes ▸ (hidle.sections ss).broken hnext, rfl, fun t => ?_⟩
      · rw [List.flatMap_nil, Open.events, List.append_nil, List.append_nil]
      · simp [Ctx.init]
    · obtain ⟨hholds', hstack'⟩ := hholds.transfer hnext
      refine ⟨before, ss ++ ss', o', ?_, hidle, hholds', fun t => ?_⟩
      · rw [hes, List.flatMap_append, List.append_assoc, ← Open.events_next hnext]
        simp only [List.append_assoc]
      · rw [hstack' t, hstack t, List.map_append, List.mem_append, or_assoc]

/-- **What is collected in the end**: what was there, if all that follows
are complete sections, and the sections that are followed by nothing
else. -/
theorem mem_stack_run_iff (h : ctx.state = .sectEnd) (hend : (run ctx es).state = .sectEnd) :
    t ∈ (run ctx es).stack ↔ t ∈ ctx.stack ∧ Whole es ∨ Collected t es := by
  constructor
  · intro ht
    obtain ⟨before, ss, o, hes, hidle, hholds, hstack⟩ := exists_reading h es
    have ho : o.events = [] := by
      cases o with
      | none => rfl
      | header threadName threadId => exact absurd (hend.symm.trans hholds.1) (by decide)
      | frames threadName threadId first rest =>
        refine absurd (hend.symm.trans hholds.1) ?_
        split_ifs <;> decide
    rw [ho, List.append_nil] at hes
    rcases (hstack t).1 ht with ⟨rfl, ht⟩ | ht
    · exact Or.inl ⟨ht, ss, hes⟩
    · obtain ⟨s, hs, rfl⟩ := List.mem_map.1 ht
      obtain ⟨ss₁, ss₂, rfl⟩ := List.append_of_mem hs
      refine Or.inr ⟨_, s, _, ?_, hidle.sections ss₁, ⟨ss₂, rfl⟩, rfl⟩
      rw [hes, List.flatMap_append, List.flatMap_cons]
      simp only [List.append_assoc]
  · rintro (⟨ht, ss, rfl⟩ | ⟨before, s, after, rfl, hidle, ⟨ss, rfl⟩, rfl⟩)
    · exact ((run_sections h ss).2 t).2 (Or.inl ht)
    · rw [run_append, run_append]
      obtain ⟨hstate, hstack⟩ := run_section (hidle.run h) s
      exact ((run_sections hstate ss).2 _).2 (Or.inl ((hstack _).2 (Or.inr rfl)))

/-! ## The lines printed -/

/-- The events of an input: those of its lines, and its end. -/
def events (lines : List Text) : List Event := lines.map recognize ++ [.sectEnd]

theorem mem_stackcollapse {lines : List Text} {s : Section} :
    s.printed ∈ stackcollapse lines ↔ s.collapsed ∈ (run Ctx.init (events lines)).stack := by
  have hrun : run Ctx.init (events lines) =
      (lines.foldl (fun ctx line => ctx.transfer (recognize line)) Ctx.init).transfer .sectEnd := by
    rw [events, run_concat, run, List.foldl_map]
  rw [stackcollapse, hrun, Section.printed,
    List.mem_map_of_injective (List.append_left_injective " 1".toList)]
  exact AList.mem_keys.symm

theorem state_transfer_sectEnd (ctx : Ctx) : (ctx.transfer .sectEnd).state = .sectEnd := by
  unfold Ctx.transfer
  split <;> rfl

/-- No section is open behind a blank line or before the first line. -/
theorem state_run {es : List Event} (h : es = [] ∨ es.getLast? = some .sectEnd)
    (hctx : ctx.state = .sectEnd) : (run ctx es).state = .sectEnd := by
  rcases h with rfl | h
  · exact hctx
  · obtain ⟨es', rfl⟩ := List.getLast?_eq_some_iff.1 h
    rw [run_concat]
    exact state_transfer_sectEnd _

theorem state_run_events (lines : List Text) :
    (run Ctx.init (events lines)).state = .sectEnd := by
  rw [events, run_concat]
  exact state_transfer_sectEnd _

/-- **The lines printed** are those of the sections that only complete
sections follow. -/
theorem printed_mem_stackcollapse_iff {lines : List Text} {s : Section} :
    s.printed ∈ stackcollapse lines ↔ Collected s.collapsed (events lines) := by
  rw [mem_stackcollapse, mem_stack_run_iff rfl (state_run_events lines)]
  simp [Ctx.init]

/-- **A section is printed exactly where only complete sections follow
it**, or one with the same collapsed stack is collected behind it. A line
out of order discards it, and so does a blank line, or the end of the
input, where no section is open: `stateTrans` has no entry for it although
`sectEnd` provides for it. -/
theorem stackcollapse_section_iff (lines : List Text) (before after : List Event) (s : Section)
    (hlines : events lines = before ++ s.events ++ after)
    (hbefore : before = [] ∨ before.getLast? = some .sectEnd) :
    s.printed ∈ stackcollapse lines ↔ Whole after ∨ Collected s.collapsed after := by
  obtain ⟨hstate, hstack⟩ := run_section (state_run hbefore (rfl : Ctx.init.state = .sectEnd)) s
  have hend := state_run_events lines
  rw [hlines, run_append, run_append] at hend
  rw [mem_stackcollapse, hlines, run_append, run_append, mem_stack_run_iff hstate hend,
    and_iff_right ((hstack _).2 (Or.inr rfl))]

/-- The section of a thread with two frames. -/
def twoFrames (threadName threadId : String) : Section :=
  ⟨threadName.toList, threadId.toList, "A.f".toList, ["B.g".toList], List.cons_ne_nil _ _⟩

/-- Its lines. -/
def twoFramesLines (threadName threadId : String) : List Text :=
  ["thread_name=\"".toList ++ threadName.toList ++ "\" thread_id=".toList ++
      threadId.toList ++ ['\n'],
    "    @p.A.f()\n".toList, "        at p.B.g(B.java:7)\n".toList]

/-- Two sections, with some lines between them. -/
def twoThreads (between : List String) : List Text :=
  twoFramesLines "main" "0x1" ++ between.map String.toList ++ twoFramesLines "pool-1" "0x2f"

theorem stackcollapse_section_twoThreads :
    (twoFrames "main" "0x1").printed ∈ stackcollapse (twoThreads ["\n"]) ∧
    ((twoFrames "main" "0x1").printed ∈ stackcollapse (twoThreads ["\n", "Press Q\n"]) ↔
      Whole (.sectUnknown :: (twoFrames "pool-1" "0x2f").events) ∨
        Collected (twoFrames "main" "0x1").collapsed
          (.sectUnknown :: (twoFrames "pool-1" "0x2f").events)) :=
  ⟨(stackcollapse_section_iff (twoThreads ["\n"]) [] (twoFrames "pool-1" "0x2f").events
      (twoFrames "main" "0x1") (by decide +kernel) (Or.inl rfl)).2
      (Or.inl ⟨[twoFrames "pool-1" "0x2f"], by simp⟩),
    stackcollapse_section_iff (twoThreads ["\n", "Press Q\n"]) []
      (.sectUnknown :: (twoFrames "pool-1" "0x2f").events) (twoFrames "main" "0x1")
      (by decide +kernel) (Or.inl rfl)⟩

/-- **A section, and the blank line that closes it at the end of the
input**: nothing is printed, where the same section without that line is
printed. -/
theorem stackcollapse_trailingBlank :
    events (twoFramesLines "main" "0x1" ++ [['\n']]) =
        (twoFrames "main" "0x1").events ++ [.sectEnd] ∧
      stackcollapse (twoFramesLines "main" "0x1" ++ [['\n']]) = [] ∧
      stackcollapse (twoFramesLines "main" "0x1") = [(twoFrames "main" "0x1").printed] := by
  refine ⟨by decide +kernel, by decide +kernel, by decide +kernel⟩

end Stackcollapse

end CppEtudes
