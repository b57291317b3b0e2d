import PagedTraversal.Proofs.Paging.Serving

/-!
# PagedTraversal.Proofs.Paging.FetchLog

What the journal tells of the fetches. An event is emitted in the step that it is about: the start
of a fetch fills the slot and its end empties it, and a crash ends its fetch in the poll that finds
it out, which empties the slot and reports it with nothing in between. So the log of fetches is a
sequence of rounds, a start, any number of requests that join it, and one end, and the pages that
the ends report are the pages applied.

* `World.Emission`, `World.OnChain.emission`: all that a move can add to the log.
* `Rounds`: the logs that consist of rounds, with the pages that have come by them.
* `World.log_tells_run`: the log of every run.
-/

namespace PagedTraversal

namespace Event

/-- The number of pages that an event about a fetch carries. -/
def page? : Event → Option Nat
  | fetchStarted page => some page
  | fetchJoined page => some page
  | fetchCompleted page _ _ _ => some page
  | fetchFailed page _ => some page
  | fetchAborted page => some page
  | _ => none

def isCompletion : Event → Bool
  | fetchCompleted _ _ _ _ => true
  | _ => false

/-- The report on a page that came when the given number of pages had been applied. -/
def completion (pages : Nat) (p : Page) : Event :=
  fetchCompleted pages p.rows.length p.isLast p.info.host

end Event

/-- The events about fetches, in the order in which they were emitted. -/
def Source.fetchLog (s : Source) : List Event := s.journal.toList.filter Event.ofFetch

namespace Source

theorem fetchLog_log (s : Source) (e : Event) :
    (s.log e).fetchLog = s.fetchLog ++ if e.ofFetch then [e] else [] := by
  simp [fetchLog, log, List.filter_append, List.filter_cons]

theorem fetchLog_note {s : Source} {events : Array Event} (h : ∀ e ∈ events, e.ofFetch = false) :
    fetchLog { s with journal := s.journal ++ events } = s.fetchLog := by
  have hnone : events.toList.filter Event.ofFetch = [] := by
    rw [List.filter_eq_nil_iff]
    intro e he
    simp [h e (Array.mem_toList_iff.1 he)]
  simp only [fetchLog, Array.toList_append, List.filter_append, hnone, List.append_nil]

end Source

/-! ## Rounds -/

/-- The logs of fetches that consist of rounds, when the front pages have come with the start: the
log, the pages that have come by its fetches, and whether its last round is open. -/
inductive Rounds (front : List Page) : List Event → List Page → Bool → Prop where
  | none : Rounds front [] [] false
  | started {log : List Event} {pages : List Page} : Rounds front log pages false →
      Chain.ended (front ++ pages) = false →
      Rounds front (log ++ [.fetchStarted (front ++ pages).length]) pages true
  | joined {log : List Event} {pages : List Page} : Rounds front log pages true →
      Rounds front (log ++ [.fetchJoined (front ++ pages).length]) pages true
  | completed {log : List Event} {pages : List Page} (p : Page) : Rounds front log pages true →
      Rounds front (log ++ [.completion (front ++ pages).length p]) (pages ++ [p]) false
  | failed {log : List Event} {pages : List Page} (e : FetchError) : Rounds front log pages true →
      Rounds front (log ++ [.fetchFailed (front ++ pages).length e]) pages false
  | aborted {log : List Event} {pages : List Page} : Rounds front log pages true →
      Rounds front (log ++ [.fetchAborted (front ++ pages).length]) pages false

namespace Rounds

variable {front pages : List Page} {log : List Event} {isOpen : Bool}

/-- An event at an index of a log with one more event is an old one or that event. -/
theorem getElem?_concat {log : List Event} {e e' : Event} {i : Nat}
    (h : (log ++ [e])[i]? = some e') : log[i]? = some e' ∨ i = log.length ∧ e' = e := by
  rw [List.getElem?_append] at h
  split at h
  · exact .inl h
  · next hi =>
    rw [List.getElem?_singleton] at h
    split at h
    · cases h
      exact .inr ⟨by omega, rfl⟩
    · cases h

theorem getElem?_append_of_some {log : List Event} {e e' : Event} {i : Nat}
    (h : log[i]? = some e') : (log ++ [e])[i]? = some e' := by
  rw [List.getElem?_append_left (List.getElem?_eq_some_iff.1 h).1]
  exact h

/-- A start that is followed by joins only, up to a given index. -/
def Begun (log : List Event) (page k : Nat) : Prop :=
  ∃ i, i < k ∧ log[i]? = some (.fetchStarted page) ∧
    ∀ j, i < j → j < k → log[j]? = some (.fetchJoined page)

theorem Begun.append {page k : Nat} (h : Begun log page k) (e : Event) :
    Begun (log ++ [e]) page k := by
  obtain ⟨i, hi, hstart, hjoins⟩ := h
  exact ⟨i, hi, getElem?_append_of_some hstart,
    fun j hij hjk => getElem?_append_of_some (hjoins j hij hjk)⟩

/-- The last round of an open log has begun and not ended. -/
theorem begun_of_open (h : Rounds front log pages true) :
    Begun log (front ++ pages).length log.length := by
  generalize hopen : true = isOpen at h
  induction h with
  | @started log pages _ _ =>
    refine ⟨log.length, by simp, by simp, fun j hij hj => ?_⟩
    rw [List.length_append, List.length_singleton] at hj
    omega
  | @joined log pages h ih =>
    obtain ⟨i, hi, hstart, hjoins⟩ := ih rfl
    refine ⟨i, by simp; omega, getElem?_append_of_some hstart, fun j hij hj => ?_⟩
    rw [List.length_append, List.length_singleton] at hj
    by_cases hlast : j = log.length
    · subst hlast
      simp
    · exact getElem?_append_of_some (hjoins j hij (by omega))
  | _ => cases hopen

/-- Every event but a start stands behind a start of its own page, with joins only in between. -/
theorem begun (h : Rounds front log pages isOpen) {k : Nat} {e : Event} (hk : log[k]? = some e)
    (hstart : ∀ page, e ≠ .fetchStarted page) : ∃ page, e.page? = some page ∧ Begun log page k := by
  induction h with
  | none => cases hk
  | started h _ ih =>
    rcases getElem?_concat hk with hk | ⟨-, rfl⟩
    · obtain ⟨page, hpage, hbegun⟩ := ih hk
      exact ⟨page, hpage, hbegun.append _⟩
    · exact absurd rfl (hstart _)
  | joined h ih | completed p h ih | failed err h ih | aborted h ih =>
    rcases getElem?_concat hk with hk | ⟨rfl, rfl⟩
    · obtain ⟨page, hpage, hbegun⟩ := ih hk
      exact ⟨page, hpage, hbegun.append _⟩
    · exact ⟨_, rfl, h.begun_of_open.append _⟩

/-- Where no round is open, the last event has ended one. -/
theorem ends_of_closed (h : Rounds front log pages false) {e : Event}
    (hlast : log.getLast? = some e) : e.ends = true := by
  generalize hclosed : false = isOpen at h
  cases h with
  | none => cases hlast
  | started _ _ => cases hclosed
  | joined _ => cases hclosed
  | completed p _ | failed err _ | aborted _ =>
    rw [List.getLast?_concat] at hlast
    cases hlast
    rfl

/-- Every start but the first comes right behind an end. -/
theorem ends_before_start (h : Rounds front log pages isOpen) {j page : Nat}
    (hj : log[j + 1]? = some (.fetchStarted page)) : ∃ e, log[j]? = some e ∧ e.ends = true := by
  induction h with
  | none => cases hj
  | @started log pages h _ ih =>
    rcases getElem?_concat hj with hj | ⟨hlength, -⟩
    · obtain ⟨e, he, hends⟩ := ih hj
      exact ⟨e, getElem?_append_of_some he, hends⟩
    · have hin : j < log.length := by omega
      have hlast : log[j]? = some log[j] := List.getElem?_eq_getElem hin
      refine ⟨_, getElem?_append_of_some hlast, h.ends_of_closed ?_⟩
      rw [List.getLast?_eq_getElem?, ← hlength, Nat.add_sub_cancel]
      exact hlast
  | joined h ih | completed p h ih | failed err h ih | aborted h ih =>
    rcases getElem?_concat hj with hj | ⟨-, e⟩
    · obtain ⟨e, he, hends⟩ := ih hj
      exact ⟨e, getElem?_append_of_some he, hends⟩
    · cases e

/-- The completions report the pages that have come, one after another. -/
theorem completions (h : Rounds front log pages isOpen) :
    log.filter Event.isCompletion =
      pages.mapIdx fun i p => .completion (front.length + i) p := by
  induction h with
  | none => rfl
  | started _ _ ih | joined _ ih | failed _ _ ih | aborted _ ih =>
    rw [List.filter_append, ih]
    simp [Event.isCompletion]
  | completed p _ ih =>
    rw [List.filter_append, ih, List.mapIdx_concat, List.length_append]
    rfl

/-- A start carries the number of the pages that had come by then. -/
theorem page_of_started (h : Rounds front log pages isOpen) {i page : Nat}
    (hi : log[i]? = some (.fetchStarted page)) :
    page = front.length + (log.take i).countP Event.isCompletion := by
  have htake : ∀ {log : List Event} {i : Nat} {e e' : Event}, log[i]? = some e →
      (log ++ [e']).take i = log.take i := by
    intro log i e e' hi
    exact List.take_append_of_le_length (Nat.le_of_lt (List.getElem?_eq_some_iff.1 hi).1)
  induction h with
  | none => cases hi
  | @started log pages h _ ih =>
    rcases getElem?_concat hi with hi | ⟨rfl, e⟩
    · rw [htake hi]
      exact ih hi
    · cases e
      rw [List.take_left, List.countP_eq_length_filter, h.completions, List.length_mapIdx,
        List.length_append]
  | joined _ ih | completed _ _ ih | failed _ _ ih | aborted _ ih =>
    rcases getElem?_concat hi with hi | ⟨-, e⟩
    · rw [htake hi]
      exact ih hi
    · cases e

/-- Nothing comes behind the report on a last page. -/
theorem end_of_last (h : Rounds front log pages isOpen) {i page rows : Nat} {host : Option String}
    (hi : log[i]? = some (.fetchCompleted page rows true host)) :
    i + 1 = log.length ∧ isOpen = false ∧ Chain.ended (front ++ pages) = true := by
  induction h with
  | none => cases hi
  | started _ hmore ih =>
    rcases getElem?_concat hi with hi | ⟨-, e⟩
    · rw [(ih hi).2.2] at hmore
      cases hmore
    · cases e
  | completed p _ ih =>
    rcases getElem?_concat hi with hi | ⟨rfl, e⟩
    · cases (ih hi).2.1
    · have hlast : p.isLast = true := by
        simp only [Event.completion, Event.fetchCompleted.injEq] at e
        exact e.2.2.1.symm
      refine ⟨by simp, rfl, ?_⟩
      rw [← List.append_assoc, Chain.ended_concat]
      exact hlast
  | joined _ ih | failed _ _ ih | aborted _ ih =>
    rcases getElem?_concat hi with hi | ⟨-, e⟩
    · cases (ih hi).2.1
    · cases e

/-- An end that stands behind a start, with no start in between, is the first one behind it and ends
the fetch that was started there. -/
theorem end_of_start (h : Rounds front log pages isOpen) {i k page : Nat} {e : Event} (hik : i < k)
    (hi : log[i]? = some (.fetchStarted page)) (hk : log[k]? = some e) (he : e.ends = true)
    (hnone : ∀ (j : Nat) other, i < j → j < k → log[j]? ≠ some (.fetchStarted other)) :
    e.page? = some page ∧ ∀ j, i < j → j < k → log[j]? = some (.fetchJoined page) := by
  have hstart : ∀ page, e ≠ .fetchStarted page := by
    rintro page rfl
    cases he
  obtain ⟨page', hpage', i', hi'k, hi', hjoins⟩ := h.begun hk hstart
  -- the start that the end belongs to is neither in front of this one nor behind it
  obtain rfl : i' = i := by
    rcases Nat.lt_trichotomy i' i with hlt | heq | hlt
    · have := hjoins i hlt hik
      rw [hi] at this
      cases this
    · exact heq
    · exact absurd hi' (hnone i' page' hlt hi'k)
  rw [hi] at hi'
  cases hi'
  exact ⟨hpage', hjoins⟩

theorem end_unique (h : Rounds front log pages isOpen) {i k k' page : Nat} {e e' : Event}
    (hik : i < k) (hik' : i < k') (hi : log[i]? = some (.fetchStarted page))
    (hk : log[k]? = some e) (hk' : log[k']? = some e') (he : e.ends = true) (he' : e'.ends = true)
    (hnone : ∀ (j : Nat) other, i < j → j < max k k' → log[j]? ≠ some (.fetchStarted other)) :
    k' = k := by
  obtain ⟨-, hjoins⟩ := h.end_of_start hik hi hk he fun j other hij hjk => hnone j other hij (by omega)
  obtain ⟨-, hjoins'⟩ :=
    h.end_of_start hik' hi hk' he' fun j other hij hjk => hnone j other hij (by omega)
  rcases Nat.lt_trichotomy k' k with hlt | heq | hlt
  · rw [hjoins k' hik' hlt] at hk'
    cases hk'
    cases he'
  · exact heq
  · rw [hjoins' k hik hlt] at hk
    cases hk
    cases he

end Rounds

/-! ## What a move adds to the log -/

namespace World

/-- What a move adds to the log of fetches, with the slot and the pages applied before and after
it. -/
inductive Emission (w v : World) : Prop where
  | quiet : v.source.fetchLog = w.source.fetchLog → v.applied = w.applied →
      v.source.inFlight.isSome = w.source.inFlight.isSome → Emission w v
  | started : w.source.inFlight = none → Chain.ended w.applied = false →
      v.source.fetchLog = w.source.fetchLog ++ [.fetchStarted w.applied.length] →
      v.applied = w.applied → v.source.inFlight.isSome = true → Emission w v
  | joined : w.source.inFlight.isSome = true →
      v.source.fetchLog = w.source.fetchLog ++ [.fetchJoined w.applied.length] →
      v.applied = w.applied → v.source.inFlight.isSome = true → Emission w v
  | completed (p : Page) : w.source.inFlight.isSome = true →
      v.source.fetchLog = w.source.fetchLog ++ [.completion w.applied.length p] →
      v.applied = w.applied ++ [p] → v.source.inFlight = none → Emission w v
  | failed (e : FetchError) : w.source.inFlight.isSome = true →
      v.source.fetchLog = w.source.fetchLog ++ [.fetchFailed w.applied.length e] →
      v.applied = w.applied → v.source.inFlight = none → Emission w v
  | aborted : w.source.inFlight.isSome = true →
      v.source.fetchLog = w.source.fetchLog ++ [.fetchAborted w.applied.length] →
      v.applied = w.applied → v.source.inFlight = none → Emission w v

variable {b : Backend} {front : List Page} {k : Nat} {w : World}

/-- A fetch that occupies the slot carries the number of pages applied. -/
theorem OnChain.page_of_occupies (hw : OnChain b front k w) {h : Handle} {f : Fetch}
    (hf : w.source.fetches[h]? = some f) (ho : f.occupies = true) :
    w.source.inFlight.isSome = true ∧ f.page = w.applied.length := by
  refine ⟨?_, ?_⟩
  · rw [(hw.oneFetch.slot h).2 ⟨f, hf, ho⟩]
    rfl
  · rw [(hw.oneFetch.current h f hf ho).1, hw.pages]

theorem OnChain.emission_of_act (hw : OnChain b front k w) {v : World} {hasRuntime : Bool}
    (hact : w.source.Act hasRuntime v.source) (happlied : v.applied = w.applied) :
    Emission w v := by
  obtain ⟨t, parties, applied, takings⟩ := v
  obtain rfl : applied = w.applied := happlied
  cases hact with
  | rest => exact .quiet rfl rfl rfl
  | takeRow =>
    refine .quiet ?_ rfl ?_
    all_goals
      simp only [Source.takeRow]
      split <;> rfl
  | drain => exact .quiet rfl rfl rfl
  | request =>
    rcases w.source.request_cases hasRuntime with ⟨r, -, e⟩ | ⟨h, -, hslot, e⟩ |
      ⟨hmore, hslot, -, e⟩
    · refine .quiet ?_ rfl ?_
      · rw [e]
        rfl
      · rw [e]
    · have hfilled : w.source.inFlight.isSome = true := by rw [hslot]; rfl
      refine .joined hfilled ?_ rfl ?_ <;> rw [e]
      · rw [Source.fetchLog_log, hw.pages]
        rfl
      · exact hfilled
    · refine .started hslot (hw.complete ▸ hmore) ?_ rfl ?_ <;> rw [e]
      · rw [Source.fetchLog_log, hw.pages]
        rfl
      · rfl
  | poll h =>
    rcases w.source.poll_cases h with e | ⟨page, token, r, -, e⟩ | ⟨page, token, hf, e⟩
    · exact .quiet (congrArg Source.fetchLog e) rfl (congrArg (fun s => s.inFlight.isSome) e)
    · refine .quiet ?_ rfl ?_ <;> rw [e] <;> rfl
    · obtain ⟨hfilled, rfl⟩ := hw.page_of_occupies hf rfl
      refine .aborted hfilled ?_ rfl ?_ <;> rw [e]
      · exact Source.fetchLog_log _ _
      · rfl
  | note hevents => exact .quiet (Source.fetchLog_note hevents) rfl rfl

theorem OnChain.emission (hw : OnChain b front k w) (m : Move) : Emission w (w.move b m) := by
  rcases w.move_cases b m with ⟨hact, happlied⟩ | ⟨h, e⟩ | ⟨h, e⟩
  · exact hw.emission_of_act hact happlied
  · rw [e]
    rcases w.source.beginCall_cases h with e | ⟨page, token, seen, -, e⟩
    · refine .quiet ?_ rfl ?_ <;> rw [e]
    · refine .quiet ?_ rfl ?_ <;> rw [e] <;> rfl
  · rw [e]
    rcases w.endCall_cases b h with e | ⟨page, token, n, seen, hf, e⟩ <;> rw [e]
    · exact .quiet rfl rfl rfl
    · obtain ⟨hfilled, rfl⟩ := hw.page_of_occupies hf rfl
      rw [Source.endCall_of_calling hf]
      cases b.answer n token with
      | page p => exact .completed p hfilled (Source.fetchLog_log _ _) rfl rfl
      | failure err =>
        exact .failed err hfilled (Source.fetchLog_log _ _) (List.append_nil _) rfl
      | crash => exact .quiet rfl (List.append_nil _) rfl

/-- The log of a world consists of rounds, of which the last is open while the slot is filled. -/
def Rounded (front : List Page) (w : World) : Prop :=
  ∃ pages, w.applied = front ++ pages ∧
    Rounds front w.source.fetchLog pages w.source.inFlight.isSome

theorem Rounded.emission {v : World} (hw : w.Rounded front) (h : Emission w v) :
    v.Rounded front := by
  obtain ⟨pages, happlied, hrounds⟩ := hw
  cases h with
  | quiet hlog hsame hslot =>
    refine ⟨pages, hsame.trans happlied, ?_⟩
    rw [hlog, hslot]
    exact hrounds
  | started hempty hmore hlog hsame hslot =>
    refine ⟨pages, hsame.trans happlied, ?_⟩
    rw [hempty] at hrounds
    rw [hlog, hslot, happlied]
    exact hrounds.started (happlied ▸ hmore)
  | joined hfilled hlog hsame hslot =>
    refine ⟨pages, hsame.trans happlied, ?_⟩
    rw [hfilled] at hrounds
    rw [hlog, hslot, happlied]
    exact hrounds.joined
  | completed p hfilled hlog hgrown hslot =>
    refine ⟨pages ++ [p], by rw [hgrown, happlied, List.append_assoc], ?_⟩
    rw [hfilled] at hrounds
    rw [hlog, hslot, happlied]
    exact hrounds.completed p
  | failed err hfilled hlog hsame hslot =>
    refine ⟨pages, hsame.trans happlied, ?_⟩
    rw [hfilled] at hrounds
    rw [hlog, hslot, happlied]
    exact hrounds.failed err
  | aborted hfilled hlog hsame hslot =>
    refine ⟨pages, hsame.trans happlied, ?_⟩
    rw [hfilled] at hrounds
    rw [hlog, hslot, happlied]
    exact hrounds.aborted

theorem rounded_start (first : Option Page) : (start first).Rounded first.toList := by
  refine ⟨[], by cases first <;> simp [start], ?_⟩
  cases first <;> exact .none

theorem rounded_run (b : Backend) (first : Option Page) (ms : List Move) :
    ((start first).run b ms).Rounded first.toList := by
  refine (run_keeps (P := fun w => (∃ k, OnChain b first.toList k w) ∧ w.Rounded first.toList) ?_
    ⟨⟨0, onChain_start b first⟩, rounded_start first⟩ ms).2
  rintro w m ⟨⟨k, hw⟩, hrounded⟩
  exact ⟨hw.move m, hrounded.emission (hw.emission m)⟩

/-- What is emitted stays at its place. -/
theorem Emission.log_grows {v : World} (h : Emission w v) :
    w.source.fetchLog <+: v.source.fetchLog := by
  cases h with
  | quiet hlog _ _ => exact ⟨[], (List.append_nil _).trans hlog.symm⟩
  | started _ _ hlog _ _ | joined _ hlog _ _ | completed _ _ hlog _ _ | failed _ _ hlog _ _
  | aborted _ hlog _ _ =>
    rw [hlog]
    exact List.prefix_append _ _

theorem OnChain.log_grows (hw : OnChain b front k w) (ms : List Move) :
    w.source.fetchLog <+: (w.run b ms).source.fetchLog := by
  refine (run_keeps (P := fun v => (∃ k, OnChain b front k v) ∧
    w.source.fetchLog <+: v.source.fetchLog) ?_ ⟨⟨k, hw⟩, List.prefix_rfl⟩ ms).2
  rintro v m ⟨⟨k, hv⟩, hgrown⟩
  exact ⟨hv.move m, hgrown.trans (hv.emission m).log_grows⟩

/-- What the log of fetches tells in a world.
`emits`: a move adds at most one event, which is about what the move does to the slot and the pages,
and carries the number of the pages applied. `started`: a start carries the number of the pages that
had come by then, which are those with the start and those reported as completed. `oneEnd`: of
two starts without a start in between, the first is ended by exactly one event between them, which
carries its page. `lastEnd`: behind the last start there is one such event at most. `joined`: a
request that has joined a fetch stands behind a start of its page, and none but such requests stand
between the two. `completed`: the completions report the pages fetched, one after another, each with
its number, its rows and whether it is the last. `last`: the report on a last page is the last
event, whatever happens later. -/
structure LogTellsRun (b : Backend) (front : List Page) (w : World) (log : List Event) : Prop where
  emits : ∀ m, Emission w (w.move b m)
  started : ∀ (i : Nat) page, log[i]? = some (.fetchStarted page) →
    page = front.length + (log.take i).countP Event.isCompletion
  oneEnd : ∀ (i j : Nat) page page', i < j → log[i]? = some (.fetchStarted page) →
    log[j]? = some (.fetchStarted page') →
    (∀ (k : Nat) other, i < k → k < j → log[k]? ≠ some (.fetchStarted other)) →
    ∃ k e, i < k ∧ k < j ∧ log[k]? = some e ∧ e.page? = some page ∧
      ∀ (k' : Nat) e', i < k' → k' < j → log[k']? = some e' → (e'.ends = true ↔ k' = k)
  lastEnd : ∀ (i : Nat) page, log[i]? = some (.fetchStarted page) →
    (∀ (k : Nat) other, i < k → log[k]? ≠ some (.fetchStarted other)) →
    ∀ (k : Nat) e, i < k → log[k]? = some e → e.ends = true → e.page? = some page ∧
      ∀ (k' : Nat) e', i < k' → log[k']? = some e' → e'.ends = true → k' = k
  joined : ∀ (k : Nat) page, log[k]? = some (.fetchJoined page) →
    ∃ i, i < k ∧ log[i]? = some (.fetchStarted page) ∧
      ∀ j, i < j → j < k → log[j]? = some (.fetchJoined page)
  completed : front.length ≤ w.applied.length ∧ log.filter Event.isCompletion =
    (w.applied.drop front.length).mapIdx fun i p =>
      .fetchCompleted (front.length + i) p.rows.length p.isLast p.info.host
  last : ∀ (i : Nat) page rows host, log[i]? = some (.fetchCompleted page rows true host) →
    i + 1 = log.length ∧ ∀ ms, (w.run b ms).source.fetchLog = log

/-- The log of fetches tells every run. -/
theorem log_tells_run (b : Backend) (first : Option Page) (ms : List Move) :
    let w := (start first).run b ms
    LogTellsRun b first.toList w w.source.fetchLog := by
  intro w
  obtain ⟨n, hw⟩ : ∃ n, OnChain b first.toList n w := onChain_run b first ms
  obtain ⟨pages, happlied, hrounds⟩ : w.Rounded first.toList := rounded_run b first ms
  refine ⟨hw.emission, fun i page => hrounds.page_of_started, ?_, ?_, ?_, ?_, ?_⟩
  · intro i j page page' hij hi hj hnone
    obtain ⟨k, rfl⟩ : ∃ k, j = k + 1 := ⟨j - 1, by omega⟩
    obtain ⟨e, hk, he⟩ := hrounds.ends_before_start hj
    have hik : i < k := by
      rcases Nat.lt_or_eq_of_le (Nat.le_of_lt_succ hij) with hlt | rfl
      · exact hlt
      · rw [hi] at hk
        cases hk
        cases he
    refine ⟨k, e, hik, Nat.lt_succ_self k, hk,
      (hrounds.end_of_start hik hi hk he fun l other hil hlk => hnone l other hil (by omega)).1, ?_⟩
    intro k' e' hik' hk'j hk'
    constructor
    · intro he'
      exact hrounds.end_unique hik hik' hi hk hk' he he'
        fun l other hil hlk => hnone l other hil (by omega)
    · rintro rfl
      rw [hk] at hk'
      cases hk'
      exact he
  · intro i page hi hnone k e hik hk he
    refine ⟨(hrounds.end_of_start hik hi hk he fun l other hil _ => hnone l other hil).1, ?_⟩
    intro k' e' hik' hk' he'
    exact hrounds.end_unique hik hik' hi hk hk' he he' fun l other hil _ => hnone l other hil
  · intro k page hk
    obtain ⟨page', hpage', hbegun⟩ := hrounds.begun hk (by simp)
    cases hpage'
    exact hbegun
  · refine ⟨by rw [happlied, List.length_append]; omega, ?_⟩
    rw [happlied, List.drop_left, hrounds.completions]
    rfl
  · intro i page rows host hi
    refine ⟨(hrounds.end_of_last hi).1, fun later => ?_⟩
    have hgrown : w.source.fetchLog <+: (w.run b later).source.fetchLog := hw.log_grows later
    obtain ⟨pages', -, hrounds'⟩ : (w.run b later).Rounded first.toList := by
      have hrun : w.run b later = (start first).run b (ms ++ later) := (run_append _ _ _ _).symm
      rw [hrun]
      exact rounded_run b first (ms ++ later)
    obtain ⟨more, hmore⟩ := hgrown
    have hi' : (w.run b later).source.fetchLog[i]? = some (.fetchCompleted page rows true host) := by
      rw [← hmore, List.getElem?_append_left (List.getElem?_eq_some_iff.1 hi).1]
      exact hi
    -- the event is the last one of the longer log too, so that nothing has been added
    have hlast := (hrounds.end_of_last hi).1
    have hlast' := (hrounds'.end_of_last hi').1
    rw [← hmore, List.length_append] at hlast'
    have hnil : more = [] := List.length_eq_zero_iff.1 (by omega)
    rw [← hmore, hnil, List.append_nil]

end World

end PagedTraversal
