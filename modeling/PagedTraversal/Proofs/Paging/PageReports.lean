import PagedTraversal.Proofs.Paging.Requests

/-!
# PagedTraversal.Proofs.Paging.PageReports

The reports on the pages. A source keeps one report for each page applied, whatever the parties do
and however the fetches end, and the last report tells where the source stands in the chain.

* `World.OnChain.lastInfo?_eq`: the last report is on the last page applied.
* `World.OnChain.reported_move`: a report is added when a page comes in, and at no other time.
* `World.reports_mirror_pages`: the reports in every reachable world.
-/

namespace PagedTraversal

/-- With no last page among the given ones, some page comes after them. -/
theorem Chain.ended_eq_false {pages : List Page} (h : ∀ p ∈ pages, p.isLast = false) :
    ended pages = false := by
  unfold ended
  cases hlast : pages.getLast? with
  | none => rfl
  | some p => exact h p (List.mem_of_getLast? hlast)

namespace World

/-- What holds of the reports in a world.
`size`, `report`: there is one for each page applied, the one that came with the page but for the
token, which is the page's own. `last`: the last report is that on the last page applied, if there is
any. `inner`, `complete`: all reports but the last have a token, and the last has none exactly when
all pages are there. `requested`, `asks`: its token is what the fetch behind any handle given out
stands for, and what the next call asks for, which is only made while pages are left. `grows`: a
report is added when a call is answered with a page; no failure, crash or other move adds or changes
one. -/
structure ReportsMirrorPages (b : Backend) (w : World) : Prop where
  size : w.source.progress.infos.size = w.source.progress.pages ∧
    w.applied.length = w.source.progress.pages
  report : ∀ (i : Nat) (page : Page), w.applied[i]? = some page →
    w.source.progress.infos[i]? = some { page.info with next := page.next }
  last : w.source.lastInfo? = w.source.progress.infos[w.source.progress.pages - 1]? ∧
    (w.source.lastInfo? = none ↔ w.source.progress.pages = 0)
  inner : ∀ (i : Nat) (info : PageInfo), w.source.progress.infos[i]? = some info →
    i + 1 < w.source.progress.infos.size → info.next.isSome = true
  complete : w.source.progress.complete = true ↔
    ∃ info, w.source.lastInfo? = some info ∧ info.next = none
  requested : ∀ hasRuntime, let (h, t) := w.source.request hasRuntime
    ∃ f, t.fetches[h]? = some f ∧ f.token = w.source.lastInfo?.bind PageInfo.next
  asks : ∀ m, (w.move b m).source.calls = w.source.calls ∨
    w.source.progress.complete = false ∧ (w.move b m).source.calls =
      w.source.calls.push (w.source.lastInfo?.bind PageInfo.next)
  grows : ∀ m, ((w.move b m).source.progress.infos = w.source.progress.infos ∧
      (w.move b m).applied = w.applied) ∨
    ∃ (h : Handle) (page n : Nat) (token : Option PageToken) (seen : Option Settlement) (p : Page),
      w.source.fetches[h]? = some ⟨page, token, .calling n, seen⟩ ∧ b.answer n token = .page p ∧
      (w.move b m).source = w.source.endCall h (.page p) ∧
      (w.move b m).source.progress.infos =
        w.source.progress.infos.push { p.info with next := p.next } ∧
      (w.move b m).applied = w.applied ++ [p]

namespace OnChain

variable {b : Backend} {start : List Page} {k : Nat} {w : World}

theorem lastInfo?_eq (hw : OnChain b start k w) :
    w.source.lastInfo? = w.applied.getLast?.map Page.report := by
  rw [Source.lastInfo?, ← Array.getLast?_toList, hw.infos, List.getLast?_map]

theorem token_lastInfo? (hw : OnChain b start k w) :
    w.source.lastInfo?.bind PageInfo.next = Chain.token w.applied := by
  rw [hw.lastInfo?_eq, Chain.token]
  cases w.applied.getLast? <;> rfl

theorem size_infos (hw : OnChain b start k w) :
    w.source.progress.infos.size = w.source.progress.pages := by
  rw [hw.pages, ← Array.length_toList, hw.infos, List.length_map]

theorem getElem?_infos (hw : OnChain b start k w) (i : Nat) :
    w.source.progress.infos[i]? = w.applied[i]?.map Page.report := by
  rw [← Array.getElem?_toList, hw.infos, List.getElem?_map]

/-- A page that is not the last one applied has a page behind it. -/
theorem isLast_of_inner (hw : OnChain b start k w) {i : Nat} {page : Page}
    (hpage : w.applied[i]? = some page) (hi : i + 1 < w.applied.length) : page.isLast = false := by
  refine hw.inner page (List.mem_of_getElem? (i := i) ?_)
  rw [List.getElem?_dropLast, if_pos (by omega)]
  exact hpage

theorem complete_iff (hw : OnChain b start k w) :
    w.source.progress.complete = true ↔
      ∃ info, w.source.lastInfo? = some info ∧ info.next = none := by
  rw [hw.complete, hw.lastInfo?_eq, Chain.ended]
  cases w.applied.getLast? with
  | none => simp
  | some page => simp [Page.isLast, Page.report]

/-- Whatever handle is given out, its fetch stands for the page after the last one applied. -/
theorem token_request (hw : OnChain b start k w) (hasRuntime : Bool) :
    ∃ f, (w.source.request hasRuntime).2.fetches[(w.source.request hasRuntime).1]? = some f ∧
      f.token = w.source.progress.next := by
  rcases w.source.request_cases hasRuntime with ⟨settlement, -, e⟩ | ⟨h, -, hslot, e⟩ |
    ⟨-, -, -, e⟩ <;> rw [e]
  · exact ⟨_, Source.lookup_push.2 (.inl ⟨rfl, rfl⟩), rfl⟩
  · obtain ⟨f, hf, hoccupies⟩ := (hw.oneFetch.slot h).1 hslot
    exact ⟨f, hf, (hw.oneFetch.current h f hf hoccupies).2.1⟩
  · exact ⟨_, Source.lookup_push.2 (.inl ⟨rfl, rfl⟩), rfl⟩

end OnChain

variable {b : Backend} {w : World}

/-- A report is added when a call is answered with a page, and at no other time. -/
theorem reported_move (m : Move) :
    ((w.move b m).source.progress.infos = w.source.progress.infos ∧
      (w.move b m).applied = w.applied) ∨
    ∃ (h : Handle) (page n : Nat) (token : Option PageToken) (seen : Option Settlement) (p : Page),
      w.source.fetches[h]? = some ⟨page, token, .calling n, seen⟩ ∧ b.answer n token = .page p ∧
      (w.move b m).source = w.source.endCall h (.page p) ∧
      (w.move b m).source.progress.infos = w.source.progress.infos.push p.report ∧
      (w.move b m).applied = w.applied ++ [p] := by
  rcases w.move_cases b m with ⟨hact, happlied⟩ | ⟨h, e⟩ | ⟨h, e⟩
  · exact .inl ⟨(Source.SameChain.of_act hact).infos, happlied⟩
  · rw [e]
    exact .inl ⟨congrArg Progress.infos (w.source.progress_beginCall h), rfl⟩
  · rcases w.endCall_cases b h with e' | ⟨page, token, n, seen, hf, e'⟩ <;> rw [e, e']
    · exact .inl ⟨rfl, rfl⟩
    · cases hreply : b.answer n token with
      | page p =>
        refine .inr ⟨h, page, n, token, seen, p, hf, hreply, rfl, ?_, rfl⟩
        rw [Source.endCall_of_calling hf]
        rfl
      | failure err =>
        refine .inl ⟨?_, List.append_nil _⟩
        rw [Source.progress_endCall_of_no_page h _ _ (by simp)]
      | crash =>
        refine .inl ⟨?_, List.append_nil _⟩
        rw [Source.progress_endCall_of_no_page h _ _ (by simp)]

theorem reports_mirror_pages (b : Backend) (first : Option Page) (ms : List Move) :
    ReportsMirrorPages b ((start first).run b ms) := by
  obtain ⟨k, hw⟩ := onChain_run b first ms
  refine ⟨⟨hw.size_infos, hw.pages.symm⟩, fun i page hpage => ?_, ⟨?_, ?_⟩, fun i info hinfo hi => ?_,
    hw.complete_iff, fun hasRuntime => ?_, fun m => ?_, reported_move⟩
  · rw [hw.getElem?_infos, hpage]
    rfl
  · rw [Source.lastInfo?, Array.back?_eq_getElem?, hw.size_infos]
  · rw [hw.lastInfo?_eq, Option.map_eq_none_iff, List.getLast?_eq_none_iff, hw.pages,
      List.length_eq_zero_iff]
  · rw [hw.getElem?_infos] at hinfo
    obtain ⟨page, hpage, rfl⟩ := Option.map_eq_some_iff.1 hinfo
    rw [hw.size_infos, hw.pages] at hi
    simpa [Page.isLast, Page.report] using hw.isLast_of_inner hpage hi
  · rw [hw.token_lastInfo?, ← hw.next]
    exact hw.token_request hasRuntime
  · rw [hw.token_lastInfo?]
    rcases hw.calls_move m with hsame | ⟨hpush, hinner⟩
    · exact .inl hsame
    · exact .inr ⟨hw.complete.trans (Chain.ended_eq_false hinner), hpush⟩

end World

end PagedTraversal
