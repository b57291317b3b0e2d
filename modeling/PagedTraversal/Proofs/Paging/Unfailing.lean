import PagedTraversal.Proofs.Paging.Delivery

/-!
# PagedTraversal.Proofs.Paging.Unfailing

Backends whose chain comes to an end without a failure.

* `World.Unfailing.move`: as long as something can run the fetches, none of them fails.
* `World.Unfailing.at_end`: when the last page is there and nothing is buffered, what was taken and
  asked for and what is reported depend on the backend alone.
-/

namespace PagedTraversal

/-- The first `N` calls bring a page each, and of the pages that are the last ones after so many
calls the last is the first without a token. -/
structure Backend.ChainEnds (b : Backend) (start : List Page) (N : Nat) : Prop where
  page : ∀ k < N, ∃ p, b.answer k (Chain.token (b.pagesAfter start k)) = .page p
  unended : ∀ k < N, Chain.ended (b.pagesAfter start k) = false
  ended : Chain.ended (b.pagesAfter start N) = true

namespace Source

def Healthy (s : Source) : Prop :=
  ∀ (h : Handle) (f : Fetch), s.fetches[h]? = some f →
    f.stage = .queued ∨ (∃ n, f.stage = .calling n) ∨ f.stage = .returned (.ok ())

namespace Healthy

variable {s t : Source} {h : Handle}

theorem modify (hs : Healthy s) {g : Fetch → Fetch}
    (hg : ∀ f, (g f).stage = f.stage ∨ (∃ n, (g f).stage = .calling n) ∨
      (g f).stage = .returned (.ok ())) :
    Healthy { s with fetches := s.fetches.modify h g } := by
  intro h' f' hf'
  rcases lookup_modify.1 hf' with ⟨rfl, f, hf, rfl⟩ | ⟨-, hf'⟩
  · rcases hg f with e | e | e
    · rw [e]
      exact hs h f hf
    · exact .inr (.inl e)
    · exact .inr (.inr e)
  · exact hs h' f' hf'

theorem push (hs : Healthy s) {f : Fetch}
    (hf : f.stage = .queued ∨ f.stage = .returned (.ok ())) :
    Healthy { s with fetches := s.fetches.push f } := by
  intro h' f' hf'
  rcases lookup_push.1 hf' with ⟨-, rfl⟩ | hf'
  · rcases hf with e | e
    · exact .inl e
    · exact .inr (.inr e)
  · exact hs h' f' hf'

/-- With a runtime no request fails, and where nothing has crashed no poll finds a crash. -/
theorem act (hact : s.Act true t) (hs : Healthy s) : Healthy t := by
  cases hact with
  | rest => exact hs
  | takeRow =>
    unfold takeRow
    split <;> exact hs
  | drain => exact hs
  | request =>
    rcases s.request_cases true with ⟨settlement, hok, e⟩ | ⟨h, -, -, e⟩ | ⟨-, -, -, e⟩ <;> rw [e]
    · obtain ⟨-, rfl⟩ := hok rfl
      exact hs.push (.inr rfl)
    · exact hs
    · exact hs.push (.inl rfl)
  | poll h =>
    rcases s.poll_cases h with e | ⟨page, token, settlement, -, e⟩ | ⟨page, token, hf, -⟩
    · rw [e]
      exact hs
    · rw [e]
      exact hs.modify fun _ => .inl rfl
    · rcases hs h _ hf with e | ⟨n, e⟩ | e <;> cases e
  | note _ => exact hs

theorem beginCall (hs : Healthy s) (h : Handle) : Healthy (s.beginCall h) := by
  rcases s.beginCall_cases h with e | ⟨page, token, seen, -, e⟩ <;> rw [e]
  · exact hs
  · exact hs.modify fun _ => .inr (.inl ⟨_, rfl⟩)

theorem endCall (hs : Healthy s) {page n : Nat} {token : Option PageToken}
    {seen : Option Settlement} (hf : s.fetches[h]? = some ⟨page, token, .calling n, seen⟩)
    (p : Page) : Healthy (s.endCall h (.page p)) := by
  rw [endCall_of_calling hf]
  exact hs.modify fun _ => .inr (.inr rfl)

end Healthy

end Source

namespace World

variable {b : Backend} {start : List Page} {N : Nat} {w : World}

namespace OnChain

variable {k : Nat}

theorem calls_le (hends : b.ChainEnds start N) (hw : OnChain b start k w) :
    w.source.calls.size ≤ N := by
  by_cases hlt : N < w.source.calls.size
  · have := hw.unended N hlt
    rw [hends.ended] at this
    cases this
  · omega

theorem answers_le (hends : b.ChainEnds start N) (hw : OnChain b start k w) : k ≤ N := by
  have := hw.calls_le hends
  rcases hw.answered with ⟨e, -⟩ | ⟨e, -⟩ <;> omega

/-- The open call is one of the first `N`, and brings a page. -/
theorem answer_page (hends : b.ChainEnds start N) (hw : OnChain b start k w) {h : Handle}
    {page n : Nat} {token : Option PageToken} {seen : Option Settlement}
    (hf : w.source.fetches[h]? = some ⟨page, token, .calling n, seen⟩) :
    ∃ p, b.answer n token = .page p := by
  have hsize := hw.calls_le hends
  obtain ⟨hn, hcall⟩ := hw.oneFetch.openCall h _ n hf rfl
  have hasked : token = _ := hw.asked n _ hcall
  rw [hasked]
  exact hends.page n (by omega)

end OnChain

structure Unfailing (b : Backend) (start : List Page) (w : World) : Prop where
  chain : ∃ k, OnChain b start k w
  accounts : w.Accounts
  healthy : w.source.Healthy

namespace Unfailing

theorem initial (b : Backend) (first : Option Page) :
    Unfailing b first.toList (World.start first) := by
  refine ⟨⟨0, onChain_start b first⟩, .start first, ?_⟩
  intro h f hf
  cases first <;> simp [World.start, Source.ofFirstPage, Source.initial] at hf

theorem move (hends : b.ChainEnds start N) (hw : Unfailing b start w) {m : Move}
    (hm : m.hasRuntime = true) : Unfailing b start (w.move b m) := by
  obtain ⟨k, hchain⟩ := hw.chain
  refine ⟨hchain.move m, hw.accounts.move m, ?_⟩
  rcases w.move_cases b m with ⟨hact, -⟩ | ⟨h, e⟩ | ⟨h, e⟩
  · rw [hm] at hact
    exact hw.healthy.act hact
  · rw [e]
    exact hw.healthy.beginCall h
  · rw [e]
    rcases w.endCall_cases b h with e | ⟨page, token, n, seen, hf, e⟩ <;> rw [e]
    · exact hw.healthy
    · obtain ⟨p, hp⟩ := hchain.answer_page hends hf
      rw [hp]
      exact hw.healthy.endCall hf p

theorem prefix_takenRows (hends : b.ChainEnds start N) (hw : Unfailing b start w) :
    w.takenRows <+: (b.pagesAfter start N).flatMap Page.rows := by
  obtain ⟨k, hchain⟩ := hw.chain
  obtain ⟨later, hlater⟩ := b.prefix_pagesAfter start (hchain.answers_le hends)
  refine ⟨w.source.progress.buffer ++ later.flatMap Page.rows, ?_⟩
  rw [← List.append_assoc, ← hw.accounts.rows, appliedRows, hchain.applied, ← hlater,
    List.flatMap_append]

/-- When all pages are there, `N` calls have been made and answered. -/
theorem of_complete (hends : b.ChainEnds start N) (hw : Unfailing b start w)
    (hc : w.source.progress.complete = true) :
    OnChain b start N w ∧ w.source.calls.size = N ∧ w.source.inFlight = none := by
  obtain ⟨k, hchain⟩ := hw.chain
  have hslot := hchain.inFlight_of_complete hc
  have hk : k = N := by
    have hle := hchain.answers_le hends
    have hlast := hchain.complete
    rw [hc, hchain.applied] at hlast
    by_cases hlt : k < N
    · rw [hends.unended k hlt] at hlast
      cases hlast
    · omega
  subst hk
  exact ⟨hchain, hchain.size_calls hslot, hslot⟩

theorem at_end (hends : b.ChainEnds start N) (hw : Unfailing b start w)
    (hc : w.source.progress.complete = true) (hbuffer : w.source.progress.buffer = []) :
    w.takenRows = (b.pagesAfter start N).flatMap Page.rows ∧
    w.source.calls.toList =
      (List.range N).map (fun k => Chain.token (b.pagesAfter start k)) ∧
    w.source.progress.pages = (b.pagesAfter start N).length ∧
    w.source.progress.infos.toList = (b.pagesAfter start N).map Page.report := by
  obtain ⟨hchain, hsize, -⟩ := hw.of_complete hends hc
  refine ⟨?_, ?_, ?_, ?_⟩
  · have hrows := hw.accounts.rows
    rw [hbuffer, List.append_nil, appliedRows, hchain.applied] at hrows
    exact hrows.symm
  · refine List.ext_getElem (by simp [hsize]) ?_
    intro n hn hn'
    have hn : n < w.source.calls.size := hn
    have hcall : w.source.calls[n]? = some w.source.calls[n] := Array.getElem?_eq_getElem hn
    simp [hchain.asked n _ hcall]
  · rw [hchain.pages, hchain.applied]
  · rw [hchain.infos, hchain.applied]

end Unfailing

end World

end PagedTraversal
