import PagedTraversal.Proofs.Paging.Slot

/-!
# PagedTraversal.Proofs.Paging.Chain

The chain of pages that a backend serves. The next call asks for what the last page applied points
to, so the pages that have come after a number of answered calls are a function of that number
(`Backend.pagesAfter`), whatever the parties do in between.

* `World.OnChain`: a world in which that many calls have been answered.
* `World.onChain_run`: every reachable world is one.
-/

namespace PagedTraversal

def Page.report (p : Page) : PageInfo := { p.info with next := p.next }

namespace Chain

/-- What asks for the page after the given ones. -/
def token (pages : List Page) : Option PageToken := pages.getLast?.bind Page.next

/-- Whether no page comes after the given ones. -/
def ended (pages : List Page) : Bool := pages.getLast?.any Page.isLast

theorem token_concat (pages : List Page) (p : Page) : token (pages ++ [p]) = p.next := by
  simp [token]

theorem ended_concat (pages : List Page) (p : Page) : ended (pages ++ [p]) = p.isLast := by
  simp [ended]

end Chain

namespace Backend

variable (b : Backend) (start : List Page)

/-- The pages after the given number of answered calls, when the first ones are there already. -/
def pagesAfter : Nat → List Page
  | 0 => start
  | k + 1 => pagesAfter k ++ (b.answer k (Chain.token (pagesAfter k))).pages

theorem prefix_pagesAfter {j k : Nat} (h : j ≤ k) :
    b.pagesAfter start j <+: b.pagesAfter start k := by
  induction k with
  | zero =>
    obtain rfl : j = 0 := by omega
    exact List.prefix_rfl
  | succ k ih =>
    by_cases e : j = k + 1
    · subst e
      exact List.prefix_rfl
    · exact (ih (by omega)).trans (List.prefix_append _ _)

/-- While no call fails, each of them brings one page. -/
theorem length_pagesAfter {k : Nat}
    (h : ∀ j < k, ∃ p, b.answer j (Chain.token (b.pagesAfter start j)) = .page p) :
    (b.pagesAfter start k).length = start.length + k := by
  induction k with
  | zero => rfl
  | succ k ih =>
    obtain ⟨p, hp⟩ := h k (by omega)
    rw [pagesAfter, hp, List.length_append, ih fun j hj => h j (by omega)]
    simp [Reply.pages, Nat.add_assoc]

end Backend

/-! ## The steps that leave the chain alone -/

namespace Source

def CallOpen (s : Source) : Prop :=
  ∃ (h : Handle) (f : Fetch) (n : Nat), s.fetches[h]? = some f ∧ f.stage = .calling n

theorem callOpen_modify {s : Source} {h : Handle} {g : Fetch → Fetch}
    (hg : ∀ f, (g f).stage = f.stage) :
    CallOpen { s with fetches := s.fetches.modify h g } ↔ s.CallOpen := by
  constructor
  · rintro ⟨h', f', n, hf', hstage⟩
    rcases lookup_modify.1 hf' with ⟨rfl, f, hf, rfl⟩ | ⟨-, hf'⟩
    · exact ⟨h, f, n, hf, hg f ▸ hstage⟩
    · exact ⟨h', f', n, hf', hstage⟩
  · rintro ⟨h', f', n, hf', hstage⟩
    by_cases e : h = h'
    · subst e
      exact ⟨h, g f', n, lookup_modify.2 (.inl ⟨rfl, f', hf', rfl⟩), (hg f').trans hstage⟩
    · exact ⟨h', f', n, lookup_modify.2 (.inr ⟨e, hf'⟩), hstage⟩

theorem callOpen_push {s : Source} {f : Fetch} (hf : ∀ n, f.stage ≠ .calling n) :
    CallOpen { s with fetches := s.fetches.push f } ↔ s.CallOpen := by
  constructor
  · rintro ⟨h', f', n, hf', hstage⟩
    rcases lookup_push.1 hf' with ⟨-, rfl⟩ | hf'
    · exact absurd hstage (hf n)
    · exact ⟨h', f', n, hf', hstage⟩
  · rintro ⟨h', f', n, hf', hstage⟩
    exact ⟨h', f', n, lookup_push.2 (.inr hf'), hstage⟩

/-- The steps that make and answer no call: calls and place in the chain are as before. -/
structure SameChain (s t : Source) : Prop where
  calls : t.calls = s.calls
  callOpen : t.CallOpen ↔ s.CallOpen
  pages : t.progress.pages = s.progress.pages
  next : t.progress.next = s.progress.next
  complete : t.progress.complete = s.progress.complete
  infos : t.progress.infos = s.progress.infos

theorem SameChain.of_act {hasRuntime : Bool} {s t : Source} (h : s.Act hasRuntime t) :
    SameChain s t := by
  cases h with
  | rest => exact ⟨rfl, Iff.rfl, rfl, rfl, rfl, rfl⟩
  | takeRow =>
    unfold takeRow
    split <;> exact ⟨rfl, Iff.rfl, rfl, rfl, rfl, rfl⟩
  | drain => exact ⟨rfl, Iff.rfl, rfl, rfl, rfl, rfl⟩
  | request =>
    rcases s.request_cases hasRuntime with ⟨settlement, -, e⟩ | ⟨h, -, -, e⟩ | ⟨-, -, -, e⟩ <;> rw [e]
    · exact ⟨rfl, callOpen_push (by simp [settledFetch]), rfl, rfl, rfl, rfl⟩
    · exact ⟨rfl, Iff.rfl, rfl, rfl, rfl, rfl⟩
    · exact ⟨rfl, callOpen_push (s := s) (by simp), rfl, rfl, rfl, rfl⟩
  | poll h =>
    rcases s.poll_cases h with e | ⟨page, token, settlement, -, e⟩ | ⟨page, token, -, e⟩ <;> rw [e]
    · exact ⟨rfl, Iff.rfl, rfl, rfl, rfl, rfl⟩
    · exact ⟨rfl, callOpen_modify fun _ => rfl, rfl, rfl, rfl, rfl⟩
    · exact ⟨rfl, callOpen_modify (s := s) fun _ => rfl, rfl, rfl, rfl, rfl⟩
  | note _ => exact ⟨rfl, Iff.rfl, rfl, rfl, rfl, rfl⟩

/-- The call that is answered was the only open one. -/
theorem OneFetch.not_callOpen_endCall {s : Source} (hs : OneFetch s) {h : Handle} {page n : Nat}
    {token : Option PageToken} {seen : Option Settlement}
    (hf : s.fetches[h]? = some ⟨page, token, .calling n, seen⟩) (reply : Reply) :
    ¬ (s.endCall h reply).CallOpen := by
  have hclosed : ∀ (h' : Handle) (f' : Fetch) (stage : Stage) (n' : Nat),
      (∀ n', stage ≠ .calling n') →
      (s.fetches.modify h fun f => { f with stage := stage })[h']? = some f' →
      f'.stage ≠ .calling n' := by
    intro h' f' stage n' hstage hf' e
    rcases lookup_modify.1 hf' with ⟨-, f, -, rfl⟩ | ⟨hne, hf'⟩
    · exact hstage n' e
    · exact hne (hs.unique hf hf' rfl (Fetch.occupies_of_calling e))
  rintro ⟨h', f', n', hf', e⟩
  rw [endCall_of_calling hf] at hf'
  cases reply with
  | page p => exact hclosed h' f' _ n' (by simp) hf' e
  | failure err => exact hclosed h' f' _ n' (by simp) hf' e
  | crash => exact hclosed h' f' _ n' (by simp) hf' e

end Source

namespace World

/-- The world after `k` answered calls. -/
structure OnChain (b : Backend) (start : List Page) (k : Nat) (w : World) : Prop where
  oneFetch : w.source.OneFetch
  pages : w.source.progress.pages = w.applied.length
  next : w.source.progress.next = Chain.token w.applied
  complete : w.source.progress.complete = Chain.ended w.applied
  infos : w.source.progress.infos.toList = w.applied.map Page.report
  inner : ∀ p ∈ w.applied.dropLast, p.isLast = false
  applied : w.applied = b.pagesAfter start k
  asked : ∀ (n : Nat) (token : Option PageToken), w.source.calls[n]? = some token →
    token = Chain.token (b.pagesAfter start n)
  unended : ∀ n < w.source.calls.size, Chain.ended (b.pagesAfter start n) = false
  answered : w.source.calls.size = k ∧ ¬ w.source.CallOpen ∨
    w.source.calls.size = k + 1 ∧ w.source.CallOpen

namespace OnChain

variable {b : Backend} {start : List Page} {k : Nat} {w w' : World}

theorem of_sameChain (hw : OnChain b start k w) (hone : w'.source.OneFetch)
    (hsame : Source.SameChain w.source w'.source) (happlied : w'.applied = w.applied) :
    OnChain b start k w' where
  oneFetch := hone
  pages := by rw [hsame.pages, happlied]; exact hw.pages
  next := by rw [hsame.next, happlied]; exact hw.next
  complete := by rw [hsame.complete, happlied]; exact hw.complete
  infos := by rw [hsame.infos, happlied]; exact hw.infos
  inner := by rw [happlied]; exact hw.inner
  applied := by rw [happlied]; exact hw.applied
  asked := by rw [hsame.calls]; exact hw.asked
  unended := by rw [hsame.calls]; exact hw.unended
  answered := by rw [hsame.calls, hsame.callOpen]; exact hw.answered

theorem inFlight_of_complete (hw : OnChain b start k w)
    (hc : w.source.progress.complete = true) : w.source.inFlight = none :=
  hw.oneFetch.inFlight_of_complete hc

/-- While no fetch is in flight, all calls have been answered. -/
theorem size_calls (hw : OnChain b start k w) (hslot : w.source.inFlight = none) :
    w.source.calls.size = k := by
  rcases hw.answered with ⟨hsize, -⟩ | ⟨-, h, f, n, hf, hn⟩
  · exact hsize
  · have hfree := hw.oneFetch.not_occupies hslot hf
    rw [Fetch.occupies_of_calling hn] at hfree
    cases hfree

/-- Nothing is applied behind a page without a token. -/
theorem not_isLast (hw : OnChain b start k w) (hc : w.source.progress.complete = false) :
    ∀ p ∈ w.applied, p.isLast = false := by
  intro p hp
  rw [hw.complete] at hc
  obtain ⟨rest, last, e⟩ : ∃ rest last, w.applied = rest ++ [last] := by
    rcases List.eq_nil_or_concat w.applied with e | ⟨rest, last, e⟩
    · rw [e] at hp
      cases hp
    · exact ⟨rest, last, e.trans List.concat_eq_append⟩
  have hinner := hw.inner
  rw [e, Chain.ended_concat] at hc
  rw [e, List.dropLast_concat] at hinner
  rw [e, List.mem_append, List.mem_singleton] at hp
  rcases hp with hp | rfl
  · exact hinner p hp
  · exact hc

theorem beginCall (hw : OnChain b start k w) (h : Handle) :
    OnChain b start k { w with source := w.source.beginCall h } := by
  have hone := hw.oneFetch.beginCall h
  rcases w.source.beginCall_cases h with e | ⟨page, token, seen, hf, e⟩
  · rw [e]
    exact hw
  · obtain ⟨-, htoken, hcomplete⟩ := hw.oneFetch.current h _ hf rfl
    -- the fetch that begins its call is in the slot, so that no call is open yet
    have hclosed : ¬ w.source.CallOpen := by
      rintro ⟨h', f', n, hf', hstage⟩
      cases hw.oneFetch.unique hf hf' rfl (Fetch.occupies_of_calling hstage)
      rw [hf] at hf'
      cases hf'
      cases hstage
    have hsize : w.source.calls.size = k := by
      rcases hw.answered with ⟨hsize, -⟩ | ⟨-, hopen⟩
      · exact hsize
      · exact absurd hopen hclosed
    rw [e] at hone ⊢
    have hgrown : (w.source.calls.push token).size = k + 1 := by rw [Array.size_push, hsize]
    refine ⟨hone, hw.pages, hw.next, hw.complete, hw.infos, hw.inner, hw.applied, ?_, ?_, ?_⟩
    · intro n token' hn
      have hn : (w.source.calls.push token)[n]? = some token' := hn
      rw [Array.getElem?_push] at hn
      split at hn
      · next en =>
        cases hn
        rw [en, hsize, ← hw.applied, ← hw.next]
        exact htoken
      · exact hw.asked n token' hn
    · intro n hn
      have hn : n < (w.source.calls.push token).size := hn
      by_cases en : n = k
      · rw [en, ← hw.applied, ← hw.complete]
        exact hcomplete
      · exact hw.unended n (by omega)
    · exact .inr ⟨hgrown, h, _, _, Source.lookup_modify.2 (.inl ⟨rfl, _, hf, rfl⟩), rfl⟩

/-- The pages after an answer are those before it and those that it brings. -/
theorem answer (hw : OnChain b start k w) {h : Handle} {page n : Nat} {token : Option PageToken}
    {seen : Option Settlement} (hf : w.source.fetches[h]? = some ⟨page, token, .calling n, seen⟩) :
    n = k ∧ w.source.calls.size = k + 1 ∧
      w.applied ++ (b.answer n token).pages = b.pagesAfter start (k + 1) := by
  obtain ⟨hn, hcall⟩ := hw.oneFetch.openCall h _ n hf rfl
  have hsize : w.source.calls.size = k + 1 := by
    rcases hw.answered with ⟨-, hclosed⟩ | ⟨hsize, -⟩
    · exact absurd ⟨h, _, n, hf, rfl⟩ hclosed
    · exact hsize
  obtain rfl : n = k := by omega
  refine ⟨rfl, hsize, ?_⟩
  rw [hw.asked n token hcall, Backend.pagesAfter, hw.applied]

theorem endCall (hw : OnChain b start k w) (h : Handle) :
    ∃ k', OnChain b start k' (w.endCall b h) := by
  rcases w.endCall_cases b h with e | ⟨page, token, n, seen, hf, e⟩ <;> rw [e]
  · exact ⟨k, hw⟩
  · obtain ⟨-, hsize, happlied⟩ := hw.answer hf
    obtain ⟨-, -, hcomplete⟩ := hw.oneFetch.current h _ hf rfl
    have hclosed := hw.oneFetch.not_callOpen_endCall hf (b.answer n token)
    have hone := hw.oneFetch.endCall hf (b.answer n token)
    rw [Source.endCall_of_calling hf] at hclosed hone ⊢
    refine ⟨k + 1, ?_⟩
    cases hreply : b.answer n token with
    | page p =>
      rw [hreply] at happlied hclosed hone
      refine ⟨hone, ?_, ?_, ?_, ?_, ?_, happlied, hw.asked, hw.unended, .inl ⟨hsize, hclosed⟩⟩
      · simp [Source.setStage, Source.log, Progress.apply, Reply.pages, hw.pages]
      · simp [Source.setStage, Source.log, Progress.apply, Reply.pages, Chain.token_concat]
      · simp [Source.setStage, Source.log, Progress.apply, Reply.pages, Chain.ended_concat]
      · simp [Source.setStage, Source.log, Progress.apply, Reply.pages, hw.infos, Page.report]
      · intro p' hp'
        rw [Reply.pages, List.dropLast_concat] at hp'
        exact hw.not_isLast hcomplete p' hp'
    | failure err =>
      rw [hreply] at happlied hclosed hone
      simp only [Reply.pages, List.append_nil] at happlied ⊢
      exact ⟨hone, hw.pages, hw.next, hw.complete, hw.infos, hw.inner, happlied, hw.asked,
        hw.unended, .inl ⟨hsize, hclosed⟩⟩
    | crash =>
      rw [hreply] at happlied hclosed hone
      simp only [Reply.pages, List.append_nil] at happlied ⊢
      exact ⟨hone, hw.pages, hw.next, hw.complete, hw.infos, hw.inner, happlied, hw.asked,
        hw.unended, .inl ⟨hsize, hclosed⟩⟩

theorem move (hw : OnChain b start k w) (m : Move) : ∃ k', OnChain b start k' (w.move b m) := by
  rcases w.move_cases b m with ⟨hact, happlied⟩ | ⟨h, e⟩ | ⟨h, e⟩
  · exact ⟨k, hw.of_sameChain (hw.oneFetch.act hact) (.of_act hact) happlied⟩
  · rw [e]
    exact ⟨k, hw.beginCall h⟩
  · rw [e]
    exact hw.endCall h

end OnChain

theorem onChain_start (b : Backend) (first : Option Page) :
    OnChain b first.toList 0 (start first) := by
  have hone := oneFetch_start first
  cases first with
  | none =>
    refine ⟨hone, rfl, rfl, rfl, rfl, by simp [start], rfl, by simp [start, Source.initial],
      by simp [start, Source.initial], .inl ⟨rfl, ?_⟩⟩
    rintro ⟨h, f, n, hf, -⟩
    simp [start, Source.initial] at hf
  | some page =>
    refine ⟨hone, rfl, rfl, rfl, rfl, by simp [start], rfl, ?_, ?_, .inl ⟨rfl, ?_⟩⟩
    · simp [start, Source.ofFirstPage, Source.initial]
    · simp [start, Source.ofFirstPage, Source.initial]
    · rintro ⟨h, f, n, hf, -⟩
      simp [start, Source.ofFirstPage, Source.initial] at hf

theorem onChain_run (b : Backend) (first : Option Page) (ms : List Move) :
    ∃ k, OnChain b first.toList k ((start first).run b ms) :=
  run_keeps (P := fun w => ∃ k, OnChain b first.toList k w) (fun _ m ⟨_, hw⟩ => hw.move m)
    ⟨0, onChain_start b first⟩ ms

end World

end PagedTraversal
