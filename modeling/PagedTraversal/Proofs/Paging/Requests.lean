import PagedTraversal.Proofs.Paging.Chain

/-!
# PagedTraversal.Proofs.Paging.Requests

Which pages a backend is asked for. Calls never overlap, and each asks for what the last page
applied points to. So as long as no fetch fails, the calls and the pages of the chain go together
one by one.
-/

namespace PagedTraversal

namespace World

/-- What holds of the calls for pages in a world, and of the next one.
`apart`: no two calls are open. `asks`: a move that makes a call asks for what the last page applied
points to, and no page without a token has been applied. `inFlight`: the fetch in the slot was
started at the present place in the chain. `kept`: a poll of another handle does not empty the slot.
`once`: unless a call has failed, the `k`-th call is answered with the `k`-th page fetched and asks
for what the page before that points to; one more call at most is open, and none once the last page
is there. -/
structure AsksInTurn (b : Backend) (first : Option Page) (w : World) : Prop where
  apart : ∀ (h h' : Handle) (f f' : Fetch) (n n' : Nat), w.source.fetches[h]? = some f →
    w.source.fetches[h']? = some f' → f.stage = .calling n → f'.stage = .calling n' → h = h'
  asks : ∀ m, (w.move b m).source.calls = w.source.calls ∨
    (w.move b m).source.calls = w.source.calls.push (Chain.token w.applied) ∧
      ∀ p ∈ w.applied, p.isLast = false
  inFlight : ∀ h : Handle, w.source.inFlight = some h → ∃ f, w.source.fetches[h]? = some f ∧
    f.page = w.source.progress.pages ∧ f.token = w.source.progress.next
  kept : ∀ h h' : Handle, w.source.inFlight = some h' → h ≠ h' →
    (w.source.poll h).2.inFlight = some h'
  once : (∀ n token, w.source.calls[n]? = some token → ∃ p, b.answer n token = .page p) →
    let fetched := w.applied.drop first.toList.length
    (∀ k p, fetched[k]? = some p → ∃ token, w.source.calls[k]? = some token ∧
      b.answer k token = .page p) ∧
    (∀ (k : Nat) token, w.source.calls[k]? = some token →
      token = Chain.token (first.toList ++ fetched.take k)) ∧
    (w.source.calls.size = fetched.length ∨
      w.source.calls.size = fetched.length + 1 ∧ w.source.CallOpen) ∧
    (w.source.progress.complete = true → w.source.calls.size = fetched.length)

namespace OnChain

variable {b : Backend} {start : List Page} {k : Nat} {w : World}

theorem calls_move (hw : OnChain b start k w) (m : Move) :
    (w.move b m).source.calls = w.source.calls ∨
    (w.move b m).source.calls = w.source.calls.push (Chain.token w.applied) ∧
      ∀ p ∈ w.applied, p.isLast = false := by
  rcases w.move_cases b m with ⟨hact, -⟩ | ⟨h, e⟩ | ⟨h, e⟩
  · exact .inl (Source.SameChain.of_act hact).calls
  · rw [e]
    rcases w.source.beginCall_cases h with e | ⟨page, token, seen, hf, e⟩ <;> simp only [e]
    · exact .inl trivial
    · obtain ⟨-, htoken, hcomplete⟩ := hw.oneFetch.current h _ hf rfl
      refine .inr ⟨?_, hw.not_isLast hcomplete⟩
      rw [← hw.next, ← htoken]
      rfl
  · rw [e]
    refine .inl ?_
    rcases w.endCall_cases b h with e | ⟨page, token, n, seen, hf, e⟩ <;> rw [e]
    rw [Source.endCall_of_calling hf]
    cases b.answer n token <;> rfl

/-- A crashed fetch that has not been polled is the one in the slot, so the poll that finds out the
crash empties no other's slot. -/
theorem inFlight_poll (hw : OnChain b start k w) {h h' : Handle}
    (hslot : w.source.inFlight = some h') (hne : h ≠ h') :
    (w.source.poll h).2.inFlight = some h' := by
  rcases w.source.poll_cases h with e | ⟨page, token, settlement, hf, e⟩ | ⟨page, token, hf, e⟩
  · rw [e]
    exact hslot
  · rw [e]
    exact hslot
  · have := (hw.oneFetch.slot h).2 ⟨_, hf, rfl⟩
    rw [hslot] at this
    exact absurd (Option.some.inj this).symm hne

section NoFailure

variable (hpage : ∀ n token, w.source.calls[n]? = some token → ∃ p, b.answer n token = .page p)
include hpage

theorem answer_eq_page (hw : OnChain b start k w) {j : Nat} (hj : j < k) :
    ∃ p, w.source.calls[j]? = some (Chain.token (b.pagesAfter start j)) ∧
      b.answer j (Chain.token (b.pagesAfter start j)) = .page p := by
  have hsize : j < w.source.calls.size := by
    rcases hw.answered with ⟨e, -⟩ | ⟨e, -⟩ <;> omega
  have hlook : w.source.calls[j]? = some w.source.calls[j] := Array.getElem?_eq_getElem hsize
  have hasked := hw.asked j _ hlook
  rw [hasked] at hlook
  obtain ⟨p, hp⟩ := hpage j _ hlook
  exact ⟨p, hlook, hp⟩

theorem length_applied (hw : OnChain b start k w) : w.applied.length = start.length + k := by
  rw [hw.applied]
  refine b.length_pagesAfter start fun j hj => ?_
  obtain ⟨p, -, hp⟩ := hw.answer_eq_page hpage hj
  exact ⟨p, hp⟩

/-- The pages after `j` answers are the first ones and `j` of those fetched. -/
theorem pagesAfter_eq (hw : OnChain b start k w) {j : Nat} (hj : j ≤ k) :
    b.pagesAfter start j = start ++ (w.applied.drop start.length).take j := by
  have hlength : (b.pagesAfter start j).length = start.length + j := by
    refine b.length_pagesAfter start fun i hi => ?_
    obtain ⟨p, -, hp⟩ := hw.answer_eq_page hpage (Nat.lt_of_lt_of_le hi hj)
    exact ⟨p, hp⟩
  obtain ⟨fetched, hstart⟩ : start <+: w.applied := by
    rw [hw.applied]
    exact b.prefix_pagesAfter start (Nat.zero_le k)
  obtain ⟨later, hlater⟩ : b.pagesAfter start j <+: w.applied := by
    rw [hw.applied]
    exact b.prefix_pagesAfter start hj
  calc b.pagesAfter start j
      = w.applied.take (start.length + j) := by rw [← hlater, ← hlength, List.take_left]
    _ = start ++ fetched.take j := by rw [← hstart, List.take_length_add_append]
    _ = start ++ (w.applied.drop start.length).take j := by rw [← hstart, List.drop_left]

theorem fetched_answers (hw : OnChain b start k w) {j : Nat} {p : Page}
    (hp : (w.applied.drop start.length)[j]? = some p) :
    ∃ token, w.source.calls[j]? = some token ∧ b.answer j token = .page p := by
  have hj : j < k := by
    have := List.getElem?_eq_some_iff.1 hp
    have hlength := hw.length_applied hpage
    obtain ⟨hj, -⟩ := this
    rw [List.length_drop] at hj
    omega
  obtain ⟨p', hcall, hp'⟩ := hw.answer_eq_page hpage hj
  refine ⟨_, hcall, ?_⟩
  have hnext := hw.pagesAfter_eq hpage (j := j + 1) hj
  rw [Backend.pagesAfter, hp', hw.pagesAfter_eq hpage (Nat.le_of_lt hj), List.take_add_one, hp,
    List.append_assoc] at hnext
  have := List.append_cancel_left (List.append_cancel_left hnext)
  simp only [Reply.pages, Option.toList, List.cons.injEq, and_true] at this
  rw [hp', this]

end NoFailure

end OnChain

theorem asks_in_turn (b : Backend) (first : Option Page) (ms : List Move) :
    AsksInTurn b first ((start first).run b ms) := by
  obtain ⟨k, hw⟩ := onChain_run b first ms
  refine ⟨?_, hw.calls_move, ?_, fun h h' => hw.inFlight_poll, ?_⟩
  · intro h h' f f' n n' hf hf' hn hn'
    exact hw.oneFetch.unique hf hf' (Fetch.occupies_of_calling hn) (Fetch.occupies_of_calling hn')
  · intro h hslot
    obtain ⟨f, hf, ho⟩ := (hw.oneFetch.slot h).1 hslot
    obtain ⟨hpages, htoken, -⟩ := hw.oneFetch.current h f hf ho
    exact ⟨f, hf, hpages, htoken⟩
  · intro hpage fetched
    have hk : fetched.length = k := by
      rw [List.length_drop, hw.length_applied hpage]
      omega
    refine ⟨fun j p hp => hw.fetched_answers hpage hp, ?_, ?_, ?_⟩
    · intro j token hcall
      have hj : j ≤ k := by
        have := (Array.getElem?_eq_some_iff.1 hcall).1
        rcases hw.answered with ⟨e, -⟩ | ⟨e, -⟩ <;> omega
      rw [hw.asked j token hcall, hw.pagesAfter_eq hpage hj]
    · rw [hk]
      rcases hw.answered with ⟨e, -⟩ | ⟨e, hopen⟩
      · exact .inl e
      · exact .inr ⟨e, hopen⟩
    · intro hcomplete
      rw [hk]
      rcases hw.answered with ⟨e, -⟩ | ⟨-, h, f, n, hf, hn⟩
      · exact e
      · -- the fetch of an open call is in the slot, which is empty once the last page is there
        have := (hw.oneFetch.current h f hf (Fetch.occupies_of_calling hn)).2.2
        rw [hcomplete] at this
        cases this

end World

end PagedTraversal
