import PagedTraversal.Proofs.Paging.Chain

/-!
# PagedTraversal.Proofs.Paging.Delivery

Where the rows go. The rows of the pages applied are those taken so far and then those buffered, in
order, and the rows that one call has taken are those that it hands over, holds or loses.

* `World.Accounts`: both, as an invariant; `World.Accounts.move`: every move keeps it.
-/

namespace PagedTraversal

namespace World

structure Accounts (w : World) : Prop where
  rows : w.appliedRows = w.takenRows ++ w.source.progress.buffer
  parties : ∀ (n : Nat) (p : Party), w.parties[n]? = some p → w.takenBy n = p.rows ++ p.lost
  known : ∀ t ∈ w.takings, t.1 < w.parties.length

theorem takenBy_concat (w : World) (n m : Nat) (rows : List Row) (s : Source) (ps : List Party) :
    takenBy ⟨s, ps, w.applied, w.takings ++ rows.map (n, ·)⟩ m =
      w.takenBy m ++ if n = m then rows else [] := by
  simp only [takenBy, List.filter_append, List.map_append]
  congr 1
  by_cases e : n = m
  · subst e
    simp [List.filter_map, Function.comp_def]
  · simp [List.filter_map, Function.comp_def, e]

theorem takenBy_of_unknown {w : World} (hw : w.Accounts) {n : Nat} (hn : w.parties.length ≤ n) :
    w.takenBy n = [] := by
  have : w.takings.filter (fun t => t.1 == n) = [] := by
    rw [List.filter_eq_nil_iff]
    intro t ht e
    have := hw.known t ht
    simp only [beq_iff_eq] at e
    omega
  rw [takenBy, this]
  rfl

namespace Accounts

variable {b : Backend} {w : World}

theorem start (first : Option Page) : Accounts (start first) := by
  cases first with
  | none => exact ⟨rfl, by simp [World.start], by simp [World.start]⟩
  | some page =>
    refine ⟨?_, by simp [World.start], by simp [World.start]⟩
    simp [World.start, appliedRows, takenRows, Source.ofFirstPage, Progress.apply, Progress.initial]

/-- A step that leaves the buffer and the calls alone. -/
theorem of_source (hw : w.Accounts) {s : Source}
    (hs : s.progress.buffer = w.source.progress.buffer) : Accounts { w with source := s } := by
  refine ⟨?_, hw.parties, hw.known⟩
  rw [show ({ w with source := s } : World).source.progress.buffer = _ from hs]
  exact hw.rows

theorem ask (hw : w.Accounts) (e : Errand) :
    Accounts { w with parties := w.parties ++ [.running e.call] } := by
  refine ⟨hw.rows, ?_, ?_⟩
  · intro n p hp
    have hp : (w.parties ++ [.running e.call])[n]? = some p := hp
    rw [List.getElem?_append] at hp
    split at hp
    · exact hw.parties n p hp
    · next hn =>
      -- a call that has just been made has taken nothing, and holds nothing
      rw [List.getElem?_singleton] at hp
      split at hp
      · cases hp
        have hnone := takenBy_of_unknown hw (n := n) (by omega)
        refine hnone.trans ?_
        cases e with
        | next threshold => cases threshold <;> rfl
        | _ => rfl
      · cases hp
  · intro t ht
    have := hw.known t ht
    simp only [List.length_append, List.length_singleton]
    omega

/-- A running call takes rows from the front of the buffer. -/
theorem turn (hw : w.Accounts) {n : Nat} {c : Call} (hc : w.parties[n]? = some (.running c))
    {p : Party} {rows : List Row} {s : Source}
    (hbuffer : w.source.progress.buffer = rows ++ s.progress.buffer)
    (hrows : p.rows ++ p.lost = c.held ++ rows) :
    Accounts ⟨s, w.parties.set n p, w.applied, w.takings ++ rows.map (n, ·)⟩ := by
  have hn : n < w.parties.length := (List.getElem?_eq_some_iff.1 hc).1
  refine ⟨?_, ?_, ?_⟩
  · have hall := hw.rows
    rw [hbuffer, ← List.append_assoc] at hall
    refine hall.trans ?_
    simp [takenRows, Function.comp_def]
  · intro m q hq
    have hq : (w.parties.set n p)[m]? = some q := hq
    rw [takenBy_concat]
    by_cases e : n = m
    · subst e
      rw [List.getElem?_set_self hn] at hq
      cases hq
      rw [hw.parties n _ hc, if_pos rfl, hrows]
      simp [Party.rows, Party.lost]
    · rw [List.getElem?_set_ne e] at hq
      rw [if_neg e, List.append_nil]
      exact hw.parties m q hq
  · intro t ht
    rw [List.length_set]
    rcases List.mem_append.1 ht with ht | ht
    · exact hw.known t ht
    · obtain ⟨row, -, rfl⟩ := List.mem_map.1 ht
      exact hn

theorem stepCall (hw : w.Accounts) (n : Nat) (hasRuntime : Bool) :
    (w.stepCall n hasRuntime).Accounts := by
  rcases w.stepCall_cases n hasRuntime with e | ⟨c, hc, e⟩ <;> rw [e]
  · exact hw
  · exact hw.turn hc (c.step_buffer hasRuntime w.source) (c.step_rows hasRuntime w.source)

theorem dropCall (hw : w.Accounts) (n : Nat) : (w.dropCall n).Accounts := by
  rcases w.dropCall_cases n with e | ⟨c, hc, e⟩ <;> rw [e]
  · exact hw
  · have hrows : (Party.dropped c).rows ++ (Party.dropped c).lost = c.held ++ [] := by
      simp [Party.rows, Party.lost]
    have := hw.turn (s := w.source) hc rfl hrows
    simpa using this

theorem endCall (hw : w.Accounts) (h : Handle) : (w.endCall b h).Accounts := by
  rcases w.endCall_cases b h with e | ⟨page, token, n, seen, hf, e⟩ <;> rw [e]
  · exact hw
  · refine ⟨?_, hw.parties, hw.known⟩
    have hall := hw.rows
    rw [Source.endCall_of_calling hf]
    cases b.answer n token with
    | page p =>
      have : w.appliedRows ++ p.rows = w.takenRows ++ (w.source.progress.buffer ++ p.rows) := by
        rw [hall, List.append_assoc]
      simpa [appliedRows, takenRows, Reply.pages, Source.setStage, Source.log, Progress.apply]
        using this
    | failure err => simpa [appliedRows, takenRows, Reply.pages, Source.setStage, Source.log] using hall
    | crash => simpa [appliedRows, takenRows, Reply.pages, Source.setStage] using hall

theorem move (hw : w.Accounts) (m : Move) : (w.move b m).Accounts := by
  cases m with
  | ask e => exact hw.ask e
  | step n hasRuntime => exact hw.stepCall n hasRuntime
  | drop n => exact hw.dropCall n
  | deliver n =>
    obtain ⟨events, -, e⟩ := w.deliver_eq n
    show (w.deliver n).Accounts
    rw [e]
    exact hw.of_source rfl
  | request hasRuntime => exact hw.of_source (by rw [Source.progress_request])
  | poll h => exact hw.of_source (by rw [Source.progress_poll])
  | beginCall h => exact hw.of_source (by rw [Source.progress_beginCall])
  | endCall h => exact hw.endCall h

theorem run (hw : w.Accounts) (ms : List Move) : (w.run b ms).Accounts :=
  run_keeps (fun _ m hw => hw.move m) hw ms

end Accounts

theorem accounts_run (b : Backend) (first : Option Page) (ms : List Move) :
    ((start first).run b ms).Accounts :=
  (Accounts.start first).run ms

/-- The rows applied are those taken and then those buffered, in order and each once. As long as a
call for all rows has not failed and was not dropped, what it has taken is what it hands over or
still holds. -/
theorem rows_in_order (b : Backend) (first : Option Page) (ms : List Move) :
    let w := (start first).run b ms
    w.appliedRows = w.takenRows ++ w.source.progress.buffer ∧
    w.source.available + w.takenRows.length = w.appliedRows.length ∧
    w.source.progress.pages = w.applied.length ∧
    (∀ n p, w.parties[n]? = some p → p.isBrokenAll = false → w.takenBy n = p.rows) ∧
    ∀ t ∈ w.takings, t.1 < w.parties.length := by
  intro w
  have hw : w.Accounts := accounts_run b first ms
  obtain ⟨k, hchain⟩ := onChain_run b first ms
  refine ⟨hw.rows, ?_, hchain.pages, ?_, hw.known⟩
  · rw [hw.rows, List.length_append, Source.available]
    omega
  · intro n p hp hwhole
    rw [hw.parties n p hp, Party.lost_of_not_broken hwhole, List.append_nil]

end World

end PagedTraversal
