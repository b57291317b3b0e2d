import PagedTraversal.Proofs.ResultSet.Turns

/-!
# PagedTraversal.Proofs.ResultSet.Agreement

All ways to consume agree. Every turn that does anything leaves less to do, so under any fair order
of turns the consumer comes to the end; and what it has got by then depends neither on its plan nor
on the order.
-/

namespace PagedTraversal

namespace ResultSet

namespace Consumption

/-- Neither the consumer nor the task in the slot is left waiting for its turn for ever. -/
def Fair (turns : Nat → Turn) : Prop := ∀ t n, ∃ m, n ≤ m ∧ turns m = t

variable {b : Backend} {front : List Page} {N : Nat} {plan : Nat → Way} {turns : Nat → Turn}
  {s : Consumption}

theorem Sound.start (b : Backend) (thresholds : Nat → Option Nat) (first : Option Page) :
    (Consumption.start thresholds first).Sound b first.toList := by
  refine ⟨.initial b first, ?_, fun _ i => rfl⟩
  cases first <;> rfl

theorem Sound.after (hends : b.ChainEnds front N) (hs : s.Sound b front) (n : Nat) :
    (s.after b plan turns n).Sound b front := by
  induction n with
  | zero => exact hs
  | succ n ih => exact (ih.turn plan hends (turns n)).1

theorem after_ended {n : Nat} (hends : b.ChainEnds front N) (hs : s.Sound b front)
    (hended : (s.after b plan turns n).status = .ended) {m : Nat} (hm : n ≤ m) :
    s.after b plan turns m = s.after b plan turns n := by
  induction hm with
  | refl => rfl
  | @step m hm ih =>
    rw [Consumption.after, ih]
    cases turns m with
    | consumer => simp [Consumption.turn, consume, hended]
    | background =>
      have hn : (s.after b plan turns n).Sound b front := hs.after hends n
      have hstanding := hn.standing
      rw [Standing, hended] at hstanding
      obtain ⟨-, -, hslot⟩ := hn.unfailing.of_complete hends hstanding.2.2
      rw [Consumption.turn, World.tend_of_empty b hslot]

/-- What a measure counts down to under fair turns, whatever it is that takes them. A turn that brings
it nearer is taken some time, and until then another may bring it nearer. -/
theorem Fair.counts_down (hfair : Fair turns) {σ : Type} (turn : σ → Turn → σ) {run : Nat → σ}
    (hrun : ∀ n, run (n + 1) = turn (run n) (turns n)) {P Q : σ → Prop} (measure : σ → Nat)
    (hkept : ∀ n, P (run n))
    (hturn : ∀ s t, P s → ¬ Q s → turn s t = s ∨ Q (turn s t) ∨ measure (turn s t) < measure s)
    (hmove : ∀ s, P s → ¬ Q s → ∃ t, Q (turn s t) ∨ measure (turn s t) < measure s) :
    ∃ n, Q (run n) := by
  have hnearer : ∀ n, ¬ Q (run n) → ∃ m, Q (run m) ∨ measure (run m) < measure (run n) := by
    intro n hdone
    obtain ⟨t, ht⟩ := hmove _ (hkept n) hdone
    obtain ⟨m, hm, hturns⟩ := hfair t n
    by_cases hsame : run m = run n
    · refine ⟨m + 1, ?_⟩
      rw [hrun, hsame, hturns]
      exact ht
    · -- some turn before the `m`-th one did something
      clear hturns
      induction hm with
      | refl => exact absurd rfl hsame
      | @step m hm ih =>
        by_cases hbefore : run m = run n
        · refine ⟨m + 1, ?_⟩
          rw [hrun, hbefore] at hsame ⊢
          exact (hturn _ (turns m) (hkept n) hdone).resolve_left hsame
        · exact ih hbefore
  suffices h : ∀ k n, measure (run n) = k → ∃ n, Q (run n) from h _ 0 rfl
  intro k
  induction k using Nat.strongRecOn with
  | ind k ih =>
    intro n hn
    by_cases hdone : Q (run n)
    · exact ⟨n, hdone⟩
    · obtain ⟨m, hm | hlt⟩ := hnearer n hdone
      · exact ⟨m, hm⟩
      · exact ih _ (hn ▸ hlt) m rfl

theorem Fair.exists_done (hfair : Fair turns) {P Q : Consumption → Prop}
    (measure : Consumption → Nat) (hkept : ∀ n, P (s.after b plan turns n))
    (hturn : ∀ s t, P s → ¬ Q s → s.turn b plan t = s ∨ Q (s.turn b plan t) ∨
      measure (s.turn b plan t) < measure s)
    (hmove : ∀ s, P s → ¬ Q s → ∃ t, Q (s.turn b plan t) ∨
      measure (s.turn b plan t) < measure s) :
    ∃ n, Q (s.after b plan turns n) :=
  hfair.counts_down _ (fun _ => rfl) measure hkept hturn hmove

theorem exists_ended (hends : b.ChainEnds front N) (hs : s.Sound b front) (hfair : Fair turns) :
    ∃ n, (s.after b plan turns n).status = .ended := by
  refine hfair.exists_done (P := Sound b front) (Q := fun s => s.status = .ended)
    (todo b front N) (hs.after hends) ?_ ?_
  · intro s t hs _
    rcases (hs.turn plan hends t).2 with hsame | hlt
    · exact .inl hsame
    · exact .inr (.inr hlt)
  · intro s hs hstatus
    obtain ⟨t, hlt⟩ := hs.exists_turn plan hends hstatus
    exact ⟨t, .inr hlt⟩

theorem Sound.prefix_outcomes (hends : b.ChainEnds front N) (hs : s.Sound b front) :
    s.outcomes <+: ((b.pagesAfter front N).flatMap Page.rows).map Row.outcome := by
  have htaken := (hs.unfailing.prefix_takenRows hends).map Row.outcome
  refine List.IsPrefix.trans ?_ htaken
  have hstanding := hs.standing
  cases hstatus : s.status with
  | idle =>
    rw [Standing, hstatus] at hstanding
    exact hstanding ▸ List.prefix_rfl
  | asking way n =>
    rw [Standing, hstatus] at hstanding
    obtain ⟨c, -, -, -, hledger⟩ := hstanding
    exact ⟨_, hledger⟩
  | ended =>
    rw [Standing, hstatus] at hstanding
    exact hstanding.1 ▸ List.prefix_rfl

/-- However the consumer asks and whenever the fetches do their steps, it has the outcome of each row
in order when it comes to the end, and the calls made and the reports left are the same. It does
come there unless somebody is left waiting. -/
theorem ways_agree (b : Backend) (first : Option Page) (N : Nat) (plan : Nat → Way)
    (thresholds : Nat → Option Nat) (turns : Nat → Turn) (hends : b.ChainEnds first.toList N) :
    let s := (start thresholds first).after b plan turns
    let pages := b.pagesAfter first.toList N
    (∀ n, (s n).outcomes <+: (pages.flatMap Page.rows).map Row.outcome) ∧
    (∀ n, (s n).status = .ended →
      (s n).outcomes = (pages.flatMap Page.rows).map Row.outcome ∧
      (s n).world.source.calls.toList =
        (List.range N).map (fun k => Chain.token (b.pagesAfter first.toList k)) ∧
      state (s n).world.source = .exhausted ∧
      (s n).world.source.progress.pages = pages.length ∧
      (s n).world.source.progress.infos.toList = pages.map Page.report) ∧
    (Fair turns → ∃ n, (s n).status = .ended ∧ ∀ m, n ≤ m → s m = s n) := by
  intro s pages
  have hs : ∀ n, (s n).Sound b first.toList := (Sound.start b thresholds first).after hends
  refine ⟨fun n => (hs n).prefix_outcomes hends, ?_, ?_⟩
  · intro n hended
    have hstanding := (hs n).standing
    rw [Standing, hended] at hstanding
    obtain ⟨houtcomes, hbuffer, hcomplete⟩ := hstanding
    obtain ⟨htaken, hcalls, hpages, hinfos⟩ := (hs n).unfailing.at_end hends hcomplete hbuffer
    refine ⟨by rw [houtcomes, htaken], hcalls, ?_, hpages, hinfos⟩
    simp [state, State.ofReadings, Source.available, hbuffer, hcomplete]
  · intro hfair
    obtain ⟨n, hended⟩ := exists_ended hends (Sound.start b thresholds first) hfair
    exact ⟨n, hended, fun m hm => after_ended hends (Sound.start b thresholds first) hended hm⟩

def twoPages : Backend :=
  .script [.page ⟨[⟨.null⟩], some ⟨[0]⟩, .empty⟩, .page ⟨[⟨.bool true⟩], none, .empty⟩]

theorem twoPages_ends : twoPages.ChainEnds [] 2 where
  page
    | 0, _ => ⟨_, rfl⟩
    | 1, _ => ⟨_, rfl⟩
  unended
    | 0, _ => rfl
    | 1, _ => rfl
  ended := rfl

def alternating (n : Nat) : Turn := if n % 2 = 0 then .consumer else .background

theorem alternating_fair : Fair alternating := by
  intro t n
  cases t with
  | consumer => exact ⟨2 * n, by omega, by simp [alternating]⟩
  | background => exact ⟨2 * n + 1, by omega, by simp [alternating]⟩

/-- The first row by a cursor that requests pages ahead, and the rest by one call. -/
def cursorThenAll : Nat → Way
  | 0 => .next 0
  | _ => .all

theorem ways_agree_two_pages :
    twoPages.ChainEnds [] 2 ∧ Fair alternating ∧
    ∃ n, ∀ m, n ≤ m →
      ((start (fun _ => some 0) none).after twoPages cursorThenAll alternating m).status = .ended ∧
      ((start (fun _ => some 0) none).after twoPages cursorThenAll alternating m).outcomes =
        [.ok (.scalar .null), .ok (.scalar (.boolean true))] := by
  refine ⟨twoPages_ends, alternating_fair, ?_⟩
  obtain ⟨-, hend, hfair⟩ := ways_agree twoPages none 2 cursorThenAll (fun _ => some 0) alternating
    twoPages_ends
  obtain ⟨n, hended, hsame⟩ := hfair alternating_fair
  refine ⟨n, fun m hm => ?_⟩
  rw [hsame m hm]
  exact ⟨hended, (hend n hended).1⟩

end Consumption

end ResultSet

end PagedTraversal
