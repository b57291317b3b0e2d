import PagedTraversal.Proofs.Paging.World

/-!
# PagedTraversal.Proofs.Paging.Slot

The slot of a source and the fetch in it. A fetch occupies the slot from its start until its task
has returned or, if the task crashes, until a poll finds that out.

* `Source.OneFetch`: the slot holds a fetch exactly while the fetch occupies it, so there is one at
  most; its page index and token are the present ones, only the last call can be open, and what the
  polls of a fetch find out is how its task has ended.
* `Source.OneFetch.stay`, `.release`, `.settle`: a fetch changes and still occupies the slot, leaves
  it, or was out of it before.
* `Source.OneFetch.step`: every atomic step keeps `Source.OneFetch`.
-/

namespace PagedTraversal

namespace Fetch

def occupies : Fetch → Bool
  | ⟨_, _, .queued, _⟩ => true
  | ⟨_, _, .calling _, _⟩ => true
  | ⟨_, _, .returned _, _⟩ => false
  | ⟨_, _, .crashed, seen⟩ => seen.isNone

/-- What the polls have found out is how the task has ended. -/
def Truthful : Fetch → Prop
  | ⟨_, _, .queued, seen⟩ => seen = none
  | ⟨_, _, .calling _, seen⟩ => seen = none
  | ⟨_, _, .returned settlement, seen⟩ => seen = none ∨ seen = some settlement
  | ⟨_, _, .crashed, seen⟩ => seen = none ∨ seen = some (.error .taskCrashed)

theorem occupies_of_calling {f : Fetch} {n : Nat} (h : f.stage = .calling n) :
    f.occupies = true := by
  obtain ⟨page, token, stage, seen⟩ := f
  cases h
  rfl

end Fetch

namespace Source

structure OneFetch (s : Source) : Prop where
  slot : ∀ h : Handle, s.inFlight = some h ↔ ∃ f, s.fetches[h]? = some f ∧ f.occupies = true
  current : ∀ (h : Handle) (f : Fetch), s.fetches[h]? = some f → f.occupies = true →
    f.page = s.progress.pages ∧ f.token = s.progress.next ∧ s.progress.complete = false
  openCall : ∀ (h : Handle) (f : Fetch) (n : Nat), s.fetches[h]? = some f → f.stage = .calling n →
    n + 1 = s.calls.size ∧ s.calls[n]? = some f.token
  truthful : ∀ (h : Handle) (f : Fetch), s.fetches[h]? = some f → f.Truthful

namespace OneFetch

variable {s t : Source} {h h' : Handle} {f f' : Fetch} {g : Fetch → Fetch}

theorem initial : OneFetch Source.initial := by
  refine ⟨?_, ?_, ?_, ?_⟩ <;> intro h <;> simp [Source.initial]

theorem ofFirstPage (page : Page) : OneFetch (Source.ofFirstPage page) := by
  refine ⟨?_, ?_, ?_, ?_⟩ <;> intro h <;> simp [Source.ofFirstPage, Source.initial]

theorem unique (hs : OneFetch s) (hf : s.fetches[h]? = some f) (hf' : s.fetches[h']? = some f')
    (ho : f.occupies = true) (ho' : f'.occupies = true) : h = h' := by
  have e := (hs.slot h).2 ⟨f, hf, ho⟩
  rw [(hs.slot h').2 ⟨f', hf', ho'⟩] at e
  exact (Option.some.inj e).symm

theorem not_occupies (hs : OneFetch s) (hslot : s.inFlight = none) (hf : s.fetches[h]? = some f) :
    f.occupies = false := by
  cases ho : f.occupies with
  | false => rfl
  | true =>
    have hfilled := (hs.slot h).2 ⟨f, hf, ho⟩
    rw [hslot] at hfilled
    cases hfilled

theorem inFlight_of_complete (hs : OneFetch s) (hcomplete : s.progress.complete = true) :
    s.inFlight = none := by
  cases hslot : s.inFlight with
  | none => rfl
  | some h =>
    obtain ⟨f, hf, ho⟩ := (hs.slot h).1 hslot
    rw [(hs.current h f hf ho).2.2] at hcomplete
    cases hcomplete

/-- A step that leaves the slot, the fetches, the calls and the place in the chain alone. -/
theorem congr (hs : OneFetch s) (hslot : t.inFlight = s.inFlight)
    (hfetches : t.fetches = s.fetches) (hcalls : t.calls = s.calls)
    (hpages : t.progress.pages = s.progress.pages) (hnext : t.progress.next = s.progress.next)
    (hcomplete : t.progress.complete = s.progress.complete) : OneFetch t := by
  refine ⟨?_, ?_, ?_, ?_⟩
  · rw [hslot, hfetches]
    exact hs.slot
  · rw [hfetches, hpages, hnext, hcomplete]
    exact hs.current
  · rw [hfetches, hcalls]
    exact hs.openCall
  · rw [hfetches]
    exact hs.truthful

theorem truthful_modify (hs : OneFetch s) (hf : s.fetches[h]? = some f) (hg : (g f).Truthful)
    (hf' : (s.fetches.modify h g)[h']? = some f') : f'.Truthful := by
  rcases lookup_modify.1 hf' with ⟨-, f₁, hf₁, rfl⟩ | ⟨-, hf'⟩
  · rw [hf] at hf₁
    cases hf₁
    exact hg
  · exact hs.truthful h' f' hf'

/-- The fetch in the slot changes and still occupies it. No other call can be open. -/
theorem stay (hs : OneFetch s) (hf : s.fetches[h]? = some f) (ho : f.occupies = true)
    (hg : (g f).occupies = true) (htruthful : (g f).Truthful) (hpage : (g f).page = f.page)
    (htoken : (g f).token = f.token)
    (hcall : ∀ n, (g f).stage = .calling n → n + 1 = t.calls.size ∧ t.calls[n]? = some f.token)
    (hslot : t.inFlight = s.inFlight) (hfetches : t.fetches = s.fetches.modify h g)
    (hprogress : t.progress = s.progress) : OneFetch t := by
  have hlook : ∀ {h' : Handle} {f' : Fetch}, t.fetches[h']? = some f' → f'.occupies = true →
      h' = h ∧ f' = g f := by
    intro h' f' hf' ho'
    rw [hfetches] at hf'
    rcases lookup_modify.1 hf' with ⟨rfl, f₁, hf₁, rfl⟩ | ⟨hne, hf'⟩
    · rw [hf] at hf₁
      cases hf₁
      exact ⟨rfl, rfl⟩
    · exact absurd (hs.unique hf hf' ho ho') hne
  refine ⟨?_, ?_, ?_, ?_⟩
  · intro h'
    rw [hslot, (hs.slot h).2 ⟨f, hf, ho⟩]
    constructor
    · intro e
      cases e
      exact ⟨g f, by rw [hfetches]; exact lookup_modify.2 (.inl ⟨rfl, f, hf, rfl⟩), hg⟩
    · rintro ⟨f', hf', ho'⟩
      rw [(hlook hf' ho').1]
  · intro h' f' hf' ho'
    obtain ⟨-, rfl⟩ := hlook hf' ho'
    rw [hpage, htoken, hprogress]
    exact hs.current h f hf ho
  · intro h' f' n hf' hstage
    obtain ⟨-, rfl⟩ := hlook hf' (Fetch.occupies_of_calling hstage)
    rw [htoken]
    exact hcall n hstage
  · intro h' f' hf'
    rw [hfetches] at hf'
    exact hs.truthful_modify hf htruthful hf'

/-- The fetch in the slot leaves it, and then none occupies it. -/
theorem release (hs : OneFetch s) (hf : s.fetches[h]? = some f) (ho : f.occupies = true)
    (hg : (g f).occupies = false) (htruthful : (g f).Truthful) (hslot : t.inFlight = none)
    (hfetches : t.fetches = s.fetches.modify h g) : OneFetch t := by
  have hfree : ∀ (h' : Handle) (f' : Fetch), t.fetches[h']? = some f' → f'.occupies = false := by
    intro h' f' hf'
    rw [hfetches] at hf'
    rcases lookup_modify.1 hf' with ⟨rfl, f₁, hf₁, rfl⟩ | ⟨hne, hf'⟩
    · rw [hf] at hf₁
      cases hf₁
      exact hg
    · cases ho' : f'.occupies
      · rfl
      · exact absurd (hs.unique hf hf' ho ho') hne
  refine ⟨?_, ?_, ?_, ?_⟩
  · intro h'
    rw [hslot]
    constructor
    · intro e
      cases e
    · rintro ⟨f', hf', ho'⟩
      rw [hfree h' f' hf'] at ho'
      cases ho'
  · intro h' f' hf' ho'
    rw [hfree h' f' hf'] at ho'
    cases ho'
  · intro h' f' n hf' hstage
    have ho' := Fetch.occupies_of_calling hstage
    rw [hfree h' f' hf'] at ho'
    cases ho'
  · intro h' f' hf'
    rw [hfetches] at hf'
    exact hs.truthful_modify hf htruthful hf'

/-- A fetch changes that did not occupy the slot and does not after it. -/
theorem settle (hs : OneFetch s) (hf : s.fetches[h]? = some f) (ho : f.occupies = false)
    (hg : (g f).occupies = false) (htruthful : (g f).Truthful) :
    OneFetch { s with fetches := s.fetches.modify h g } := by
  have hlook : ∀ {h' : Handle} {f' : Fetch}, f'.occupies = true →
      ((s.fetches.modify h g)[h']? = some f' ↔ s.fetches[h']? = some f') := by
    intro h' f' ho'
    rw [lookup_modify]
    constructor
    · rintro (⟨rfl, f₁, hf₁, rfl⟩ | ⟨-, hf'⟩)
      · rw [hf] at hf₁
        cases hf₁
        rw [hg] at ho'
        cases ho'
      · exact hf'
    · intro hf'
      refine .inr ⟨?_, hf'⟩
      rintro rfl
      rw [hf] at hf'
      cases hf'
      rw [ho] at ho'
      cases ho'
  refine ⟨?_, ?_, ?_, ?_⟩
  · intro h'
    refine (hs.slot h').trans ⟨?_, ?_⟩
    · rintro ⟨f', hf', ho'⟩
      exact ⟨f', (hlook ho').2 hf', ho'⟩
    · rintro ⟨f', hf', ho'⟩
      exact ⟨f', (hlook ho').1 hf', ho'⟩
  · intro h' f' hf' ho'
    exact hs.current h' f' ((hlook ho').1 hf') ho'
  · intro h' f' n hf' hstage
    exact hs.openCall h' f' n ((hlook (Fetch.occupies_of_calling hstage)).1 hf') hstage
  · intro h' f' hf'
    exact hs.truthful_modify hf htruthful hf'

/-! ## The atomic steps -/

theorem takeRow (hs : OneFetch s) : OneFetch s.takeRow.2 := by
  unfold Source.takeRow
  split <;> exact hs.congr rfl rfl rfl rfl rfl rfl

/-- A fetch that has returned before it began never occupies the slot. -/
theorem push_settled (hs : OneFetch s) (settlement : Settlement) :
    OneFetch { s with fetches := s.fetches.push (s.settledFetch settlement) } := by
  refine ⟨?_, ?_, ?_, ?_⟩
  · intro h
    refine (hs.slot h).trans ⟨?_, ?_⟩
    · rintro ⟨f, hf, ho⟩
      exact ⟨f, lookup_push.2 (.inr hf), ho⟩
    · rintro ⟨f, hf, ho⟩
      rcases lookup_push.1 hf with ⟨-, rfl⟩ | hf
      · simp [settledFetch, Fetch.occupies] at ho
      · exact ⟨f, hf, ho⟩
  · intro h f hf ho
    rcases lookup_push.1 hf with ⟨-, rfl⟩ | hf
    · simp [settledFetch, Fetch.occupies] at ho
    · exact hs.current h f hf ho
  · intro h f n hf hstage
    rcases lookup_push.1 hf with ⟨-, rfl⟩ | hf
    · simp [settledFetch] at hstage
    · exact hs.openCall h f n hf hstage
  · intro h f hf
    rcases lookup_push.1 hf with ⟨-, rfl⟩ | hf
    · exact .inl rfl
    · exact hs.truthful h f hf

/-- Into an empty slot a new fetch can be put: none of the older ones occupies it. -/
theorem push_queued (hs : OneFetch s) (hslot : s.inFlight = none)
    (hcomplete : s.progress.complete = false) (e : Event) :
    OneFetch ({ s with
      fetches := s.fetches.push ⟨s.progress.pages, s.progress.next, .queued, none⟩
      inFlight := some s.fetches.size }.log e) := by
  have hfree : ∀ (h : Handle) (f : Fetch), s.fetches[h]? = some f → ¬ f.occupies = true := by
    intro h f hf
    rw [hs.not_occupies hslot hf]
    exact Bool.false_ne_true
  refine ⟨?_, ?_, ?_, ?_⟩
  · intro h
    constructor
    · intro e
      cases e
      exact ⟨_, lookup_push.2 (.inl ⟨rfl, rfl⟩), rfl⟩
    · rintro ⟨f, hf, ho⟩
      rcases lookup_push.1 hf with ⟨rfl, -⟩ | hf
      · rfl
      · exact (hfree h f hf ho).elim
  · intro h f hf ho
    rcases lookup_push.1 hf with ⟨-, rfl⟩ | hf
    · exact ⟨rfl, rfl, hcomplete⟩
    · exact (hfree h f hf ho).elim
  · intro h f n hf hstage
    rcases lookup_push.1 hf with ⟨-, rfl⟩ | hf
    · cases hstage
    · exact hs.openCall h f n hf hstage
  · intro h f hf
    rcases lookup_push.1 hf with ⟨-, rfl⟩ | hf
    · rfl
    · exact hs.truthful h f hf

theorem request (hs : OneFetch s) (hasRuntime : Bool) : OneFetch (s.request hasRuntime).2 := by
  rcases s.request_cases hasRuntime with ⟨settlement, -, e⟩ | ⟨h, -, -, e⟩ | ⟨hc, hslot, -, e⟩ <;> rw [e]
  · exact hs.push_settled settlement
  · exact hs.congr rfl rfl rfl rfl rfl rfl
  · exact hs.push_queued hslot hc _

theorem beginCall (hs : OneFetch s) (h : Handle) : OneFetch (s.beginCall h) := by
  rcases s.beginCall_cases h with e | ⟨page, token, seen, hf, e⟩ <;> rw [e]
  · exact hs
  · have hseen : seen = none := hs.truthful h _ hf
    refine hs.stay (g := fun f => { f with stage := .calling s.calls.size }) hf rfl rfl hseen rfl rfl
      ?_ rfl rfl rfl
    intro n hn
    cases hn
    simp [setStage]

theorem endCall (hs : OneFetch s) {page n : Nat} {token : Option PageToken}
    {seen : Option Settlement} (hf : s.fetches[h]? = some ⟨page, token, .calling n, seen⟩)
    (reply : Reply) : OneFetch (s.endCall h reply) := by
  have hseen : seen = none := hs.truthful h _ hf
  subst hseen
  rw [endCall_of_calling hf]
  cases reply with
  | page p =>
    exact hs.release (g := fun f => { f with stage := .returned (.ok ()) }) hf rfl rfl (.inl rfl)
      rfl rfl
  | failure e =>
    exact hs.release (g := fun f => { f with stage := .returned (.error e) }) hf rfl rfl (.inl rfl)
      rfl rfl
  | crash =>
    -- a crash leaves the slot to the poll that finds it out
    refine hs.stay (g := fun f => { f with stage := .crashed }) hf rfl rfl (.inl rfl) rfl rfl ?_
      rfl rfl rfl
    intro n hn
    cases hn

theorem poll (hs : OneFetch s) (h : Handle) : OneFetch (s.poll h).2 := by
  rcases s.poll_cases h with e | ⟨page, token, settlement, hf, e⟩ | ⟨page, token, hf, e⟩ <;> rw [e]
  · exact hs
  · exact hs.settle hf rfl rfl (.inr rfl)
  · exact hs.release (g := fun f => { f with seen := some (.error .taskCrashed) }) hf rfl rfl
      (.inr rfl) rfl rfl

theorem act {hasRuntime : Bool} (hact : s.Act hasRuntime t) (hs : OneFetch s) : OneFetch t := by
  cases hact with
  | rest => exact hs
  | takeRow => exact hs.takeRow
  | drain => exact hs.congr rfl rfl rfl rfl rfl rfl
  | request => exact hs.request hasRuntime
  | poll h => exact hs.poll h
  | note _ => exact hs.congr rfl rfl rfl rfl rfl rfl

theorem step {b : Backend} (hstep : Source.Step b s t) (hs : OneFetch s) : OneFetch t := by
  cases hstep with
  | act hact => exact hs.act hact
  | beginCall h => exact hs.beginCall h
  | endCall hf => exact hs.endCall hf _

end OneFetch

end Source

namespace World

theorem oneFetch_start (first : Option Page) : (start first).source.OneFetch := by
  cases first with
  | none => exact .initial
  | some page => exact .ofFirstPage page

/-- Whatever the parties do, and in whatever order, there is one fetch at a time. -/
theorem oneFetch_run (b : Backend) (first : Option Page) (ms : List Move) :
    ((start first).run b ms).source.OneFetch :=
  source_run (fun h hs => hs.step h) (oneFetch_start first) ms

end World

end PagedTraversal
