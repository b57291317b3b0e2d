import PagedTraversal.Proofs.Paging.Serving

/-!
# PagedTraversal.Proofs.Paging.Course

What becomes of a call that nobody interferes with. It looks at what is there, and comes back or
fetches a page and looks again; so what it comes back with, and what it leaves, follow from how far
the pages have come and how many calls for pages have been made.

* `Backend.Course`: the course of a call, look by look and page by page; `Backend.Course.unique`:
  there is only one.
* `Backend.course_exhausted`: what a call leaves that asks whether any row is left;
  `Backend.runs_after_exhausted`: what calls come back with that are made after such calls.
* `Backend.FirstStop.course`: a call for a row, or one that asks for it, skips the empty pages.
-/

namespace PagedTraversal

namespace Goal

/-- What a look comes to: an answer, or that a page is needed; and what it leaves. -/
def glance : Goal → Progress → (Answer ⊕ Goal) × Progress
  | one, p =>
    match p.buffer with
    | row :: rest => (.inl (.one (some row)), { p with buffer := rest })
    | [] => (if p.complete then .inl (.one none) else .inr .one, p)
  | all drained, p =>
    (if p.complete then .inl (.all (drained.toList ++ p.buffer))
      else .inr (.all (drained ++ p.buffer)), { p with buffer := [] })
  | exhausted, p =>
    match p.buffer with
    | _ :: _ => (.inl (.exhausted false), p)
    | [] => (if p.complete then .inl (.exhausted true) else .inr .exhausted, p)
  | settled, p => (.inl .settled, p)

/-- Whether the goal is reached by rows: with none of them there, and pages left, it needs a page. -/
def consumes : Goal → Bool
  | settled => false
  | _ => true

theorem glance_of_dry {goal : Goal} (hgoal : goal.consumes = true) {p : Progress}
    (hb : p.buffer = []) (hc : p.complete = false) : goal.glance p = (.inr goal, p) := by
  cases goal with
  | one => simp [glance, hb, hc]
  | all drained =>
    obtain ⟨buffer, next, complete, pages, infos⟩ := p
    cases hb
    cases hc
    simp [glance]
  | exhausted => simp [glance, hb, hc]
  | settled => cases hgoal

theorem glance_found {p : Progress} {row : Row} {rest : List Row} (hb : p.buffer = row :: rest) :
    one.glance p = (.inl (.one (some row)), { p with buffer := rest }) ∧
      exhausted.glance p = (.inl (.exhausted false), p) := by
  simp [glance, hb]

theorem glance_finished {p : Progress} (hb : p.buffer = []) (hc : p.complete = true) :
    one.glance p = (.inl (.one none), p) ∧ exhausted.glance p = (.inl (.exhausted true), p) := by
  simp [glance, hb, hc]

theorem complete_of_glance {goal goal' : Goal} {p p' : Progress}
    (h : goal.glance p = (.inr goal', p')) : p'.complete = false := by
  cases goal with
  | one =>
    simp only [glance] at h
    cases hb : p.buffer with
    | cons row rest => simp [hb] at h
    | nil =>
      cases hc : p.complete <;> simp [hb, hc] at h
      rw [← h.2]
      exact hc
  | all drained =>
    simp only [glance] at h
    cases hc : p.complete <;> simp [hc] at h
    rw [← h.2]
  | exhausted =>
    simp only [glance] at h
    cases hb : p.buffer with
    | cons row rest => simp [hb] at h
    | nil =>
      cases hc : p.complete <;> simp [hb, hc] at h
      rw [← h.2]
      exact hc
  | settled => simp [glance] at h

/-- To ask whether any row is left is to leave the progress as it is. -/
theorem glance_exhausted (p : Progress) :
    (∃ row rest, p.buffer = row :: rest ∧ glance .exhausted p = (.inl (.exhausted false), p)) ∨
    (p.buffer = [] ∧ p.complete = true ∧ glance .exhausted p = (.inl (.exhausted true), p)) ∨
    (p.buffer = [] ∧ p.complete = false ∧ glance .exhausted p = (.inr .exhausted, p)) := by
  cases hb : p.buffer with
  | cons row rest => exact .inl ⟨row, rest, rfl, (glance_found hb).2⟩
  | nil =>
    cases hc : p.complete with
    | true => exact .inr (.inl ⟨rfl, rfl, (glance_finished hb hc).2⟩)
    | false => exact .inr (.inr ⟨rfl, rfl, glance_of_dry rfl hb hc⟩)

end Goal

theorem Call.look_eq (c : Call) (s : Source) :
    c.look s =
      (match (c.goal.glance s.progress).1 with
        | .inl answer => .done (.ok answer)
        | .inr goal => .more ⟨goal, .request⟩,
      { s with progress := (c.goal.glance s.progress).2 }) := by
  obtain ⟨goal, phase⟩ := c
  cases goal with
  | one =>
    simp only [look, Source.takeRow, Goal.glance]
    cases hb : s.progress.buffer with
    | cons row rest => rfl
    | nil => cases hc : s.progress.complete <;> simp [Source.whenEmpty, hc, goTo]
  | all drained =>
    simp only [look, Source.drain, Goal.glance]
    cases hc : s.progress.complete <;> simp
  | exhausted =>
    simp only [look, Source.peek, Goal.glance]
    cases hb : s.progress.buffer with
    | cons row rest => rfl
    | nil => cases hc : s.progress.complete <;> simp [Source.whenEmpty, hc, goTo]
  | settled => rfl

/-- What a call does next. -/
inductive Leg where
  | look
  | fetch

/-- The course of a call from `n` calls for pages on, up to its result, what it leaves, and how many
calls have been made then. -/
inductive Backend.Course (b : Backend) :
    Leg → Goal → Progress → Nat → Except FetchError Answer → Progress → Nat → Prop where
  | answer {goal : Goal} {p p' : Progress} {n : Nat} {answer : Answer} :
      goal.glance p = (.inl answer, p') → Course b .look goal p n (.ok answer) p' n
  | needs {goal goal' : Goal} {p p' q : Progress} {n m : Nat} {r : Except FetchError Answer} :
      goal.glance p = (.inr goal', p') → Course b .fetch goal' p' n r q m →
      Course b .look goal p n r q m
  | page {goal : Goal} {p q : Progress} {n m : Nat} {page : Page} {r : Except FetchError Answer} :
      b.answer n p.next = .page page → Course b .look goal (p.apply page) (n + 1) r q m →
      Course b .fetch goal p n r q m
  | fails {goal : Goal} {p : Progress} {n : Nat} {e : FetchError} :
      (b.answer n p.next).settlement = .error e → Course b .fetch goal p n (.error e) p (n + 1)

namespace Backend

variable {b : Backend} {leg : Leg} {goal : Goal} {p q : Progress} {n m : Nat}
  {r : Except FetchError Answer}

theorem Course.calls_le (h : b.Course leg goal p n r q m) : n ≤ m := by
  induction h with
  | answer _ => exact Nat.le_refl _
  | needs _ _ ih => exact ih
  | page _ _ ih => omega
  | fails _ => omega

theorem Course.calls_lt (h : b.Course .fetch goal p n r q m) : n < m := by
  cases h with
  | page _ h => exact h.calls_le
  | fails _ => omega

theorem course_look_of_answer {a : Answer} {p' : Progress}
    (hglance : goal.glance p = (.inl a, p')) :
    b.Course .look goal p n r q m ↔ r = .ok a ∧ q = p' ∧ m = n := by
  constructor
  · intro h
    cases h with
    | answer h =>
      rw [hglance] at h
      cases h
      exact ⟨rfl, rfl, rfl⟩
    | needs h _ =>
      rw [hglance] at h
      cases h
  · rintro ⟨rfl, rfl, rfl⟩
    exact .answer hglance

theorem course_look_of_needs {goal' : Goal} {p' : Progress}
    (hglance : goal.glance p = (.inr goal', p')) :
    b.Course .look goal p n r q m ↔ b.Course .fetch goal' p' n r q m := by
  constructor
  · intro h
    cases h with
    | answer h =>
      rw [hglance] at h
      cases h
    | needs h hfetch =>
      rw [hglance] at h
      cases h
      exact hfetch
  · exact .needs hglance

theorem course_fetch_of_page {page : Page} (hreply : b.answer n p.next = .page page) :
    b.Course .fetch goal p n r q m ↔ b.Course .look goal (p.apply page) (n + 1) r q m := by
  constructor
  · intro h
    cases h with
    | page h hlook =>
      rw [hreply] at h
      cases h
      exact hlook
    | fails h =>
      rw [hreply] at h
      cases h
  · exact .page hreply

theorem course_fetch_of_fails {e : FetchError} (hreply : (b.answer n p.next).settlement = .error e) :
    b.Course .fetch goal p n r q m ↔ r = .error e ∧ q = p ∧ m = n + 1 := by
  constructor
  · intro h
    cases h with
    | page h _ =>
      rw [h] at hreply
      cases hreply
    | fails h =>
      rw [hreply] at h
      cases h
      exact ⟨rfl, rfl, rfl⟩
  · rintro ⟨rfl, rfl, rfl⟩
    exact .fails hreply

theorem Course.unique {r' : Except FetchError Answer} {q' : Progress} {m' : Nat}
    (h : b.Course leg goal p n r q m) (h' : b.Course leg goal p n r' q' m') :
    r' = r ∧ q' = q ∧ m' = m := by
  induction h with
  | answer hglance => exact (course_look_of_answer hglance).1 h'
  | needs hglance _ ih => exact ih ((course_look_of_needs hglance).1 h')
  | page hreply _ ih => exact ih ((course_fetch_of_page hreply).1 h')
  | fails hreply => exact (course_fetch_of_fails hreply).1 h'

/-! ## A call that asks whether any row is left -/

/-- It answers, and leaves any call for rows the course that this call would have had at once; or it
fails, and any call for rows would have failed in its place. -/
theorem course_exhausted (h : b.Course leg .exhausted p n r q m) :
    (∃ empty, r = .ok (.exhausted empty) ∧
      (empty = false → ∃ row rest, q.buffer = row :: rest) ∧
      ∀ goal : Goal, goal.consumes = true → ∀ r' q' m',
        b.Course leg goal p n r' q' m' ↔ b.Course .look goal q m r' q' m') ∨
    ∃ e, r = .error e ∧
      ∀ goal : Goal, goal.consumes = true → b.Course leg goal p n (.error e) q m := by
  generalize hasked : Goal.exhausted = asked at h
  induction h with
  | @answer asked p p' n a hglance =>
    cases hasked
    rcases Goal.glance_exhausted p with ⟨row, rest, hb, e⟩ | ⟨-, -, e⟩ | ⟨-, -, e⟩ <;>
      rw [e] at hglance <;> cases hglance
    · exact .inl ⟨false, rfl, fun _ => ⟨row, rest, hb⟩, fun _ _ _ _ _ => Iff.rfl⟩
    · exact .inl ⟨true, rfl, fun h => absurd h (by simp), fun _ _ _ _ _ => Iff.rfl⟩
  | @needs asked asked' p p' q n m r hglance _ ih =>
    cases hasked
    rcases Goal.glance_exhausted p with ⟨row, rest, -, e⟩ | ⟨-, -, e⟩ | ⟨hb, hc, e⟩ <;>
      rw [e] at hglance <;> cases hglance
    -- a call for rows finds the source dry as well
    rcases ih rfl with ⟨empty, hr, hrow, hsame⟩ | ⟨e, hr, hfails⟩
    · refine .inl ⟨empty, hr, hrow, fun goal hgoal r' q' m' => ?_⟩
      exact (course_look_of_needs (Goal.glance_of_dry hgoal hb hc)).trans (hsame goal hgoal r' q' m')
    · exact .inr ⟨e, hr, fun goal hgoal =>
        .needs (Goal.glance_of_dry hgoal hb hc) (hfails goal hgoal)⟩
  | page hreply _ ih =>
    rcases ih hasked with ⟨empty, hr, hrow, hsame⟩ | ⟨e, hr, hfails⟩
    · refine .inl ⟨empty, hr, hrow, fun goal hgoal r' q' m' => ?_⟩
      exact (course_fetch_of_page hreply).trans (hsame goal hgoal r' q' m')
    · exact .inr ⟨e, hr, fun goal hgoal => .page hreply (hfails goal hgoal)⟩
  | @fails _ _ _ e hreply => exact .inr ⟨e, rfl, fun _ _ => .fails hreply⟩

end Backend

/-! ## One call after another -/

/-- Calls that look for rows at once. -/
def Errand.consumes : Errand → Bool
  | one => true
  | all => true
  | exhausted => true
  | _ => false

theorem Errand.call_of_consumes {e : Errand} (he : e.consumes = true) :
    e.call = ⟨e.call.goal, .look⟩ ∧ e.call.goal.consumes = true := by
  cases e with
  | one => exact ⟨rfl, rfl⟩
  | all => exact ⟨rfl, rfl⟩
  | exhausted => exact ⟨rfl, rfl⟩
  | _ => cases he

theorem Errand.consumes_of_replicate {e : Errand} (he : e.consumes = true) (k : Nat) :
    ∀ e' ∈ List.replicate k e, e'.consumes = true := by
  intro e' he'
  rw [List.eq_of_mem_replicate he']
  exact he

theorem Errand.consumes_of_append {e : Errand} {es : List Errand} (he : e.consumes = true)
    (hes : ∀ e ∈ es, e.consumes = true) (k : Nat) :
    ∀ e' ∈ List.replicate k e ++ es, e'.consumes = true := by
  intro e' he'
  rcases List.mem_append.1 he' with he' | he'
  · exact consumes_of_replicate he k e' he'
  · exact hes e' he'

/-- Calls with nobody else at the source, each made when the one before it is over. -/
inductive Backend.Runs (b : Backend) : Progress → Nat → List Errand →
    List (Except FetchError Answer) → Progress → Nat → Prop where
  | nil {p : Progress} {n : Nat} : Runs b p n [] [] p n
  | cons {p p' q : Progress} {n n' m : Nat} {e : Errand} {es : List Errand}
      {r : Except FetchError Answer} {rs : List (Except FetchError Answer)} :
      b.Course .look e.call.goal p n r p' n' → Runs b p' n' es rs q m →
      Runs b p n (e :: es) (r :: rs) q m

/-- The failures among what calls have come back with. -/
def failures (rs : List (Except FetchError Answer)) : List (Except FetchError Answer) :=
  rs.filter fun r => !r.isOk

namespace Backend

variable {b : Backend} {p p' q : Progress} {n n' m : Nat} {e : Errand} {es : List Errand}
  {r : Except FetchError Answer} {rs : List (Except FetchError Answer)}

theorem Runs.unique {rs' : List (Except FetchError Answer)} {q' : Progress} {m' : Nat}
    (h : b.Runs p n es rs q m) (h' : b.Runs p n es rs' q' m') : rs' = rs ∧ q' = q ∧ m' = m := by
  induction h generalizing rs' with
  | nil =>
    cases h'
    exact ⟨rfl, rfl, rfl⟩
  | cons hcourse _ ih =>
    cases h' with
    | cons hcourse' hrest =>
      obtain ⟨rfl, rfl, rfl⟩ := hcourse.unique hcourse'
      obtain ⟨rfl, rfl, rfl⟩ := ih hrest
      exact ⟨rfl, rfl, rfl⟩

/-- What calls for rows come back with after it was asked whether any is left: after an answer, what
they would have come back with at once; after a failure, what they would have come back with after a
call for rows, which would have been told of this failure. -/
theorem runs_after_one (h : b.Course .look .exhausted p n r p' n') (he : e.consumes = true)
    (hes : ∀ e ∈ es, e.consumes = true) :
    (∃ q m, b.Runs p' n' es rs q m) ↔
      ∃ q m, b.Runs p n (List.replicate (failures [r]).length e ++ es) (failures [r] ++ rs) q m := by
  rcases course_exhausted h with ⟨empty, rfl, -, hsame⟩ | ⟨error, rfl, hfails⟩
  · show _ ↔ ∃ q m, b.Runs p n es rs q m
    cases es with
    | nil =>
      -- with no call to follow there is nothing to compare
      constructor
      · rintro ⟨q, m, hruns⟩
        cases hruns
        exact ⟨p, n, .nil⟩
      · rintro ⟨q, m, hruns⟩
        cases hruns
        exact ⟨p', n', .nil⟩
    | cons e' es =>
      have hcourse := hsame _ (Errand.call_of_consumes (hes e' (.head es))).2
      constructor
      · rintro ⟨q, m, hruns⟩
        cases hruns with
        | cons hfirst hrest => exact ⟨q, m, .cons ((hcourse _ _ _).2 hfirst) hrest⟩
      · rintro ⟨q, m, hruns⟩
        cases hruns with
        | cons hfirst hrest => exact ⟨q, m, .cons ((hcourse _ _ _).1 hfirst) hrest⟩
  · show _ ↔ ∃ q m, b.Runs p n (e :: es) (.error error :: rs) q m
    have hfirst := hfails _ (Errand.call_of_consumes he).2
    constructor
    · rintro ⟨q, m, hruns⟩
      exact ⟨q, m, .cons hfirst hruns⟩
    · rintro ⟨q, m, hruns⟩
      cases hruns with
      | cons hfirst' hrest =>
        obtain ⟨-, rfl, rfl⟩ := hfirst.unique hfirst'
        exact ⟨q, m, hrest⟩

/-- Asked any number of times if a row is left, the source answers later calls as it would have if
nobody had asked, apart from the failures that were told: those are used up, as they are by calls
for rows. -/
theorem runs_after_exhausted {as : List (Except FetchError Answer)} {k : Nat}
    (h : b.Runs p n (List.replicate k .exhausted) as p' n') (he : e.consumes = true)
    (hes : ∀ e ∈ es, e.consumes = true) :
    (∃ q m, b.Runs p' n' es rs q m) ↔
      ∃ q m, b.Runs p n (List.replicate (failures as).length e ++ es) (failures as ++ rs) q m := by
  induction k generalizing p n as with
  | zero =>
    cases h
    exact Iff.rfl
  | succ k ih =>
    cases h with
    | @cons _ p₁ _ _ n₁ _ _ _ a as hcourse hrest =>
      rw [ih hrest, runs_after_one hcourse he (Errand.consumes_of_append he hes _)]
      have hfailures : failures (a :: as) = failures [a] ++ failures as :=
        List.filter_append [a] as
      rw [hfailures, List.length_append, List.replicate_add, List.append_assoc, List.append_assoc]

/-- When the last answer was that a row is left, there is one in the buffer. -/
theorem Runs.row_left {as : List (Except FetchError Answer)} {k : Nat}
    (h : b.Runs p n (List.replicate k .exhausted) (as ++ [.ok (.exhausted false)]) q m) :
    ∃ row rest, q.buffer = row :: rest := by
  induction as generalizing p n k with
  | nil =>
    cases k with
    | zero => cases h
    | succ k =>
      cases h with
      | cons hcourse hrest =>
        cases k with
        | zero =>
          cases hrest
          rcases course_exhausted hcourse with ⟨empty, hanswer, hrow, -⟩ | ⟨e, hanswer, -⟩ <;>
            cases hanswer
          exact hrow rfl
        | succ k => cases hrest
  | cons a as ih =>
    cases k with
    | zero => cases h
    | succ k =>
      cases h with
      | cons _ hrest => exact ih hrest

end Backend

/-! ## Empty pages -/

/-- A page that a call for a row does not skip. -/
def Page.stops (p : Page) : Bool := !p.rows.isEmpty || p.isLast

namespace Reply

def stops : Reply → Bool
  | page p => p.stops
  | _ => true

/-- What a call for the next row comes back with when this is the reply to its last call for a
page. -/
def one : Reply → Except FetchError Answer
  | page p => .ok (.one p.rows.head?)
  | failure e => .error e
  | crash => .error .taskCrashed

/-- The same for a call that asks whether no row is left. -/
def exhausted : Reply → Except FetchError Answer
  | page p => .ok (.exhausted p.rows.isEmpty)
  | failure e => .error e
  | crash => .error .taskCrashed

end Reply

namespace Backend

variable {b : Backend} {goal : Goal} {p q : Progress} {n m j : Nat}
  {token : Option PageToken} {reply : Reply} {r : Except FetchError Answer}

/-- From call `n` on, which asks for `token`, the `j`-th call is the first whose reply is something
else than an empty page with a page behind it. -/
inductive FirstStop (b : Backend) : Nat → Option PageToken → Nat → Reply → Prop where
  | here {n : Nat} {token : Option PageToken} :
      (b.answer n token).stops = true → FirstStop b n token 1 (b.answer n token)
  | later {n j : Nat} {token : Option PageToken} {page : Page} {reply : Reply} :
      b.answer n token = .page page → page.stops = false → FirstStop b (n + 1) page.next j reply →
      FirstStop b n token (j + 1) reply

theorem dry_of_skipped {page : Page} (hstops : page.stops = false) (hb : p.buffer = []) :
    (p.apply page).buffer = [] ∧ (p.apply page).complete = false := by
  simp only [Page.stops, Bool.or_eq_false_iff, Bool.not_eq_false', List.isEmpty_iff] at hstops
  simp [Progress.apply, hb, hstops]

theorem FirstStop.stops (h : b.FirstStop n token j reply) : reply.stops = true := by
  induction h with
  | here hstops => exact hstops
  | later _ _ _ ih => exact ih

/-- A call for rows skips the empty pages: it comes to the call for a page that is given the first
reply to stop it. -/
theorem FirstStop.skips (h : b.FirstStop n token j reply) (hb : p.buffer = [])
    (hnext : p.next = token) :
    ∃ p' k, n + j = k + 1 ∧ p'.buffer = [] ∧ b.answer k p'.next = reply ∧
      ∀ goal : Goal, goal.consumes = true → ∀ r q m,
        b.Course .fetch goal p n r q m ↔ b.Course .fetch goal p' k r q m := by
  induction h generalizing p with
  | @here n token _ =>
    subst hnext
    exact ⟨p, n, rfl, hb, rfl, fun _ _ _ _ _ => Iff.rfl⟩
  | @later n j token page reply hanswer hstops _ ih =>
    subst hnext
    obtain ⟨hb', hc'⟩ := dry_of_skipped (p := p) hstops hb
    obtain ⟨p', k, hk, hdry, hreply, hsame⟩ := ih hb' rfl
    refine ⟨p', k, by omega, hdry, hreply, fun goal hgoal r q m => ?_⟩
    rw [course_fetch_of_page hanswer, course_look_of_needs (Goal.glance_of_dry hgoal hb' hc')]
    exact hsame goal hgoal r q m

/-- A call for a row, and one that asks for it, come back with what the first reply says that stops
them. -/
theorem FirstStop.course (h : b.FirstStop n token j reply) (hb : p.buffer = [])
    (hc : p.complete = false) (hnext : p.next = token) :
    (∃ q, b.Course .look .one p n reply.one q (n + j)) ∧
      ∃ q, b.Course .look .exhausted p n reply.exhausted q (n + j) := by
  obtain ⟨p', k, hk, hdry, hreply, hsame⟩ := h.skips hb hnext
  have hfetches : ∀ (goal : Goal) r q, goal.consumes = true → b.Course .fetch goal p' k r q (k + 1) →
      ∃ q, b.Course .look goal p n r q (n + j) := by
    intro goal r q hgoal hcourse
    rw [hk]
    exact ⟨q, .needs (Goal.glance_of_dry hgoal hb hc) ((hsame goal hgoal _ _ _).2 hcourse)⟩
  cases reply with
  | failure e =>
    have hfails : (b.answer k p'.next).settlement = .error e := by rw [hreply]; rfl
    exact ⟨hfetches .one _ _ rfl (.fails hfails), hfetches .exhausted _ _ rfl (.fails hfails)⟩
  | crash =>
    have hfails : (b.answer k p'.next).settlement = .error .taskCrashed := by rw [hreply]; rfl
    exact ⟨hfetches .one _ _ rfl (.fails hfails), hfetches .exhausted _ _ rfl (.fails hfails)⟩
  | page page =>
    have hrows : (p'.apply page).buffer = page.rows := by simp [Progress.apply, hdry]
    have hlooks : ∀ (goal : Goal) a q, goal.consumes = true →
        goal.glance (p'.apply page) = (.inl a, q) →
          ∃ q, b.Course .look goal p n (.ok a) q (n + j) :=
      fun goal a q hgoal hglance => hfetches goal _ q hgoal (.page hreply (.answer hglance))
    cases hpage : page.rows with
    | cons row rest =>
      rw [hpage] at hrows
      simp only [Reply.one, Reply.exhausted, hpage]
      exact ⟨hlooks .one _ _ rfl (Goal.glance_found hrows).1,
        hlooks .exhausted _ _ rfl (Goal.glance_found hrows).2⟩
    | nil =>
      have hlast : (p'.apply page).complete = true := by
        simpa [Progress.apply, Reply.stops, Page.stops, hpage] using h.stops
      rw [hpage] at hrows
      simp only [Reply.one, Reply.exhausted, hpage]
      exact ⟨hlooks .one _ _ rfl (Goal.glance_finished hrows hlast).1,
        hlooks .exhausted _ _ rfl (Goal.glance_finished hrows hlast).2⟩

end Backend

end PagedTraversal
