import PagedTraversal.Proofs.Json.ReadBack
import PagedTraversal.Proofs.Pager.Consuming
import PagedTraversal.Proofs.Paging.Table

/-!
# PagedTraversal.Proofs.Pager.Report

What the pager reports. Every row that it makes is read from its text and decodes, so the stream
brings as many results as there are rows; and the table brings page after page until no row is left,
so the numbers of pages and of calls follow from the numbers of rows and of rows in a page.

* `Pager.makeRow_eq`: the row that is read from the text of an envelope.
* `Pager.streamed`: the consumption of the stream, with the steps of the fetches at any time between
  its own.
* `Pager.run_eq_report`: what the pager reports is what it would report of such a consumption.
* `Pager.report_of_run`: the report, number by number.
-/

namespace PagedTraversal

open ResultSet

namespace Pager

/-! ## Settings -/

/-- The settings before those of the command line are put in their places. -/
def configured (a : Arguments) (lookup : String → Option String) (content : Option ByteArray) :
    Except SettingsError Settings :=
  match a.configPath with
  | some _ => (content.map Settings.ofFile).getD (.error .unreadable)
  | none => Settings.ofVariables lookup

theorem override_of_loadSettings {a : Arguments} {lookup : String → Option String}
    {content : Option ByteArray} {settings : Settings}
    (hload : loadSettings a lookup content = .ok settings) :
    ∃ base, configured a lookup content = .ok base ∧ settings = a.override base := by
  unfold loadSettings at hload
  unfold configured
  cases hpath : a.configPath with
  | some path =>
    simp only [hpath] at hload ⊢
    split at hload
    · next base hbase =>
      cases hload
      exact ⟨base, hbase, rfl⟩
    · cases hload
  | none =>
    simp only [hpath] at hload ⊢
    split at hload
    · next base hbase =>
      cases hload
      exact ⟨base, hbase, rfl⟩
    · cases hload

/-! ## Rows -/

theorem plain_envelope (i : Nat) (d : Draw) : (envelope i d).Plain Json.Document.maxDepth := by
  simp only [envelope, vertexTree, annotatedProperty, Json.Document.maxDepth, Number.ofUInt64,
    Json.Plain, Json.PlainItems, Json.PlainMembers, Members.sorted_iff, List.map_cons, List.map_nil]
  -- the orders of the names are left, which no draw has a part in
  decide

/-- The row of an envelope is read from its text: its payload is the tree of the vertex. -/
theorem makeRow_eq (i : Nat) (d : Draw) : makeRow i d = .ok ⟨vertexTree i d⟩ := by
  rw [makeRow, Row.ofText?, Json.ofText?_text (plain_envelope i d)]
  rfl

theorem makeRows_eq (draws : List Draw) :
    makeRows draws = .ok (draws.zipIdx.map fun p => ⟨vertexTree p.2 p.1⟩) := by
  have hmake : (fun p : Draw × Nat => makeRow p.2 p.1) = fun p => pure ⟨vertexTree p.2 p.1⟩ :=
    funext fun p => makeRow_eq p.2 p.1
  rw [makeRows, hmake, List.mapM_pure]
  rfl

/-- Every row decodes to a vertex with the label that was drawn. -/
theorem decode_vertexTree (i : Nat) (d : Draw) :
    ∃ v, Row.decode ⟨vertexTree i d⟩ = .ok (.vertex v) ∧ v.label = d.label :=
  ⟨⟨_, _, _⟩, rfl, rfl⟩

/-- There are as many rows as draws, and each of them decodes. -/
theorem exists_makeRows (draws : List Draw) :
    ∃ rows, makeRows draws = .ok rows ∧ rows.length = draws.length ∧
      ∀ row ∈ rows, ∃ v, row.outcome = .ok v := by
  refine ⟨_, makeRows_eq draws, by rw [List.length_map, List.length_zipIdx], ?_⟩
  intro row hrow
  obtain ⟨p, -, rfl⟩ := List.mem_map.1 hrow
  obtain ⟨v, hdecode, -⟩ := decode_vertexTree p.2 p.1
  exact ⟨.vertex v, by rw [Row.outcome, hdecode]; rfl⟩

theorem Tally.count_of_ok (t : Tally) {outcomes : List (Except ResultError GraphValue)}
    (hok : ∀ outcome ∈ outcomes, ∃ v, outcome = .ok v) :
    ∃ t', t.count outcomes = .ok t' ∧ t'.results = t.results + outcomes.length ∧
      t'.decodeErrors = t.decodeErrors := by
  induction outcomes generalizing t with
  | nil => exact ⟨t, rfl, rfl, rfl⟩
  | cons outcome rest ih =>
    obtain ⟨v, rfl⟩ := hok outcome List.mem_cons_self
    obtain ⟨t', hcount, hresults, hdecode⟩ :=
      ih (t.addResult v) fun o ho => hok o (List.mem_cons_of_mem _ ho)
    refine ⟨t', hcount, ?_, hdecode⟩
    rw [hresults, List.length_cons]
    show t.results + 1 + rest.length = _
    omega

/-! ## Reports -/

section Reports

variable (settings : Settings) (rows : List Row)

/-- The first page is there, and nothing has been asked for. -/
def opened : Consumption :=
  .start (fun _ => some settings.prefetchThreshold.toNat) (some (table settings rows).firstPage)

/-- The consumption of the stream, with turns of the fetches between its own. -/
def streamed (turns : Nat → Turn) : Nat → Consumption :=
  (opened settings rows).after (.table (table settings rows)) Consumption.streaming turns

/-- What the pager reports of a consumption. -/
def reportOf (c : Consumption) : Except FetchError Report :=
  (Tally.empty.count c.outcomes).map
    (Report.of settings (table settings rows) rows.length c.world.source.progress.pages
      c.world.source.calls.size)

/-- How many pages come after the first one. -/
def morePages : Nat := (table settings rows).lastPage 0

theorem size_table : (table settings rows).rows.size = rows.length := rfl

variable {rows} (hsize : rows.length ≤ 18446744073709551616)
include hsize

theorem chainEnds_pager :
    (Backend.table (table settings rows)).ChainEnds [(table settings rows).firstPage]
      (morePages settings rows) :=
  (table settings rows).chainEnds_table (by rwa [size_table]) (Nat.zero_le _)

theorem pages_pager :
    (Backend.table (table settings rows)).pagesAfter [(table settings rows).firstPage]
        (morePages settings rows) =
      (List.range (morePages settings rows + 1)).map ((table settings rows).page 0) :=
  (table settings rows).pagesAfter_table (by rwa [size_table]) (Nat.le_refl _)

theorem rows_pager :
    ((Backend.table (table settings rows)).pagesAfter [(table settings rows).firstPage]
      (morePages settings rows)).flatMap Page.rows = rows := by
  rw [pages_pager settings hsize]
  exact (table settings rows).flatMap_pages (Nat.zero_le _)

/-- At the end the stream has yielded the results of all rows, and all pages have been fetched, so
that there is one report to make. -/
theorem reportOf_of_ended {c : Consumption}
    (hc : c.Sound (.table (table settings rows)) [(table settings rows).firstPage])
    (hended : c.status = .ended) :
    reportOf settings rows c =
      (Tally.empty.count (rows.map Row.outcome)).map
        (Report.of settings (table settings rows) rows.length (morePages settings rows + 1)
          (morePages settings rows)) := by
  have hstanding := hc.standing
  rw [Consumption.Standing, hended] at hstanding
  obtain ⟨houtcomes, hbuffer, hcomplete⟩ := hstanding
  have hends := chainEnds_pager settings hsize
  obtain ⟨htaken, -, hpages, -⟩ := hc.unfailing.at_end hends hcomplete hbuffer
  obtain ⟨-, hcalls, -⟩ := hc.unfailing.of_complete hends hcomplete
  rw [rows_pager settings hsize] at htaken
  rw [pages_pager settings hsize, List.length_map, List.length_range] at hpages
  rw [reportOf, houtcomes, htaken, hpages, hcalls]

/-- The pager's own order of steps leads to the end of one such consumption. -/
theorem run_eq_report {draws : List Draw} (hrows : makeRows draws = .ok rows)
    (hlength : rows.length = draws.length) :
    ∃ c, c.Sound (.table (table settings rows)) [(table settings rows).firstPage] ∧
      c.status = .ended ∧ run settings draws = (reportOf settings rows c).mapError .fetch := by
  have hopen : (openSession settings (table settings rows)).Mirrors (.table (table settings rows))
      (opened settings rows) := by
    refine ⟨⟨⟨rfl, rfl, rfl, rfl, ?_⟩, rfl, rfl, ?_⟩, rfl⟩
    · intro r hr
      cases hr
    · intro h hfilled
      cases hfilled
  have hfew : morePages settings rows ≤ rows.length := by
    refine Nat.le_trans (Nat.div_le_self _ _) ?_
    rw [size_table]
    omega
  have hfuel : 7 + 4 * morePages settings rows ≤
      8 * ((Backend.table (table settings rows)).extent + 4) := by
    show _ ≤ 8 * ((table settings rows).rows.size + 1 + 4)
    rw [size_table]
    omega
  have hitems : (((Backend.table (table settings rows)).pagesAfter
      [(table settings rows).firstPage] (morePages settings rows)).flatMap Page.rows).length <
        0 + (rows.length + 2) := by
    rw [rows_pager settings hsize]
    omega
  have hstart : (opened settings rows).Sound (.table (table settings rows))
      [(table settings rows).firstPage] := .start _ _ (some _)
  obtain ⟨s, c, later, hconsume, hs, hc, hended, hlater⟩ :=
    consume_of_mirrors (chainEnds_pager settings hsize) hfuel _ hopen hstart rfl .empty hitems
  have hlater : c.outcomes = later := hlater
  refine ⟨c, hc, hended, ?_⟩
  simp only [run, hrows, hconsume, reportOf, hlater, ← hs.serves.source, ← hlength]
  cases Tally.empty.count later <;> rfl

/-- All such consumptions end with one report, in which every row is a result. -/
theorem exists_report (hok : ∀ row ∈ rows, ∃ v, row.outcome = .ok v) :
    ∃ report, (∀ {c : Consumption},
      c.Sound (.table (table settings rows)) [(table settings rows).firstPage] →
      c.status = .ended → reportOf settings rows c = .ok report) ∧
      ∃ tally, tally.results = rows.length ∧ tally.decodeErrors = 0 ∧
        report = .of settings (table settings rows) rows.length (morePages settings rows + 1)
          (morePages settings rows) tally := by
  have hok : ∀ outcome ∈ rows.map Row.outcome, ∃ v, outcome = .ok v := by
    intro outcome houtcome
    obtain ⟨row, hrow, rfl⟩ := List.mem_map.1 houtcome
    exact hok row hrow
  obtain ⟨tally, hcount, hresults, hdecode⟩ := Tally.empty.count_of_ok hok
  rw [List.length_map] at hresults
  refine ⟨_, fun hc hended => ?_, tally, hresults.trans (Nat.zero_add _), hdecode, rfl⟩
  rw [reportOf_of_ended settings hsize hc hended, hcount]
  rfl

theorem sound_streamed (turns : Nat → Turn) (k : Nat) :
    (streamed settings rows turns k).Sound (.table (table settings rows))
      [(table settings rows).firstPage] :=
  (Consumption.Sound.start _ _ (some _)).after (chainEnds_pager settings hsize) k

end Reports

/-- What a report says when it is right. The pages are as many as it takes, and one for no rows; the
first of them came without a call. -/
structure Report.Right (a : Arguments) (base : Settings) (r : Report) : Prop where
  rows : r.rows = a.rows.toNat
  pageSize : r.pageSize = max (a.pageSize.getD base.pageSize).toNat 1
  prefetchThreshold :
    r.prefetchThreshold = (a.prefetchThreshold.getD base.prefetchThreshold).toNat
  fetchLatency : r.fetchLatency = (a.fetchLatency.getD base.fetchLatency).toNat
  results : r.results = a.rows.toNat
  decodeErrors : r.decodeErrors = 0
  pages : r.pages = max 1 ((a.rows.toNat + r.pageSize - 1) / r.pageSize)
  calls : r.calls = r.pages - 1

/-- Once its settings are there, the pager makes the right report, whatever has been drawn. Its rows
can be read. At any time the stream over them has yielded nothing but results, and whenever the
fetches do their steps, the report is the same at the end, which comes unless somebody is left
waiting. -/
theorem report_of_run {a : Arguments} {lookup : String → Option String}
    {content : Option ByteArray} {settings : Settings} {draws : List Draw}
    (hload : loadSettings a lookup content = .ok settings)
    (hdraws : draws.length = a.rows.toNat) :
    ∃ base rows report, configured a lookup content = .ok base ∧
      settings = { base with
        pageSize := a.pageSize.getD base.pageSize
        fetchLatency := a.fetchLatency.getD base.fetchLatency
        prefetchThreshold := a.prefetchThreshold.getD base.prefetchThreshold } ∧
      makeRows draws = .ok rows ∧ report.Right a base ∧ run settings draws = .ok report ∧
      ∀ turns : Nat → Turn,
        (∀ k, ∀ outcome ∈ (streamed settings rows turns k).outcomes, ∃ v, outcome = .ok v) ∧
        (∀ k, (streamed settings rows turns k).status = .ended →
          reportOf settings rows (streamed settings rows turns k) = .ok report) ∧
        (Consumption.Fair turns → ∃ k, (streamed settings rows turns k).status = .ended) := by
  obtain ⟨base, hbase, rfl⟩ := override_of_loadSettings hload
  obtain ⟨rows, hrows, hlength, hok⟩ := exists_makeRows draws
  have hcount : rows.length = a.rows.toNat := hlength.trans hdraws
  have hsize : rows.length ≤ 18446744073709551616 := by
    rw [hcount]
    exact Nat.le_of_lt a.rows.toNat_lt
  have hends := chainEnds_pager (a.override base) hsize
  obtain ⟨report, hreport, tally, hresults, hdecode, hof⟩ :=
    exists_report (a.override base) hsize hok
  refine ⟨base, rows, report, hbase, rfl, hrows, ?_, ?_, fun turns => ⟨?_, ?_, ?_⟩⟩
  · have hpages := (table (a.override base) rows).lastPage_add_one 0
    rw [size_table, Nat.sub_zero, hcount] at hpages
    rw [hcount] at hresults
    rw [hof]
    exact ⟨hcount, rfl, rfl, rfl, hresults, hdecode, hpages, rfl⟩
  · obtain ⟨c, hc, hended, hrun⟩ := run_eq_report (a.override base) hsize hrows hlength
    rw [hrun, hreport hc hended]
    rfl
  · intro k outcome houtcome
    have hpre := (sound_streamed _ hsize turns k).prefix_outcomes hends
    rw [rows_pager _ hsize] at hpre
    obtain ⟨row, hrow, rfl⟩ := List.mem_map.1 (hpre.subset houtcome)
    exact hok row hrow
  · intro k hended
    exact hreport (sound_streamed _ hsize turns k) hended
  · intro hfair
    exact Consumption.exists_ended hends (.start _ _ (some _)) hfair

theorem report_of_run_empty_pages :
    let a : Arguments := ⟨3, some 0, none, some 5, 0, none, none, 42⟩
    let settings : Settings := ⟨0, 0, 5, .default⟩
    let draws := List.replicate 3 (Draw.mk "person" "marko" 29)
    loadSettings a (fun _ => none) none = .ok settings ∧ draws.length = a.rows.toNat ∧
    ∃ rows report, makeRows draws = .ok rows ∧ run settings draws = .ok report ∧
      report.results = 3 ∧ report.decodeErrors = 0 ∧
      report.pageSize = 1 ∧ report.pages = 3 ∧ report.calls = 2 ∧
      ∃ k, (streamed settings rows Consumption.alternating k).status = .ended := by
  intro a settings draws
  have hload : loadSettings a (fun _ => none) none = .ok settings := rfl
  have hdraws : draws.length = a.rows.toNat := rfl
  obtain ⟨base, rows, report, hbase, -, hrows, hright, hrun, hturns⟩ := report_of_run hload hdraws
  have hsize : report.pageSize = 1 := hright.pageSize
  have hpages : report.pages = 3 := by
    rw [hright.pages, hsize, show a.rows.toNat = 3 from rfl]
    decide
  refine ⟨hload, hdraws, rows, report, hrows, hrun, hright.results, hright.decodeErrors, hsize,
    hpages, ?_, ?_⟩
  · rw [hright.calls, hpages]
  · exact (hturns _).2.2 Consumption.alternating_fair

end Pager

end PagedTraversal
