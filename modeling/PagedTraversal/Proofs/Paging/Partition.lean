import PagedTraversal.Proofs.Paging.Table

/-!
# PagedTraversal.Proofs.Paging.Partition

The pages of a table are a partition of its rows. Whatever the size of the pages and the offset that
is asked for first, following the tokens brings every row from there on, once and in order, and then
ends.

The table computes with natural numbers. The same page computed with 64-bit words, where an addition
can overflow and a slice can be out of range, is the same.

* `CountedTable.Follows`: the pages that come when each call carries the token of the page before.
* `RowTable.partition_pages`: what the pages of a table are.
* `RowTable.wordPageAt?_eq`: the page computed with words.
* `CountedTable.serves_partition`: the table as one who calls it sees it.
-/

namespace PagedTraversal

/-- The pages are the rows from a position on: as many pages as are needed, each but the last one
full and with the token of the row after it. -/
structure PartitionOf (rows : List Row) (pageSize start : Nat) (pages : List Page) : Prop where
  count : pages.length = max 1 ((rows.length - start + pageSize - 1) / pageSize)
  served : pages.flatMap Page.rows = rows.drop start
  full : ∀ i page, pages[i]? = some page → i + 1 < pages.length →
    page.rows.length = pageSize ∧ ∃ token offset, page.next = some token ∧
      token.offset? = some offset ∧ offset.toNat = start + (i + 1) * pageSize
  last : ∀ page, pages.getLast? = some page →
    page.next = none ∧ (page.rows = [] ↔ start = rows.length)

namespace RowTable

variable (t : RowTable) {o : Nat}

/-- An offset past the end is as good as the end. -/
theorem pageAt_min (o : Nat) : t.pageAt (min o t.rows.size) = t.pageAt o := by
  simp only [pageAt, Nat.min_assoc, Nat.min_self]

theorem start_lastPage_lt (ho : o < t.rows.size) : o + t.lastPage o * t.pageSize < t.rows.size := by
  cases hlast : t.lastPage o with
  | zero => omega
  | succ k => exact t.lt_of_lt_lastPage (by omega)

/-- Only where there is nothing to serve is the last page empty. -/
theorem rows_lastPage_eq_nil_iff (ho : o ≤ t.rows.size) :
    (t.page o (t.lastPage o)).rows = [] ↔ o = t.rows.size := by
  have hpos := t.pageSize_pos
  have hle := t.le_of_le_lastPage ho (Nat.le_refl (t.lastPage o))
  rw [page, t.rows_pageAt hle, ← List.length_eq_zero_iff, List.length_take, List.length_drop,
    Array.length_toList]
  constructor
  · intro hnone
    by_cases hlt : o < t.rows.size
    · have := t.start_lastPage_lt hlt
      omega
    · omega
  · rintro rfl
    omega

theorem partition_pages (hsize : t.rows.size ≤ 18446744073709551616) (ho : o ≤ t.rows.size) :
    PartitionOf t.rows.toList t.pageSize o ((List.range (t.lastPage o + 1)).map (t.page o)) where
  count := by
    rw [List.length_map, List.length_range, t.lastPage_add_one, Array.length_toList]
  served := t.flatMap_pages ho
  full i page hpage hi := by
    rw [List.length_map, List.length_range] at hi
    have hlast : i < t.lastPage o := by omega
    have hlt := t.lt_of_lt_lastPage hlast
    rw [List.getElem?_map, List.getElem?_range (by omega), Option.map_some,
      Option.some.injEq] at hpage
    subst hpage
    refine ⟨?_, _, _, t.next_page hlast, PageToken.offset?_ofOffset _,
      UInt64.toNat_ofNat_of_lt' (Nat.lt_of_lt_of_le hlt hsize)⟩
    rw [Nat.add_one_mul] at hlt
    rw [page, t.rows_pageAt (by omega), List.length_take, List.length_drop, Array.length_toList]
    omega
  last page hpage := by
    rw [t.getLast?_pages, Option.some.injEq] at hpage
    subst hpage
    rw [Array.length_toList]
    exact ⟨t.next_lastPage ho, t.rows_lastPage_eq_nil_iff ho⟩

/-! ## With machine words -/

/-- Addition that stops at the greatest word instead of starting again from zero. -/
def saturatingAdd (a b : UInt64) : UInt64 :=
  if a.toNat + b.toNat < 18446744073709551616 then a + b else 18446744073709551615

/-- The rows between two positions, if both are in the array and in this order. -/
def slice? (rows : Array Row) (start stop : UInt64) : Option (List Row) :=
  if start ≤ stop ∧ stop.toNat ≤ rows.size then
    some (rows.extract start.toNat stop.toNat).toList
  else none

/-- The page at an offset, computed with words; there is none if its rows are not in the array. -/
def wordPageAt? (rows : Array Row) (pageSize : UInt64) (host : String) (offset : UInt64) :
    Option Page := do
  let size := UInt64.ofNat rows.size
  let start := min offset size
  let stop := min (saturatingAdd start (max pageSize 1)) size
  let served ← slice? rows start stop
  let next := if stop < size then some (PageToken.ofOffset stop) else none
  pure ⟨served, next, .ofHost host⟩

theorem toNat_min (a b : UInt64) : (min a b).toNat = min a.toNat b.toNat := by
  simp only [show min a b = if a ≤ b then a else b from rfl, Nat.min_def, UInt64.le_iff_toNat_le]
  split <;> rfl

theorem toNat_max (a b : UInt64) : (max a b).toNat = max a.toNat b.toNat := by
  simp only [show max a b = if a ≤ b then b else a from rfl, Nat.max_def, UInt64.le_iff_toNat_le]
  split <;> rfl

theorem toNat_saturatingAdd (a b : UInt64) :
    (saturatingAdd a b).toNat = min (a.toNat + b.toNat) 18446744073709551615 := by
  unfold saturatingAdd
  split
  · next hlt =>
    rw [UInt64.toNat_add, Nat.mod_eq_of_lt hlt, Nat.min_eq_left (by omega)]
  · next hge =>
    rw [Nat.min_eq_right (by omega)]
    rfl

/-- No offset and no size of pages leads out of the array, and no sum is cut short. -/
theorem wordPageAt?_eq {rows : List Row} (hsize : rows.length < 18446744073709551616)
    (pageSize : UInt64) (host : String) (offset : UInt64) :
    wordPageAt? rows.toArray pageSize host offset =
      some ((ofRows rows pageSize.toNat host).pageAt offset.toNat) := by
  have hlength : (UInt64.ofNat rows.toArray.size).toNat = rows.length :=
    UInt64.toNat_ofNat_of_lt' hsize
  simp only [wordPageAt?]
  generalize UInt64.ofNat rows.toArray.size = size at hlength
  have hstart : (min offset size).toNat = min offset.toNat rows.length := by
    rw [toNat_min, hlength]
  generalize min offset size = start at hstart
  have hstop : (min (saturatingAdd start (max pageSize 1)) size).toNat =
      min (start.toNat + max pageSize.toNat 1) rows.length := by
    have hone : (max pageSize 1).toNat = max pageSize.toNat 1 := toNat_max pageSize 1
    rw [toNat_min, toNat_saturatingAdd, hone, hlength]
    omega
  generalize min (saturatingAdd start (max pageSize 1)) size = stop at hstop
  have hin : start ≤ stop ∧ stop.toNat ≤ rows.toArray.size := by
    rw [UInt64.le_iff_toNat_le, List.size_toArray]
    omega
  have hslice : slice? rows.toArray start stop =
      some (rows.toArray.extract start.toNat stop.toNat).toList := if_pos hin
  have hnext : stop < size ↔ stop.toNat < rows.length := by
    rw [UInt64.lt_iff_toNat_lt, hlength]
  simp only [hslice, hnext, pageAt, ofRows, List.size_toArray, ← hstart, ← hstop,
    UInt64.ofNat_toNat]
  rfl

end RowTable

namespace CountedTable

/-! ## Calls -/

/-- The pages that come when each call carries the token of the page before, up to one that has
none. The calls are made of the first table and leave the second one behind. -/
inductive Follows : CountedTable → Option PageToken → List Page → CountedTable → Prop where
  | last {t t' : CountedTable} {token : Option PageToken} {page : Page}
      (hfetch : t.fetch token = (.ok page, t')) (hlast : page.next = none) :
      Follows t token [page] t'
  | more {t t' t'' : CountedTable} {token : Option PageToken} {next : PageToken} {page : Page}
      {pages : List Page} (hfetch : t.fetch token = (.ok page, t')) (hnext : page.next = some next)
      (hrest : Follows t' (some next) pages t'') : Follows t token (page :: pages) t''

/-- What can be asked of a table. -/
inductive Use where
  | firstPage
  | fetch (token : Option PageToken)

/-- The table after a use of it. -/
def after (t : CountedTable) : Use → CountedTable
  | .firstPage => t
  | .fetch token => (t.fetch token).2

def Use.isFetch : Use → Bool
  | .firstPage => false
  | .fetch _ => true

theorem Follows.unique {t t' t'' : CountedTable} {token : Option PageToken}
    {pages pages' : List Page} (h : Follows t token pages t')
    (h' : Follows t token pages' t'') : pages = pages' ∧ t' = t'' := by
  induction h generalizing pages' with
  | last hfetch hlast =>
    cases h' with
    | last hfetch' hlast' =>
      cases hfetch.symm.trans hfetch'
      exact ⟨rfl, rfl⟩
    | more hfetch' hnext' hrest' =>
      cases hfetch.symm.trans hfetch'
      cases hlast.symm.trans hnext'
  | more hfetch hnext hrest ih =>
    cases h' with
    | last hfetch' hlast' =>
      cases hfetch.symm.trans hfetch'
      cases hlast'.symm.trans hnext
    | more hfetch' hnext' hrest' =>
      cases hfetch.symm.trans hfetch'
      cases hnext.symm.trans hnext'
      obtain ⟨rfl, rfl⟩ := ih hrest'
      exact ⟨rfl, rfl⟩

/-- Each call counts, and nothing else does. -/
theorem calls_after (t : CountedTable) (uses : List Use) :
    (uses.foldl after t).calls = t.calls + uses.countP Use.isFetch := by
  induction uses generalizing t with
  | nil => rfl
  | cons u rest ih =>
    rw [List.foldl_cons, ih]
    cases u with
    | firstPage => simp [after, Use.isFetch]
    | fetch token =>
      simp only [after, fetch, List.countP_cons, Use.isFetch, if_true]
      omega

/-- A token is refused for its length and for nothing else. Its call counts. -/
theorem fetch_eq_refused_iff (t : CountedTable) (token : PageToken) :
    token.bytes.length ≠ 8 ↔ t.fetch (some token) =
      (.error (.transport "invalid paging state"), ⟨t.table, t.calls + 1⟩) := by
  by_cases h : token.bytes.length = 8
  · simp [fetch, RowTable.fetch, PageToken.offset?, h]
  · simp [fetch, RowTable.fetch, PageToken.offset?, h]

/-- From any page on, the calls bring the pages up to the last one. -/
theorem follows_pages {t : RowTable} (hsize : t.rows.size ≤ 18446744073709551616) {o : Nat}
    (ho : o ≤ t.rows.size) {k m c : Nat} {token : Option PageToken}
    (hk : k + m = t.lastPage o) (hfetch : t.fetch token = .ok (t.page o k)) :
    Follows ⟨t, c⟩ token ((List.range' k (m + 1)).map (t.page o)) ⟨t, c + (m + 1)⟩ := by
  have hcall : (CountedTable.mk t c).fetch token = (.ok (t.page o k), ⟨t, c + 1⟩) := by
    rw [fetch, hfetch]
  induction m generalizing k c token with
  | zero =>
    obtain rfl : k = t.lastPage o := hk
    exact .last hcall (t.next_lastPage ho)
  | succ m ih =>
    have hlast : k < t.lastPage o := by omega
    have hlt := t.lt_of_lt_lastPage hlast
    have hnext := t.fetch_ofOffset (Nat.lt_of_lt_of_le hlt hsize)
    have hrest := ih (k := k + 1) (c := c + 1) (by omega) hnext (by rw [fetch, hnext]; rfl)
    rw [List.range'_succ, List.map_cons, show c + (m + 1 + 1) = c + 1 + (m + 1) by omega]
    exact .more hcall (t.next_page hlast) hrest

/-! ## The table as it is called -/

/-- The rows in memory, in pages of the given size, as one who calls for them sees them. -/
structure ServesPartition (rows : List Row) (pageSize : UInt64) (host : String) : Prop where
  /-- From every offset, the calls bring a partition of the rows from there on, and no other
  pages. -/
  partition : ∀ (calls : Nat) (offset : Option UInt64),
    ∃ pages, PartitionOf rows (max pageSize.toNat 1)
        (min (offset.elim 0 UInt64.toNat) rows.length) pages ∧
      ∀ pages' t', Follows ⟨.ofRows rows pageSize.toNat host, calls⟩
          (offset.map PageToken.ofOffset) pages' t' ↔
        pages' = pages ∧ t' = ⟨.ofRows rows pageSize.toNat host, calls + pages.length⟩
  /-- The first page is what a call without a token brings. -/
  firstPage : ∀ calls, fetch ⟨.ofRows rows pageSize.toNat host, calls⟩ none =
    (.ok (firstPage ⟨.ofRows rows pageSize.toNat host, calls⟩),
      ⟨.ofRows rows pageSize.toNat host, calls + 1⟩)
  /-- A token that is not of the length of an offset is refused, and no other one is. -/
  refused : ∀ calls token, token.bytes.length ≠ 8 ↔
    fetch ⟨.ofRows rows pageSize.toNat host, calls⟩ (some token) =
      (.error (.transport "invalid paging state"), ⟨.ofRows rows pageSize.toNat host, calls + 1⟩)
  /-- Of all uses of the table, the calls are counted, the refused ones among them, and the first
  page is not. -/
  counted : ∀ uses : List Use,
    (uses.foldl after (start (.ofRows rows pageSize.toNat host))).calls = uses.countP Use.isFetch
  /-- With 64-bit words every page is in the array and no sum overflows. -/
  inRange : ∀ offset : UInt64, RowTable.wordPageAt? rows.toArray pageSize host offset =
    some ((RowTable.ofRows rows pageSize.toNat host).pageAt offset.toNat)

/-- The pages from an offset on. -/
theorem fetch_offset (t : RowTable) (offset : Option UInt64) :
    t.fetch (offset.map PageToken.ofOffset) =
      .ok (t.page (min (offset.elim 0 UInt64.toNat) t.rows.size) 0) := by
  rw [RowTable.page, Nat.zero_mul, Nat.add_zero, t.pageAt_min]
  cases offset with
  | none => rfl
  | some o => simp only [Option.map_some, RowTable.fetch, PageToken.offset?_ofOffset]; rfl

/-- Any rows that the positions of a 64-bit machine can number are served as a partition. -/
theorem serves_partition {rows : List Row} (hsize : rows.length < 18446744073709551616)
    (pageSize : UInt64) (host : String) : ServesPartition rows pageSize host where
  partition calls offset := by
    let t := RowTable.ofRows rows pageSize.toNat host
    let o := min (offset.elim 0 UInt64.toNat) rows.length
    have ht : t.rows.size ≤ 18446744073709551616 := Nat.le_of_lt hsize
    have ho : o ≤ t.rows.size := Nat.min_le_right _ _
    have hfollows := follows_pages (c := calls) ht ho (Nat.zero_add _) (fetch_offset t offset)
    have hlength : ((List.range (t.lastPage o + 1)).map (t.page o)).length = t.lastPage o + 1 := by
      rw [List.length_map, List.length_range]
    refine ⟨_, t.partition_pages ht ho, fun pages' t' => ⟨fun h => ?_, ?_⟩⟩
    · rw [hlength]
      rw [← List.range_eq_range'] at hfollows
      exact h.unique hfollows
    · rintro ⟨rfl, rfl⟩
      rw [hlength, List.range_eq_range']
      exact hfollows
  firstPage calls := rfl
  refused calls token := fetch_eq_refused_iff _ token
  counted uses := by
    rw [calls_after, start, Nat.zero_add]
  inRange := RowTable.wordPageAt?_eq hsize pageSize host

def fourRows : List Row := List.replicate 4 ⟨.null⟩

/-- The rows fill their pages exactly, and past their end there is one page, which is empty. -/
theorem serves_partition_four :
    fourRows.length < 18446744073709551616 ∧ ServesPartition fourRows 2 "memory" ∧
    (∃ pages t, Follows (start (.ofRows fourRows 2 "memory")) none pages t ∧ pages.length = 2 ∧
      t.calls = 2) ∧
    ∃ page t, Follows (start (.ofRows fourRows 2 "memory"))
      (some (PageToken.ofOffset 18446744073709551615)) [page] t ∧ page.rows = [] := by
  have hsize : fourRows.length < 18446744073709551616 := by decide
  have hserves := serves_partition hsize 2 "memory"
  refine ⟨hsize, hserves, ?_, ?_⟩
  · obtain ⟨pages, hpages, hfollows⟩ := hserves.partition 0 none
    have hlength : pages.length = 2 := hpages.count.trans (by decide)
    exact ⟨pages, _, (hfollows _ _).2 ⟨rfl, rfl⟩, hlength, by rw [hlength]⟩
  · obtain ⟨pages, hpages, hfollows⟩ := hserves.partition 0 (some 18446744073709551615)
    have hlength : pages.length = 1 := hpages.count.trans (by decide)
    obtain ⟨page, rfl⟩ := List.length_eq_one_iff.1 hlength
    exact ⟨page, _, (hfollows _ _).2 ⟨rfl, rfl⟩, (hpages.last page rfl).2.2 (by decide)⟩

end CountedTable

end PagedTraversal
