import PagedTraversal.Proofs.Paging.Unfailing

/-!
# PagedTraversal.Proofs.Paging.Table

A table served page by page. From an offset on, page after page begins where the one before it has
stopped, until no row is left.

* `RowTable.rows_pageAt`, `RowTable.next_pageAt`: a page by its rows and by its token.
* `RowTable.lastPage`: how many pages come after the first one.
* `RowTable.pagesAfter_table`, `RowTable.chainEnds_table`: the chain of pages that a table serves;
  `RowTable.flatMap_pages`: its rows.
-/

namespace PagedTraversal

namespace RowTable

variable (t : RowTable) {o k : Nat}

/-- The page with the given number, when the first one begins at the offset. -/
def page (o i : Nat) : Page := t.pageAt (o + i * t.pageSize)

/-- The number of the last page, when the first one begins at the offset. -/
def lastPage (o : Nat) : Nat := (t.rows.size - o - 1) / t.pageSize

theorem rows_pageAt (ho : o ≤ t.rows.size) :
    (t.pageAt o).rows = (t.rows.toList.drop o).take t.pageSize := by
  simp only [pageAt, Array.toList_extract, List.extract_eq_take_drop, Nat.min_eq_left ho]
  by_cases hle : o + t.pageSize ≤ t.rows.size
  · rw [Nat.min_eq_left hle, Nat.add_sub_cancel_left]
  · rw [Nat.min_eq_right (by omega), List.take_of_length_le (by simp),
      List.take_of_length_le (by simp; omega)]

theorem next_pageAt (ho : o ≤ t.rows.size) :
    (t.pageAt o).next =
      if o + t.pageSize < t.rows.size then
        some (PageToken.ofOffset (UInt64.ofNat (o + t.pageSize)))
      else none := by
  simp only [pageAt, Nat.min_eq_left ho]
  by_cases hlt : o + t.pageSize < t.rows.size
  · rw [Nat.min_eq_left (by omega)]
  · rw [Nat.min_eq_right (by omega), if_neg (by omega), if_neg hlt]

/-- The token of an offset asks for the page that begins there. -/
theorem fetch_ofOffset (ho : o < 18446744073709551616) :
    t.fetch (some (PageToken.ofOffset (UInt64.ofNat o))) = .ok (t.pageAt o) := by
  simp only [fetch, PageToken.offset?_ofOffset, UInt64.toNat_ofNat_of_lt' ho]

/-! ## The chain of pages -/

theorem lt_of_lt_lastPage (hk : k < t.lastPage o) : o + (k + 1) * t.pageSize < t.rows.size := by
  have hpages : (k + 1) * t.pageSize ≤ t.rows.size - o - 1 :=
    Nat.le_trans (Nat.mul_le_mul_right _ hk) (Nat.div_mul_le_self _ _)
  have hpos : 0 < (k + 1) * t.pageSize := Nat.mul_pos (Nat.succ_pos k) t.pageSize_pos
  omega

theorem le_of_le_lastPage (ho : o ≤ t.rows.size) (hk : k ≤ t.lastPage o) :
    o + k * t.pageSize ≤ t.rows.size := by
  cases k with
  | zero => simpa using ho
  | succ k => exact Nat.le_of_lt (t.lt_of_lt_lastPage hk)

theorem size_le_of_lastPage : t.rows.size ≤ o + (t.lastPage o + 1) * t.pageSize := by
  have hlt : t.rows.size - o - 1 < (t.lastPage o + 1) * t.pageSize := by
    rw [Nat.mul_comm]
    exact Nat.lt_mul_div_succ _ t.pageSize_pos
  omega

theorem next_page (hk : k < t.lastPage o) :
    (t.page o k).next =
      some (PageToken.ofOffset (UInt64.ofNat (o + (k + 1) * t.pageSize))) := by
  have hlt := t.lt_of_lt_lastPage hk
  rw [Nat.add_one_mul, ← Nat.add_assoc] at hlt ⊢
  rw [page, t.next_pageAt (by omega), if_pos hlt]

theorem next_lastPage (ho : o ≤ t.rows.size) : (t.page o (t.lastPage o)).next = none := by
  have hle := t.size_le_of_lastPage (o := o)
  rw [Nat.add_one_mul, ← Nat.add_assoc] at hle
  rw [page, t.next_pageAt (t.le_of_le_lastPage ho (Nat.le_refl _)), if_neg (by omega)]

theorem getLast?_pages (k : Nat) :
    ((List.range (k + 1)).map (t.page o)).getLast? = some (t.page o k) := by
  rw [List.range_succ, List.map_append, List.map_singleton, List.getLast?_concat]

variable (hsize : t.rows.size ≤ 18446744073709551616)
include hsize

theorem answer_table (hk : k < t.lastPage o) (n : Nat) :
    (Backend.table t).answer n (t.page o k).next = .page (t.page o (k + 1)) := by
  have hlt := t.lt_of_lt_lastPage hk
  rw [t.next_page hk]
  simp only [Backend.table, t.fetch_ofOffset (Nat.lt_of_lt_of_le hlt hsize)]
  rfl

/-- Following the tokens from the page at an offset gives page after page. -/
theorem pagesAfter_table (hk : k ≤ t.lastPage o) :
    (Backend.table t).pagesAfter [t.pageAt o] k = (List.range (k + 1)).map (t.page o) := by
  induction k with
  | zero => simp [Backend.pagesAfter, page]
  | succ k ih =>
    have hlast : Chain.token ((List.range (k + 1)).map (t.page o)) = (t.page o k).next := by
      rw [Chain.token, t.getLast?_pages]
      rfl
    rw [Backend.pagesAfter, ih (by omega), hlast, t.answer_table hsize (by omega),
      List.range_succ (n := k + 1), List.map_append]
    rfl

theorem chainEnds_table (ho : o ≤ t.rows.size) :
    (Backend.table t).ChainEnds [t.pageAt o] (t.lastPage o) where
  page k hk := by
    rw [t.pagesAfter_table hsize (Nat.le_of_lt hk), Chain.token, t.getLast?_pages]
    exact ⟨_, t.answer_table hsize hk k⟩
  unended k hk := by
    rw [t.pagesAfter_table hsize (Nat.le_of_lt hk), Chain.ended, t.getLast?_pages]
    simp [Page.isLast, t.next_page hk]
  ended := by
    rw [t.pagesAfter_table hsize (Nat.le_refl _), Chain.ended, t.getLast?_pages]
    simp [Page.isLast, t.next_lastPage ho]

omit hsize

/-- Page after page the rows come in order. -/
theorem flatMap_range_pages (hk : k ≤ t.lastPage o) (ho : o ≤ t.rows.size) :
    ((List.range (k + 1)).map (t.page o)).flatMap Page.rows =
      (t.rows.toList.drop o).take ((k + 1) * t.pageSize) := by
  induction k with
  | zero => simp [page, t.rows_pageAt ho]
  | succ k ih =>
    have hstart := t.le_of_le_lastPage ho hk
    rw [List.range_succ, List.map_append, List.flatMap_append, ih (by omega), List.map_singleton,
      List.flatMap_singleton, page, t.rows_pageAt hstart, ← List.drop_drop, Nat.add_one_mul (k + 1),
      List.take_add]

theorem flatMap_pages (ho : o ≤ t.rows.size) :
    ((List.range (t.lastPage o + 1)).map (t.page o)).flatMap Page.rows = t.rows.toList.drop o := by
  rw [t.flatMap_range_pages (Nat.le_refl _) ho]
  refine List.take_of_length_le ?_
  have := t.size_le_of_lastPage (o := o)
  simp only [List.length_drop, Array.length_toList]
  omega

/-- One page more than the last one has as its number: as many as are needed for the rows, and one
if there are none. -/
theorem lastPage_add_one (o : Nat) :
    t.lastPage o + 1 = max 1 ((t.rows.size - o + t.pageSize - 1) / t.pageSize) := by
  have hpos := t.pageSize_pos
  unfold lastPage
  generalize t.rows.size - o = left
  cases left with
  | zero =>
    have hnone : (0 + t.pageSize - 1) / t.pageSize = 0 := Nat.div_eq_of_lt (by omega)
    rw [hnone, Nat.zero_sub, Nat.zero_div]
    rfl
  | succ left =>
    have hsome : (left + 1 + t.pageSize - 1) / t.pageSize = left / t.pageSize + 1 := by
      rw [show left + 1 + t.pageSize - 1 = left + t.pageSize by omega]
      exact Nat.add_div_right _ hpos
    rw [hsome, show left + 1 - 1 = left from rfl, Nat.max_eq_right (Nat.le_add_left 1 _)]

end RowTable

end PagedTraversal
