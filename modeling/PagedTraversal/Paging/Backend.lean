import PagedTraversal.Paging.Source

/-!
# PagedTraversal.Paging.Backend

Where pages come from. A backend answers each call by the call's place among all calls and by the
token that it carries. A table serves rows in memory, page by page, its tokens being offsets; a
script answers the calls one after another from a list.
-/

namespace PagedTraversal

structure Backend where
  answer : Nat → Option PageToken → Reply
  /-- No fewer than the rows and pages that a run along the tokens can bring. -/
  extent : Nat

/-- Rows in memory, served in pages of a fixed size. -/
structure RowTable where
  rows : Array Row
  pageSize : Nat
  host : String
  pageSize_pos : 0 < pageSize

namespace RowTable

/-- The host that is reported when none is named. -/
def defaultHost : String := "memory"

/-- A table of the given page size; pages have one row at least. -/
def ofRows (rows : List Row) (pageSize : Nat) (host : String) : RowTable :=
  ⟨rows.toArray, max pageSize 1, host, by omega⟩

/-- The page that begins at an offset. An offset past the end begins at the end. -/
def pageAt (t : RowTable) (offset : Nat) : Page :=
  let start := min offset t.rows.size
  let stop := min (start + t.pageSize) t.rows.size
  let next := if stop < t.rows.size then some (PageToken.ofOffset (UInt64.ofNat stop)) else none
  ⟨(t.rows.extract start stop).toList, next, .ofHost t.host⟩

def firstPage (t : RowTable) : Page := t.pageAt 0

/-- The page that a token asks for. Without a token that is the first page. -/
def fetch (t : RowTable) : Option PageToken → Except FetchError Page
  | none => .ok t.firstPage
  | some token =>
    match token.offset? with
    | some offset => .ok (t.pageAt offset.toNat)
    | none => .error (.transport "invalid paging state")

end RowTable

/-- A table that counts the calls made to it. -/
structure CountedTable where
  table : RowTable
  calls : Nat

namespace CountedTable

/-- No call has been made. -/
def start (table : RowTable) : CountedTable := ⟨table, 0⟩

/-- The first page comes without a call. -/
def firstPage (t : CountedTable) : Page := t.table.firstPage

/-- A call for a page. It counts even if its token is refused. -/
def fetch (t : CountedTable) (token : Option PageToken) :
    Except FetchError Page × CountedTable :=
  (t.table.fetch token, { t with calls := t.calls + 1 })

end CountedTable

namespace Backend

def table (t : RowTable) : Backend where
  answer _ token :=
    match t.fetch token with
    | .ok page => .page page
    | .error e => .failure e
  extent := t.rows.size + 1

/-- The rows that a reply brings. -/
def replyRows : Reply → Nat
  | .page p => p.rows.length
  | _ => 0

/-- The `n`-th call is given the `n`-th reply, and every call after them fails. -/
def script (replies : List Reply) : Backend where
  answer n _ := replies[n]?.getD (.failure (.transport "end of script"))
  extent := replies.foldl (fun total r => total + replyRows r + 1) 1

end Backend

end PagedTraversal
