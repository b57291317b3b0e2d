import PagedTraversal.Row

/-!
# PagedTraversal.Page

Pages of rows, the tokens that ask for the next one, and what is reported about each fetch. A token
is an opaque run of bytes; a token that stands for an offset is its eight bytes, the most
significant first. Main statement: reading an offset back gives the offset.
-/

namespace PagedTraversal

/-- Asks for the page after the one that it came with. -/
structure PageToken where
  bytes : List UInt8
deriving DecidableEq

namespace PageToken

/-- The given number of bytes of a number, the most significant first. -/
def bigEndian : Nat → Nat → List UInt8
  | 0, _ => []
  | width + 1, n => bigEndian width (n / 256) ++ [UInt8.ofNat (n % 256)]

/-- The number that a run of bytes denotes, the most significant first. -/
def magnitude (bytes : List UInt8) : Nat := bytes.foldl (fun acc b => acc * 256 + b.toNat) 0

/-- The token that stands for a row offset. -/
def ofOffset (offset : UInt64) : PageToken := ⟨bigEndian 8 offset.toNat⟩

/-- The offset that a token stands for, if it is eight bytes long. -/
def offset? (token : PageToken) : Option UInt64 :=
  if token.bytes.length = 8 then some (UInt64.ofNat (magnitude token.bytes)) else none

theorem length_bigEndian (width n : Nat) : (bigEndian width n).length = width := by
  induction width generalizing n with
  | zero => rfl
  | succ w ih => simp [bigEndian, ih]

theorem magnitude_append (bytes : List UInt8) (b : UInt8) :
    magnitude (bytes ++ [b]) = magnitude bytes * 256 + b.toNat := by
  simp [magnitude]

theorem magnitude_bigEndian (width n : Nat) :
    magnitude (bigEndian width n) = n % Nat.pow 256 width := by
  induction width generalizing n with
  | zero => simp [bigEndian, magnitude, Nat.mod_one]
  | succ w ih =>
    rw [bigEndian, magnitude_append, ih, Nat.pow_eq, Nat.pow_eq, Nat.pow_succ', Nat.mod_mul,
      UInt8.toNat_ofNat']
    omega

theorem offset?_ofOffset (offset : UInt64) : (ofOffset offset).offset? = some offset := by
  have h := offset.toNat_lt
  simp only [ofOffset, offset?, length_bigEndian, if_true, magnitude_bigEndian]
  rw [Nat.mod_eq_of_lt h, UInt64.ofNat_toNat]

end PageToken

/-- What is known about the fetch of one page. -/
structure PageInfo where
  /-- The host that served the page. -/
  host : Option String
  /-- The hosts that were tried, the one that answered included. -/
  tried : List String
  warnings : List String
  /-- The token of the page after this one; the last page has none. -/
  next : Option PageToken
deriving DecidableEq

namespace PageInfo

def empty : PageInfo := ⟨none, [], [], none⟩

/-- The report on a page that the only host tried has served. -/
def ofHost (host : String) : PageInfo := { empty with host := some host, tried := [host] }

end PageInfo

/-- The rows that one fetch brings. -/
structure Page where
  rows : List Row
  /-- The token of the page after this one; the last page has none. -/
  next : Option PageToken
  info : PageInfo

namespace Page

def isLast (p : Page) : Bool := p.next.isNone

/-- Equality of pages: rows, token and report. -/
def equals (a b : Page) : Bool :=
  Row.equalLists a.rows b.rows && a.next == b.next && a.info == b.info

end Page

/-- Why a page could not be had. -/
inductive FetchError where
  | transport (message : String)
  | noRuntime
  | taskFailed (message : String)
  | taskCrashed
deriving DecidableEq

namespace FetchError

/-- The text of an error. What a crashed task leaves behind has no fixed text. -/
def message? : FetchError → Option String
  | transport message => some ("Transport error: " ++ message)
  | noRuntime => some "No async runtime available to drive the page fetch"
  | taskFailed message => some ("Fetch task failed: " ++ message)
  | taskCrashed => none

end FetchError

end PagedTraversal
