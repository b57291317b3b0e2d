import PagedTraversal.Graph.DecodeError
import PagedTraversal.Json.Basic

/-!
# PagedTraversal.Proofs.Graph.AccessPath

Access paths: member names and item indices that lead from a tree to a tree inside it. As a text, a
path writes an index in brackets and divides a name from what is in front of it by a point.

* `AccessPath.ofText?`: reads a text as an access path; `Json.at?` follows one.
* `AccessPath.ofText?_text`: the text of a location is read as the path that the location stands for,
  if its names hold neither points nor opening brackets.
-/

namespace PagedTraversal

/-- One step from a tree to a tree directly inside it. -/
inductive Access where
  | member (name : String)
  | item (i : Nat)

abbrev AccessPath := List Access

namespace Json

/-- The member of an object or the item of an array. -/
def access? : Json → Access → Option Json
  | .object ms, .member name => Members.find? name ms
  | .array items, .item i => items[i]?
  | _, _ => none

/-- Follows a path into a tree. -/
def at? (j : Json) (path : AccessPath) : Option Json := path.foldlM access? j

theorem at?_append (j : Json) (path more : AccessPath) :
    j.at? (path ++ more) = (j.at? path).bind fun k => k.at? more :=
  List.foldlM_append

theorem at?_of_at? {i j k : Json} {path more : AccessPath} (h : j.at? path = some i)
    (hmore : i.at? more = some k) : j.at? (path ++ more) = some k := by
  rw [at?_append, h]
  exact hmore

end Json

/-- A name that cannot be mistaken for two steps of a path, nor for none. -/
structure PlainName (name : String) : Prop where
  nonempty : name ≠ ""
  noPoint : '.' ∉ name.toList
  noBracket : '[' ∉ name.toList

instance (name : String) : Decidable (PlainName name) :=
  decidable_of_iff (name ≠ "" ∧ '.' ∉ name.toList ∧ '[' ∉ name.toList)
    ⟨fun ⟨h, h', h''⟩ => ⟨h, h', h''⟩, fun ⟨h, h', h''⟩ => ⟨h, h', h''⟩⟩

/-- The accesses that a step of a location stands for. -/
def LocationStep.accesses : LocationStep → AccessPath
  | member name => [.member name]
  | item i => [.item i]
  | property name => [.member "properties", .member name]
  | object i => [.member "objects", .item i]
  | labels i => [.member "labels", .item i]

def LocationStep.Plain : LocationStep → Prop
  | member name => PlainName name
  | property name => PlainName name
  | _ => True

def Location.accesses (l : Location) : AccessPath := l.flatMap LocationStep.accesses

namespace AccessPath

/-- Where the reading of a text stands: in a name or in an index, of which some characters are read,
or behind an index. -/
inductive Mode where
  | name (read : List Char)
  | index (read : List Char)
  | closed

def member? (name : List Char) : Option Access :=
  if name.isEmpty then none else some (.member (String.ofList name))

def item? (digits : List Char) : Option Access :=
  if digits.isEmpty || !digits.all Char.isDigit then none
  else some (.item (Nat.ofDigitChars 10 digits 0))

/-- Puts a step that was read in front of the rest of the path. -/
def cons? (step : Option Access) (rest : Option AccessPath) : Option AccessPath :=
  match step, rest with
  | some a, some path => some (a :: path)
  | _, _ => none

def scan : Mode → List Char → Option AccessPath
  | .name read, [] => cons? (member? read) (some [])
  | .name read, '.' :: cs => cons? (member? read) (scan (.name []) cs)
  | .name read, '[' :: cs => cons? (member? read) (scan (.index []) cs)
  | .name read, c :: cs => scan (.name (read ++ [c])) cs
  | .index _, [] => none
  | .index read, ']' :: cs => cons? (item? read) (scan .closed cs)
  | .index read, c :: cs => scan (.index (read ++ [c])) cs
  | .closed, [] => some []
  | .closed, '.' :: cs => scan (.name []) cs
  | .closed, '[' :: cs => scan (.index []) cs
  | .closed, _ => none

/-- Reads names divided by points and indices in brackets. -/
def ofChars? : List Char → Option AccessPath
  | '[' :: cs => scan (.index []) cs
  | cs => scan (.name []) cs

def ofText? (text : String) : Option AccessPath := ofChars? text.toList

/-! ## Reading back -/

theorem scan_name {name : List Char} (hpoint : '.' ∉ name) (hbracket : '[' ∉ name)
    (read rest : List Char) : scan (.name read) (name ++ rest) = scan (.name (read ++ name)) rest := by
  induction name generalizing read with
  | nil => simp
  | cons c cs ih =>
    have hc : c ≠ '.' := fun e => hpoint (by simp [e])
    have hc' : c ≠ '[' := fun e => hbracket (by simp [e])
    have hcs := ih (fun h => hpoint (List.mem_cons_of_mem _ h))
      (fun h => hbracket (List.mem_cons_of_mem _ h)) (read ++ [c])
    simpa [scan, hc, hc'] using hcs

/-- What stands behind a complete step: nothing, or what begins another one. -/
inductive Follows : List Char → Prop where
  | nil : Follows []
  | point (cs : List Char) : Follows ('.' :: cs)
  | bracket (cs : List Char) : Follows ('[' :: cs)

theorem scan_end_of_name {name : List Char} (hname : name ≠ []) {rest : List Char}
    (h : Follows rest) :
    scan (.name name) rest = cons? (some (.member (String.ofList name))) (scan .closed rest) := by
  cases h <;> simp [scan, member?, hname]

theorem scan_plainName {name : String} (hname : PlainName name) {rest : List Char}
    (h : Follows rest) :
    scan (.name []) (name.toList ++ rest) = cons? (some (.member name)) (scan .closed rest) := by
  have hne : name.toList ≠ [] := by
    intro e
    exact hname.nonempty (String.toList_inj.1 e)
  rw [scan_name hname.noPoint hname.noBracket, List.nil_append, scan_end_of_name hne h,
    String.ofList_toList]

theorem scan_digits {digits : List Char} (hdigits : ∀ c ∈ digits, c.isDigit = true)
    (read rest : List Char) :
    scan (.index read) (digits ++ rest) = scan (.index (read ++ digits)) rest := by
  induction digits generalizing read with
  | nil => simp
  | cons c cs ih =>
    have hc : c ≠ ']' := by
      rintro rfl
      exact absurd (hdigits ']' List.mem_cons_self) (by decide)
    have hcs := ih (fun d hd => hdigits d (List.mem_cons_of_mem _ hd)) (read ++ [c])
    simpa [scan, hc] using hcs

theorem scan_index (i : Nat) (rest : List Char) :
    scan (.index []) ((Nat.repr i).toList ++ ']' :: rest) =
      cons? (some (.item i)) (scan .closed rest) := by
  have hdigits : ∀ c ∈ (Nat.repr i).toList, c.isDigit = true := by
    intro c hc
    rw [Nat.repr, String.toList_ofList] at hc
    exact Nat.isDigit_of_mem_toDigits (by decide) (by decide) hc
  have hitem : item? (Nat.repr i).toList = some (.item i) := by
    have hall := List.all_eq_true.2 hdigits
    rw [Nat.repr, String.toList_ofList] at hall ⊢
    simp [item?, hall, Nat.ofDigitChars_ten_toDigits]
  rw [scan_digits hdigits, List.nil_append, scan, hitem]

/-! ## Locations -/

/-- The text of a location as it stands behind another step: with a point in front, unless it begins
with a bracket. -/
def behind (field : List Char) : List Char :=
  match field with
  | '[' :: cs => '[' :: cs
  | cs => '.' :: cs

theorem follows_behind (field : List Char) : Follows (behind field) := by
  unfold behind
  split
  · exact .bracket _
  · exact .point _

theorem scan_behind (field : List Char) : scan .closed (behind field) = ofChars? field := by
  unfold behind ofChars?
  split <;> rfl

/-- The text of a location is that of its first step, and behind it that of the others. -/
theorem toList_text_cons (s t : LocationStep) (rest : Location) :
    (Location.text (s :: t :: rest)).toList =
      s.text.toList ++ behind (Location.text (t :: rest)).toList := by
  simp only [Location.text, behind]
  split
  · next hfield =>
    obtain ⟨cs, hcs⟩ : ∃ cs, (Location.text (t :: rest)).toList = '[' :: cs := by
      simpa [List.head?_eq_some_iff] using hfield
    rw [String.toList_append, hcs]
    rfl
  · next hfield =>
    have hne : ∀ cs, (Location.text (t :: rest)).toList ≠ '[' :: cs := by
      intro cs e
      rw [e] at hfield
      exact hfield rfl
    split
    · next cs e => exact absurd e (hne cs)
    · simp

theorem ofChars?_of_head {cs : List Char} (h : cs.head? ≠ some '[') :
    ofChars? cs = scan (.name []) cs := by
  unfold ofChars?
  split
  · exact absurd rfl h
  · rfl

theorem ofChars?_plainName {name : String} (hname : PlainName name) {rest : List Char}
    (h : Follows rest) :
    ofChars? (name.toList ++ rest) = cons? (some (.member name)) (scan .closed rest) := by
  have hhead : (name.toList ++ rest).head? ≠ some '[' := by
    intro e
    cases hcs : name.toList with
    | nil => exact hname.nonempty (String.toList_inj.1 hcs)
    | cons c cs =>
      rw [hcs, List.cons_append, List.head?_cons, Option.some.injEq] at e
      exact hname.noBracket (by rw [hcs, e]; exact List.mem_cons_self)
  rw [ofChars?_of_head hhead, scan_plainName hname h]

/-- A step is read as the accesses that it stands for. -/
theorem ofChars?_step {s : LocationStep} (hs : s.Plain) {rest : List Char} (h : Follows rest)
    {path : AccessPath} (hrest : scan .closed rest = some path) :
    ofChars? (s.text.toList ++ rest) = some (s.accesses ++ path) := by
  cases s with
  | member name =>
    rw [LocationStep.text, ofChars?_plainName hs h, hrest]
    rfl
  | item i =>
    have hindex := scan_index i rest
    rw [hrest] at hindex
    have htext : (LocationStep.item i).text.toList ++ rest =
        '[' :: ((Nat.repr i).toList ++ ']' :: rest) := by
      simp [LocationStep.text]
    rw [htext, ofChars?, hindex]
    rfl
  | property name =>
    have hname := scan_plainName hs h
    rw [hrest] at hname
    have htext : (LocationStep.property name).text.toList ++ rest =
        "properties".toList ++ '.' :: (name.toList ++ rest) := by
      simp [LocationStep.text]
    rw [htext, ofChars?_plainName (by decide) (.point _), scan, hname]
    rfl
  | object i =>
    have hindex := scan_index i rest
    rw [hrest] at hindex
    have htext : (LocationStep.object i).text.toList ++ rest =
        "objects".toList ++ '[' :: ((Nat.repr i).toList ++ ']' :: rest) := by
      simp [LocationStep.text]
    rw [htext, ofChars?_plainName (by decide) (.bracket _), scan, hindex]
    rfl
  | labels i =>
    have hindex := scan_index i rest
    rw [hrest] at hindex
    have htext : (LocationStep.labels i).text.toList ++ rest =
        "labels".toList ++ '[' :: ((Nat.repr i).toList ++ ']' :: rest) := by
      simp [LocationStep.text]
    rw [htext, ofChars?_plainName (by decide) (.bracket _), scan, hindex]
    rfl

/-- The text of a location with plain names is read as the path that it stands for. -/
theorem ofText?_text {l : Location} (hne : l ≠ []) (hplain : ∀ s ∈ l, s.Plain) :
    ofText? l.text = some l.accesses := by
  induction l with
  | nil => exact absurd rfl hne
  | cons s rest ih =>
    have hs : s.Plain := hplain s List.mem_cons_self
    cases rest with
    | nil =>
      have hend : scan .closed [] = some [] := rfl
      have hstep := ofChars?_step hs .nil hend
      simpa [ofText?, Location.text, Location.accesses] using hstep
    | cons t rest =>
      have hrest := ih (List.cons_ne_nil t rest) fun u hu => hplain u (List.mem_cons_of_mem _ hu)
      rw [ofText?, toList_text_cons]
      exact ofChars?_step hs (follows_behind _) ((scan_behind _).trans hrest)

end AccessPath

end PagedTraversal
