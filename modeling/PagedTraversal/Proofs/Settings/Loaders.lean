import PagedTraversal.Proofs.Json.ReadBack
import PagedTraversal.Settings

/-!
# PagedTraversal.Proofs.Settings.Loaders

Variables and files agree. A choice says which of the settings are given and their values. Given by
variables, or by a file that lists the same settings in any order and any spelling, it is loaded
without failure and as the same settings, and what it leaves out takes one default.

* `Settings.ofVariables_eq`, `Settings.ofDocument?_eq`: what either loader makes of a choice.
* `Settings.loaders_agree`: the loaders agree on every choice, and every choice can be given to both.
-/

namespace PagedTraversal

namespace Settings

open Json (Document Piece Literal)

/-- The settings that are given. -/
structure Choice where
  pageSize : Option UInt64
  fetchLatency : Option UInt64
  prefetchThreshold : Option UInt64
  level : Option String
  format : Option String

namespace Choice

def logging (c : Choice) : LogSettings :=
  ⟨c.level.getD LogSettings.default.level, c.format.getD LogSettings.default.format⟩

/-- The given settings over the defaults. -/
def settings (c : Choice) : Settings :=
  ⟨c.pageSize.getD default.pageSize, c.fetchLatency.getD default.fetchLatency,
    c.prefetchThreshold.getD default.prefetchThreshold, c.logging⟩

end Choice

/-! ## Variables -/

def decimalText (n : UInt64) : String := toString n.toNat

/-- The variables that give a choice: numbers in decimal digits and texts as they are. -/
structure Choice.InVariables (c : Choice) (lookup : String → Option String) : Prop where
  pageSize : lookup "GRAPH_PAGE_SIZE" = c.pageSize.map decimalText
  fetchLatency : lookup "GRAPH_FETCH_LATENCY_MS" = c.fetchLatency.map decimalText
  prefetchThreshold : lookup "GRAPH_PREFETCH_THRESHOLD" = c.prefetchThreshold.map decimalText
  level : lookup "LOG_LEVEL" = c.level
  format : lookup "LOG_FORMAT" = c.format

theorem isBlank_of_isDigit {c : Char} (h : c.isDigit = true) : isBlank c = false := by
  simp only [Char.isDigit, Bool.and_eq_true, decide_eq_true_eq] at h
  have hlow : 48 ≤ c.toNat := h.1
  have hhigh : c.toNat ≤ 57 := h.2
  simp [isBlank]
  omega

/-- The decimal text of a number is read back, all its digits being no blanks. -/
theorem ofDigits?_decimalText (n : UInt64) : ofDigits? (trimBlank (decimalText n).toList) = some n := by
  have hdigits : (decimalText n).toList = Nat.toDigits 10 n.toNat := by
    rw [decimalText, Nat.toString_eq_ofList_toDigits, String.toList_ofList]
  rw [hdigits, trimBlank_eq_self fun c hc => isBlank_of_isDigit (Json.isDigit_of_mem_toDigits hc)]
  exact ofDigits?_toDigits n

theorem numberOr_of_lookup {lookup : String → Option String} {key : String} {n : Option UInt64}
    (h : lookup key = n.map decimalText) (default : UInt64) :
    numberOr lookup key default = .ok (n.getD default) := by
  rw [numberOr, h]
  cases n with
  | none => rfl
  | some n =>
    simp only [Option.map_some, ofDigits?_decimalText]
    rfl

theorem ofVariables_eq {c : Choice} {lookup : String → Option String} (h : c.InVariables lookup) :
    ofVariables lookup = .ok c.settings := by
  rw [ofVariables, numberOr_of_lookup h.pageSize, numberOr_of_lookup h.fetchLatency,
    numberOr_of_lookup h.prefetchThreshold, h.level, h.format]
  rfl

/-! ## Documents -/

/-- A spelling of a number: digits without sign, point and power of ten. -/
def IsNumber (n : UInt64) : Document → Prop
  | .number literal =>
    literal.isWhole = true ∧ literal.negative = false ∧ literal.magnitude = n.toNat
  | _ => False

/-- A spelling of a text, with escapes or without. -/
def IsText (s : String) : Document → Prop
  | .string pieces => Piece.text? pieces = some s
  | _ => False

theorem number?_of_isNumber {n : UInt64} {d : Document} (h : IsNumber n d) : number? d = some n := by
  cases d with
  | number literal =>
    obtain ⟨hwhole, hsign, hvalue⟩ := h
    have hrange : n.toNat < 18446744073709551616 := n.toNat_lt
    simp only [number?, hwhole, hsign, hvalue, hrange, Bool.not_false, Bool.and_self, decide_true,
      if_true, UInt64.ofNat_toNat]
  | _ => exact h.elim

theorem string?_of_isText {s : String} {d : Document} (h : IsText s d) : string? d = some s := by
  cases d with
  | string pieces => exact h
  | _ => exact h.elim

/-- Members, under the names that they spell: each one sets what its name stands for, no name
stands twice, and whatever is needed is there. -/
structure Lists (sets : String → Document → Prop) (needed : List String)
    (members : List (List Piece × Document)) (names : List String) : Prop where
  each : List.Forall₂ (fun m name => Piece.text? m.1 = some name ∧ sets name m.2) members names
  nodup : names.Nodup
  complete : ∀ name ∈ needed, name ∈ names

namespace Choice

/-- The values that the fields of the logging settings may have. -/
inductive SetsLog (c : Choice) : String → Document → Prop where
  | level {s : String} {d : Document} (h : c.level = some s) (hd : IsText s d) : SetsLog c "level" d
  | format {s : String} {d : Document} (h : c.format = some s) (hd : IsText s d) :
    SetsLog c "format" d

/-- The logging settings that are given. -/
def logNames (c : Choice) : List String :=
  (c.level.map fun _ => "level").toList ++ (c.format.map fun _ => "format").toList

/-- The values that the fields of the settings may have. The logging settings are an object, which
is empty when none of them is given. -/
inductive Sets (c : Choice) : String → Document → Prop where
  | pageSize {n : UInt64} {d : Document} (h : c.pageSize = some n) (hd : IsNumber n d) :
    Sets c "page_size" d
  | fetchLatency {n : UInt64} {d : Document} (h : c.fetchLatency = some n) (hd : IsNumber n d) :
    Sets c "fetch_latency_ms" d
  | prefetchThreshold {n : UInt64} {d : Document} (h : c.prefetchThreshold = some n)
    (hd : IsNumber n d) : Sets c "prefetch_threshold" d
  | logging {members : List (List Piece × Document)} {names : List String}
    (h : Lists c.SetsLog c.logNames members names) : Sets c "logging" (.object members)

/-- The settings that are given. An object of logging settings is needed only when it is not
empty. -/
def names (c : Choice) : List String :=
  (c.pageSize.map fun _ => "page_size").toList ++
    (c.fetchLatency.map fun _ => "fetch_latency_ms").toList ++
    (c.prefetchThreshold.map fun _ => "prefetch_threshold").toList ++
    if c.logNames = [] then [] else ["logging"]

/-- A document that gives a choice: an object with a member for each setting, in any order. -/
def InDocument (c : Choice) (d : Document) : Prop :=
  ∃ members names, d = .object members ∧ Lists c.Sets c.names members names

/-- A file that gives a choice. -/
def InFile (c : Choice) (bytes : ByteArray) : Prop :=
  ∃ text d, String.fromUTF8? bytes = some text ∧ Document.ofText? text = some d ∧ c.InDocument d

end Choice

/-! ## Reading a record -/

section

variable {α : Type} {fields : List (String × (Document → α → Option α))}

/-- What a member does to the names that were seen and to the record. -/
def putMember (fields : List (String × (Document → α → Option α))) (state : List String × α)
    (m : List Piece × Document) : Option (List String × α) :=
  match Piece.text? m.1 with
  | none => none
  | some name =>
    match fields.lookup name with
    | none => some state
    | some read =>
      if state.1.contains name then none
      else (read m.2 state.2).map fun record => (name :: state.1, record)

theorem readRecord_object_eq (default : α) (members : List (List Piece × Document)) :
    readRecord fields default (.object members) =
      (members.foldlM (putMember fields) ([], default)).map Prod.snd :=
  rfl

theorem putMember_eq {m : List Piece × Document} {name : String}
    {read : Document → α → Option α} {seen : List String} {record next : α}
    (hname : Piece.text? m.1 = some name) (hfield : fields.lookup name = some read)
    (hnew : name ∉ seen) (hread : read m.2 record = some next) :
    putMember fields (seen, record) m = some (name :: seen, next) := by
  have hcontains : seen.contains name = false := by simpa using hnew
  simp only [putMember, hname, hfield, hcontains, Bool.false_eq_true, if_false, hread,
    Option.map_some]

/-- Reading an object in any order: `after` is the record when the fields of the given names are
read, and each member that is read adds its name. -/
theorem readRecord_object {sets : String → Document → Prop} (after : List String → α)
    (hread : ∀ seen name d, sets name d → ∃ read, fields.lookup name = some read ∧
      read d (after seen) = some (after (name :: seen)))
    {members : List (List Piece × Document)} {needed names : List String}
    (h : Lists sets needed members names) :
    readRecord fields (after []) (.object members) = some (after names.reverse) := by
  obtain ⟨heach, hnodup, -⟩ := h
  -- the names still to come are none of those that were seen
  have hloop : ∀ seen, (∀ name ∈ names, name ∉ seen) →
      members.foldlM (putMember fields) (seen, after seen) =
        some (names.reverse ++ seen, after (names.reverse ++ seen)) := by
    induction heach with
    | nil => exact fun _ _ => rfl
    | @cons m name members names hm _ ih =>
      intro seen hseen
      obtain ⟨hname, hnames⟩ := List.nodup_cons.1 hnodup
      obtain ⟨read, hfield, hvalue⟩ := hread seen name m.2 hm.2
      have hput := putMember_eq hm.1 hfield (hseen name List.mem_cons_self) hvalue
      have hrest := ih hnames (name :: seen) fun other hother hmem => by
        rcases List.mem_cons.1 hmem with rfl | hmem
        · exact hname hother
        · exact hseen other (List.mem_cons_of_mem _ hother) hmem
      rw [List.foldlM_cons, hput, Option.bind_eq_bind, Option.bind_some, hrest, List.reverse_cons,
        List.append_assoc]
      rfl
  rw [readRecord_object_eq, hloop [] fun _ _ => List.not_mem_nil, List.append_nil]
  rfl

end

/-- What is given has its value once its name is read, and what is not given has its default. -/
theorem ite_mem_getD {α : Type} {name : String} {names : List String} {given : Option α}
    {default : α} (h : given.isSome = true → name ∈ names) :
    (if name ∈ names then given.getD default else default) = given.getD default := by
  cases given with
  | none => simp
  | some a => rw [if_pos (h rfl)]

namespace Choice

/-- The logging settings when the fields of the given names are read. -/
def logAfter (c : Choice) (names : List String) : LogSettings :=
  ⟨if "level" ∈ names then c.level.getD LogSettings.default.level else LogSettings.default.level,
    if "format" ∈ names then c.format.getD LogSettings.default.format
      else LogSettings.default.format⟩

/-- The settings when the fields of the given names are read. -/
def after (c : Choice) (names : List String) : Settings :=
  ⟨if "page_size" ∈ names then c.pageSize.getD default.pageSize else default.pageSize,
    if "fetch_latency_ms" ∈ names then c.fetchLatency.getD default.fetchLatency
      else default.fetchLatency,
    if "prefetch_threshold" ∈ names then c.prefetchThreshold.getD default.prefetchThreshold
      else default.prefetchThreshold,
    if "logging" ∈ names then c.logging else .default⟩

theorem logFields_read (c : Choice) (seen : List String) (name : String) (d : Document)
    (h : c.SetsLog name d) : ∃ read, logFields.lookup name = some read ∧
      read d (c.logAfter seen) = some (c.logAfter (name :: seen)) := by
  cases h with
  | level hs hd =>
    refine ⟨_, rfl, ?_⟩
    simp [string?_of_isText hd, logAfter, hs]
  | format hs hd =>
    refine ⟨_, rfl, ?_⟩
    simp [string?_of_isText hd, logAfter, hs]

end Choice

/-- A given setting is among the names of its choice. -/
theorem mem_toList_name {α : Type} {given : Option α} (name : String)
    (h : given.isSome = true) : name ∈ (given.map fun _ => name).toList := by
  cases given with
  | none => cases h
  | some a => exact List.mem_singleton_self name

theorem readRecord_logFields {c : Choice} {members : List (List Piece × Document)}
    {names : List String} (h : Lists c.SetsLog c.logNames members names) :
    readRecord logFields .default (.object members) = some c.logging := by
  have hrecord := readRecord_object c.logAfter c.logFields_read h
  have hgiven : ∀ {name : String}, name ∈ c.logNames → name ∈ names.reverse := fun hname =>
    List.mem_reverse.2 (h.complete _ hname)
  have hlevel : c.level.isSome = true → "level" ∈ names.reverse := fun hsome =>
    hgiven (List.mem_append_left _ (mem_toList_name _ hsome))
  have hformat : c.format.isSome = true → "format" ∈ names.reverse := fun hsome =>
    hgiven (List.mem_append_right _ (mem_toList_name _ hsome))
  have hall : c.logAfter names.reverse = c.logging := by
    rw [Choice.logAfter, ite_mem_getD hlevel, ite_mem_getD hformat]
    rfl
  rw [← hall]
  exact hrecord

theorem Choice.logging_eq_default {c : Choice} (h : c.logNames = []) : c.logging = .default := by
  have hlevel : c.level = none := by
    cases hlevel : c.level with
    | none => rfl
    | some s => simp [logNames, hlevel] at h
  have hformat : c.format = none := by
    cases hformat : c.format with
    | none => rfl
    | some s => simp [logNames, hformat] at h
  rw [logging, hlevel, hformat]
  rfl

theorem Choice.fields_read (c : Choice) (seen : List String) (name : String) (d : Document)
    (h : c.Sets name d) : ∃ read, fields.lookup name = some read ∧
      read d (c.after seen) = some (c.after (name :: seen)) := by
  cases h with
  | pageSize hn hd =>
    refine ⟨_, rfl, ?_⟩
    simp [number?_of_isNumber hd, after, hn]
  | fetchLatency hn hd =>
    refine ⟨_, rfl, ?_⟩
    simp [number?_of_isNumber hd, after, hn]
  | prefetchThreshold hn hd =>
    refine ⟨_, rfl, ?_⟩
    simp [number?_of_isNumber hd, after, hn]
  | logging hlog =>
    refine ⟨_, rfl, ?_⟩
    simp [readRecord_logFields hlog, after]

theorem ofDocument?_eq {c : Choice} {d : Document} (h : c.InDocument d) :
    ofDocument? d = some c.settings := by
  obtain ⟨members, names, rfl, h⟩ := h
  have hrecord := readRecord_object c.after c.fields_read h
  have hgiven : ∀ {name : String}, name ∈ c.names → name ∈ names.reverse := fun hname =>
    List.mem_reverse.2 (h.complete _ hname)
  have hpage : c.pageSize.isSome = true → "page_size" ∈ names.reverse := fun hsome =>
    hgiven (by simp [Choice.names, mem_toList_name _ hsome])
  have hlatency : c.fetchLatency.isSome = true → "fetch_latency_ms" ∈ names.reverse :=
    fun hsome => hgiven (by simp [Choice.names, mem_toList_name _ hsome])
  have hthreshold : c.prefetchThreshold.isSome = true → "prefetch_threshold" ∈ names.reverse :=
    fun hsome => hgiven (by simp [Choice.names, mem_toList_name _ hsome])
  have hlogging : (if "logging" ∈ names.reverse then c.logging else .default) = c.logging := by
    by_cases hnone : c.logNames = []
    · rw [Choice.logging_eq_default hnone, ite_self]
    · rw [if_pos (hgiven (by simp [Choice.names, hnone]))]
  have hall : c.after names.reverse = c.settings := by
    rw [Choice.after, ite_mem_getD hpage, ite_mem_getD hlatency, ite_mem_getD hthreshold, hlogging]
    rfl
  rw [← hall]
  exact hrecord

theorem ofFile_eq {c : Choice} {bytes : ByteArray} (h : c.InFile bytes) :
    ofFile bytes = .ok c.settings := by
  obtain ⟨text, d, hbytes, htext, hd⟩ := h
  simp only [ofFile, hbytes, ofText, htext, Option.bind_some, ofDocument?_eq hd]

/-! ## Every choice can be given -/

theorem isText_document (s : String) : IsText s (Json.document (.string s)) := Json.text?_pieces s

theorem isNumber_document (n : UInt64) : IsNumber n (Json.document (.number (.ofUInt64 n))) := by
  refine ⟨rfl, ?_, ?_⟩
  · simp [Literal.ofNumber, Number.ofUInt64, Literal.ofInteger]
  · simp only [Literal.magnitude, Literal.ofNumber, Number.ofUInt64, Literal.ofInteger,
      Int.natAbs_natCast, Nat.ofDigitChars_ten_toDigits]

namespace Choice

/-- The member for a setting, if it is given. -/
def member? {α : Type} (name : String) (tree : α → Json) (given : Option α) : Members Json :=
  (given.map fun a => (name, tree a)).toList

def logMembers (c : Choice) : Members Json :=
  member? "level" Json.string c.level ++ member? "format" Json.string c.format

/-- The tree with the settings that are given. -/
def tree (c : Choice) : Json :=
  let number (n : UInt64) : Json := .number (.ofUInt64 n)
  .object (member? "page_size" number c.pageSize ++
    member? "fetch_latency_ms" number c.fetchLatency ++
    member? "prefetch_threshold" number c.prefetchThreshold ++
    if c.logNames = [] then [] else [("logging", .object c.logMembers)])

/-- The variables with the settings that are given. -/
def environment (c : Choice) (key : String) : Option String :=
  if key = "GRAPH_PAGE_SIZE" then c.pageSize.map decimalText
  else if key = "GRAPH_FETCH_LATENCY_MS" then c.fetchLatency.map decimalText
  else if key = "GRAPH_PREFETCH_THRESHOLD" then c.prefetchThreshold.map decimalText
  else if key = "LOG_LEVEL" then c.level
  else if key = "LOG_FORMAT" then c.format
  else none

theorem inVariables_environment (c : Choice) : c.InVariables c.environment := ⟨rfl, rfl, rfl, rfl, rfl⟩

theorem forall₂_member? {α : Type} {sets : String → Document → Prop} {name : String}
    {tree : α → Json} {given : Option α}
    (h : ∀ a, given = some a → sets name (Json.document (tree a))) :
    List.Forall₂ (fun m name => Piece.text? m.1 = some name ∧ sets name m.2)
      (Json.memberDocuments (member? name tree given)) (given.map fun _ => name).toList := by
  cases given with
  | none => exact .nil
  | some a => exact .cons ⟨Json.text?_pieces name, h a rfl⟩ .nil

theorem lists_logMembers (c : Choice) :
    Lists c.SetsLog c.logNames (Json.memberDocuments c.logMembers) c.logNames where
  each := by
    rw [logMembers, Json.memberDocuments_append]
    refine List.rel_append (forall₂_member? fun s hs => ?_) (forall₂_member? fun s hs => ?_)
    · exact .level hs (isText_document s)
    · exact .format hs (isText_document s)
  nodup := by
    rw [logNames]
    cases c.level <;> cases c.format <;> simp
  complete := fun _ h => h

theorem inDocument_tree (c : Choice) : c.InDocument (Json.document c.tree) := by
  refine ⟨_, c.names, rfl, ?_, ?_, fun _ h => h⟩
  · simp only [Json.memberDocuments_append]
    refine List.rel_append (List.rel_append (List.rel_append
      (forall₂_member? fun n hn => ?_) (forall₂_member? fun n hn => ?_))
      (forall₂_member? fun n hn => ?_)) ?_
    · exact .pageSize hn (isNumber_document n)
    · exact .fetchLatency hn (isNumber_document n)
    · exact .prefetchThreshold hn (isNumber_document n)
    · split
      · exact .nil
      · exact .cons ⟨Json.text?_pieces "logging", .logging c.lists_logMembers⟩ .nil
  · rw [names]
    cases c.pageSize <;> cases c.fetchLatency <;> cases c.prefetchThreshold <;> split <;> simp

theorem fromUTF8?_toByteArray (s : String) : String.fromUTF8? s.toByteArray = some s := by
  rw [String.fromUTF8?, dif_pos s.isValidUTF8]
  rfl

/-- The compact text of the tree of a choice is a file that gives the choice. -/
theorem inFile_text (c : Choice) : c.InFile c.tree.text.toByteArray :=
  ⟨_, _, fromUTF8?_toByteArray _, Document.ofText?_text c.tree, c.inDocument_tree⟩

end Choice

/-- The loaders agree: on every choice of the settings that are given and of their values both
succeed with the given settings over one set of defaults. Every choice can be given to both. -/
theorem loaders_agree (c : Choice) :
    (∃ lookup, c.InVariables lookup) ∧ (∃ bytes, c.InFile bytes) ∧
      ∀ lookup bytes, c.InVariables lookup → c.InFile bytes →
        ofVariables lookup = .ok c.settings ∧ ofFile bytes = .ok c.settings :=
  ⟨⟨_, c.inVariables_environment⟩, ⟨_, c.inFile_text⟩, fun _ _ hvariables hfile =>
    ⟨ofVariables_eq hvariables, ofFile_eq hfile⟩⟩

/-- The greatest page size, and a format. -/
def greatestPages : Choice := ⟨some 18446744073709551615, none, none, none, some "json"⟩

/-- A file with blanks, with an escaped letter, and with the settings in an order of its own. -/
def greatestPagesText : String :=
  "\x7b \"logging\": \x7b\"format\": \"js\\u006fn\"\x7d, \"page_size\": 18446744073709551615 \x7d"

theorem loaders_agree_greatestPages :
    ofVariables greatestPages.environment =
        .ok ⟨18446744073709551615, 0, 20, ⟨"info", "json"⟩⟩ ∧
      ofFile greatestPagesText.toByteArray =
        .ok ⟨18446744073709551615, 0, 20, ⟨"info", "json"⟩⟩ := by
  have hlogging : greatestPages.Sets "logging"
      (.object [(Json.pieces "format", .string (Json.pieces "json"))]) :=
    .logging ⟨.cons ⟨rfl, .format rfl rfl⟩ .nil, List.nodup_singleton _, by decide⟩
  have hpages : greatestPages.Sets "page_size"
      (.number ⟨false, "18446744073709551615".toList, none, none⟩) :=
    .pageSize rfl ⟨rfl, rfl, rfl⟩
  have hlists : Lists greatestPages.Sets greatestPages.names
      [(Json.pieces "logging", _), (Json.pieces "page_size", _)] ["logging", "page_size"] :=
    ⟨.cons ⟨rfl, hlogging⟩ (.cons ⟨rfl, hpages⟩ .nil), by decide, by decide⟩
  have hfile : greatestPages.InFile greatestPagesText.toByteArray :=
    ⟨_, _, Choice.fromUTF8?_toByteArray _, rfl, _, _, rfl, hlists⟩
  exact (loaders_agree greatestPages).2.2 _ _ greatestPages.inVariables_environment hfile

end Settings

end PagedTraversal
