import PagedTraversal.Proofs.Json.NumberText

/-!
# PagedTraversal.Proofs.Json.ReadBack

The compact text of a tree is read back. The scanner turns it into the tokens of the tree, and the
machine makes of these tokens the document that spells the tree: its literals, its characters, and
its items and members in their order. Trees with one document are the same, so the text of a tree
belongs to that tree alone.

* `Document.ofText?_text`: what is read of the text of a tree.
* `text_injective`: different trees have different texts.
* `ofText?_text`: a tree of whole numbers, in order and not too deep, is read back.
-/

namespace PagedTraversal

namespace Json

/-! ## The tokens and the document of a tree -/

/-- A string without escapes. -/
def pieces (s : String) : List Piece := s.toList.map .char

mutual

def tokens : Json → List Token
  | .null => [.null]
  | .bool b => [.bool b]
  | .number n => [.number (.ofNumber n)]
  | .string s => [.string (pieces s)]
  | .array [] => [.beginArray, .endArray]
  | .array (j :: rest) => .beginArray :: (tokens j ++ (moreItemTokens rest ++ [.endArray]))
  | .object [] => [.beginObject, .endObject]
  | .object ((name, j) :: rest) =>
    .beginObject :: .string (pieces name) :: .colon ::
      (tokens j ++ (moreMemberTokens rest ++ [.endObject]))
termination_by structural j => j

/-- The tokens of the items behind the first one. -/
def moreItemTokens : List Json → List Token
  | [] => []
  | j :: rest => .comma :: (tokens j ++ moreItemTokens rest)
termination_by structural js => js

/-- The tokens of the members behind the first one. -/
def moreMemberTokens : List (String × Json) → List Token
  | [] => []
  | (name, j) :: rest =>
    .comma :: .string (pieces name) :: .colon :: (tokens j ++ moreMemberTokens rest)
termination_by structural ms => ms

end

mutual

/-- The document that spells a tree without escapes and without blanks. -/
def document : Json → Document
  | .null => .null
  | .bool b => .bool b
  | .number n => .number (.ofNumber n)
  | .string s => .string (pieces s)
  | .array items => .array (documents items)
  | .object members => .object (memberDocuments members)
termination_by structural j => j

def documents : List Json → List Document
  | [] => []
  | j :: rest => document j :: documents rest
termination_by structural js => js

def memberDocuments : List (String × Json) → List (List Piece × Document)
  | [] => []
  | (name, j) :: rest => (pieces name, document j) :: memberDocuments rest
termination_by structural ms => ms

end

theorem memberDocuments_append (ms ns : List (String × Json)) :
    memberDocuments (ms ++ ns) = memberDocuments ms ++ memberDocuments ns := by
  induction ms with
  | nil => rfl
  | cons m ms ih => rw [List.cons_append, memberDocuments, ih, memberDocuments, List.cons_append]

/-! ## The machine -/

namespace Document.State

/-- A state in which a value begins that belongs on the given stack. -/
def Awaits (state : State) (stack : List Frame) : Prop :=
  ∀ t, t ≠ Token.endArray → step? state t = begin? stack t

theorem awaits_value (stack : List Frame) : Awaits (.value stack) stack := by
  intro t _
  cases t <;> rfl

theorem awaits_itemOrEnd (stack : List Frame) : Awaits (.itemOrEnd stack) (.array [] :: stack) := by
  intro t ht
  cases t with
  | endArray => exact (ht rfl).elim
  | _ => rfl

/-- The first token of a tree, in a state that awaits it, begins the value. -/
theorem Awaits.foldlM_cons {state : State} {stack : List Frame} (h : Awaits state stack) (t : Token)
    (ht : t ≠ .endArray) (rest : List Token) :
    (t :: rest).foldlM step? state = (begin? stack t).bind fun s => rest.foldlM step? s := by
  rw [List.foldlM_cons, h t ht]
  rfl

mutual

/-- The tokens of a tree take the machine to the end of the document of the tree. -/
theorem foldlM_tokens {state : State} {stack : List Frame} (h : Awaits state stack) : (j : Json) →
    (tokens j).foldlM step? state = some (.after (document j) stack)
  | .null => h.foldlM_cons .null nofun []
  | .bool b => h.foldlM_cons (.bool b) nofun []
  | .number n => h.foldlM_cons (.number (.ofNumber n)) nofun []
  | .string s => h.foldlM_cons (.string (pieces s)) nofun []
  | .array [] => h.foldlM_cons .beginArray nofun [.endArray]
  | .array (j :: rest) => by
    have hitem := foldlM_tokens (awaits_itemOrEnd stack) j
    have hrest := foldlM_moreItemTokens (document j) [] stack rest
    rw [tokens, h.foldlM_cons .beginArray nofun, begin?, Option.bind_some, List.foldlM_append, hitem]
    exact hrest
  | .object [] => h.foldlM_cons .beginObject nofun [.endObject]
  | .object ((key, j) :: rest) => by
    have hmember := foldlM_tokens (awaits_value (.object [] (pieces key) :: stack)) j
    have hrest := foldlM_moreMemberTokens [] (pieces key) (document j) stack rest
    rw [tokens, h.foldlM_cons .beginObject nofun, begin?, Option.bind_some]
    simp only [List.foldlM_cons, step?, Option.bind_eq_bind, Option.bind_some]
    rw [List.foldlM_append, hmember]
    exact hrest
termination_by structural j => j

theorem foldlM_moreItemTokens (v : Document) (items : List Document) (stack : List Frame) :
    (js : List Json) →
    (moreItemTokens js ++ [Token.endArray]).foldlM step? (.after v (.array items :: stack)) =
      some (.after (.array ((v :: items).reverse ++ documents js)) stack)
  | [] => by
    rw [documents, List.append_nil]
    rfl
  | j :: rest => by
    have hitem := foldlM_tokens (awaits_value (.array (v :: items) :: stack)) j
    have hrest := foldlM_moreItemTokens (document j) (v :: items) stack rest
    simp only [moreItemTokens, List.cons_append, List.append_assoc, List.foldlM_cons, step?,
      Option.bind_eq_bind, Option.bind_some]
    rw [List.foldlM_append, hitem, documents]
    rw [List.reverse_cons, List.append_assoc] at hrest
    exact hrest
termination_by structural js => js

theorem foldlM_moreMemberTokens (members : List (List Piece × Document)) (key : List Piece)
    (v : Document) (stack : List Frame) : (ms : List (String × Json)) →
    (moreMemberTokens ms ++ [Token.endObject]).foldlM step?
        (.after v (.object members key :: stack)) =
      some (.after (.object (((key, v) :: members).reverse ++ memberDocuments ms)) stack)
  | [] => by
    rw [memberDocuments, List.append_nil]
    rfl
  | (next, j) :: rest => by
    have hmember :=
      foldlM_tokens (awaits_value (.object ((key, v) :: members) (pieces next) :: stack)) j
    have hrest :=
      foldlM_moreMemberTokens ((key, v) :: members) (pieces next) (document j) stack rest
    simp only [moreMemberTokens, List.cons_append, List.append_assoc, List.foldlM_cons, step?,
      Option.bind_eq_bind, Option.bind_some]
    rw [List.foldlM_append, hmember, memberDocuments]
    rw [List.reverse_cons, List.append_assoc] at hrest
    exact hrest
termination_by structural ms => ms

end

end Document.State

/-! ## The scanner -/

namespace Token

theorem scanFrom?_cons {mode next : Mode} {c : Char} {ts : List Token}
    (h : step? mode c = some (ts, next)) (done : List Token) (rest : List Char) :
    scanFrom? mode done (c :: rest) = scanFrom? next (ts.reverse ++ done) rest := by
  rw [scanFrom?, h]

/-- What stands behind a word or a number: nothing, or a character that belongs to neither. -/
def Delimited (rest : List Char) : Prop :=
  ∀ c ∈ rest.head?, c.isAlpha = false ∧ isNumberChar c = false

theorem delimited_nil : Delimited [] := nofun

theorem delimited_cons {c : Char} {rest : List Char}
    (h : c = ',' ∨ c = ']' ∨ c = '\x7d') : Delimited (c :: rest) := by
  rintro _ ⟨⟩
  rcases h with rfl | rfl | rfl <;> decide

/-- A mode that gathers the characters of one kind until a character of another kind ends the
token. -/
structure Gathers (mode : List Char → Mode) (kind : Char → Bool)
    (token? : List Char → Option Token) : Prop where
  inside : ∀ read c, kind c = true → step? (mode read) c = some ([], mode (c :: read))
  outside : ∀ read c, kind c = false → step? (mode read) c = close? (token? read.reverse) c
  atEnd : ∀ read, finish? (mode read) = (token? read.reverse).map ([·])

theorem gathers_word : Gathers .word Char.isAlpha ofWord? where
  inside := fun _ _ h => by rw [step?, if_pos h]
  outside := fun _ _ h => by rw [step?, h]; rfl
  atEnd := fun _ => rfl

theorem gathers_number :
    Gathers .number isNumberChar fun cs => (Literal.ofChars? cs).map .number where
  inside := fun _ _ h => by rw [step?, if_pos h]
  outside := fun _ _ h => by rw [step?, h]; rfl
  atEnd := fun read => by
    rw [finish?]
    cases Literal.ofChars? read.reverse <;> rfl

section

variable {mode : List Char → Mode} {kind : Char → Bool} {token? : List Char → Option Token}

theorem Gathers.scanFrom?_append (h : Gathers mode kind token?) {cs : List Char}
    (hcs : ∀ c ∈ cs, kind c = true) (read : List Char) (done : List Token) (rest : List Char) :
    scanFrom? (mode read) done (cs ++ rest) = scanFrom? (mode (cs.reverse ++ read)) done rest := by
  induction cs generalizing read with
  | nil => rfl
  | cons c cs ih =>
    rw [List.cons_append, scanFrom?_cons (h.inside read c (hcs c List.mem_cons_self)),
      List.reverse_cons, List.append_assoc]
    exact ih (fun c hc => hcs c (List.mem_cons_of_mem _ hc)) (c :: read)

/-- Where the gathered characters end, their token is complete. -/
theorem Gathers.scanFrom?_end (h : Gathers mode kind token?) {read : List Char} {t : Token}
    (ht : token? read.reverse = some t) (done : List Token) {rest : List Char}
    (hrest : ∀ c ∈ rest.head?, kind c = false) :
    scanFrom? (mode read) done rest = scanFrom? .between (t :: done) rest := by
  cases rest with
  | nil =>
    rw [scanFrom?, scanFrom?, h.atEnd, ht]
    simp [finish?]
  | cons c more =>
    have hread : step? (mode read) c = close? (some t) c := by
      rw [h.outside read c (hrest c rfl), ht]
    have hbetween : step? .between c = start? c := rfl
    rw [scanFrom?, scanFrom?, hread, hbetween]
    cases hstart : start? c with
    | none => simp only [close?, hstart]
    | some next =>
      simp only [close?, hstart, List.reverse_cons, List.append_assoc, List.singleton_append]

/-- A token that its first character begins and the others of its kind continue. -/
theorem Gathers.scanFrom?_token (h : Gathers mode kind token?) {first : Char} {cs : List Char}
    {t : Token} (hfirst : start? first = some ([], mode [first])) (hcs : cs.all kind = true)
    (ht : token? (first :: cs) = some t) (done : List Token) {rest : List Char}
    (hrest : ∀ c ∈ rest.head?, kind c = false) :
    scanFrom? .between done (first :: cs ++ rest) = scanFrom? .between (t :: done) rest := by
  have hstart : step? .between first = some ([], mode [first]) := hfirst
  rw [List.cons_append, scanFrom?_cons hstart, List.reverse_nil, List.nil_append,
    h.scanFrom?_append (List.all_eq_true.1 hcs)]
  refine h.scanFrom?_end ?_ done hrest
  rw [List.reverse_append, List.reverse_reverse]
  exact ht

end

/-! ### Strings -/

theorem ofUnit_toNat {c : Char} (h : c.toNat < 0x20) : Piece.ofUnit c.toNat = .char c := by
  rw [Piece.ofUnit, if_neg (by omega), if_neg (by omega), Char.ofNat_toNat]

theorem step?_unicode {digit : Nat} (h : digit < 16) (read : List Piece) (missing value : Nat) :
    step? (.unicode read missing value) (Hex.digit digit) =
      some ([], if missing ≤ 1 then .string (Piece.ofUnit (value * 16 + digit) :: read)
        else .unicode read (missing - 1) (value * 16 + digit)) := by
  rw [step?, Hex.digitValue?_digit h]
  rfl

/-- A four-digit escape is read as the character that it stands for. -/
theorem scanFrom?_unicode {c : Char} (h : c.toNat < 0x20) (read : List Piece) (done : List Token)
    (rest : List Char) :
    scanFrom? (.unicode read 4 0) done (Hex.fixed 4 c.toNat ++ rest) =
      scanFrom? (.string (.char c :: read)) done rest := by
  have hdigit : ∀ n, n % 16 < 16 := fun n => Nat.mod_lt n (by decide)
  have hvalue : (((0 * 16 + c.toNat / 16 / 16 / 16 % 16) * 16 + c.toNat / 16 / 16 % 16) * 16 +
      c.toNat / 16 % 16) * 16 + c.toNat % 16 = c.toNat := by omega
  simp only [Hex.fixed, List.nil_append, List.cons_append]
  rw [scanFrom?_cons (step?_unicode (hdigit _) _ _ _), if_neg (by decide),
    scanFrom?_cons (step?_unicode (hdigit _) _ _ _), if_neg (by decide),
    scanFrom?_cons (step?_unicode (hdigit _) _ _ _), if_neg (by decide),
    scanFrom?_cons (step?_unicode (hdigit _) _ _ _), if_pos (by decide), hvalue, ofUnit_toNat h]
  rfl

/-- The escape of a character is read as the character. -/
theorem scanFrom?_escape (c : Char) (read : List Piece) (done : List Token) (rest : List Char) :
    scanFrom? (.string read) done (escape c ++ rest) =
      scanFrom? (.string (.char c :: read)) done rest := by
  have hopen : step? (.string read) '\\' = some ([], .escape read) := rfl
  have hunicode : step? (.escape read) 'u' = some ([], .unicode read 4 0) := rfl
  rw [escape]
  by_cases hletter : c = '\x22' ∨ c = '\\' ∨ c = '\x08' ∨ c = '\x0c' ∨ c = '\n' ∨ c = '\r' ∨ c = '\t'
  · rcases hletter with rfl | rfl | rfl | rfl | rfl | rfl | rfl <;> rfl
  · simp only [not_or] at hletter
    obtain ⟨hquote, hbackslash, hback, hfeed, hline, hreturn, htab⟩ := hletter
    simp only [if_neg hquote, if_neg hbackslash, if_neg hback, if_neg hfeed, if_neg hline,
      if_neg hreturn, if_neg htab]
    by_cases hcontrol : c.toNat < 0x20
    · rw [if_pos hcontrol]
      simp only [List.cons_append, List.nil_append]
      rw [scanFrom?_cons hopen, scanFrom?_cons hunicode]
      exact scanFrom?_unicode hcontrol read done rest
    · have hplain : step? (.string read) c = some ([], .string (.char c :: read)) := by
        rw [step?, if_neg hquote, if_neg hbackslash, if_neg hcontrol]
      rw [if_neg hcontrol, List.singleton_append, scanFrom?_cons hplain]
      rfl

theorem scanFrom?_escapes (cs : List Char) (read : List Piece) (done : List Token)
    (rest : List Char) :
    scanFrom? (.string read) done (cs.flatMap escape ++ rest) =
      scanFrom? (.string ((cs.map Piece.char).reverse ++ read)) done rest := by
  induction cs generalizing read with
  | nil => rfl
  | cons c cs ih =>
    rw [List.flatMap_cons, List.append_assoc, scanFrom?_escape, ih, List.map_cons,
      List.reverse_cons, List.append_assoc]
    rfl

/-- A quoted text is read as its characters, whatever stands behind it. -/
theorem scanFrom?_quote (s : String) (done : List Token) (rest : List Char) :
    scanFrom? .between done ((quote s).toList ++ rest) =
      scanFrom? .between (.string (pieces s) :: done) rest := by
  have hopen : step? .between '\x22' = some ([], .string []) := rfl
  have hclose : ∀ read, step? (.string read) '\x22' = some ([.string read.reverse], .between) :=
    fun _ => rfl
  rw [quote, String.toList_ofList, List.cons_append, List.cons_append, List.append_assoc,
    scanFrom?_cons hopen, List.reverse_nil, List.nil_append, scanFrom?_escapes,
    List.singleton_append, scanFrom?_cons (hclose _), List.append_nil, List.reverse_reverse]
  rfl

/-! ### Numbers -/

theorem isNumberChar_of_isDigit {c : Char} (h : c.isDigit = true) : isNumberChar c = true := by
  simp [isNumberChar, h]

theorem isNumberChar_of_mem_chars {n : Literal} (h : n.WellFormed) {c : Char} (hc : c ∈ n.chars) :
    isNumberChar c = true := by
  have hunsigned : ∀ c ∈ n.whole ++ (Literal.fractionChars n.fraction ++
      Literal.exponentChars n.exponent), isNumberChar c = true := by
    intro c hc
    rcases List.mem_append.1 hc with hc | hc
    · exact isNumberChar_of_isDigit (h.isDigit_of_mem_whole c hc)
    · rcases List.mem_append.1 hc with hc | hc
      · cases hfraction : n.fraction with
        | none => rw [hfraction] at hc; cases hc
        | some digits =>
          rw [hfraction] at hc
          rcases List.mem_cons.1 hc with rfl | hc
          · rfl
          · exact isNumberChar_of_isDigit (h.isDigit_of_mem_fraction digits hfraction c hc)
      · cases hpower : n.exponent with
        | none => rw [hpower] at hc; cases hc
        | some power =>
          rw [hpower] at hc
          rcases List.mem_append.1 hc with hc | hc
          · rcases List.mem_cons.1 hc with rfl | hc
            · rfl
            · rw [List.mem_singleton.1 hc]
              split <;> rfl
          · exact isNumberChar_of_isDigit (isDigit_of_mem_toDigits hc)
  rw [Literal.chars, Literal.signed] at hc
  split at hc
  · rcases List.mem_cons.1 hc with rfl | hc
    · rfl
    · exact hunsigned c hc
  · exact hunsigned c hc

theorem start?_of_isDigit {c : Char} (h : (c.isDigit || c == '-') = true) :
    start? c = some ([], .number [c]) := by
  have hother : ∀ other : Char, (other.isDigit || other == '-') = false → c ≠ other := by
    rintro other hfalse rfl
    exact absurd (h.symm.trans hfalse) (by decide)
  have hspace : isSpace c = false := by
    simp [isSpace, hother ' ' rfl, hother '\t' rfl, hother '\n' rfl, hother '\r' rfl]
  simp only [start?, hspace, Bool.false_eq_true, if_false, if_neg (hother '[' rfl),
    if_neg (hother ']' rfl), if_neg (hother '\x7b' rfl), if_neg (hother '\x7d' rfl),
    if_neg (hother ',' rfl), if_neg (hother ':' rfl), if_neg (hother '\x22' rfl), h, if_true]

theorem chars_eq_cons {n : Literal} (h : n.WellFormed) :
    ∃ first cs, n.chars = first :: cs ∧ (first.isDigit || first == '-') = true := by
  rw [Literal.chars, Literal.signed]
  split
  · exact ⟨_, _, rfl, rfl⟩
  · cases hwhole : n.whole with
    | nil => exact (h.whole_ne_nil hwhole).elim
    | cons first more =>
      have hfirst := h.isDigit_of_mem_whole first (hwhole ▸ List.mem_cons_self)
      exact ⟨first, _, rfl, by simp [hfirst]⟩

/-- A literal is read as itself where nothing of its kind stands behind it. -/
theorem scanFrom?_literal {n : Literal} (h : n.WellFormed) (done : List Token) {rest : List Char}
    (hrest : Delimited rest) :
    scanFrom? .between done (n.chars ++ rest) = scanFrom? .between (.number n :: done) rest := by
  obtain ⟨first, cs, hchars, hfirst⟩ := chars_eq_cons h
  have hread := Literal.ofChars?_chars h
  rw [hchars] at hread ⊢
  refine gathers_number.scanFrom?_token (start?_of_isDigit hfirst) (List.all_eq_true.2 ?_) ?_ done
    fun c hc => (hrest c hc).2
  · exact fun c hc => isNumberChar_of_mem_chars h (hchars ▸ List.mem_cons_of_mem _ hc)
  · rw [hread]
    rfl

/-! ### Trees -/

/-- The characters of the texts behind the first one. -/
def commaSeparated (texts : List String) : List Char := texts.flatMap fun s => ',' :: s.toList

theorem toList_intercalate_cons (s : String) (texts : List String) :
    (",".intercalate (s :: texts)).toList = s.toList ++ commaSeparated texts := by
  induction texts generalizing s with
  | nil => simp [commaSeparated]
  | cons t texts ih =>
    rw [String.intercalate_cons_cons, String.toList_append, String.toList_append, ih,
      List.append_assoc]
    rfl

theorem delimited_commaSeparated (texts : List String) {rest : List Char} (h : Delimited rest) :
    Delimited (commaSeparated texts ++ rest) := by
  cases texts with
  | nil => exact h
  | cons t texts => exact delimited_cons (.inl rfl)

mutual

/-- The text of a tree is read as the tokens of the tree. -/
theorem scanFrom?_text : (j : Json) → (done : List Token) → {rest : List Char} → Delimited rest →
    scanFrom? .between done (j.text.toList ++ rest) =
      scanFrom? .between ((tokens j).reverse ++ done) rest
  | .null, done, rest, h =>
    gathers_word.scanFrom?_token rfl rfl rfl done fun c hc => (h c hc).1
  | .bool true, done, rest, h =>
    gathers_word.scanFrom?_token rfl rfl rfl done fun c hc => (h c hc).1
  | .bool false, done, rest, h =>
    gathers_word.scanFrom?_token rfl rfl rfl done fun c hc => (h c hc).1
  | .number n, done, rest, h => by
    rw [text, ← Literal.chars_ofNumber]
    exact scanFrom?_literal (Literal.wellFormed_ofNumber n) done h
  | .string s, done, rest, h => scanFrom?_quote s done rest
  | .array [], done, rest, h => rfl
  | .array (j :: items), done, rest, h => by
    have hend : Delimited (']' :: rest) := delimited_cons (.inr (.inl rfl))
    have htext : (text (.array (j :: items))).toList =
        '[' :: (j.text.toList ++ (commaSeparated (itemTexts items) ++ [']'])) := by
      simp only [text, itemTexts, String.toList_append, toList_intercalate_cons, List.append_assoc]
      rfl
    simp only [htext, List.cons_append, List.append_assoc, List.nil_append]
    rw [scanFrom?_cons (show step? .between '[' = some ([.beginArray], .between) from rfl),
      scanFrom?_text j _ (delimited_commaSeparated _ hend), scanFrom?_itemTexts items _ hend,
      scanFrom?_cons (show step? .between ']' = some ([.endArray], .between) from rfl)]
    simp only [tokens, List.reverse_cons, List.reverse_append, List.append_assoc,
      List.reverse_nil, List.nil_append, List.cons_append]
  | .object [], done, rest, h => rfl
  | .object ((name, j) :: members), done, rest, h => by
    have hend : Delimited ('\x7d' :: rest) := delimited_cons (.inr (.inr rfl))
    have htext : (text (.object ((name, j) :: members))).toList =
        '\x7b' :: ((quote name).toList ++
          (':' :: (j.text.toList ++ (commaSeparated (memberTexts members) ++ ['\x7d'])))) := by
      simp only [text, memberTexts, String.toList_append, toList_intercalate_cons,
        List.append_assoc]
      rfl
    simp only [htext, List.cons_append, List.append_assoc, List.nil_append]
    rw [scanFrom?_cons (show step? .between '\x7b' = some ([.beginObject], .between) from rfl),
      scanFrom?_quote,
      scanFrom?_cons (show step? .between ':' = some ([.colon], .between) from rfl),
      scanFrom?_text j _ (delimited_commaSeparated _ hend), scanFrom?_memberTexts members _ hend,
      scanFrom?_cons (show step? .between '\x7d' = some ([.endObject], .between) from rfl)]
    simp only [tokens, List.reverse_cons, List.reverse_append, List.append_assoc,
      List.reverse_nil, List.nil_append, List.cons_append]
termination_by structural j => j

theorem scanFrom?_itemTexts : (js : List Json) → (done : List Token) → {rest : List Char} →
    Delimited rest →
    scanFrom? .between done (commaSeparated (itemTexts js) ++ rest) =
      scanFrom? .between ((moreItemTokens js).reverse ++ done) rest
  | [], done, rest, h => rfl
  | j :: js, done, rest, h => by
    have htext : commaSeparated (itemTexts (j :: js)) ++ rest =
        ',' :: (j.text.toList ++ (commaSeparated (itemTexts js) ++ rest)) := by
      simp only [commaSeparated, itemTexts, List.flatMap_cons, List.append_assoc, List.cons_append]
    rw [htext, scanFrom?_cons (show step? .between ',' = some ([.comma], .between) from rfl),
      scanFrom?_text j _ (delimited_commaSeparated _ h), scanFrom?_itemTexts js _ h]
    simp only [moreItemTokens, List.reverse_cons, List.reverse_append, List.append_assoc,
      List.reverse_nil, List.nil_append, List.cons_append]
termination_by structural js => js

theorem scanFrom?_memberTexts : (ms : List (String × Json)) → (done : List Token) →
    {rest : List Char} → Delimited rest →
    scanFrom? .between done (commaSeparated (memberTexts ms) ++ rest) =
      scanFrom? .between ((moreMemberTokens ms).reverse ++ done) rest
  | [], done, rest, h => rfl
  | (name, j) :: ms, done, rest, h => by
    have htext : commaSeparated (memberTexts ((name, j) :: ms)) ++ rest =
        ',' :: ((quote name).toList ++
          (':' :: (j.text.toList ++ (commaSeparated (memberTexts ms) ++ rest)))) := by
      simp only [commaSeparated, memberTexts, String.toList_append, List.flatMap_cons,
        List.append_assoc, List.cons_append]
      rfl
    rw [htext, scanFrom?_cons (show step? .between ',' = some ([.comma], .between) from rfl),
      scanFrom?_quote,
      scanFrom?_cons (show step? .between ':' = some ([.colon], .between) from rfl),
      scanFrom?_text j _ (delimited_commaSeparated _ h), scanFrom?_memberTexts ms _ h]
    simp only [moreMemberTokens, List.reverse_cons, List.reverse_append, List.append_assoc,
      List.reverse_nil, List.nil_append, List.cons_append]
termination_by structural ms => ms

end

end Token

/-! ## The document of a text -/

/-- The text of a tree is read as the document that spells the tree. -/
theorem Document.ofText?_text (j : Json) : Document.ofText? j.text = some (document j) := by
  have hscan : Token.scan? j.text.toList = some (tokens j) := by
    have h := Token.scanFrom?_text j [] Token.delimited_nil
    rw [List.append_nil, List.append_nil] at h
    rw [Token.scan?, h, Token.scanFrom?, Token.finish?, Option.map_some, List.reverse_reverse,
      List.append_nil]
  rw [Document.ofText?, hscan, Option.bind_some, Document.ofTokens?,
    Document.State.foldlM_tokens (Document.State.awaits_value []) j]
  rfl

theorem pieces_injective : Function.Injective pieces := by
  intro s t h
  refine String.toList_injective (List.map_injective_iff.2 ?_ h)
  rintro c _ ⟨⟩
  rfl

mutual

theorem eq_of_document_eq : {i j : Json} → document i = document j → i = j
  | .null, j, h => by
    cases j with
    | null => rfl
    | _ => cases h
  | .bool a, j, h => by
    cases j with
    | bool b => rw [Document.bool.inj h]
    | _ => cases h
  | .number m, j, h => by
    cases j with
    | number n => rw [Literal.ofNumber_injective (Document.number.inj h)]
    | _ => cases h
  | .string s, j, h => by
    cases j with
    | string t => rw [pieces_injective (Document.string.inj h)]
    | _ => cases h
  | .array is, j, h => by
    cases j with
    | array js => rw [eq_of_documents_eq (Document.array.inj h)]
    | _ => cases h
  | .object ms, j, h => by
    cases j with
    | object ns => rw [eq_of_memberDocuments_eq (Document.object.inj h)]
    | _ => cases h
termination_by structural i => i

theorem eq_of_documents_eq : {is js : List Json} → documents is = documents js → is = js
  | [], js, h => by
    cases js with
    | nil => rfl
    | cons _ _ => cases h
  | i :: is, js, h => by
    cases js with
    | nil => cases h
    | cons j js =>
      obtain ⟨hfirst, hrest⟩ := List.cons.inj h
      rw [eq_of_document_eq hfirst, eq_of_documents_eq hrest]
termination_by structural is => is

theorem eq_of_memberDocuments_eq : {is js : List (String × Json)} →
    memberDocuments is = memberDocuments js → is = js
  | [], js, h => by
    cases js with
    | nil => rfl
    | cons _ _ => cases h
  | (name, i) :: is, js, h => by
    cases js with
    | nil => cases h
    | cons m js =>
      obtain ⟨hfirst, hrest⟩ := List.cons.inj h
      obtain ⟨hname, hvalue⟩ := Prod.mk.inj hfirst
      rw [pieces_injective hname, eq_of_document_eq hvalue, eq_of_memberDocuments_eq hrest]
termination_by structural is => is

end

/-- Different trees have different texts. -/
theorem text_injective : Function.Injective text := by
  intro i j h
  have hdocuments := Document.ofText?_text i
  rw [h, Document.ofText?_text j] at hdocuments
  exact (eq_of_document_eq (Option.some.inj hdocuments)).symm

/-! ## The tree of a text -/

theorem text?_pieces (s : String) : Piece.text? (pieces s) = some s := by
  rw [Piece.text?, pieces, Piece.chars?_map_char, Option.map_some, String.ofList_toList]

/-- The literal of a whole number is read as that number. -/
theorem Literal.number?_ofInteger (i : Int)
    (h : -9223372036854775808 ≤ i ∧ i ≤ 18446744073709551615) :
    (Literal.ofInteger i).number? = some (.integer i h) := by
  have hwhole : (Literal.ofInteger i).isWhole = true := rfl
  have hmagnitude : (Literal.ofInteger i).magnitude = i.natAbs := Nat.ofDigitChars_ten_toDigits
  have hread : Number.ofInt? i = some (.integer i h) := dif_pos h
  by_cases hneg : i < 0
  · have hsign : (Literal.ofInteger i).negative = true := decide_eq_true hneg
    have hrange : ¬ (i.natAbs = 0 ∨ 9223372036854775808 < i.natAbs) := by omega
    have hvalue : -(i.natAbs : Int) = i := by omega
    simp only [Literal.number?, hwhole, hsign, hmagnitude, if_neg hrange, hvalue, hread,
      Bool.not_true, Bool.false_eq_true, if_false, if_true]
  · have hsign : (Literal.ofInteger i).negative = false := decide_eq_false hneg
    have hvalue : (i.natAbs : Int) = i := by omega
    simp only [Literal.number?, hwhole, hsign, hmagnitude, hvalue, hread, Bool.not_true,
      Bool.false_eq_true, if_false]

mutual

/-- A tree whose numbers are whole, whose members are in order, and which has at most the given
number of containers inside one another. -/
def Plain (depth : Nat) : Json → Prop
  | .number (.double _ _) => False
  | .array items =>
    match depth with
    | 0 => False
    | depth + 1 => PlainItems depth items
  | .object members =>
    match depth with
    | 0 => False
    | depth + 1 => Members.Sorted members ∧ PlainMembers depth members
  | _ => True
termination_by structural j => j

def PlainItems (depth : Nat) : List Json → Prop
  | [] => True
  | j :: rest => Plain depth j ∧ PlainItems depth rest
termination_by structural js => js

def PlainMembers (depth : Nat) : List (String × Json) → Prop
  | [] => True
  | (_, j) :: rest => Plain depth j ∧ PlainMembers depth rest
termination_by structural ms => ms

end

namespace Document

mutual

theorem value?_document {depth : Nat} : {j : Json} → j.Plain depth →
    value? depth (document j) = some j
  | .null, _ => rfl
  | .bool _, _ => rfl
  | .number (.integer i hrange), _ => by
    rw [document, value?, Literal.ofNumber, Literal.number?_ofInteger i hrange]
    rfl
  | .number (.double _ _), h => h.elim
  | .string s, _ => by
    rw [document, value?, text?_pieces]
    rfl
  | .array items, h => by
    cases depth with
    | zero => exact h.elim
    | succ depth =>
      rw [document, value?, values?_documents h]
      rfl
  | .object members, h => by
    cases depth with
    | zero => exact h.elim
    | succ depth =>
      rw [document, value?, pairs?_memberDocuments h.2, Option.map_some,
        Members.ofPairs_of_sorted h.1]
termination_by structural j => j

theorem values?_documents {depth : Nat} : {js : List Json} → PlainItems depth js →
    values? depth (documents js) = some js
  | [], _ => rfl
  | j :: rest, h => by
    rw [documents, values?, value?_document h.1, values?_documents h.2]
termination_by structural js => js

theorem pairs?_memberDocuments {depth : Nat} : {ms : List (String × Json)} →
    PlainMembers depth ms → pairs? depth (memberDocuments ms) = some ms
  | [], _ => rfl
  | (name, j) :: rest, h => by
    rw [memberDocuments, pairs?, text?_pieces, value?_document h.1, pairs?_memberDocuments h.2]
termination_by structural ms => ms

end

end Document

/-- A tree of whole numbers, in order and not too deep, is read back from its text. -/
theorem ofText?_text {j : Json} (h : j.Plain Document.maxDepth) : ofText? j.text = some j := by
  rw [ofText?, Document.ofText?_text, Option.bind_some, Document.value?_document h]

end Json

end PagedTraversal
