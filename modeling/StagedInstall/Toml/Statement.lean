import StagedInstall.Toml.Number

/-! # TOML statements

A document as the list of its statements: table headers and entries, without regard to what they
mean together. Arrays and inline tables nest less than 128 deep, and a dotted key has fewer than
128 parts.
-/

namespace StagedInstall.Toml

/-- A dotted key: its parts but the last, and the last. -/
structure Key where
  above : List String
  last : String
  deriving DecidableEq, Repr

inductive Statement
  | entry (key : Key) (value : Value)
  | header (key : Key)
  | elementHeader (key : Key)

def maxDepth : Nat := 128

def isBareKey (c : Char) : Bool := c.isAlphanum ∨ c = '_' ∨ c = '-'

def keyPart (s : List Char) : Option (String × List Char) :=
  match lineString s with
  | some (part, rest) => some (.ofList part, rest)
  | none =>
    if s.takeWhile isBareKey = [] then none
    else some (.ofList (s.takeWhile isBareKey), s.dropWhile isBareKey)

/-- Parts between dots, with blanks around each; at most `fuel` of them. -/
def keyParts : (fuel : Nat) → List Char → Option (List String × List Char)
  | 0, _ => none
  | fuel + 1, s => do
    let (part, s) ← keyPart (skipBlank s)
    match skipBlank s with
    | '.' :: r => do
      let (parts, r) ← keyParts fuel r
      some (part :: parts, r)
    | r => some ([part], r)

def Key.ofParts : List String → Option Key
  | [] => none
  | p :: ps =>
    match ofParts ps with
    | none => some ⟨[], p⟩
    | some k => some ⟨p :: k.above, k.last⟩

def key (s : List Char) : Option (Key × List Char) := do
  let (parts, s) ← keyParts (maxDepth - 1) s
  let k ← Key.ofParts parts
  some (k, s)

/-- Leaves out a comment up to the end of its line. -/
def skipComment (s : List Char) : List Char :=
  if s.head? = some '#' then s.dropWhile isPlain else s

/-- Leaves out blanks, line ends and comments. -/
def skipSpace : (fuel : Nat) → List Char → List Char
  | 0, s => s
  | fuel + 1, s =>
    let r := skipComment (s.drop (spaceLength s))
    if r.length < s.length then skipSpace fuel r else s

def skipSpaces (s : List Char) : List Char := skipSpace s.length s

/-- What follows the opening of an array, with a reader for its items. -/
def items (item : List Char → Option (Value × List Char)) :
    (fuel : Nat) → List Char → Option (List Value × List Char)
  | 0, _ => none
  | fuel + 1, s =>
    match skipSpaces s with
    | ']' :: r => some ([], r)
    | s => do
      let (v, s) ← item s
      match skipSpaces s with
      | ',' :: r => do
        let (vs, r) ← items item fuel r
        some (v :: vs, r)
      | ']' :: r => some ([v], r)
      | _ => none

def entry (item : List Char → Option (Value × List Char)) (s : List Char) :
    Option ((Key × Value) × List Char) := do
  let (k, s) ← key s
  let s ← expect '=' s
  let (v, s) ← item (skipBlank s)
  some ((k, v), skipBlank s)

/-- What follows the opening of an inline table that is not empty. -/
def inlineEntries (item : List Char → Option (Value × List Char)) :
    (fuel : Nat) → List Char → Option (List (Key × Value) × List Char)
  | 0, _ => none
  | fuel + 1, s => do
    let (e, s) ← entry item s
    match s with
    | ',' :: r => do
      let (es, r) ← inlineEntries item fuel r
      some (e :: es, r)
    | '}' :: r => some ([e], r)
    | _ => none

/-- Adds an entry to an inline table, below the tables `above` in it. Those that are missing are
made, and those that are there grow, whether they were written with dots or with braces; none when
the key is taken, or something on the way is no table. -/
def addInline : (above : List String) → String → Value → List (String × Value) →
    Option (List (String × Value))
  | [], k, v, entries =>
    if entries.any (·.1 = k) then none else some (entries ++ [(k, v)])
  | a :: above, k, v, entries =>
    match entries.find? (·.1 = a) with
    | none => do
      let inner ← addInline above k v []
      some (entries ++ [(a, .table inner)])
    | some (_, .table inner) => do
      let inner ← addInline above k v inner
      some (entries.map fun e => if e.1 = a then (a, .table inner) else e)
    | some _ => none

/-- The inline table that the entries make. -/
def inlineTable (es : List (Key × Value)) : Option Value := do
  let entries ← es.foldlM (fun acc (k, v) => addInline k.above k.last v acc) []
  some (.table entries)

/-- A value in which arrays and inline tables nest at most `depth` deep. -/
def value : (depth : Nat) → List Char → Option (Value × List Char)
  | _, [] => none
  | depth, c :: s =>
    if c = '"' ∨ c = '\'' then (text (c :: s)).map fun (t, r) => (.string (.ofList t), r)
    else if c = '[' then
      match depth with
      | 0 => none
      | depth + 1 => (items (value depth) (s.length + 1) s).map fun (vs, r) => (.array vs, r)
    else if c = '{' then
      match depth with
      | 0 => none
      | depth + 1 =>
        match skipBlank s with
        | '}' :: r => some (.table [], r)
        | _ => do
          let (es, r) ← inlineEntries (value depth) (s.length + 1) s
          let v ← inlineTable es
          some (v, r)
    else if c = 't' then
      if "rue".toList.isPrefixOf s then some (.boolean true, s.drop 3) else none
    else if c = 'f' then
      if "alse".toList.isPrefixOf s then some (.boolean false, s.drop 4) else none
    else number (c :: s)

/-- The rest of a line: blanks and a comment, and then its end. -/
def lineEnd (s : List Char) : Option (List Char) :=
  let r := skipComment (skipBlank s)
  if r = [] then some []
  else if newlineLength r = 0 then none
  else some (r.drop (newlineLength r))

/-- A header after its opening bracket or brackets. -/
def headerKey (closing : String) (s : List Char) : Option (Key × List Char) := do
  let (k, s) ← key s
  if closing.toList.isPrefixOf s then some (k, s.drop closing.length) else none

def statement (s : List Char) : Option (Statement × List Char) :=
  if "[[".toList.isPrefixOf s then do
    let (k, s) ← headerKey "]]" (s.drop 2)
    some (.elementHeader k, s)
  else if "[".toList.isPrefixOf s then do
    let (k, s) ← headerKey "]" (s.drop 1)
    some (.header k, s)
  else do
    let ((k, v), s) ← entry (value (maxDepth - 1)) s
    some (.entry k v, s)

def statementsWithin : (fuel : Nat) → List Char → Option (List Statement)
  | 0, _ => none
  | fuel + 1, s =>
    let s := skipBlank s
    if s = [] then some []
    else if s.head? = some '#' ∨ newlineLength s ≠ 0 then do
      statementsWithin fuel (← lineEnd s)
    else do
      let (st, s) ← statement s
      let sts ← statementsWithin fuel (← lineEnd s)
      some (st :: sts)

/-- The statements of a document, which may start with a byte order mark. -/
def statements (s : List Char) : Option (List Statement) :=
  statementsWithin (s.length + 1) (if s.head? = some '\uFEFF' then s.tail else s)

end StagedInstall.Toml
