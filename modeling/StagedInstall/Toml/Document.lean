import StagedInstall.Toml.Statement

/-! # TOML documents

The statements of a document build one table. A table opened by a header can be filled once;
the tables that a header only passes through, and those made by dotted keys, can still grow.
-/

namespace StagedInstall.Toml

/-- How a table came about: through its own header, on the way of another header, or on the way
of a dotted key. -/
inductive Origin
  | header
  | passed
  | dotted
  deriving DecidableEq, Repr

inductive Node
  | value (v : Value)
  | table (origin : Origin) (entries : List (String × Node))
  | elements (tables : List (List (String × Node)))

abbrev Entries := List (String × Node)

namespace Entries

def lookup? (es : Entries) (k : String) : Option Node := (List.find? (·.1 = k) es).map (·.2)

def replace (es : Entries) (k : String) (n : Node) : Entries :=
  es.map fun e => if e.1 = k then (k, n) else e

def addNew (es : Entries) (k : String) (n : Node) : Option Entries :=
  if (lookup? es k).isSome then none else some (es ++ [(k, n)])

end Entries

open Entries

/-- Adds a value below the tables `above`, which have to grow by dotted keys. -/
def addDotted : (above : List String) → String → Value → Entries → Option Entries
  | [], k, v, es => addNew es k (.value v)
  | a :: above, k, v, es =>
    match lookup? es a with
    | none => do
      let inner ← addDotted above k v []
      some (es ++ [(a, .table .dotted inner)])
    | some (.table origin inner) =>
      if origin = .header ∨ (above = [] ∧ origin ≠ .dotted) then none
      else do
        let inner ← addDotted above k v inner
        some (replace es a (.table origin inner))
    | some (.elements ts) =>
      match above, ts.getLast? with
      | _ :: _, some t => do
        let t ← addDotted above k v t
        some (replace es a (.elements (ts.dropLast ++ [t])))
      | _, _ => none
    | some (.value _) => none

/-- Fills a table with the entries under its header. -/
def fill (es : Entries) (entries : List (Key × Value)) : Option Entries :=
  entries.foldlM (fun es (k, v) => addDotted k.above k.last v es) es

/-- Changes the table that the keys lead to, where an array of tables stands for its last. -/
def changeAt (change : Entries → Option Entries) : (above : List String) → Entries → Option Entries
  | [], es => change es
  | a :: above, es =>
    match lookup? es a with
    | none => do
      let inner ← changeAt change above []
      some (es ++ [(a, .table .passed inner)])
    | some (.table origin inner) => do
      let inner ← changeAt change above inner
      some (replace es a (.table origin inner))
    | some (.elements ts) => do
      let t ← changeAt change above (← ts.getLast?)
      some (replace es a (.elements (ts.dropLast ++ [t])))
    | some (.value _) => none

/-- A header with the entries under it. -/
structure Section where
  element : Bool
  key : Key
  entries : List (Key × Value)

def Section.addTo (s : Section) (es : Entries) : Option Entries := do
  let k := s.key.last
  if s.element then
    match lookup? es k with
    | none => do
      let t ← fill [] s.entries
      some (es ++ [(k, .elements [t])])
    | some (.elements ts) => do
      let t ← fill [] s.entries
      some (replace es k (.elements (ts ++ [t])))
    | some _ => none
  else
    match lookup? es k with
    | none => do
      let t ← fill [] s.entries
      some (es ++ [(k, .table .header t)])
    | some (.table .passed inner) => do
      let t ← fill inner s.entries
      some (es.filter (·.1 ≠ k) ++ [(k, .table .header t)])
    | some _ => none

/-- The entries before the first header, and the sections after it. -/
def sections : List Statement → List (Key × Value) × List Section
  | [] => ([], [])
  | .entry k v :: r => ((k, v) :: (sections r).1, (sections r).2)
  | .header k :: r => ([], ⟨false, k, (sections r).1⟩ :: (sections r).2)
  | .elementHeader k :: r => ([], ⟨true, k, (sections r).1⟩ :: (sections r).2)

def build (sts : List Statement) : Option Entries := do
  let (entries, ss) := sections sts
  ss.foldlM (fun es s => changeAt s.addTo s.key.above es) (← fill [] entries)

mutual

def Node.toValue : Node → Value
  | .value v => v
  | .table _ es => .table (entriesToValues es)
  | .elements ts => .array (elementsToValues ts)

def entriesToValues : List (String × Node) → List (String × Value)
  | [] => []
  | (k, n) :: r => (k, n.toValue) :: entriesToValues r

def elementsToValues : List (List (String × Node)) → List Value
  | [] => []
  | es :: r => .table (entriesToValues es) :: elementsToValues r

end

/-- The top table of a document; none when the text is no TOML. -/
def parse (text : String) : Option (List (String × Value)) := do
  return entriesToValues (← build (← statements text.toList))

end StagedInstall.Toml
