import StagedInstall.Text.Quoted
import StagedInstall.Toml.Document

/-! # Fitting TOML to a schema

Where a document is valid TOML but does not have the expected shape, the first misfit is reported
in words.
-/

namespace StagedInstall.Toml

/-- What a value is expected to be. -/
inductive Wanted
  | string
  | boolean
  | sequence
  | record (name : String)
  deriving DecidableEq, Repr

inductive Misfit
  | unknownField (name : String) (fields : List String)
  | duplicateField (name : String)
  | invalidType (found : String) (wanted : Wanted)
  | invalidLength (length : Nat) (record : String) (size : Nat)
  deriving DecidableEq, Repr

/-- Why a text is refused: it is no TOML, or not the TOML that is wanted. -/
inductive Fault
  | malformed
  | misfit (m : Misfit)
  deriving DecidableEq, Repr

namespace Wanted

def describe : Wanted → String
  | string => "a string"
  | boolean => "a boolean"
  | sequence => "a sequence"
  | record name => "struct " ++ name

end Wanted

def quoted (name : String) : String := "`" ++ name ++ "`"

namespace Misfit

def message : Misfit → String
  | unknownField name fields =>
    "unknown field " ++ quoted name ++ ", expected " ++
      match fields with
      | [field] => quoted field
      | [field, other] => quoted field ++ " or " ++ quoted other
      | fields => "one of " ++ ", ".intercalate (fields.map quoted)
  | duplicateField name => "duplicate field " ++ quoted name
  | invalidType found wanted => "invalid type: " ++ found ++ ", expected " ++ wanted.describe
  | invalidLength length record size =>
    "invalid length " ++ Nat.repr length ++ ", expected struct " ++ record ++ " with " ++
      Nat.repr size ++ " elements"

end Misfit

def Fault.message : Fault → String
  | malformed => "<toml: syntax>"
  | misfit m => "<toml: " ++ m.message ++ ">"

namespace Value

/-- How a value is named in a misfit. -/
def describe : Value → String
  | string s => "string " ++ quotedText s
  | integer n => "integer " ++ quoted (toString n)
  | float x => "floating point " ++ quoted x.toText
  | boolean b => "boolean " ++ quoted (if b then "true" else "false")
  | dateTime => "map"
  | array _ => "sequence"
  | table _ => "map"

def misfit {α : Type} (v : Value) (wanted : Wanted) : Except Misfit α :=
  .error (.invalidType v.describe wanted)

def asString : Value → Except Misfit String
  | string s => .ok s
  | v => v.misfit .string

def asBoolean : Value → Except Misfit Bool
  | boolean b => .ok b
  | v => v.misfit .boolean

def asList {α : Type} (item : Value → Except Misfit α) : Value → Except Misfit (List α)
  | array vs => vs.mapM item
  | v => v.misfit .sequence

/-- The one field under which a date or time is presented where a record is wanted. -/
def dateTimeField : String := "$__toml_private_datetime"

/-- A record, given as a table whose entries are set one by one, or as the sequence of its
fields. -/
def asRecord {α : Type} (name : String) (start : α) (set : α → String → Value → Except Misfit α)
    (ofItems : List Value → Except Misfit α) : Value → Except Misfit α
  | table es => es.foldlM (fun r (k, v) => set r k v) start
  | dateTime => set start dateTimeField dateTime
  | array vs => ofItems vs
  | v => v.misfit (.record name)

end Value

end StagedInstall.Toml
