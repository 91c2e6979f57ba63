import StagedInstall.Decimal.Binary64

/-! # TOML values

Tables keep their entries in the order of the document, since the first misfit of a document is
the one reported.
-/

namespace StagedInstall.Toml

inductive Value
  | string (s : String)
  | integer (n : Int)
  | float (x : Binary64)
  | boolean (b : Bool)
  | dateTime
  | array (items : List Value)
  | table (entries : List (String × Value))

end StagedInstall.Toml
