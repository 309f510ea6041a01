import Mathlib.Data.Int.Notation

/-!
# Documents and JSON values

`model.rs`: the canonical record a connector emits, and the JSON values its
metadata is made of.
-/

namespace Cortana

/-- `serde_json::Value`.  A real number is kept as its bit pattern: it is
only ever stored and compared. -/
inductive Value where
  | null
  | bool (flag : Bool)
  | integer (n : ℤ)
  | real (bits : UInt64)
  | string (text : String)
  | array (items : List Value)
  | object (members : List (String × Value))

namespace Value

/-- `Value::get` with a string key. -/
def get (value : Value) (key : String) : Option Value :=
  match value with
  | object members => (members.find? fun m ↦ m.1 == key).map Prod.snd
  | _ => none

/-- `Value::as_str`. -/
def asStr : Value → Option String
  | string text => some text
  | _ => none

/-- `map.contains_key` on `Value::as_object`. -/
def containsKey (value : Value) (key : String) : Bool := (value.get key).isSome

end Value

/-- `model::Document`. -/
structure Document where
  source : String
  sourceId : String
  title : String
  content : String
  uri : Option String
  updatedAt : String
  project : String
  acl : List String
  metadata : Value

end Cortana
