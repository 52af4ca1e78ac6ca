import Mathlib.Data.Int.Notation
import Moagan.Json.Text

/-!
# JSON values (`serde_json::Value`)

An object is the list of its members, in the order of its map; a float is its bit pattern.
-/

namespace Moagan

inductive Number where
  | posInt (n : ℕ)
  | negInt (n : ℤ)
  | float (bits : UInt64)
deriving DecidableEq, Repr

inductive Value where
  | null
  | bool (b : Bool)
  | number (n : Number)
  | string (s : String)
  | array (items : List Value)
  | object (members : List (String × Value))

/-- `get` with a key -/
def Value.get (key : String) : Value → Option Value
  | .object members => (members.find? fun e => e.1 = key).map Prod.snd
  | _ => none

/-- `get` with an index -/
def Value.item (i : ℕ) : Value → Option Value
  | .array items => items[i]?
  | _ => none

def Value.asU64 : Value → Option ℕ
  | .number (.posInt n) => some n
  | _ => none

def Value.asStr : Value → Option String
  | .string s => some s
  | _ => none

/-- `as_array().map_or(&[], Vec::as_slice)` -/
def Value.items : Value → List Value
  | .array items => items
  | _ => []

/-- `split_whitespace` -/
def splitWhitespace (text : String) : List String :=
  ((text.toList.splitOnP isWhitespace).filter (· ≠ [])).map String.ofList

end Moagan
