import Mathlib.Data.String.Basic
import Moagan.Json.Value
import Moagan.Lib.SortedMap
import Moagan.Redact.Apply
import Moagan.Telemetry.Verify

/-!
# The records of the audit log (`src/audit/format.rs`)

* `AuditRecord`      one line of the log, with all its fields
* `canonify`         a value with the members of its objects in order
* `bodyCanonical`    the text of a body
* `redactHeader`     the values of some headers are not written down

`Serde` is what `serde_json` and `String::from_utf8_lossy` do.
-/

namespace Moagan.Audit.Proxy

open Telemetry (toAsciiLowercase)

abbrev Text := List Char

/-- The checksum is left out: it is set when the line is written. -/
structure AuditRecord (F : Type) where
  ts : F
  event : String
  id : String
  method : Option Text
  url : Option Text
  status : Option ℕ
  headers : SortedMap String Text
  bodyCanonical : Option Text
  bodySha256 : String
  bodySize : ℕ
  elapsedMs : Option ℕ
  error : Option Text

/-! ## bodies -/

structure Serde where
  fromSlice : List UInt8 → Option Value
  toString : Value → Option Text
  fromUtf8Lossy : List UInt8 → Text

/-- the members of an object, each key once, in order -/
def sortMembers (members : List (String × Value)) : List (String × Value) :=
  (members.foldl (fun m e => m.insert e.1 e.2) (SortedMap.empty : SortedMap String Value)).entries

mutual

def canonify : Value → Value
  | .object members => .object (sortMembers (canonifyMembers members))
  | .array items => .array (canonifyItems items)
  | .null => .null
  | .bool b => .bool b
  | .number n => .number n
  | .string s => .string s

def canonifyItems : List Value → List Value
  | [] => []
  | v :: items => canonify v :: canonifyItems items

def canonifyMembers : List (String × Value) → List (String × Value)
  | [] => []
  | (key, v) :: members => (key, canonify v) :: canonifyMembers members

end

def bodyCanonical (serde : Serde) (bytes : List UInt8) : Text :=
  match serde.fromSlice bytes with
  | some v => (serde.toString (canonify v)).getD (serde.fromUtf8Lossy bytes)
  | none => serde.fromUtf8Lossy bytes

/-! ## headers -/

/-- the headers whose values are not written down -/
def SENSITIVE_HEADERS : List String :=
  ["x-api-key", "authorization", "proxy-authorization", "cookie", "set-cookie"]

def isSensitive (name : Text) : Bool :=
  SENSITIVE_HEADERS.contains (String.ofList (toAsciiLowercase name))

def REDACTED : Text := "***REDACTED***".toList

def redactHeader (name value : Text) : Text := if isSensitive name then REDACTED else value

end Moagan.Audit.Proxy
