/-
What a store keeps under a key: a value, and the revision of the write that put it
there.
-/
import PropertyGraph.Text.Utf8
import PropertyGraph.Json.Parser

namespace PropertyGraph

/-- A stored value: a text, or bytes that are the UTF-8 form of none. -/
inductive Blob where
  | text (value : String)
  | raw (bytes : List UInt8)
deriving DecidableEq

namespace Blob

/-- The value of any bytes. -/
def ofBytes (bytes : ByteArray) : Blob :=
  match String.fromUTF8? bytes with
  | some s => .text s
  | none => .raw bytes.toList

/-- The text of a value; malformed bytes become replacement characters. -/
def string : Blob → String
  | .text s => s
  | .raw bytes => String.ofList (Text.Utf8.repair bytes)

/-- The JSON value a stored value is the text of. -/
def json? : Blob → Option Json
  | .text s => Json.parse? s
  | .raw _ => none

/-- The ids of a stored list of ids. -/
def ids? (b : Blob) : Option (List String) := do (← b.json?).asStrings?

end Blob

/-- A value with the revision of the write that stored it. -/
structure Entry where
  value : Blob
  revision : Nat
deriving DecidableEq

end PropertyGraph
