/-
# Fields of persisted records

`b`, `unb` and `nullable`, on which both records in section 6 of the svncache specification are
built.

A record is text between semicolons. Free text and bytes are base64 inside a field, so that no field
holds a semicolon, and the word `null` marks a value that is absent. Numbers that cannot be read
fall back to a default.
-/

import StatusCache.Error
import StatusCache.Text.Base64
import StatusCache.Text.Number
import StatusCache.Text.Quoted
import StatusCache.Text.Utf8

namespace StatusCache
namespace Persisted

/-- Marks an absent value. -/
def null : String := "null"

/-- The fields of a record, as bytes. -/
def writeFields (fields : List String) : List UInt8 := Text.Utf8.encode (Text.join ';' fields)

/-- The fields that bytes write. -/
def readFields (bytes : List UInt8) : Except Error (List String) :=
  match Text.Utf8.decode? bytes with
  | some text => .ok (Text.split ';' text)
  | none => .error (.malformedRecord "record is not UTF-8")

/-- A value that may be absent. -/
def writeOptional (value : Option String) : String := value.getD null

/-- A value that may be absent, read by the given reader if it is there. -/
def readOptional {α : Type} (read : String → Except Error α) (field : String) :
    Except Error (Option α) :=
  if field = null then .ok none else some <$> read field

/-- Text, in base64. -/
def writeText (s : String) : String := Text.Base64.encode (Text.Utf8.encode s)

/-- Bytes that base64 writes. -/
def readBytes (field : String) : Except Error (List UInt8) :=
  match Text.Base64.decode? field with
  | some bytes => .ok bytes
  | none => .error (.malformedRecord ("bad base64 field " ++ Text.quote field))

/-- Text that base64 writes. -/
def readText (field : String) : Except Error String := do
  match Text.Utf8.decode? (← readBytes field) with
  | some text => return text
  | none => .error (.malformedRecord "field is not UTF-8")

/-- A number of 64 bits, or a default. -/
def readInt (default : Int) (field : String) : Int := (Text.Number.int64? field).getD default

/-- A number of 32 bits, or a default. -/
def readId (default : Int) (field : String) : Int := (Text.Number.int32? field).getD default

end Persisted
end StatusCache
