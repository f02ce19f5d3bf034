import Unscript.Bytes.Reader
import Unscript.Bytes.Writer
import Unscript.Text.Quoted

/-!
# The container of a compiled script

A compiled script starts with four magic bytes, the number of its bytecode format, and the tag of
the compiler that wrote it; all that follows is its payload.

* `Container.ofBytes` opens a container and `Container.toBytes?` writes one.
-/

namespace Unscript

open Text (quotedBytes)

/-- A compiled script. A script that was not read from a container may lack the format number. -/
structure Container where
  tag : List UInt8
  payload : List UInt8
  format : Option Int
  name : String
  deriving DecidableEq, Repr

namespace Container

/-- The name of a script that has none. -/
def anonymous : String := "<script>"

/-- The bytes at the front of every container. -/
def magic : List UInt8 := [0x47, 0x44, 0x53, 0x43]

/-- Reads the header: the format number and the tag. -/
def header : Reading (Nat × List UInt8) := do
  let found ← Reading.take 4 "magic"
  if found ≠ magic then Reading.failAt 0 (.badMagic (quotedBytes found))
  let format ← Reading.uint 4 "format version"
  let length ← Reading.uint 1 "tag length"
  let tag ← Reading.take length "version tag"
  return (format, tag)

/-- Opens a container. -/
def ofBytes (blob : List UInt8) (name : String := anonymous) : Except DecodeError Container :=
  match header.runFrom (Cursor.ofBytes blob) with
  | (.ok (format, tag), c) => .ok ⟨tag, c.rest, some format, name⟩
  | (.error e, _) => .error e

/-- Writes a container; a missing format number is written as zero. -/
def toBytes? (c : Container) : Except EncodeError (List UInt8) := do
  let format ← Bytes.ofUInt? (c.format.getD 0) 4
  let length ← Bytes.ofUInt? c.tag.length 1
  pure (magic ++ format ++ length ++ c.tag ++ c.payload)

/-- The tag as text. -/
def tagText (c : Container) : String :=
  Text.replacingAscii c.tag

/-- Whether a byte string starts like a container. -/
def looksLikeScript (blob : List UInt8) : Bool :=
  blob.take 4 == magic

end Container

end Unscript
