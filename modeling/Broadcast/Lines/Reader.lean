import Broadcast.Lines

/-!
# Lines of a byte stream

A byte stream arrives in chunks. A line goes up to the next line feed, across as many chunks as it
takes, or up to the end of the stream. The stream ends when its chunks are used up, and for the
moment at an empty chunk. A line whose bytes are not UTF-8 is an error and is not read again. A
failure of the stream is an error too, and what had been read of the line by then is lost.
-/

namespace Broadcast

/-- One attempt to get more bytes. -/
inductive Chunk where
  /-- Some bytes; none are a momentary end. -/
  | bytes (bytes : List UInt8)
  /-- A failure for the given reason. -/
  | failure (reason : String)
  /-- An attempt that is made again without notice. -/
  | interrupted
  deriving DecidableEq, Repr

/-- A byte stream in the course of being read. -/
structure Reader where
  /-- The bytes that have arrived and are not part of a line yet. -/
  pending : List UInt8
  /-- What later attempts will bring. -/
  chunks : List Chunk
  /-- The number of bytes that have been taken. -/
  consumed : Nat := 0
  deriving DecidableEq, Repr

namespace Reader

/-- A stream whose bytes have all arrived. -/
def ofBytes (bytes : List UInt8) : Reader :=
  ⟨bytes, [], 0⟩

/-- A stream of which no bytes have arrived. -/
def ofChunks (chunks : List Chunk) : Reader :=
  ⟨[], chunks, 0⟩

def lineFeed : UInt8 := 0x0a

/--
The bytes up to the next line feed or end, after those in `line`, or the reason why the stream
failed.
-/
def takeLine (line pending : List UInt8) (consumed : Nat) :
    List Chunk → Except String (List UInt8) × Reader
  | [] =>
    let (taken, rest) := splitAfter (· = lineFeed) pending
    (.ok (line ++ taken), ⟨rest, [], consumed + taken.length⟩)
  | chunk :: chunks =>
    let (taken, rest) := splitAfter (· = lineFeed) pending
    let line := line ++ taken
    let consumed := consumed + taken.length
    if taken.getLast? = some lineFeed then (.ok line, ⟨rest, chunk :: chunks, consumed⟩)
    else
      match chunk with
      | .interrupted => takeLine line [] consumed chunks
      | .failure reason => (.error reason, ⟨[], chunks, consumed⟩)
      | .bytes [] => (.ok line, ⟨[], chunks, consumed⟩)
      | .bytes bytes => takeLine line bytes consumed chunks

/-- The answer for the bytes of a line. -/
def answer : Except String (List UInt8) → Answer
  | .error reason => .error (.io reason)
  | .ok [] => .ok none
  | .ok bytes =>
    match String.fromUTF8? ⟨bytes.toArray⟩ with
    | some line => .ok (some line)
    | none => .error (.io "stream did not contain valid UTF-8")

def lines : LineSource Reader where
  next r :=
    let (taken, r) := takeLine [] r.pending r.consumed r.chunks
    (answer taken, r)

end Reader

end Broadcast
