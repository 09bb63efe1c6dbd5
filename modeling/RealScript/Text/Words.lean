import RealScript.Text.Blank
import RealScript.Text.Bytes

/-! # Words of a stream

Words are found in a buffer that is filled from a stream of bytes. What the buffer took is gone from
the stream even if nobody asks for the words in it, so each word comes with the bytes that were
still in the stream when it was found. A word has to fit into the buffer.
-/

namespace RealScript.Text

def blankWidth (bytes : List UInt8) : Nat :=
  match decodeFirst bytes with
  | some (c, width) => if isBlank c then width else 0
  | none => 0

def dropBlanks : (skip : Nat) → List UInt8 → List UInt8
  | _, [] => []
  | skip + 1, _ :: rest => dropBlanks skip rest
  | 0, b :: rest =>
    match blankWidth (b :: rest) with
    | 0 => b :: rest
    | width + 1 => dropBlanks width rest

def splitAtBlank (word : List UInt8) : List UInt8 → Option (List UInt8 × List UInt8)
  | [] => none
  | b :: rest =>
    match blankWidth (b :: rest) with
    | 0 => splitAtBlank (b :: word) rest
    | width + 1 => some (word.reverse, rest.drop width)

structure Word where
  bytes : List UInt8
  rest : List UInt8
  deriving DecidableEq, Repr

structure Words where
  found : List Word
  rest : List UInt8
  tooLong : Bool := false
  deriving DecidableEq, Repr

structure WordBuffer where
  size : Nat := 0
  stop : Nat := 0
  held : List UInt8 := []
  deriving Repr

namespace WordBuffer

def firstSize : Nat := 4096

def largestSize : Nat := 65536

def start (b : WordBuffer) : Nat := b.stop - b.held.length

def shift (b : WordBuffer) : WordBuffer :=
  if b.stop = b.size || b.size / 2 < b.start then { b with stop := b.held.length } else b

def grow? (b : WordBuffer) : Option WordBuffer :=
  if b.stop < b.size then some b
  else if largestSize ≤ b.size then none
  else some { b with size := max firstSize (min (2 * b.size) largestSize), stop := b.held.length }

def fill (b : WordBuffer) (stream : List UInt8) : WordBuffer × List UInt8 :=
  let taken := stream.take (b.size - b.stop)
  ({ b with held := b.held ++ taken, stop := b.stop + taken.length },
    stream.drop (b.size - b.stop))

/-- Finds the words; `found` has the ones so far, last word first. Every round takes a word or fills
the buffer. -/
def words : (fuel : Nat) → WordBuffer → (found : List Word) → (stream : List UInt8) → Words
  | 0, _, found, stream => { found := found.reverse, rest := stream }
  | fuel + 1, b, found, stream =>
    let held := dropBlanks 0 b.held
    match splitAtBlank [] held with
    | some (word, after) => words fuel { b with held := after } (⟨word, stream⟩ :: found) stream
    | none =>
      match (shift { b with held := held }).grow? with
      | none => { found := found.reverse, rest := stream, tooLong := true }
      | some b =>
        if stream.isEmpty then
          { found := (if held.isEmpty then found else ⟨held, []⟩ :: found).reverse, rest := [] }
        else
          let (b, stream) := b.fill stream
          words fuel b found stream

end WordBuffer

def words (stream : List UInt8) : Words := WordBuffer.words (2 * stream.length + 2) {} [] stream

end RealScript.Text
