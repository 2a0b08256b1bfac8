import Asm6510.Text.Trim

/-!
# UTF-8

* `step`: the first character of a byte sequence, or the longest part that no character starts with.
* `decode?`: the text of a byte sequence, or its first fault.
* `decodeLossy`: the text with one U+FFFD for every faulty part.
* `normalizeNewlines`: every line end as a line feed.
-/

namespace Asm6510.Text

/-- Why bytes are no character. -/
inductive Utf8Cause
  | startByte
  | continuationByte
  | endOfData
deriving DecidableEq, Repr

/-- A faulty part: the offset of its first byte, its bytes, and the cause. -/
structure Utf8Fault where
  offset : Nat
  bytes : List UInt8
  cause : Utf8Cause
deriving DecidableEq, Repr

/-- The words for a cause. -/
def Utf8Cause.message : Utf8Cause → String
  | .startByte => "invalid start byte"
  | .continuationByte => "invalid continuation byte"
  | .endOfData => "unexpected end of data"

/-- One byte is named by its value, several by their offsets. -/
def Utf8Fault.message (f : Utf8Fault) : String :=
  let place := match f.bytes with
    | [b] => "byte 0x" ++ hex 2 b.toNat ++ " in position " ++ decimal f.offset
    | bs => "bytes in position " ++ decimal f.offset ++ "-" ++ decimal (f.offset + bs.length - 1)
  "'utf-8' codec can't decode " ++ place ++ ": " ++ f.cause.message

/-- What starts at the head of a byte sequence: a character with its size, or a fault with the
number of bytes it covers. -/
inductive Utf8Step
  | char (c : Char) (size : Nat)
  | fault (cause : Utf8Cause) (size : Nat)
deriving DecidableEq, Repr

/-- The continuation bytes that a first byte asks for, the range of the first of them, and the
bits that the first byte gives. -/
def leadByte? (b : UInt8) : Option (Nat × Nat × Nat × Nat) :=
  let n := b.toNat
  if 0xc2 ≤ n ∧ n ≤ 0xdf then some (1, 0x80, 0xbf, n - 0xc0)
  else if n = 0xe0 then some (2, 0xa0, 0xbf, 0)
  else if n = 0xed then some (2, 0x80, 0x9f, 0xd)
  else if 0xe1 ≤ n ∧ n ≤ 0xef then some (2, 0x80, 0xbf, n - 0xe0)
  else if n = 0xf0 then some (3, 0x90, 0xbf, 0)
  else if n = 0xf4 then some (3, 0x80, 0x8f, 4)
  else if 0xf1 ≤ n ∧ n ≤ 0xf3 then some (3, 0x80, 0xbf, n - 0xf0)
  else none

/-- Reads `owed` continuation bytes, the next one between `low` and `high`; `size` bytes of the
character were read before and gave `bits`. -/
def continuation (size bits : Nat) : (owed low high : Nat) → List UInt8 → Utf8Step
  | 0, _, _, _ => .char (Char.ofNat bits) size
  | _ + 1, _, _, [] => .fault .endOfData size
  | owed + 1, low, high, b :: rest =>
    if low ≤ b.toNat ∧ b.toNat ≤ high then
      continuation (size + 1) (bits * 64 + b.toNat % 64) owed 0x80 0xbf rest
    else
      .fault .continuationByte size

/-- What starts with the byte `b`. -/
def utf8Step (b : UInt8) (rest : List UInt8) : Utf8Step :=
  if b.toNat < 0x80 then
    .char (Char.ofNat b.toNat) 1
  else
    match leadByte? b with
    | some (owed, low, high, bits) => continuation 1 bits owed low high rest
    | none => .fault .startByte 1

/-- The bytes covered by a step. -/
def Utf8Step.size : Utf8Step → Nat
  | .char _ n => n
  | .fault _ n => n

/-- The steps of a byte sequence with their offsets and bytes. -/
def utf8Steps (offset : Nat) : List UInt8 → List (Nat × List UInt8 × Utf8Step)
  | [] => []
  | b :: rest =>
    let s := utf8Step b rest
    let more := s.size - 1
    (offset, b :: rest.take more, s) :: utf8Steps (offset + 1 + more) (rest.drop more)
termination_by bs => bs.length
decreasing_by simp only [List.length_cons, List.length_drop]; omega

/-- The text of a byte sequence, or its first fault. -/
def decode? (bytes : List UInt8) : Except Utf8Fault String :=
  let chars := (utf8Steps 0 bytes).mapM fun (offset, bs, s) =>
    match s with
    | .char c _ => Except.ok c
    | .fault cause _ => Except.error (Utf8Fault.mk offset bs cause)
  chars.map String.ofList

/-- The text of a byte sequence with one U+FFFD for every faulty part. -/
def decodeLossy (bytes : List UInt8) : String :=
  String.ofList <| (utf8Steps 0 bytes).map fun (_, _, s) =>
    match s with
    | .char c _ => c
    | .fault _ _ => Char.ofNat 0xfffd

/-- Carriage return and line feed, or a carriage return alone, become a line feed. -/
def normalizeNewlineChars : List Char → List Char
  | [] => []
  | '\r' :: '\n' :: rest => '\n' :: normalizeNewlineChars rest
  | c :: rest => (if c = '\r' then '\n' else c) :: normalizeNewlineChars rest

/-- The text with every line end as a line feed. -/
def normalizeNewlines (s : String) : String :=
  String.ofList (normalizeNewlineChars s.toList)

/-- The bytes of a text. -/
def encodeUtf8 (s : String) : List UInt8 :=
  s.toUTF8.toList

end Asm6510.Text
