/-!
# The UTF-8 form of a text

Files and input streams hold bytes; templates are texts. Reading bytes as text fails at the
first byte sequence that is not well-formed, and says where that sequence starts and how long
its longest well-formed beginning is.

## Main definitions

* `Text.encode`: the bytes of a text
* `Text.decode`: the text of some bytes
* `Text.Malformed`: why bytes are not the form of a text
* `Text.readLimited`: the text of at most a given number of bytes
-/

namespace RazorLayout.Text

/-- The first place where bytes are not the UTF-8 form of a text. -/
structure Malformed where
  /-- Number of bytes before the bad sequence. -/
  index : Nat
  /-- Number of bytes that have to be given up, or `none` when the input ends inside a sequence
  that is well-formed so far. -/
  length : Option Nat
  deriving Repr, DecidableEq

/-- The wording of a decoding failure. -/
def Malformed.message (m : Malformed) : String :=
  match m.length with
  | some n => s!"invalid utf-8 sequence of {n} bytes from index {m.index}"
  | none => s!"incomplete utf-8 byte sequence from index {m.index}"

/-- A byte of the form `10xxxxxx`. -/
def isContinuation (b : UInt8) : Bool := 0x80 ≤ b && b ≤ 0xBF

/-- The bytes that may follow `lead` as the second byte of a sequence of three or four bytes:
neither overlong forms nor surrogates nor code points behind the last one. -/
def secondRange (lead : UInt8) : UInt8 × UInt8 :=
  if lead = 0xE0 then (0xA0, 0xBF)
  else if lead = 0xED then (0x80, 0x9F)
  else if lead = 0xF0 then (0x90, 0xBF)
  else if lead = 0xF4 then (0x80, 0x8F)
  else (0x80, 0xBF)

/-- The number of bytes of the sequence that `lead` begins, or `none` when no sequence begins
with it. -/
def sequenceLength? (lead : UInt8) : Option Nat :=
  if lead < 0x80 then some 1
  else if 0xC2 ≤ lead && lead ≤ 0xDF then some 2
  else if 0xE0 ≤ lead && lead ≤ 0xEF then some 3
  else if 0xF0 ≤ lead && lead ≤ 0xF4 then some 4
  else none

/-- Whether `b` may stand at place `place` (the second byte has place 1) of the sequence that
`lead` begins. -/
def mayFollow (lead : UInt8) (place : Nat) (b : UInt8) : Bool :=
  if place = 1 then
    let (low, high) := secondRange lead
    low ≤ b && b ≤ high
  else isContinuation b

/-- The code point bits that a lead byte of a sequence of `length` bytes carries. -/
def leadBits (length : Nat) (lead : UInt8) : Nat :=
  match length with
  | 1 => lead.toNat
  | 2 => lead.toNat % 0x20
  | 3 => lead.toNat % 0x10
  | _ => lead.toNat % 0x08

/-- The code point of the sequence that `lead` begins, once `left` more bytes are read; the
failure is the number of bytes to give up, or `none` at the end of the input. -/
def sequenceTail (lead : UInt8) (place : Nat) :
    (left : Nat) → (code : Nat) → List UInt8 → Except (Option Nat) Nat
  | 0, code, _ => .ok code
  | _ + 1, _, [] => .error none
  | left + 1, code, b :: bs =>
    if mayFollow lead place b then
      sequenceTail lead (place + 1) left (code * 0x40 + b.toNat % 0x40) bs
    else .error (some place)

/-- Reads the rest of the bytes, `skip` of which belong to a character already read. -/
def decodeFrom (acc : List Char) : (skip : Nat) → (index : Nat) → List UInt8 →
    Except Malformed (List Char)
  | _, _, [] => .ok acc.reverse
  | skip + 1, index, _ :: bs => decodeFrom acc skip (index + 1) bs
  | 0, index, b :: bs =>
    match sequenceLength? b with
    | none => .error ⟨index, some 1⟩
    | some length =>
      match sequenceTail b 1 (length - 1) (leadBits length b) bs with
      | .error given => .error ⟨index, given⟩
      | .ok code => decodeFrom (Char.ofNat code :: acc) (length - 1) (index + 1) bs

/-- The text whose UTF-8 form the bytes are. -/
def decode (bytes : List UInt8) : Except Malformed (List Char) := decodeFrom [] 0 0 bytes

/-- The UTF-8 form of a text. -/
def encode (s : List Char) : List UInt8 := s.flatMap String.utf8EncodeChar

/-- Why a bounded input cannot be read as text. -/
inductive ReadError where
  | tooLong (limit : Nat)
  | malformed (cause : Malformed)
  deriving Repr, DecidableEq

/-- The wording of a bounded reading failure. -/
def ReadError.message : ReadError → String
  | .tooLong limit => s!"input exceeds limit of {limit} bytes"
  | .malformed cause => cause.message

/-- The text of an input of at most `limit` bytes. The length is checked before the bytes are
decoded. -/
def readLimited (limit : Nat) (bytes : List UInt8) : Except ReadError (List Char) :=
  if bytes.length > limit then .error (.tooLong limit)
  else (decode bytes).mapError .malformed

end RazorLayout.Text
