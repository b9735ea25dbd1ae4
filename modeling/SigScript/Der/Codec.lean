import SigScript.Der.Reader

/-!
# Types with an encoding

A codec says how the values of a type are written as the contents of a tagged value, and how
contents are read back.  Values are written in pieces, so that a consumer of octets can take them one
after the other; the encoding is the pieces joined.
-/

namespace SigScript.Der

/-- How values of a type are written and read. -/
structure Codec (α : Type) where
  /-- The tag of the encoding. -/
  tag : UInt8
  /-- The contents of a value, in pieces. -/
  contents : α → List Bytes
  /-- The value that contents stand for. -/
  ofContents : Bytes → Except DecodeError α

namespace Codec

variable {α : Type}

/-- The number of octets of some pieces. -/
def size : (pieces : List Bytes) → Nat
  | [] => 0
  | piece :: rest => piece.length + size rest

theorem size_eq (pieces : List Bytes) : size pieces = pieces.flatten.length := by
  induction pieces with
  | nil => rfl
  | cons piece rest ih => simp [size, ih]

/-- The encoding of a value in pieces: its tag, the length of its contents, and the contents. -/
def pieces (c : Codec α) (v : α) : List Bytes :=
  [c.tag] :: lengthOctets (size (c.contents v)) :: c.contents v

/-- The encoding of a value. -/
def encode (c : Codec α) (v : α) : Bytes := (c.pieces v).flatten

/-- Reads a value. -/
def read (c : Codec α) : Reader α := do
  match c.ofContents (← Der.contents c.tag) with
  | .ok v => return v
  | .error e => throw e

/-- The value that octets encode, without anything after it. -/
def decode (c : Codec α) (input : Bytes) : Except DecodeError α := complete c.read input

end Codec

/-! ### Integers -/

/-- The integer that contents stand for.  Nine leading bits that are all equal could be fewer. -/
def readInteger : Bytes → Except DecodeError Int
  | [] => .error .invalidLength
  | first :: second :: rest =>
    if (first = 0x00 ∧ second < 0x80) ∨ (first = 0xff ∧ 0x80 ≤ second) then
      .error .nonMinimalInteger
    else .ok (Bytes.toInt (first :: second :: rest))
  | [first] => .ok (Bytes.toInt [first])

/-- Integers, in the shortest two's complement form. -/
def integer : Codec Int where
  tag := 0x02
  contents z := [Bytes.ofInt z]
  ofContents := readInteger

/-- Natural numbers, written as integers. -/
def natural : Codec Nat where
  tag := integer.tag
  contents n := integer.contents n
  ofContents octets := do
    let z ← integer.ofContents octets
    if z < 0 then throw .invalidValue else return z.toNat

/-! ### Bit strings -/

/-- Bit strings of whole bytes.  The first octet of the contents counts the unused bits. -/
def bitString : Codec Bytes where
  tag := 0x03
  contents octets := [[0], octets]
  ofContents
    | [] => .error .invalidLength
    | unused :: octets => if unused = 0 then .ok octets else .error .invalidValue

/-! ### Sequences -/

/-- The tag of a sequence. -/
def sequenceTag : UInt8 := 0x30

/-- Sequences of two values. -/
def pair {α β : Type} (first : Codec α) (second : Codec β) : Codec (α × β) where
  tag := sequenceTag
  contents v := first.pieces v.1 ++ second.pieces v.2
  ofContents := complete do
    let v ← first.read
    let w ← second.read
    return (v, w)

/-- The same encoding for the values of another type. -/
def Codec.map {α β : Type} (c : Codec α) (f : α → β) (g : β → α) : Codec β where
  tag := c.tag
  contents v := c.contents (g v)
  ofContents octets := (c.ofContents octets).map f

end SigScript.Der
