import SigScript.Bytes

/-!
# Reading tagged values

A value is a tag octet, a length and as many octets of contents.  Lengths have one form only: one
octet below 128, and otherwise the number of length octets, at most four, followed by the length
without leading zeros.  A reader that fails keeps what it has read so far: the octet of a wrong tag
is consumed, and so is a whole value whose contents turn out to be wrong.
-/

namespace SigScript

/-- Why octets are not the encoding of a value. -/
inductive DecodeError where
  /-- The octets end inside a value. -/
  | unexpectedEnd
  /-- The value has another tag. -/
  | unexpectedTag (expected actual : UInt8)
  /-- The length is not in its only form, or the contents cannot be empty. -/
  | invalidLength
  /-- A number is beyond its limit: four octets for lengths, 64 bits for arcs. -/
  | lengthOverflow
  /-- An integer has a shorter form. -/
  | nonMinimalInteger
  /-- Octets follow a value that should be the last one. -/
  | trailingBytes (count : Nat)
  /-- The contents do not stand for a value of the type. -/
  | invalidValue
  deriving DecidableEq, Repr

/-- The text shown for a failure. -/
def DecodeError.message : DecodeError → String
  | .unexpectedEnd => "unexpected end of input"
  | .unexpectedTag expected actual =>
    "expected tag 0x" ++ Bytes.toHex [expected] ++ ", found 0x" ++ Bytes.toHex [actual]
  | .invalidLength => "invalid length encoding"
  | .lengthOverflow => "length does not fit in four octets"
  | .nonMinimalInteger => "integer is not minimally encoded"
  | .trailingBytes count => Numeral.decimal count ++ " trailing bytes after value"
  | .invalidValue => "invalid value"

namespace Der

/-- A computation that consumes octets from the front of its input. -/
abbrev Reader := EStateM DecodeError Bytes

/-- The next `n` octets.  Nothing is consumed when there are fewer. -/
def take (n : Nat) : Reader Bytes := fun input =>
  if n ≤ input.length then .ok (input.take n) (input.drop n) else .error .unexpectedEnd input

/-- The next octet. -/
def octet : Reader UInt8 := fun input =>
  match input with
  | [] => .error .unexpectedEnd []
  | b :: rest => .ok b rest

/-- Refuses input that has not been read to its end. -/
def done : Reader Unit := fun input =>
  if input.isEmpty then .ok () input else .error (.trailingBytes input.length) input

/-- Reads a length. -/
def length : Reader Nat := do
  let first ← octet
  if first < 0x80 then return first.toNat
  else
    let count := first.toNat - 0x80
    if count = 0 then throw .invalidLength
    else if 4 < count then throw .lengthOverflow
    else
      let octets ← take count
      if octets.headD 0 = 0 ∨ Bytes.toNat octets < 0x80 then throw .invalidLength
      else return Bytes.toNat octets

/-- Reads a value with the given tag and returns its contents. -/
def contents (tag : UInt8) : Reader Bytes := do
  let actual ← octet
  if actual = tag then take (← length) else throw (.unexpectedTag tag actual)

/-- Reads a value that fills its input. -/
def complete {α : Type} (reader : Reader α) (input : Bytes) : Except DecodeError α :=
  match (do let v ← reader; done; return v : Reader α) input with
  | .ok v _ => .ok v
  | .error e _ => .error e

/-- The octets of a length. -/
def lengthOctets (n : Nat) : Bytes :=
  if n < 0x80 then [UInt8.ofNat n]
  else UInt8.ofNat (0x80 + Bytes.byteLength n) :: Bytes.ofNat n

end Der

end SigScript
