import SigScript.Der.Codec

/-!
# Object identifiers

An object identifier is a path of arcs of at most 64 bits.  The first two arcs share one number of
the encoding, which is why the first is at most 2 and the second has a limit.
-/

namespace SigScript

/-- An object identifier. -/
structure ObjectIdentifier where
  arcs : List UInt64
  deriving DecidableEq, Repr

namespace ObjectIdentifier

/-- Whether arcs form an object identifier: there are at least two, the second is below 40 under the
first arcs 0 and 1, and small enough for the shared number under the first arc 2. -/
def WellFormed : List UInt64 → Prop
  | first :: second :: _ =>
    (first < 2 ∧ second < 40) ∨ (first = 2 ∧ second ≤ 0xFFFFFFFFFFFFFFFF - 80)
  | _ => False

instance : (arcs : List UInt64) → Decidable (WellFormed arcs)
  | _ :: _ :: _ => inferInstanceAs (Decidable (_ ∨ _))
  | [] => inferInstanceAs (Decidable False)
  | [_] => inferInstanceAs (Decidable False)

/-- The object identifier with the given arcs. -/
def ofArcs (arcs : List UInt64) : Except DecodeError ObjectIdentifier :=
  if WellFormed arcs then .ok ⟨arcs⟩ else .error .invalidValue

/-- Dotted decimal text. -/
def text (oid : ObjectIdentifier) : String :=
  ".".intercalate (oid.arcs.map fun arc => Numeral.decimal arc.toNat)

/-! ### Encoding -/

/-- The seven-bit groups of `n` in front of `rest`; every group but the last of the number has its
top bit set. -/
def groupsOnto (n : Nat) (rest : Bytes) : Bytes :=
  if _ : n = 0 then rest else groupsOnto (n / 128) (UInt8.ofNat (0x80 + n % 128) :: rest)
termination_by n

/-- A number in base 128, most significant group first. -/
def base128 (n : Nat) : Bytes := groupsOnto (n / 128) [UInt8.ofNat (n % 128)]

/-- The number that the first two arcs share. -/
def joinArcs (first second : UInt64) : UInt64 := first * 40 + second

/-- The two arcs that share a number. -/
def splitArcs (n : UInt64) : UInt64 × UInt64 :=
  if n < 40 then (0, n) else if n < 80 then (1, n - 40) else (2, n - 80)

/-- Reads numbers in base 128, with `current` as the number of the groups read so far.  A number does
not start with an empty group and has at most 64 bits. -/
def readNumbers (current : Nat) : Bytes → Except DecodeError (List UInt64)
  | [] => .ok []
  | octet :: rest =>
    if current = 0 ∧ octet = 0x80 then .error .invalidValue
    else if 0x200000000000000 ≤ current then .error .lengthOverflow
    else
      let n := 128 * current + octet.toNat % 128
      if octet < 0x80 then (readNumbers 0 rest).map (UInt64.ofNat n :: ·)
      else readNumbers n rest

/-- The object identifier that contents stand for.  Contents that end inside a number are refused
before anything else. -/
def ofContents (octets : Bytes) : Except DecodeError ObjectIdentifier :=
  if octets.getLastD 0x80 < 0x80 then do
    match ← readNumbers 0 octets with
    | shared :: arcs =>
      let (first, second) := splitArcs shared
      return ⟨first :: second :: arcs⟩
    | [] => throw .invalidValue
  else .error .invalidValue

/-- Object identifiers, one piece a number. -/
def codec : Der.Codec ObjectIdentifier where
  tag := 0x06
  contents oid :=
    match oid.arcs with
    | first :: second :: arcs =>
      base128 (joinArcs first second).toNat :: arcs.map fun arc => base128 arc.toNat
    | _ => []
  ofContents := ofContents

/-! ### Well-known identifiers -/

/-- Public keys on elliptic curves. -/
def ecPublicKey : ObjectIdentifier := ⟨[1, 2, 840, 10045, 2, 1]⟩

/-- The curve `secp256r1`. -/
def secp256r1 : ObjectIdentifier := ⟨[1, 2, 840, 10045, 3, 1, 7]⟩

/-- The curve `secp256k1`. -/
def secp256k1 : ObjectIdentifier := ⟨[1, 3, 132, 0, 10]⟩

end ObjectIdentifier

end SigScript
