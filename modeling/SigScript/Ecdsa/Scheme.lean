import SigScript.Curve.Point
import SigScript.Digest.Algorithm
import SigScript.Ecdsa.Signature

/-!
# Signing and verifying

The signature scheme ECDSA over a domain and a hash function.  The ephemeral scalars that signing
draws are an argument: `sign` tries them in turn and gives no signature when none of them works.
-/

namespace SigScript

/-- A private scalar with its public point. -/
structure KeyPair where
  secret : Nat
  publicKey : CurvePoint
  deriving DecidableEq, Repr

/-- The key pair of a private scalar in `[1, n-1]`. -/
def KeyPair.ofSecret (d : Domain) (secret : Nat) : Except CryptoError KeyPair :=
  if secret = 0 ∨ d.order ≤ secret then .error .invalidPrivateKey
  else (d.basePoint.mulNat secret).map (KeyPair.mk secret)

/-- The signature scheme of a domain and a hash function. -/
structure Ecdsa where
  domain : Domain
  hash : HashAlgorithm
  deriving DecidableEq, Repr

namespace Ecdsa

/-- The leftmost bits of a digest, as many as the order has, as a number. -/
def leftmostBits (order : Nat) (digest : Bytes) : Nat :=
  Bytes.toNat digest >>> (8 * digest.length - Binary.bitLength order)

/-- The number that stands for a message: the leftmost bits of its digest. -/
def messageScalar (scheme : Ecdsa) (message : Bytes) : Except CryptoError Nat :=
  (scheme.hash.digest message).map (leftmostBits scheme.domain.order)

/-- The signature of the message scalar `e` with an ephemeral scalar `k`.  There is none when one of
its components would be 0. -/
def signWith? (scheme : Ecdsa) (secret e k : Nat) : Except CryptoError (Option Signature) := do
  let n := scheme.domain.order
  let ephemeral ← KeyPair.ofSecret scheme.domain k
  match ephemeral.publicKey.coordinates.x? with
  | none => return none
  | some x =>
    let r := x % n
    if r = 0 then return none
    else
      let inverse ← Residue.inverse k n
      let s := inverse * (e + r * secret) % n
      if s = 0 then return none else return some ⟨r, s⟩

/-- Signs a message with the first ephemeral scalar that works. -/
def sign (scheme : Ecdsa) (key : KeyPair) (message : Bytes) (ephemerals : List Nat) :
    Except CryptoError (Option Signature) := do
  CurvePoint.checkDomain scheme.domain key.publicKey
  let e ← scheme.messageScalar message
  ephemerals.findSomeM? (scheme.signWith? key.secret e)

/-- Whether a component of a signature is in `[1, n-1]`. -/
def InRange (scheme : Ecdsa) (v : Int) : Prop := 0 < v ∧ v < scheme.domain.order

instance (scheme : Ecdsa) (v : Int) : Decidable (scheme.InRange v) :=
  inferInstanceAs (Decidable (_ ∧ _))

/-- The point whose abscissa a signature has to match. -/
def verificationPoint (scheme : Ecdsa) (publicKey : CurvePoint) (e r s : Nat) :
    Except CryptoError CurvePoint := do
  let n := scheme.domain.order
  let inverse ← Residue.inverse s n
  let first ← scheme.domain.basePoint.mulNat (e * inverse % n)
  let second ← publicKey.mulNat (r * inverse % n)
  first.add second

/-- Whether a signature of a message is valid for a public key.  Components out of range and public
keys that are infinity or off the curve make it invalid. -/
def verify (scheme : Ecdsa) (publicKey : CurvePoint) (message : Bytes) (sig : Signature) :
    Except CryptoError Bool := do
  CurvePoint.checkDomain scheme.domain publicKey
  if ¬(scheme.InRange sig.r ∧ scheme.InRange sig.s) then return false
  else if publicKey.coordinates = .infinity ∨ ¬publicKey.OnCurve then return false
  else
    let e ← scheme.messageScalar message
    let point ← scheme.verificationPoint publicKey e sig.r.toNat sig.s.toNat
    match point.coordinates.x? with
    | none => return false
    | some x => return x % scheme.domain.order = sig.r.toNat

end Ecdsa

end SigScript
