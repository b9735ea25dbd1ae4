import SigScript.Curve.Domain
import SigScript.Der.ObjectIdentifier

/-!
# Named curves

A registry maps object identifiers to curve domains.  Entries keep the order in which their
identifiers were first added.
-/

namespace SigScript

/-- The domains that public keys may name. -/
structure Registry where
  entries : List (ObjectIdentifier × Domain)
  deriving DecidableEq, Repr

namespace Registry

/-- The registry without entries. -/
def empty : Registry := ⟨[]⟩

/-- The domain of an identifier. -/
def get? (registry : Registry) (oid : ObjectIdentifier) : Option Domain :=
  registry.entries.lookup oid

/-- Adds an entry, or replaces the domain of one. -/
def insert (registry : Registry) (oid : ObjectIdentifier) (d : Domain) : Registry :=
  ⟨go registry.entries⟩
where
  /-- Replaces the entry of `oid`, or adds one at the end. -/
  go : List (ObjectIdentifier × Domain) → List (ObjectIdentifier × Domain)
    | [] => [(oid, d)]
    | (oid', d') :: rest => if oid' = oid then (oid, d) :: rest else (oid', d') :: go rest

/-- The first identifier of a domain. -/
def oidOf? (registry : Registry) (d : Domain) : Option ObjectIdentifier :=
  (registry.entries.find? fun entry => entry.2 = d).map (·.1)

/-- The number of entries. -/
def size (registry : Registry) : Nat := registry.entries.length

/-- The registry of the two curves that have a name of their own. -/
def standard : Registry :=
  (empty.insert .secp256r1 .secp256r1).insert .secp256k1 .secp256k1

/-! ### Look-up after insertion -/

theorem get?_insert_of_ne (registry : Registry) {oid oid' : ObjectIdentifier} (d : Domain)
    (hne : oid' ≠ oid) : (registry.insert oid d).get? oid' = registry.get? oid' := by
  obtain ⟨entries⟩ := registry
  simp only [get?, insert]
  induction entries with
  | nil => simp [insert.go, hne]
  | cons entry rest ih =>
    rw [insert.go]
    split
    · rename_i h
      have h₁ : (oid' == oid) = false := by simpa using hne
      have h₂ : (oid' == entry.1) = false := by simpa [h] using hne
      rw [List.lookup_cons, List.lookup_cons, h₁, h₂]
    · rw [List.lookup_cons, List.lookup_cons, ih]

end Registry

end SigScript
