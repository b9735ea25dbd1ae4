import Mathlib
import SigScript.Ecdsa.Signature
import SigScript.Proofs.Der.Codec
import SigScript.PublicKeyInfo

/-!
# Writing to any sink

Octets go to a sink in pieces, and what becomes of them is up to the sink: it can count, collect or
hash them.  Here the encoders are computations over all sinks.  An encoder first counts the octets of
the contents, and then writes the tag, the length and the contents.  It feeds the encoding of its
value to every sink, and the pieces do not depend on the sink (`Writer.Emits`, `Emits.tagged`).
-/

namespace SigScript.Der

/-- A computation that feeds octets to a sink, whatever the sink makes of them. -/
abbrev Writer := (σ : Type) → (write : σ → Bytes → σ) → σ → σ

namespace Writer

/-- Writes pieces one after the other. -/
def pieces (ps : List Bytes) : Writer := fun _ write sink => ps.foldl write sink

/-- Writes with two writers in turn. -/
def andThen (first second : Writer) : Writer := fun σ write sink =>
  second σ write (first σ write sink)

/-- The number of octets that are written. -/
def count (w : Writer) : Nat := w Nat (fun n piece => n + piece.length) 0

/-- The octets that are written, one behind the other. -/
def collect (w : Writer) : Bytes := w Bytes (fun buffer piece => buffer ++ piece) []

/-! ### Encoders -/

/-- Writes a length.  A long length goes to the sink behind the octet that counts its octets. -/
def length (n : Nat) : Writer :=
  if n < 0x80 then pieces [[UInt8.ofNat n]]
  else pieces [[UInt8.ofNat (0x80 + Bytes.byteLength n)], Bytes.ofNat n]

/-- Writes a tag and the length of contents, which are measured beforehand, and then the contents. -/
def tagged (tag : UInt8) (contents : Writer) : Writer :=
  ((pieces [[tag]]).andThen (length contents.count)).andThen contents

/-- Writes a value that has no values inside. -/
def primitive {α : Type} (c : Codec α) (v : α) : Writer := tagged c.tag (pieces (c.contents v))

/-- Writes two values as a sequence. -/
def sequence (first second : Writer) : Writer := tagged sequenceTag (first.andThen second)

/-- Writes a signature. -/
def signature (sig : Signature) : Writer := sequence (primitive integer sig.r) (primitive integer sig.s)

/-- Writes a public key record. -/
def publicKey (key : PublicKeyInfo) : Writer :=
  sequence
    (sequence (primitive ObjectIdentifier.codec key.algorithm)
      (primitive ObjectIdentifier.codec key.curve))
    (primitive bitString key.point)

/-! ### What is written -/

/-- Every sink is fed the same pieces, and they make up the octets. -/
def Emits (w : Writer) (octets : Bytes) : Prop :=
  ∃ ps : List Bytes, ps.flatten = octets ∧ ∀ σ write sink, w σ write sink = ps.foldl write sink

variable {w w' : Writer} {octets octets' : Bytes}

theorem emits_pieces (ps : List Bytes) : (pieces ps).Emits ps.flatten := ⟨ps, rfl, fun _ _ _ => rfl⟩

theorem Emits.andThen (h : w.Emits octets) (h' : w'.Emits octets') :
    (w.andThen w').Emits (octets ++ octets') := by
  obtain ⟨ps, rfl, hw⟩ := h
  obtain ⟨ps', rfl, hw'⟩ := h'
  refine ⟨ps ++ ps', List.flatten_append, fun σ write sink => ?_⟩
  rw [Writer.andThen, hw, hw', List.foldl_append]

theorem Emits.count_eq (h : w.Emits octets) : w.count = octets.length := by
  obtain ⟨ps, rfl, hw⟩ := h
  rw [count, hw, List.length_flatten, List.sum_eq_foldl, List.foldl_map]

theorem Emits.collect_eq (h : w.Emits octets) : w.collect = octets := by
  obtain ⟨ps, rfl, hw⟩ := h
  have hfold := @List.foldl_append_eq_append _ _ ps id []
  rw [List.map_id, List.nil_append] at hfold
  rw [collect, hw]
  exact hfold

theorem emits_length (n : Nat) : (length n).Emits (lengthOctets n) := by
  unfold length lengthOctets
  split
  · exact ⟨_, rfl, fun _ _ _ => rfl⟩
  · refine ⟨_, ?_, fun _ _ _ => rfl⟩
    simp

theorem Emits.tagged (h : w.Emits octets) (tag : UInt8) :
    (tagged tag w).Emits (tag :: (lengthOctets octets.length ++ octets)) := by
  have hall := ((emits_pieces [[tag]]).andThen (emits_length w.count)).andThen h
  rw [List.flatten_singleton, List.append_assoc, List.singleton_append] at hall
  rw [← h.count_eq]
  exact hall

variable {α β : Type} {c : Codec α} {d : Codec β}

theorem emits_primitive (c : Codec α) (v : α) : (primitive c v).Emits (c.encode v) := by
  have h := (emits_pieces (c.contents v)).tagged c.tag
  rwa [← Codec.size_eq, ← Codec.encode_eq] at h

theorem Emits.sequence {v : α} {u : β} (h : w.Emits (c.encode v)) (h' : w'.Emits (d.encode u)) :
    (sequence w w').Emits ((Der.pair c d).encode (v, u)) := by
  have hall := (h.andThen h').tagged sequenceTag
  rw [← Codec.flatten_contents_pair, ← Codec.size_eq] at hall
  rw [Codec.encode_eq]
  exact hall

theorem emits_signature (sig : Signature) :
    (signature sig).Emits (Signature.codec.encode sig) :=
  (emits_primitive integer sig.r).sequence (emits_primitive integer sig.s)

theorem emits_publicKey (key : PublicKeyInfo) :
    (publicKey key).Emits (PublicKeyInfo.codec.encode key) :=
  ((emits_primitive ObjectIdentifier.codec key.algorithm).sequence
    (emits_primitive ObjectIdentifier.codec key.curve)).sequence
    (emits_primitive bitString key.point)

end Writer

end SigScript.Der
