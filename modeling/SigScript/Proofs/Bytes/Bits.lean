import Mathlib
import SigScript.Bytes

/-!
# Byte strings as strings of bits

The bits of a byte string (`bits`), most significant first, and the byte string that bits fill, with
zeros up to a whole byte (`ofBits`, `bits_ofBits_eq`).  Bits that follow whole bytes fill the bytes
after them (`ofBits_bits_append`).
-/

namespace SigScript.Bytes

/-! ### One byte -/

/-- The bits of a byte, most significant first. -/
def octetBits (b : UInt8) : List Bool := List.ofFn fun i : Fin 8 => b.toBitVec.getMsbD i

/-- The byte that begins with the given bits; its other bits are 0. -/
def octetOfBits (l : List Bool) : UInt8 := ⟨BitVec.ofFnBE fun i => l.getD i false⟩

@[simp] theorem length_octetBits (b : UInt8) : (octetBits b).length = 8 := List.length_ofFn

theorem length_take_octetBits {n : Nat} (b : UInt8) (hn : n ≤ 8) :
    ((octetBits b).take n).length = n := by
  rw [List.length_take, length_octetBits, Nat.min_eq_left hn]

theorem getD_octetBits {i : Nat} (b : UInt8) (hi : i < 8) :
    (octetBits b).getD i false = b.toBitVec.getMsbD i := by
  rw [List.getD_eq_getElem _ _ (by simpa using hi)]
  exact List.getElem_ofFn _

theorem getMsbD_octetOfBits {i : Nat} (l : List Bool) (hi : i < 8) :
    (octetOfBits l).toBitVec.getMsbD i = l.getD i false := by
  rw [octetOfBits, BitVec.getMsbD_ofFnBE, dif_pos hi]

/-- Bytes with the same bits are equal. -/
theorem octet_ext {a b : UInt8} (h : ∀ i < 8, a.toBitVec.getMsbD i = b.toBitVec.getMsbD i) :
    a = b :=
  UInt8.toBitVec_inj.1 (BitVec.eq_of_getMsbD_eq h)

@[simp] theorem octetOfBits_octetBits (b : UInt8) : octetOfBits (octetBits b) = b := by
  apply octet_ext
  intro i hi
  rw [getMsbD_octetOfBits _ hi, getD_octetBits b hi]

theorem octetBits_octetOfBits {l : List Bool} (hl : l.length ≤ 8) :
    octetBits (octetOfBits l) = l ++ List.replicate (8 - l.length) false := by
  apply List.ext_getElem
  · simp
    omega
  · intro i hi _
    rw [length_octetBits] at hi
    rw [← List.getD_eq_getElem _ false, ← List.getD_eq_getElem _ false, getD_octetBits _ hi,
      getMsbD_octetOfBits _ hi]
    by_cases hlt : i < l.length
    · rw [List.getD_append _ _ _ _ hlt]
    · rw [List.getD_append_right _ _ _ _ (by omega), List.getD_eq_default _ _ (by omega),
        List.getD_replicate _ (by omega)]

/-! ### Byte strings -/

/-- The bits of a byte string, most significant first. -/
def bits (bs : Bytes) : List Bool := bs.flatMap octetBits

/-- The byte string that bits fill, eight to a byte; the last byte is filled up with zeros. -/
def ofBits : List Bool → Bytes
  | [] => []
  | bit :: l => octetOfBits (bit :: l.take 7) :: ofBits (l.drop 7)
termination_by l => l.length

@[simp] theorem bits_nil : bits [] = [] := rfl

@[simp] theorem bits_cons (b : UInt8) (bs : Bytes) : bits (b :: bs) = octetBits b ++ bits bs := rfl

@[simp] theorem bits_append (bs cs : Bytes) : bits (bs ++ cs) = bits bs ++ bits cs :=
  List.flatMap_append

@[simp] theorem length_bits (bs : Bytes) : (bits bs).length = 8 * bs.length := by
  induction bs with
  | nil => rfl
  | cons b bs ih =>
    rw [bits_cons, List.length_append, ih, length_octetBits, List.length_cons]
    omega

theorem bits_replicate_zero (n : Nat) :
    bits (List.replicate n 0) = List.replicate (8 * n) false := by
  induction n with
  | zero => rfl
  | succ n ih =>
    have hzero : octetBits 0 = List.replicate 8 false := by decide
    rw [List.replicate_succ, bits_cons, ih, hzero, List.replicate_append_replicate]
    congr 1
    omega

theorem take_bits (bs : Bytes) (n : Nat) : (bits bs).take (8 * n) = bits (bs.take n) := by
  induction bs generalizing n with
  | nil => simp
  | cons b bs ih =>
    cases n with
    | zero => rfl
    | succ n =>
      have hlen : 8 * (n + 1) = (octetBits b).length + 8 * n := by
        rw [length_octetBits]
        omega
      rw [bits_cons, hlen, List.take_length_add_append, ih, List.take_succ_cons, bits_cons]

theorem take_bits_length (bs : Bytes) : (bits bs).take (8 * bs.length) = bits bs := by
  rw [take_bits, List.take_length]

theorem drop_bits (bs : Bytes) (n : Nat) : (bits bs).drop (8 * n) = bits (bs.drop n) := by
  induction bs generalizing n with
  | nil => simp
  | cons b bs ih =>
    cases n with
    | zero => rfl
    | succ n =>
      have hlen : 8 * (n + 1) = (octetBits b).length + 8 * n := by
        rw [length_octetBits]
        omega
      rw [bits_cons, hlen, List.drop_length_add_append, ih, List.drop_succ_cons]

/-- Initial bits are whole bytes and initial bits of the byte after them. -/
theorem take_bits_eq {bs : Bytes} {n : Nat} (hn : n ≤ 8 * bs.length) :
    (bits bs).take n = bits (bs.take (n / 8)) ++ (octetBits (bs.getD (n / 8) 0)).take (n % 8) := by
  have hsplit : n = 8 * (n / 8) + n % 8 := by omega
  conv_lhs => rw [hsplit]
  rw [List.take_add, take_bits, drop_bits]
  congr 1
  by_cases hlt : n / 8 < bs.length
  · rw [List.drop_eq_getElem_cons hlt, bits_cons, List.getD_eq_getElem _ _ hlt,
      List.take_append_of_le_length (by rw [length_octetBits]; omega)]
  · have hzero : n % 8 = 0 := by omega
    rw [hzero, List.take_zero, List.take_zero]

/-! ### Bits that fill bytes -/

theorem ofBits_of_length_le {l : List Bool} (hne : l ≠ []) (hl : l.length ≤ 8) :
    ofBits l = [octetOfBits l] := by
  cases l with
  | nil => exact absurd rfl hne
  | cons bit l =>
    rw [List.length_cons] at hl
    rw [ofBits, List.take_of_length_le (by omega), List.drop_eq_nil_of_le (by omega), ofBits]

theorem ofBits_octetBits_append (b : UInt8) (l : List Bool) :
    ofBits (octetBits b ++ l) = b :: ofBits l := by
  have hlen := length_octetBits b
  have hb := octetOfBits_octetBits b
  cases hbits : octetBits b with
  | nil =>
    rw [hbits] at hlen
    cases hlen
  | cons bit rest =>
    rw [hbits, List.length_cons] at hlen
    rw [hbits] at hb
    rw [List.cons_append, ofBits, List.take_left' (by omega), List.drop_left' (by omega), hb]

/-- Whole bytes are filled by their bits, whatever follows. -/
theorem ofBits_bits_append (bs : Bytes) (l : List Bool) : ofBits (bits bs ++ l) = bs ++ ofBits l := by
  induction bs with
  | nil => rfl
  | cons b bs ih => rw [bits_cons, List.append_assoc, ofBits_octetBits_append, ih, List.cons_append]

@[simp] theorem ofBits_bits (bs : Bytes) : ofBits (bits bs) = bs := by
  have h := ofBits_bits_append bs []
  rw [List.append_nil, ofBits, List.append_nil] at h
  exact h

/-- The bits of a byte string that bits fill are these and zeros up to a whole byte. -/
theorem bits_ofBits_eq (l : List Bool) :
    bits (ofBits l) = l ++ List.replicate (8 * ((l.length + 7) / 8) - l.length) false := by
  fun_induction ofBits l with
  | case1 => rfl
  | case2 bit l ih =>
    have hfirst : (bit :: l.take 7).length = min 8 (l.length + 1) := by
      rw [List.length_cons, List.length_take]
      omega
    rw [bits_cons, octetBits_octetOfBits (by omega), hfirst, ih, List.length_drop, List.length_cons]
    by_cases hlong : 7 ≤ l.length
    · have hfill : 8 * ((l.length - 7 + 7) / 8) - (l.length - 7) =
          8 * ((l.length + 1 + 7) / 8) - (l.length + 1) := by omega
      have hfull : 8 - min 8 (l.length + 1) = 0 := by omega
      rw [hfill, hfull, List.replicate_zero, List.append_nil, List.cons_append, ← List.append_assoc,
        List.take_append_drop, List.cons_append]
    · have hfill : 8 * ((l.length + 1 + 7) / 8) - (l.length + 1) = 8 - min 8 (l.length + 1) := by
        omega
      have hrest : 8 * ((l.length - 7 + 7) / 8) - (l.length - 7) = 0 := by omega
      rw [hfill, hrest, List.take_of_length_le (by omega), List.drop_eq_nil_of_le (by omega),
        List.replicate_zero, List.append_nil, List.append_nil]

theorem bits_ofBits {l : List Bool} (h : l.length % 8 = 0) : bits (ofBits l) = l := by
  have hfill : 8 * ((l.length + 7) / 8) - l.length = 0 := by omega
  rw [bits_ofBits_eq, hfill, List.replicate_zero, List.append_nil]

end SigScript.Bytes
