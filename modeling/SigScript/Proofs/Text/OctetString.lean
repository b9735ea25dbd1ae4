import Mathlib
import SigScript.Text.OctetString
import SigScript.Proofs.Failure
import SigScript.Proofs.Text.IntegerLiteral

/-!
# The two readings of an octet string

The bytes of an octet string are those of its characters, blanks left out, where all of these are
hexadecimal digits and their number is even (`toBytes_eq_ok_iff`).  Its integer is read more freely:
a plus sign may stand in front and underscores behind the first digit (`toNat_eq_ok_iff`).  So the
integers of texts without either character are the values of one or more hexadecimal digits
(`isHex_iff`), and a text that is read both ways has the value of its bytes (`reads_hex_digits`).

Bytes are read off the UTF-8 form of a text, integers off its characters; an octet of a character
beyond ASCII is no digit, so the two see the same digits (`mapM_digit?_flatMap`).
-/

namespace SigScript

/-! ### Octets of a text -/

namespace Bytes

theorem toList_loop (octets : ByteArray) (i : Nat) (front : Bytes) :
    ByteArray.toList.loop octets i front = front.reverse ++ octets.data.toList.drop i := by
  fun_induction ByteArray.toList.loop octets i front with
  | case1 i front hi ih =>
    have hlt : i < octets.data.toList.length := by simpa using hi
    rw [ih, List.drop_eq_getElem_cons hlt]
    simp [ByteArray.get!, hi]
  | case2 i front hi =>
    rw [List.drop_eq_nil_of_le (by simpa using hi), List.append_nil]

theorem ofText_ofList (cs : List Char) :
    ofText (String.ofList cs) = cs.flatMap String.utf8EncodeChar := by
  rw [ofText, String.toUTF8_eq_toByteArray, String.toByteArray_ofList, List.utf8Encode,
    ByteArray.toList, toList_loop, List.toList_data_toByteArray]
  simp

end Bytes

namespace OctetString

open Numeral

/-! ### Digits and octets -/

theorem digitValue?_of_le {c : Char} (hc : 128 ≤ c.toNat) : digitValue? 16 c = none :=
  digitValue?_eq_none (by omega) (by omega) (by omega)

theorem digit?_of_le {b : UInt8} (hb : 128 ≤ b.toNat) : digit? b = none := by
  have hlt := b.toNat_lt
  have hvalid : b.toNat.isValidChar := .inl (by omega)
  apply digitValue?_of_le
  rw [Char.toNat_ofNat]
  simpa [hvalid] using hb

theorem digit?_of_lt {c : Char} (hc : c.toNat < 128) :
    digit? (UInt8.ofNat c.toNat) = digitValue? 16 c := by
  rw [digit?, UInt8.toNat_ofNat', Nat.mod_eq_of_lt (by omega), Char.ofNat_toNat]

theorem utf8EncodeChar_of_lt {c : Char} (hc : c.toNat < 128) :
    String.utf8EncodeChar c = [UInt8.ofNat c.toNat] :=
  if_pos (show c.val.toNat ≤ 127 from Nat.le_of_lt_succ hc)

theorem exists_utf8EncodeChar_eq_cons {c : Char} (hc : 128 ≤ c.toNat) :
    ∃ first rest, String.utf8EncodeChar c = first :: rest ∧ 128 ≤ first.toNat := by
  have hvalue : c.toNat = c.val.toNat := rfl
  unfold String.utf8EncodeChar
  dsimp only
  rw [if_neg (by omega)]
  split
  · exact ⟨_, _, rfl, by simp; omega⟩
  · split
    · exact ⟨_, _, rfl, by simp; omega⟩
    · exact ⟨_, _, rfl, by simp; omega⟩

/-- The octets of a text are digits when its characters are. -/
theorem mapM_digit?_flatMap (cs : List Char) :
    (cs.flatMap String.utf8EncodeChar).mapM digit? = cs.mapM (digitValue? 16) := by
  induction cs with
  | nil => rfl
  | cons c cs ih =>
    rw [List.flatMap_cons, List.mapM_cons]
    by_cases hc : c.toNat < 128
    · rw [utf8EncodeChar_of_lt hc, List.singleton_append, List.mapM_cons, digit?_of_lt hc, ih]
    · obtain ⟨first, rest, hoctets, hfirst⟩ := exists_utf8EncodeChar_eq_cons (not_lt.1 hc)
      rw [hoctets, List.cons_append, List.mapM_cons, digit?_of_le hfirst,
        digitValue?_of_le (not_lt.1 hc)]
      rfl

theorem mapM_eq_some_iff {α β : Type} {f : α → Option β} {xs : List α} {ys : List β} :
    xs.mapM f = some ys ↔ List.Forall₂ (fun x y => f x = some y) xs ys := by
  induction xs generalizing ys with
  | nil => simp [eq_comm]
  | cons x xs ih =>
    rw [List.mapM_cons]
    constructor
    · intro h
      obtain ⟨y, hy, h⟩ := Option.bind_eq_some_iff.1 h
      obtain ⟨ys, hys, h⟩ := Option.bind_eq_some_iff.1 h
      cases h
      exact .cons hy (ih.1 hys)
    · intro h
      cases h with
      | cons hy hys => simp [hy, ih.2 hys]

/-- The values of hexadecimal digits. -/
theorem mapM_digitValue?_eq_some_iff {cs : List Char} {ds : List Nat} :
    cs.mapM (digitValue? 16) = some ds ↔ List.Forall₂ (IsDigit 16) cs ds := by
  rw [mapM_eq_some_iff]
  simp only [digitValue?_eq_some_iff (le_refl 16)]

theorem lt_of_forall₂ {cs : List Char} {ds : List Nat} (h : List.Forall₂ (IsDigit 16) cs ds) :
    ∀ d ∈ ds, d < 16 := by
  induction h with
  | nil => exact nofun
  | cons hd _ ih => exact List.forall_mem_cons.2 ⟨hd.1, ih⟩

theorem not_mem_of_forall₂ {cs : List Char} {ds : List Nat}
    (h : List.Forall₂ (IsDigit 16) cs ds) {c : Char} (hc : digitValue? 16 c = none) : c ∉ cs := by
  induction h with
  | nil => exact List.not_mem_nil
  | cons hd _ ih =>
    exact List.not_mem_cons_of_ne_of_not_mem
      (ne_of_digitValue? (digitValue?_of_isDigit hd) hc).symm ih

/-- The bytes of hexadecimal digits, two to a byte. -/
def bytesOfDigits : List Nat → Bytes
  | high :: low :: rest => UInt8.ofNat (16 * high + low) :: bytesOfDigits rest
  | _ => []

theorem readPairs_eq_ok_iff {compact : String} {position : Nat} {octets bs : Bytes} :
    readPairs compact position octets = .ok bs ↔
      octets.length % 2 = 0 ∧ ∃ ds, octets.mapM digit? = some ds ∧ bs = bytesOfDigits ds := by
  fun_induction readPairs compact position octets generalizing bs with
  | case1 position => simp [bytesOfDigits, eq_comm]
  | case2 => simp
  | case3 position high low rest hhigh => simp [List.mapM_cons, hhigh]
  | case4 position high low rest h hhigh hlow => simp [List.mapM_cons, hhigh, hlow]
  | case5 position high low rest h hhigh l hlow ih =>
    have hlength : (high :: low :: rest).length % 2 = rest.length % 2 := Nat.add_mod_right _ 2
    rw [map_eq_ok_iff, hlength]
    simp only [ih, List.mapM_cons, hhigh, hlow]
    constructor
    · rintro ⟨_, ⟨heven, ds, hds, rfl⟩, rfl⟩
      exact ⟨heven, h :: l :: ds, by simp [hds], rfl⟩
    · rintro ⟨heven, ds, hds, rfl⟩
      simp only [Option.bind_eq_bind, Option.bind_some, Option.pure_def, Option.bind_eq_some_iff,
        Option.some.injEq] at hds
      obtain ⟨_, ⟨ds, hds, rfl⟩, rfl⟩ := hds
      exact ⟨_, ⟨heven, ds, hds, rfl⟩, rfl⟩

theorem foldl_bytesOfDigits {ds : List Nat} (heven : ds.length % 2 = 0) (hds : ∀ d ∈ ds, d < 16)
    (n : Nat) : (bytesOfDigits ds).foldl (fun n b => n * 256 + b.toNat) n =
      ds.foldl (fun n d => n * 16 + d) n := by
  fun_induction bytesOfDigits ds generalizing n with
  | case1 high low rest ih =>
    have hhigh := hds high (by simp)
    have hlow := hds low (by simp)
    have hpair : n * 256 + (UInt8.ofNat (16 * high + low)).toNat = (n * 16 + high) * 16 + low := by
      rw [UInt8.toNat_ofNat', Nat.mod_eq_of_lt (by omega)]
      ring
    rw [List.length_cons, List.length_cons] at heven
    rw [List.foldl_cons, hpair, ih (by omega) fun d hd => hds d (by simp [hd])]
    rfl
  | case2 ds hpair =>
    rcases ds with _ | ⟨d, _ | ⟨d', ds⟩⟩
    · rfl
    · cases heven
    · exact absurd rfl (hpair d d' ds)

/-- Pairs of digits and single digits in a row have the same value. -/
theorem toNat_bytesOfDigits {cs : List Char} {ds : List Nat} (h : List.Forall₂ (IsDigit 16) cs ds)
    (heven : cs.length % 2 = 0) : Bytes.toNat (bytesOfDigits ds) = Nat.ofDigits 16 ds.reverse := by
  rw [← value_eq_ofDigits]
  exact foldl_bytesOfDigits (h.length_eq ▸ heven) (lt_of_forall₂ h) 0

/-! ### Bytes -/

/-- The characters of a text that are no blanks. -/
def content (text : String) : List Char := text.toList.filter fun c => !Text.isBlank c

theorem toList_compact (text : String) : (Text.compact text).toList = content text := by
  rw [Text.compact, String.toList_ofList, content]

theorem ofText_compact (text : String) :
    Bytes.ofText (Text.compact text) = (content text).flatMap String.utf8EncodeChar := by
  rw [Text.compact, Bytes.ofText_ofList, content]

/-- A text is read as bytes if its content is an even number of hexadecimal digits. -/
theorem toBytes_eq_ok_iff {text : String} {bs : Bytes} :
    toBytes text = .ok bs ↔ (content text).length % 2 = 0 ∧
      ∃ ds, List.Forall₂ (IsDigit 16) (content text) ds ∧ bs = bytesOfDigits ds := by
  have hpairs : toBytes text = .ok bs ↔
      readPairs (Text.compact text) 0 (Bytes.ofText (Text.compact text)) = .ok bs := by
    rw [toBytes, mapError_eq_ok_iff]
    split_ifs with hodd
    · rw [readPairs_eq_ok_iff]
      exact iff_of_false nofun (by omega)
    · rfl
  have hlength : ∀ {octets : Bytes} {ds}, octets.mapM digit? = some ds →
      octets.length = ds.length := fun hds => (mapM_eq_some_iff.1 hds).length_eq
  rw [hpairs, readPairs_eq_ok_iff, ofText_compact]
  constructor
  · rintro ⟨heven, ds, hds, rfl⟩
    have hdigits := mapM_digitValue?_eq_some_iff.1 (mapM_digit?_flatMap _ ▸ hds)
    rw [hlength hds, ← hdigits.length_eq] at heven
    exact ⟨heven, ds, hdigits, rfl⟩
  · rintro ⟨heven, ds, hdigits, rfl⟩
    have hds := (mapM_digit?_flatMap _).trans (mapM_digitValue?_eq_some_iff.2 hdigits)
    rw [hdigits.length_eq, ← hlength hds] at heven
    exact ⟨heven, ds, hds, rfl⟩

/-! ### Integers -/

/-- At least one hexadecimal digit and nothing else; `n` is the value of the digits in a row. -/
def IsHex (cs : List Char) (n : Nat) : Prop :=
  ∃ ds, IntegerLiteral.IsGroup 16 cs ds ∧ n = Nat.ofDigits 16 ds.reverse

/-- A plus sign or none, a digit, and digits and underscores in any order; `n` is the value of the
digits in a row. -/
def IsLoose (cs : List Char) (n : Nat) : Prop :=
  ∃ sign ∈ [[], ['+']], ∃ body, cs = sign ++ body ∧ body.head? ≠ some '_' ∧
    IsHex (body.filter (· ≠ '_')) n

theorem isHex_iff_mapM {cs : List Char} {n : Nat} :
    IsHex cs n ↔ cs ≠ [] ∧ (cs.mapM (digitValue? 16)).map (value 16) = some n := by
  simp only [IsHex, IntegerLiteral.IsGroup, Option.map_eq_some_iff, mapM_digitValue?_eq_some_iff,
    value_eq_ofDigits]
  constructor
  · rintro ⟨ds, ⟨hne, hds⟩, rfl⟩
    exact ⟨hne, ds, hds, rfl⟩
  · rintro ⟨hne, ds, hds, rfl⟩
    exact ⟨ds, ⟨hne, hds⟩, rfl⟩

theorem looseDigits?_eq_some_iff {cs : List Char} {n : Nat} :
    looseDigits? 16 cs = some n ↔ cs.head? ≠ some '_' ∧ IsHex (cs.filter (· ≠ '_')) n := by
  rw [isHex_iff_mapM]
  rcases cs with _ | ⟨c, cs⟩
  · simp [looseDigits?]
  · by_cases hc : c = '_'
    · simp [looseDigits?, hc]
    · rw [looseDigits?_cons hc]
      simp [hc]

theorem not_mem_of_isHex {cs : List Char} {n : Nat} (h : IsHex cs n) {c : Char}
    (hc : digitValue? 16 c = none) : c ∉ cs := by
  obtain ⟨ds, hds, -⟩ := h
  exact not_mem_of_forall₂ hds.2 hc

theorem filter_underscore {cs : List Char} (h : '_' ∉ cs) : cs.filter (· ≠ '_') = cs :=
  List.filter_eq_self.2 fun _ hc => decide_eq_true (ne_of_mem_of_not_mem hc h)

/-- A plus sign in front is dropped unless another one follows, and that one is no digit. -/
theorem looseNatural?_eq_some_iff {cs : List Char} {n : Nat} :
    looseNatural? 16 cs = some n ↔ IsLoose cs n := by
  have hplus : ∀ {cs : List Char}, IsHex (cs.filter (· ≠ '_')) n → cs.head? ≠ some '+' := by
    intro cs hhex hhead
    apply not_mem_of_isHex hhex (digitValue?_plus 16)
    exact List.mem_filter.2 ⟨List.mem_of_mem_head? hhead, rfl⟩
  rw [looseNatural?, looseDigits?_eq_some_iff]
  simp only [IsLoose, List.mem_cons, List.not_mem_nil, or_false, exists_eq_or_imp, exists_eq_left,
    List.nil_append, List.singleton_append]
  constructor
  · intro h
    unfold dropSign at h
    split_ifs at h with hsign
    · exact .inr ⟨cs.tail, List.eq_cons_of_mem_head? hsign.1, h⟩
    · exact .inl ⟨cs, rfl, h⟩
  · rintro (⟨_, rfl, hfirst, hhex⟩ | ⟨body, rfl, hfirst, hhex⟩)
    · rw [dropSign_of_head?_ne (hplus hhex)]
      exact ⟨hfirst, hhex⟩
    · rw [dropSign_cons (hplus hhex)]
      exact ⟨hfirst, hhex⟩

/-- The integer of a text is the value of its digits. -/
theorem toNat_eq_ok_iff {text : String} {n : Nat} :
    toNat text = .ok n ↔ IsLoose (content text) n := by
  rw [← looseNatural?_eq_some_iff, ← toList_compact, toNat]
  by_cases hempty : (Text.compact text).isEmpty
  · rw [if_pos hempty, String.toList_eq_nil_iff.2 (String.isEmpty_iff.1 hempty)]
    exact iff_of_false nofun nofun
  · rw [if_neg hempty]
    cases looseNatural? 16 (Text.compact text).toList with
    | none => exact iff_of_false nofun nofun
    | some m => rw [Except.ok.injEq, Option.some.injEq]

/-- Without plus signs and underscores, the integers are the values of hexadecimal digits. -/
theorem isHex_iff {text : String} {n : Nat} :
    IsHex (content text) n ↔ toNat text = .ok n ∧ '+' ∉ content text ∧ '_' ∉ content text := by
  rw [toNat_eq_ok_iff]
  constructor
  · intro h
    have hunderscore := not_mem_of_isHex h (digitValue?_underscore 16)
    refine ⟨⟨[], by simp, content text, rfl, ?_, ?_⟩,
      not_mem_of_isHex h (digitValue?_plus 16), hunderscore⟩
    · exact fun hhead => hunderscore (List.mem_of_mem_head? hhead)
    · rwa [filter_underscore hunderscore]
  · rintro ⟨⟨sign, hsign, body, hbody, -, hhex⟩, hplus, hunderscore⟩
    simp only [List.mem_cons, List.not_mem_nil, or_false] at hsign
    obtain rfl | rfl := hsign
    · rw [List.nil_append] at hbody
      rwa [← hbody, filter_underscore hunderscore] at hhex
    · rw [hbody] at hplus
      exact absurd (by simp) hplus

/-- The bytes of an octet string are those of an even number of hexadecimal digits, and its integer
is the value of hexadecimal digits with a plus sign or none in front and underscores behind the first
digit: the value of the digits alone exactly where neither character occurs.  A text that can be
read both ways is read as the same number. -/
theorem reads_hex_digits (text : String) :
    (∀ n, toNat text = .ok n ↔ IsLoose (content text) n) ∧
      (∀ n, IsHex (content text) n ↔
        toNat text = .ok n ∧ '+' ∉ content text ∧ '_' ∉ content text) ∧
      (∀ bs, toBytes text = .ok bs ↔ (content text).length % 2 = 0 ∧
        ∃ ds, List.Forall₂ (IsDigit 16) (content text) ds ∧ bs = bytesOfDigits ds) ∧
      ∀ n bs, toNat text = .ok n → toBytes text = .ok bs → n = Bytes.toNat bs := by
  refine ⟨fun n => toNat_eq_ok_iff, fun n => isHex_iff, fun bs => toBytes_eq_ok_iff, ?_⟩
  intro n bs hn hbs
  obtain ⟨heven, ds, hds, rfl⟩ := toBytes_eq_ok_iff.1 hbs
  have hne : content text ≠ [] := by
    intro hempty
    rw [toNat_eq_ok_iff, hempty, ← looseNatural?_eq_some_iff] at hn
    cases hn
  have hvalue := (isHex_iff.1 ⟨ds, ⟨hne, hds⟩, rfl⟩).1
  rw [toNat_bytesOfDigits hds heven]
  exact Except.ok.inj (hn.symm.trans hvalue)

theorem reads_hex_digits_upper_case : toNat " 0A\tfF" = .ok 2815 ∧
    toBytes " 0A\tfF" = .ok [10, 255] ∧ 2815 = Bytes.toNat [10, 255] := by
  have hn : toNat " 0A\tfF" = .ok 2815 := by decide +kernel
  have hbs : toBytes " 0A\tfF" = .ok [10, 255] := by decide +kernel
  exact ⟨hn, hbs, (reads_hex_digits " 0A\tfF").2.2.2 2815 [10, 255] hn hbs⟩

/-- A plus sign in front is no digit, and only the reading as bytes refuses it. -/
theorem toNat_plus_sign : toNat "+1" = .ok 1 ∧ (¬∃ n, IsHex (content "+1") n) ∧
    toBytes "+1" = .error (.invalidOctetString (.badDigit "+1" 0x2b 0)) := by
  refine ⟨by decide +kernel, ?_, by decide +kernel⟩
  rintro ⟨n, h⟩
  exact not_mem_of_isHex h (digitValue?_plus 16) (by decide +kernel)

end OctetString

end SigScript
