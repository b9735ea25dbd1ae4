import Mathlib
import SigScript.Proofs.Curve.Closure

/-!
# Subtractions that stay natural

Point arithmetic subtracts natural numbers.  Here it is written a second time with a subtraction
that stops the computation when its result would be negative.  On points of the curve no computation
is ever stopped: the checked operations agree with the others (`add_eq`, `neg_eq`, `mul_eq`,
`decode_eq`).
-/

namespace SigScript

/-- A computation that is stopped (`none`) when a subtraction of it would be negative. -/
abbrev Checked := ExceptT CryptoError Option

namespace Checked

variable {α β : Type}

/-- A computation that does not subtract. -/
def lift (x : Except CryptoError α) : Checked α := ExceptT.mk (some x)

@[simp] theorem lift_ok_bind (a : α) (f : α → Checked β) : (lift (.ok a) >>= f) = f a := rfl

/-- A computation is not stopped when its steps are not. -/
theorem bind_eq {x : Except CryptoError α} {f : α → Checked β} {g : α → Except CryptoError β}
    (h : ∀ a, x = .ok a → f a = lift (g a)) : (lift x >>= f) = lift (x >>= g) := by
  cases x with
  | error e => rfl
  | ok a => exact h a rfl

/-- A fold is not stopped when its steps keep a property under which they are not. -/
theorem foldlM_eq {I : β → Prop} {f : β → α → Checked β} {g : β → α → Except CryptoError β}
    (hf : ∀ b a, I b → f b a = lift (g b a)) (hI : ∀ b a b', I b → g b a = .ok b' → I b')
    (xs : List α) {b : β} (hb : I b) : xs.foldlM f b = lift (xs.foldlM g b) := by
  induction xs generalizing b with
  | nil => rfl
  | cons a xs ih =>
    rw [List.foldlM_cons, List.foldlM_cons, hf b a hb]
    exact bind_eq fun b' hstep => ih (hI b a b' hb hstep)

/-! ### Checked arithmetic -/

/-- The difference of two natural numbers, which must not be negative. -/
def sub (a b : Nat) : Checked Nat := if b ≤ a then pure (a - b) else ExceptT.mk none

/-- The difference of two numbers below `p`, modulo `p`. -/
def subMod (a b p : Nat) : Checked Nat :=
  if b ≤ a then sub a b else do sub p (← sub b a)

/-- The third point on a line, reflected across the axis. -/
def reflectedThird (E : Curve) (slope x₁ y₁ x₂ : Nat) : Checked Coordinates := do
  let x₃ ← subMod (slope * slope % E.modulus) ((x₁ + x₂) % E.modulus) E.modulus
  let run ← subMod x₁ x₃ E.modulus
  let y₃ ← subMod (slope * run % E.modulus) y₁ E.modulus
  return .affine x₃ y₃

/-- The slope of the line through two points of different abscissas. -/
def chordSlope (E : Curve) (x₁ y₁ x₂ y₂ : Nat) : Checked Nat := do
  let rise ← subMod y₂ y₁ E.modulus
  let run ← subMod x₂ x₁ E.modulus
  let inverse ← lift (Residue.inverse run E.modulus)
  return rise * inverse % E.modulus

/-- The sum of two points. -/
def add (E : Curve) : (P Q : Coordinates) → Checked Coordinates
  | .infinity, Q => pure Q
  | P, .infinity => pure P
  | .affine x₁ y₁, .affine x₂ y₂ =>
    if x₁ = x₂ then
      if y₁ ≠ y₂ ∨ y₁ = 0 then pure .infinity
      else do reflectedThird E (← lift (E.tangentSlope x₁ y₁)) x₁ y₁ x₂
    else do reflectedThird E (← chordSlope E x₁ y₁ x₂ y₂) x₁ y₁ x₂

/-- The reflection of a point across the axis. -/
def neg (E : Curve) : Coordinates → Checked Coordinates
  | .infinity => pure .infinity
  | .affine x y => do return .affine x ((← subMod 0 y E.modulus) % E.modulus)

/-- One step of double and add. -/
def mulStep (E : Curve) (P acc : Coordinates) (bit : Bool) : Checked Coordinates := do
  let twice ← add E acc acc
  if bit then add E twice P else return twice

/-- The multiple `k P`. -/
def mul (E : Curve) (k : Nat) (P : Coordinates) : Checked Coordinates :=
  (Binary.bits k).foldlM (mulStep E P) .infinity

/-- The square root of the right-hand side at `x` with the given parity. -/
def liftX (E : Curve) (octet : UInt8) (odd : Bool) (x : Nat) : Checked Nat := do
  let root ← lift (Residue.sqrt (E.rhs x) E.modulus)
  if root = 0 ∧ odd then lift (.error (.invalidPointPrefix octet))
  else if decide (root % 2 = 1) = odd then return root
  else return (← sub E.modulus root) % E.modulus

/-- Decodes the compressed form. -/
def decodeCompressed (E : Curve) (octet : UInt8) (rest : Bytes) : Checked Coordinates :=
  if octet = 0x02 ∨ octet = 0x03 then do
    let x ← lift (E.readCoordinate rest)
    let y ← liftX E octet (octet = 0x03) x
    return .affine x y
  else lift (.error (.invalidPointPrefix octet))

/-- Decodes a point.  Only the compressed form asks for a subtraction. -/
def decode (E : Curve) (octets : Bytes) : Checked Coordinates :=
  if octets = [0x00] then pure .infinity
  else if E.modulus % 2 = 0 then lift (.error .unsupportedField)
  else
    match octets with
    | octet :: rest =>
      if rest.length = E.coordinateLength then decodeCompressed E octet rest
      else if rest.length = 2 * E.coordinateLength then lift (E.decodeUncompressed octet rest)
      else lift (.error (Curve.decode.lengthError E octets.length))
    | [] => lift (.error (Curve.decode.lengthError E 0))

/-- The sum of two points of one domain. -/
def addPoints (P Q : CurvePoint) : Checked CurvePoint := do
  lift (CurvePoint.checkDomain P.domain Q)
  return ⟨P.domain, ← add P.domain.toCurve P.coordinates Q.coordinates⟩

/-- The negative of a point. -/
def negPoint (P : CurvePoint) : Checked CurvePoint := do
  return ⟨P.domain, ← neg P.domain.toCurve P.coordinates⟩

/-- The multiple of a point by a natural number. -/
def mulNatPoint (k : Nat) (P : CurvePoint) : Checked CurvePoint := do
  return ⟨P.domain, ← mul P.domain.toCurve k P.coordinates⟩

/-- The multiple of a point by an integer. -/
def mulPoint (k : Int) (P : CurvePoint) : Checked CurvePoint :=
  if k < 0 then do negPoint (← mulNatPoint k.natAbs P) else mulNatPoint k.natAbs P

/-- Decodes a point of a domain. -/
def decodePoint (d : Domain) (octets : Bytes) : Checked CurvePoint := do
  return ⟨d, ← decode d.toCurve octets⟩

/-! ### Agreement -/

theorem sub_eq {a b : Nat} (h : b ≤ a) : sub a b = lift (.ok (a - b)) := if_pos h

theorem subMod_eq (a : Nat) {b p : Nat} (hb : b < p) :
    subMod a b p = lift (.ok (SigScript.subMod a b p)) := by
  unfold subMod SigScript.subMod
  split
  · exact sub_eq (by assumption)
  · have hle : b - a ≤ p := (Nat.sub_le b a).trans hb.le
    rw [sub_eq (by omega), lift_ok_bind, sub_eq hle]

variable {E : Curve}

theorem reflectedThird_eq (slope : Nat) {x₁ y₁ : Nat} (x₂ : Nat) (hx : x₁ < E.modulus)
    (hy : y₁ < E.modulus) :
    reflectedThird E slope x₁ y₁ x₂ = lift (.ok (E.reflectedThird slope x₁ y₁ x₂)) := by
  have hpos : 0 < E.modulus := Nat.zero_lt_of_lt hx
  have hx₃ := subMod_lt ((x₁ + x₂) % E.modulus) (Nat.mod_lt (slope * slope) hpos)
  rw [reflectedThird, subMod_eq _ (Nat.mod_lt _ hpos), lift_ok_bind, subMod_eq _ hx₃, lift_ok_bind,
    subMod_eq _ hy, lift_ok_bind]
  rfl

theorem chordSlope_eq {x₁ y₁ x₂ y₂ : Nat} (hx : x₁ < E.modulus) (hy : y₁ < E.modulus) :
    chordSlope E x₁ y₁ x₂ y₂ = lift (E.chordSlope x₁ y₁ x₂ y₂) := by
  rw [chordSlope, subMod_eq _ hy, lift_ok_bind, subMod_eq _ hx, lift_ok_bind]
  exact bind_eq fun _ _ => rfl

theorem add_eq {P Q : Coordinates} (hP : E.HasPoint P) : add E P Q = lift (E.add P Q) := by
  cases P with
  | infinity => rfl
  | affine x₁ y₁ =>
    cases Q with
    | infinity => rfl
    | affine x₂ y₂ =>
      rw [add, Curve.add]
      split
      · split
        · rfl
        · exact bind_eq fun s _ => reflectedThird_eq s x₂ hP.1 hP.2.1
      · rw [chordSlope_eq hP.1 hP.2.1]
        exact bind_eq fun s _ => reflectedThird_eq s x₂ hP.1 hP.2.1

theorem neg_eq {P : Coordinates} (hP : E.HasPoint P) : neg E P = lift (.ok (E.neg P)) := by
  cases P with
  | infinity => rfl
  | affine x y =>
    rw [neg, subMod_eq _ hP.2.1, lift_ok_bind]
    rfl

theorem mulStep_eq {P acc : Coordinates} (bit : Bool) (hacc : E.HasPoint acc) :
    mulStep E P acc bit = lift (E.mulStep P acc bit) := by
  rw [mulStep, Curve.mulStep, add_eq hacc]
  refine bind_eq fun twice htwice => ?_
  cases bit with
  | false => rfl
  | true => exact add_eq (Curve.hasPoint_add hacc hacc htwice)

theorem mul_eq (k : Nat) {P : Coordinates} (hP : E.HasPoint P) : mul E k P = lift (E.mul k P) :=
  foldlM_eq (I := E.HasPoint) (fun _ bit hacc => mulStep_eq bit hacc)
    (fun _ _ _ hacc hstep => Curve.hasPoint_mulStep hP hacc hstep) _ trivial

/-- The root that is found is below the modulus, so its negative is natural. -/
theorem liftX_eq (octet : UInt8) (odd : Bool) (x : Nat) :
    liftX E octet odd x = lift (E.liftX octet odd x) := by
  rw [liftX, Curve.liftX]
  refine bind_eq fun root hroot => ?_
  have hle : root ≤ E.modulus := (Residue.lt_of_sqrt hroot).le
  split
  · rfl
  · split
    · rfl
    · rw [sub_eq hle, lift_ok_bind]
      rfl

theorem decodeCompressed_eq (octet : UInt8) (rest : Bytes) :
    decodeCompressed E octet rest = lift (E.decodeCompressed octet rest) := by
  unfold decodeCompressed Curve.decodeCompressed
  split
  · refine bind_eq fun x _ => ?_
    rw [liftX_eq]
    exact bind_eq fun _ _ => rfl
  · rfl

theorem decode_eq (octets : Bytes) : decode E octets = lift (E.decode octets) := by
  unfold decode Curve.decode
  split
  · rfl
  · split
    · rfl
    · cases octets with
      | nil => rfl
      | cons octet rest =>
        dsimp only
        split
        · exact decodeCompressed_eq _ _
        · split
          · rfl
          · rfl

/-- A constructor after the last step. -/
theorem bind_map_eq (x : Except CryptoError α) (f : α → β) :
    (lift x >>= fun a => lift (.ok (f a))) = lift (x.map f) := by
  cases x with
  | error e => rfl
  | ok a => rfl

variable {P Q : CurvePoint}

theorem addPoints_eq (hP : P.OnCurve) : addPoints P Q = lift (P.add Q) := by
  refine bind_eq fun _ _ => ?_
  rw [add_eq hP]
  exact bind_eq fun _ _ => rfl

theorem negPoint_eq (hP : P.OnCurve) : negPoint P = lift (.ok P.neg) := by
  rw [negPoint, neg_eq hP]
  rfl

theorem mulNatPoint_eq (k : Nat) (hP : P.OnCurve) : mulNatPoint k P = lift (P.mulNat k) := by
  rw [mulNatPoint, mul_eq k hP]
  exact bind_map_eq _ _

theorem mulPoint_eq {d : Domain} (k : Int) (hP : P.LiesOn d) : mulPoint k P = lift (P.mul k) := by
  unfold mulPoint CurvePoint.mul
  split
  · rw [mulNatPoint_eq _ hP.2, ← bind_map_eq]
    cases h : P.mulNat k.natAbs with
    | error e => rfl
    | ok R => exact negPoint_eq (hP.mulNat h).2
  · exact mulNatPoint_eq _ hP.2

theorem decodePoint_eq (d : Domain) (octets : Bytes) :
    decodePoint d octets = lift (CurvePoint.ofOctets d octets) := by
  rw [decodePoint, decode_eq]
  exact bind_map_eq _ _

end Checked

end SigScript
