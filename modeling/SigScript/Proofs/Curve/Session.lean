import Mathlib
import SigScript.Ecdsa.Scheme
import SigScript.Proofs.Curve.Checked

/-!
# Sequences of point operations

Whatever sequence of operations obtains a point of an accepted domain, the point is on the curve, no
subtraction on the way would be negative, and no verification with the point as its key depends on
the test that the key is on the curve (`run_stays_on_curve`).
-/

namespace SigScript

/-- An operation that gives a point of a domain.  Operands are named by the order in which points
were obtained; the name of no point stands for infinity. -/
inductive PointOp where
  | infinity
  | generator
  | create (x y : Nat)
  | ofOctets (octets : Bytes)
  | add (i j : Nat)
  | double (i : Nat)
  | neg (i : Nat)
  | mul (k : Int) (i : Nat)
  | mulNat (k i : Nat)
  deriving DecidableEq, Repr

namespace PointOp

/-- The point of a name. -/
def operand (d : Domain) (points : List CurvePoint) (i : Nat) : CurvePoint :=
  points.getD i (.infinity d)

/-- The result of an operation, given the points obtained so far. -/
def eval (d : Domain) (points : List CurvePoint) : PointOp → Except CryptoError CurvePoint
  | infinity => .ok (.infinity d)
  | generator => .ok d.basePoint
  | create x y => CurvePoint.create d x y
  | ofOctets octets => CurvePoint.ofOctets d octets
  | add i j => (operand d points i).add (operand d points j)
  | double i => (operand d points i).double
  | neg i => .ok (operand d points i).neg
  | mul k i => (operand d points i).mul k
  | mulNat k i => (operand d points i).mulNat k

/-- The result of an operation with checked subtractions. -/
def evalChecked (d : Domain) (points : List CurvePoint) : PointOp → Checked CurvePoint
  | infinity => pure (.infinity d)
  | generator => pure d.basePoint
  | create x y => Checked.lift (CurvePoint.create d x y)
  | ofOctets octets => Checked.decodePoint d octets
  | add i j => Checked.addPoints (operand d points i) (operand d points j)
  | double i => Checked.addPoints (operand d points i) (operand d points i)
  | neg i => Checked.negPoint (operand d points i)
  | mul k i => Checked.mulPoint k (operand d points i)
  | mulNat k i => Checked.mulNatPoint k (operand d points i)

/-- The points obtained after one more result.  A failure adds none. -/
def record (points : List CurvePoint) : Except CryptoError CurvePoint → List CurvePoint
  | .ok P => points ++ [P]
  | .error _ => points

/-- The points obtained by a sequence of operations. -/
def run (d : Domain) (ops : List PointOp) : List CurvePoint :=
  ops.foldl (fun points op => record points (op.eval d points)) []

/-- The points obtained with checked subtractions; none when a subtraction would be negative. -/
def runChecked (d : Domain) (ops : List PointOp) : Option (List CurvePoint) :=
  ops.foldlM (fun points op => (op.evalChecked d points).run.map (record points)) []

/-! ### One step -/

variable {d : Domain} {points : List CurvePoint}

theorem liesOn_operand (h : ∀ P ∈ points, P.LiesOn d) (i : Nat) :
    (operand d points i).LiesOn d := by
  unfold operand
  rw [List.getD_eq_getElem?_getD]
  cases hP : points[i]? with
  | none => exact CurvePoint.liesOn_infinity d
  | some P => exact h P (List.mem_of_getElem? hP)

theorem liesOn_eval (hd : d.Accepted) (h : ∀ P ∈ points, P.LiesOn d) {op : PointOp}
    {R : CurvePoint} (hR : op.eval d points = .ok R) : R.LiesOn d := by
  cases op with
  | infinity =>
    cases hR
    exact CurvePoint.liesOn_infinity d
  | generator =>
    cases hR
    exact CurvePoint.liesOn_basePoint hd
  | create x y => exact CurvePoint.liesOn_create hR
  | ofOctets octets => exact CurvePoint.liesOn_ofOctets hR
  | add i j => exact (liesOn_operand h i).add (liesOn_operand h j) hR
  | double i => exact (liesOn_operand h i).add (liesOn_operand h i) hR
  | neg i =>
    cases hR
    exact (liesOn_operand h i).neg
  | mul k i => exact (liesOn_operand h i).mul hR
  | mulNat k i => exact (liesOn_operand h i).mulNat hR

theorem evalChecked_eq (h : ∀ P ∈ points, P.LiesOn d) (op : PointOp) :
    op.evalChecked d points = Checked.lift (op.eval d points) := by
  cases op with
  | infinity => rfl
  | generator => rfl
  | create x y => rfl
  | ofOctets octets => exact Checked.decodePoint_eq d octets
  | add i j => exact Checked.addPoints_eq (liesOn_operand h i).2
  | double i => exact Checked.addPoints_eq (liesOn_operand h i).2
  | neg i => exact Checked.negPoint_eq (liesOn_operand h i).2
  | mul k i => exact Checked.mulPoint_eq k (liesOn_operand h i)
  | mulNat k i => exact Checked.mulNatPoint_eq k (liesOn_operand h i).2

theorem liesOn_record (hd : d.Accepted) (h : ∀ P ∈ points, P.LiesOn d) (op : PointOp) :
    ∀ P ∈ record points (op.eval d points), P.LiesOn d := by
  cases hR : op.eval d points with
  | error e => exact h
  | ok R =>
    intro P hP
    rcases List.mem_append.1 hP with hP | hP
    · exact h P hP
    · rw [List.mem_singleton.1 hP]
      exact liesOn_eval hd h hR

/-! ### A whole sequence -/

theorem liesOn_foldl (hd : d.Accepted) (ops : List PointOp) (h : ∀ P ∈ points, P.LiesOn d) :
    ∀ P ∈ ops.foldl (fun points op => record points (op.eval d points)) points, P.LiesOn d := by
  induction ops generalizing points with
  | nil => exact h
  | cons op ops ih => exact ih (liesOn_record hd h op)

theorem liesOn_of_mem_run (hd : d.Accepted) {ops : List PointOp} {P : CurvePoint}
    (hP : P ∈ run d ops) : P.LiesOn d := by
  have hnil : ∀ Q ∈ ([] : List CurvePoint), Q.LiesOn d := by simp
  exact liesOn_foldl hd ops hnil P hP

theorem foldlM_checked_eq (hd : d.Accepted) (ops : List PointOp) (h : ∀ P ∈ points, P.LiesOn d) :
    ops.foldlM (fun points op => (op.evalChecked d points).run.map (record points)) points =
      some (ops.foldl (fun points op => record points (op.eval d points)) points) := by
  induction ops generalizing points with
  | nil => rfl
  | cons op ops ih =>
    rw [List.foldlM_cons, evalChecked_eq h op]
    exact ih (liesOn_record hd h op)

theorem runChecked_eq_some (hd : d.Accepted) (ops : List PointOp) :
    runChecked d ops = some (run d ops) :=
  foldlM_checked_eq hd ops (by simp)

end PointOp

/-! ### Keys -/

/-- Whether a signature is valid for a public key, without the test that the key is on the curve. -/
def Ecdsa.verifyUnguarded (scheme : Ecdsa) (publicKey : CurvePoint) (message : Bytes)
    (sig : Signature) : Except CryptoError Bool := do
  CurvePoint.checkDomain scheme.domain publicKey
  if ¬(scheme.InRange sig.r ∧ scheme.InRange sig.s) then return false
  else if publicKey.coordinates = .infinity then return false
  else
    let e ← scheme.messageScalar message
    let point ← scheme.verificationPoint publicKey e sig.r.toNat sig.s.toNat
    match point.coordinates.x? with
    | none => return false
    | some x => return x % scheme.domain.order = sig.r.toNat

theorem Ecdsa.verify_eq_verifyUnguarded (scheme : Ecdsa) {P : CurvePoint} (hP : P.OnCurve)
    (message : Bytes) (sig : Signature) :
    scheme.verify P message sig = scheme.verifyUnguarded P message sig := by
  have hguard : (P.coordinates = .infinity ∨ ¬P.OnCurve) ↔ P.coordinates = .infinity := by
    simp [hP]
  unfold verify verifyUnguarded
  refine bind_congr fun _ => ?_
  refine if_congr Iff.rfl rfl ?_
  exact if_congr hguard rfl rfl

theorem KeyPair.liesOn_publicKey {d : Domain} (hd : d.Accepted) {secret : Nat} {key : KeyPair}
    (h : KeyPair.ofSecret d secret = .ok key) : key.publicKey.LiesOn d := by
  unfold KeyPair.ofSecret at h
  split at h
  · cases h
  · obtain ⟨P, hP, rfl⟩ := map_eq_ok_iff.1 h
    exact (CurvePoint.liesOn_basePoint hd).mulNat hP

/-- All points that a sequence of operations obtains are on the curve, and no subtraction of the
sequence would be negative.  So the test for keys off the curve never decides a verification. -/
theorem run_stays_on_curve {d : Domain} (hd : d.Accepted) (ops : List PointOp) :
    (∀ P ∈ PointOp.run d ops, P.domain = d ∧ P.OnCurve) ∧
    PointOp.runChecked d ops = some (PointOp.run d ops) ∧
    (∀ P ∈ PointOp.run d ops, ∀ (scheme : Ecdsa) (message : Bytes) (sig : Signature),
      scheme.verify P message sig = scheme.verifyUnguarded P message sig) ∧
    ∀ (secret : Nat) (key : KeyPair), KeyPair.ofSecret d secret = .ok key →
      key.publicKey.OnCurve ∧ ∀ (scheme : Ecdsa) (message : Bytes) (sig : Signature),
        scheme.verify key.publicKey message sig =
          scheme.verifyUnguarded key.publicKey message sig := by
  refine ⟨fun P hP => PointOp.liesOn_of_mem_run hd hP, PointOp.runChecked_eq_some hd ops, ?_, ?_⟩
  · intro P hP scheme message sig
    exact scheme.verify_eq_verifyUnguarded (PointOp.liesOn_of_mem_run hd hP).2 message sig
  · intro secret key hkey
    have hon := (KeyPair.liesOn_publicKey hd hkey).2
    exact ⟨hon, fun scheme message sig => scheme.verify_eq_verifyUnguarded hon message sig⟩

/-- Modulo 15 the difference of the abscissas 0 and 3 has no inverse, so the first sum fails. -/
theorem run_stays_on_curve_fifteen :
    (PointOp.run .fifteen [.generator, .create 3 1, .add 0 1, .double 0, .neg 2]).length = 4 ∧
    ∀ P ∈ PointOp.run .fifteen [.generator, .create 3 1, .add 0 1, .double 0, .neg 2], P.OnCurve :=
  ⟨by decide +kernel, fun P hP => ((run_stays_on_curve (by decide) _).1 P hP).2⟩

end SigScript
