import SigScript.Binary.Lemmas
import SigScript.Bytes.Lemmas
import SigScript.Residue.Power.Lemmas
import SigScript.Residue.Inverse
import SigScript.Residue.SquareRoot
import SigScript.Digest.Algorithm
import SigScript.Curve.Point
import SigScript.Curve.Registry
import SigScript.Ecdsa.Signature
import SigScript.PublicKeyInfo
import SigScript.Ecdsa.Scheme
import SigScript.Script.Trace
import SigScript.CommandLine.Outcome
import SigScript.Main
import SigScript.Proofs.Failure
import SigScript.Proofs.Residue.Inverse
import SigScript.Proofs.Residue.SquareRoot
import SigScript.Proofs.Residue.Decision
import SigScript.Proofs.Residue.Termination
import SigScript.Proofs.Curve.Domain
import SigScript.Proofs.Curve.Weierstrass
import SigScript.Proofs.Curve.Closure
import SigScript.Proofs.Curve.Checked
import SigScript.Proofs.Curve.Session
import SigScript.Proofs.Curve.Group
import SigScript.Proofs.Curve.Multiple
import SigScript.Proofs.Ecdsa.Completeness
import SigScript.Proofs.Ecdsa.Malleability
import SigScript.Proofs.Ecdsa.Totality
import SigScript.Proofs.Bytes.TwosComplement
import SigScript.Proofs.Der.Codec
import SigScript.Proofs.Der.Canonical
import SigScript.Proofs.Der.Extension
import SigScript.Proofs.Der.Subidentifier
import SigScript.Proofs.Curve.Encoding
import SigScript.Proofs.Bytes.Bits
import SigScript.Proofs.Bytes.Value
import SigScript.Proofs.Digest.Blocks
import SigScript.Proofs.Digest.LshStream
import SigScript.Proofs.Digest.Pieces
import SigScript.Proofs.Digest.LshPadding
import SigScript.Proofs.Digest.LshBounds
import SigScript.Proofs.Digest.Compression
import SigScript.Proofs.Ecdsa.MessageScalar
import SigScript.Proofs.Script.Opcodes
import SigScript.Proofs.Script.PayToPublicKeyHash
import SigScript.Proofs.Text.Numeral
import SigScript.Proofs.Text.IntegerLiteral
import SigScript.Proofs.Text.IntegerLayers
import SigScript.Proofs.Text.Words
import SigScript.Proofs.Text.Lines
import SigScript.Proofs.Text.OctetString
import SigScript.Proofs.Script.Literal
import SigScript.Proofs.Script.IntegerLiteral
import SigScript.Proofs.Script.Printed
import SigScript.Proofs.Script.CheckSignature
import SigScript.Proofs.Script.Hashing
import SigScript.Proofs.Script.Agreement
import SigScript.Proofs.Script.Frame
import SigScript.Proofs.Script.Height
import SigScript.Proofs.CommandLine.Output
import SigScript.Proofs.CommandLine.ResultStack
import SigScript.Proofs.CommandLine.Tokens
