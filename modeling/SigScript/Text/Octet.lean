import SigScript.Text.Numeral

/-!
# Quoted octets

An octet that could not be read is shown in messages as the character of the same code, between
single quotes.  Characters that cannot be seen are escaped.
-/

namespace SigScript.Octet

/-- Whether the character with the code of the octet has a visible shape of its own.  The control
codes, the no-break space and the soft hyphen have none. -/
def isVisible (b : UInt8) : Bool :=
  (0x20 ≤ b && b < 0x7f) || (0xa1 ≤ b && b != 0xad)

/-- The text between the quotes. -/
def escape (b : UInt8) : List Char :=
  if b = 0 then ['\\', '0']
  else if b = 9 then ['\\', 't']
  else if b = 10 then ['\\', 'n']
  else if b = 13 then ['\\', 'r']
  else if b = 39 then ['\\', '\'']
  else if b = 92 then ['\\', '\\']
  else if isVisible b then [Char.ofNat b.toNat]
  else ['\\', 'u', '\x7b'] ++ Numeral.render 16 b.toNat ++ ['\x7d']

/-- The octet between single quotes. -/
def quoted (b : UInt8) : String := String.ofList ('\'' :: escape b ++ ['\''])

end SigScript.Octet
