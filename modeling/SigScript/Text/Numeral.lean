/-!
# Positional numerals

The digits of a number in a base, their characters, and the value of a list of digits.  Printing is
`render`, reading one digit is `digitValue?`; `value_digits` says that the digits of a number have
that number as their value.  A whole numeral is read by `looseNatural?`, which lets
underscores stand almost anywhere.
-/

namespace SigScript.Numeral

/-- The value of a list of digits, most significant first. -/
def value (base : Nat) (ds : List Nat) : Nat := ds.foldl (fun n d => n * base + d) 0

/-- The digits of `n` in front of `rest`, most significant first.  Zero has the single digit `0`. -/
def digitsOnto (base n : Nat) (rest : List Nat) : List Nat :=
  if _ : base < 2 ∨ n < base then n :: rest
  else digitsOnto base (n / base) (n % base :: rest)
termination_by n
decreasing_by exact Nat.div_lt_self (by omega) (by omega)

/-- The digits of `n`, most significant first, without leading zeros. -/
def digits (base n : Nat) : List Nat := digitsOnto base n []

/-- The character of a digit: `0` to `9`, then lower-case letters. -/
def digitChar (d : Nat) : Char := Char.ofNat (if d < 10 then 48 + d else 87 + d)

/-- The value of an ASCII digit of the base; letters count in either case. -/
def digitValue? (base : Nat) (c : Char) : Option Nat :=
  let d :=
    if '0' ≤ c ∧ c ≤ '9' then c.toNat - 48
    else if 'a' ≤ c ∧ c ≤ 'z' then c.toNat - 87
    else if 'A' ≤ c ∧ c ≤ 'Z' then c.toNat - 55
    else base
  if d < base then some d else none

/-- The value of the digits of a base, with underscores between or behind them. -/
def looseDigits? (base : Nat) : List Char → Option Nat
  | [] => none
  | '_' :: _ => none
  | cs => ((cs.filter (· ≠ '_')).mapM (digitValue? base)).map (value base)

/-- A text without a sign in front.  The sign stays if a plus sign comes next. -/
def dropSign (sign : Char) (cs : List Char) : List Char :=
  if cs.head? = some sign ∧ cs.tail.head? ≠ some '+' then cs.tail else cs

/-- The natural number of a plus sign or none, and digits with underscores between or behind them. -/
def looseNatural? (base : Nat) (cs : List Char) : Option Nat :=
  looseDigits? base (dropSign '+' cs)

/-- The numeral of `n` in a base of at most 36. -/
def render (base n : Nat) : List Char := (digits base n).map digitChar

/-- The numeral of an integer: a minus sign for a negative one, then its magnitude. -/
def renderInt (base : Nat) (z : Int) : List Char :=
  if z < 0 then '-' :: render base z.natAbs else render base z.natAbs

/-- Decimal text of a natural number. -/
def decimal (n : Nat) : String := String.ofList (render 10 n)

/-- Decimal text of an integer. -/
def decimalInt (z : Int) : String := String.ofList (renderInt 10 z)

/-- Lower-case hexadecimal text of an integer. -/
def hexInt (z : Int) : String := String.ofList (renderInt 16 z)

/-! ### The digits of a number have that number as their value -/

theorem foldl_digitsOnto (base n : Nat) (rest : List Nat) :
    (digitsOnto base n rest).foldl (fun n d => n * base + d) 0 =
      rest.foldl (fun n d => n * base + d) n := by
  fun_induction digitsOnto base n rest with
  | case1 n rest _ => simp
  | case2 n rest _ ih => simp [ih, Nat.div_add_mod']

theorem value_digits (base n : Nat) : value base (digits base n) = n := by
  simp [value, digits, foldl_digitsOnto]

theorem value_append (base : Nat) (ds es : List Nat) :
    value base (ds ++ es) = es.foldl (fun n d => n * base + d) (value base ds) := by
  simp [value, List.foldl_append]

end SigScript.Numeral
