/-!
# Numbers to a given count of significant digits

`significant n num den` is the positive ratio `num / den` rounded to `n` decimal digits, a half
going to the even neighbour, with the exponent of its first digit. `Style.text` writes a float
with it: the float is a ratio of natural numbers, so the digits come from its exact value.
-/

namespace ZeroSearch.Decimal

/-! ## Rounding -/

/-- `num / den` to the nearest natural number, a half to the even one. -/
def divHalfEven (num den : Nat) : Nat :=
  let q := num / den
  let r := num % den
  if 2 * r < den then q else if den < 2 * r then q + 1 else q + q % 2

def digitCount (n : Nat) : Nat := (Nat.toDigits 10 n).length

/-- The `x` with `10 ^ x ≤ num / den < 10 ^ (x + 1)`. -/
def exponentOf (num den : Nat) : Int :=
  if den ≤ num then (digitCount (num / den) : Int) - 1 else -(digitCount ((den - 1) / num) : Int)

def powerOfTen (n : Nat) : Nat := Nat.pow 10 n

/-- The `n` leading digits as one number, and the exponent of the first of them. -/
def significant (n num den : Nat) : Nat × Int :=
  let x := exponentOf num den
  let shift := (n : Int) - 1 - x
  let digits :=
    if 0 ≤ shift then divHalfEven (num * powerOfTen shift.toNat) den
    else divHalfEven num (den * powerOfTen (-shift).toNat)
  if digits = powerOfTen n then (powerOfTen (n - 1), x + 1) else (digits, x)

/-! ## Writing -/

/-- How numbers are written: the count of digits, the least exponent of a number written without an
exponent part (the greatest is the one that the digits reach), and the width of an exponent part. -/
structure Style where
  digits : Nat
  least : Int
  exponentWidth : Nat

namespace Style

def dropTrailingZeros (ds : List Char) : List Char := (ds.reverse.dropWhile (· == '0')).reverse

/-- Zeros at the end of the fraction are left out, and with them a point that ends the number. -/
def joined (whole fraction : List Char) : List Char :=
  match dropTrailingZeros fraction with
  | [] => whole
  | kept => whole ++ '.' :: kept

def exponentPart (s : Style) (x : Int) : List Char :=
  let ds := Nat.toDigits 10 x.natAbs
  'e' :: (if x < 0 then '-' else '+') :: (List.replicate (s.exponentWidth - ds.length) '0' ++ ds)

def magnitude (s : Style) (num den : Nat) : List Char :=
  let (n, x) := significant s.digits num den
  let ds := Nat.toDigits 10 n
  if s.least ≤ x ∧ x < s.digits then
    if x < 0 then joined ['0'] (List.replicate (-x - 1).toNat '0' ++ ds)
    else joined (ds.take (x.toNat + 1)) (ds.drop (x.toNat + 1))
  else
    joined (ds.take 1) (ds.drop 1) ++ s.exponentPart x

open Float.Model.UnpackedFloat in
def text (s : Style) (x : Float) : String :=
  let signed (sign : Sign) (cs : List Char) : String :=
    String.ofList (match sign with | .negative => '-' :: cs | .positive => cs)
  match x.toModel.unpack with
  | .notANumber => "nan"
  | .infinity sign => signed sign ['i', 'n', 'f']
  | .zero sign => signed sign ['0']
  | .finite sign m e _ => signed sign (s.magnitude (m <<< e.toNat) (1 <<< (-e).toNat))

end Style

end ZeroSearch.Decimal
