/-!
# Halvings from a logarithm

`ceilLog2 q` is the least integer that is not below the binary logarithm of `q ≥ 1`, where the
logarithm is rounded to the nearest float before the integer is taken.

For `q = 2 ^ k * (1 + j / 2 ^ 52)` with `0 < j` the logarithm lies strictly between `k` and
`k + 1`, so the answer is `k + 1` unless rounding carries the logarithm down to `k`. It does so
when the part above `k`, which is nearly `j / (2 ^ 52 * log 2)`, is less than half the spacing of
the floats at `k`. With the spacing `2 ^ (s - 52)` that is `2 * j < 2 ^ s * log 2`. Here `s` is at
most 9, as `k` is below 1024, and none of these limits is so near a whole number that the terms
left out would matter.
-/

namespace ZeroSearch.Binary64

/-- The natural logarithm of 2 in units of `10 ^ -16`. -/
def logTwo : Nat := 6931471805599453

/-- Whether `k + log2 (1 + j / 2 ^ 52)` rounds to `k`. The floats at `k` are `2 ^ (k.log2 - 52)`
apart; at 0 they are so dense that nothing is lost. -/
def absorbs (k j : Nat) : Bool :=
  decide (0 < k) && decide (2 * j * 10000000000000000 < logTwo <<< k.log2)

/-- The float is taken to be at least 1; zero, infinities and NaN give 0. -/
def ceilLog2 (q : Float) : Nat :=
  match q.toModel.unpack with
  | .finite _ m e _ =>
    let k := (e + 52).toNat
    let j := m - 0x10000000000000
    if j = 0 ∨ absorbs k j then k else k + 1
  | _ => 0

end ZeroSearch.Binary64
