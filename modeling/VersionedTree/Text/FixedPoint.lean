/-!
# Ratios in fixed-point text

A ratio of two counts is held as a binary number of 53 significant bits and written with six
decimal places. Both steps round to the nearest number, ties to the even one.
-/

namespace VersionedTree.FixedPoint

/-- `num / den` rounded to the nearest whole number, a tie to the even neighbour. -/
def roundDiv (num den : Nat) : Nat :=
  let q := num / den
  let twice := 2 * (num % den)
  if den < twice || (twice == den && q % 2 == 1) then q + 1 else q

/-- The binary places that give `num / den` 53 significant bits. -/
def places (num den : Nat) : Nat :=
  let guess := 52 + den.log2 - num.log2
  if (num <<< guess) / den < 1 <<< 52 then guess + 1 else guess

/-- The ratio `num / den` in millionths. The ratio is at most 1 and `den` is positive. -/
def millionths (num den : Nat) : Nat :=
  if num = 0 then 0
  else
    let binary := places num den
    roundDiv (roundDiv (num <<< binary) den * 1000000) (1 <<< binary)

def sixDigits (n : Nat) : String :=
  let digits := Nat.toDigits 10 (n % 1000000)
  String.ofList (List.replicate (6 - digits.length) '0' ++ digits)

/-- The text of the ratio `num / den`, with six places behind the point. -/
def ratio (num den : Nat) : String :=
  let n := millionths num den
  toString (n / 1000000) ++ "." ++ sixDigits n

end VersionedTree.FixedPoint
