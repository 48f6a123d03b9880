/-! Binary floating point numbers of 64 bits, exactly: a finite one is a mantissa below 2 ^ 53 times
a power of two of at least 2 ^ -1074. A decimal is read as the nearest of them, a tie going to the
even mantissa, and written with the fewest digits that are nearer to it than to its neighbours, the
nearest such digits, without an exponent and with at least one digit after the point. -/

namespace TeenyToC

inductive Binary64 where
  | finite (negative : Bool) (mantissa : Nat) (exponent : Int)
  | infinity (negative : Bool)
  | nan
  deriving DecidableEq, Repr

namespace Binary64

/-- A negative exponent counts as zero, so that a scale is a numerator and a denominator. -/
def power (base : Nat) (exponent : Int) : Nat := Nat.pow base exponent.toNat

/-- The mantissas of full length run from here up to twice as much. -/
def leading : Nat := 0x10000000000000

def minExponent : Int := -1074

def maxExponent : Int := 971

/-- Nearest quotient, a tie going to the even one. -/
def roundDiv (num den : Nat) : Nat :=
  let q := num / den
  let r := num % den
  if 2 * r < den ∨ (2 * r = den ∧ q % 2 = 0) then q else q + 1

/-- The nearest number to a positive fraction. -/
def ofFraction (negative : Bool) (num den : Nat) : Binary64 :=
  let guess : Int := num.log2 - den.log2 - 53
  let scaled (q : Int) : Nat × Nat := (num * power 2 (-q), den * power 2 q)
  let fits (q : Int) : Bool := (scaled q).1 < 2 * leading * (scaled q).2
  let q := max minExponent (if fits guess then guess else guess + 1)
  let m := roundDiv (scaled q).1 (scaled q).2
  let (m, q) := if m = 2 * leading then (leading, q + 1) else (m, q)
  if maxExponent < q then .infinity negative else .finite negative m q

/-- The number of a decimal. Far outside the range of exponents its digits do not matter. -/
def ofDecimal (negative : Bool) (digits : Nat) (exponent : Int) : Binary64 :=
  let magnitude := exponent + (Nat.toDigits 10 digits).length
  if digits = 0 ∨ magnitude < -400 then .finite negative 0 minExponent
  else if 400 < magnitude then .infinity negative
  else ofFraction negative (digits * power 10 exponent) (power 10 (-exponent))

/-- On the grid of multiples of 10 ^ p, the nearer neighbour of m * 2 ^ q that reads back as it, the
upper one if both are as near. Distances are counted in quarters of 2 ^ q: half of it is the limit,
which counts only for an even mantissa, and a quarter below a power of two. -/
def neighbour? (m : Nat) (q p : Int) : Option Nat :=
  let unit := power 2 (q - 2) * power 10 (-p)
  let grid := power 2 (2 - q) * power 10 p
  let value := 4 * m * unit
  let low := (if m = leading ∧ minExponent < q then 4 * m - 1 else 4 * m - 2) * unit
  let high := (4 * m + 2) * unit
  let inside (g : Nat) : Bool :=
    if m % 2 = 0 then low ≤ g * grid && g * grid ≤ high else low < g * grid && g * grid < high
  let g := value / grid
  let below := g ≠ 0 && inside g
  if inside (g + 1) then
    if below && value - g * grid < (g + 1) * grid - value then some g else some (g + 1)
  else if below then some g
  else none

/-- The first grid with a neighbour that reads back, each being ten times as fine as the last. -/
def finest (m : Nat) (q : Int) : Nat → Int → Nat × Int
  | 0, p => (4 * m * power 2 (q - 2) * power 10 (-p) / (power 2 (2 - q) * power 10 p), p)
  | steps + 1, p =>
    match neighbour? m q p with
    | some g => (g, p)
    | none => finest m q steps (p - 1)

/-- The digits and the decimal exponent of a positive number. Seventeen digits are always enough. -/
def shortest (m : Nat) (q : Int) : Nat × Int :=
  let num := m * power 2 q
  let den := power 2 (-q)
  let top : Int :=
    if den ≤ num then (Nat.toDigits 10 (num / den)).length
    else 1 - (Nat.toDigits 10 (den / num)).length
  finest m q 20 top

/-- The decimal n * 10 ^ p without an exponent. -/
def positional (n : Nat) (p : Int) : List Char :=
  let digits := Nat.toDigits 10 n
  if 0 ≤ p then digits ++ List.replicate p.toNat '0' ++ ['.', '0']
  else
    let places := (-p).toNat
    let padded := List.replicate (places + 1 - digits.length) '0' ++ digits
    padded.take (padded.length - places) ++ '.' :: padded.drop (padded.length - places)

def text : Binary64 → String
  | finite negative m q =>
    let (n, p) := if m = 0 then (0, 0) else shortest m q
    String.ofList ((if negative then ['-'] else []) ++ positional n p)
  | infinity negative => if negative then "-inf" else "inf"
  | nan => "NaN"

example : (ofDecimal false 1 (-1)).text = "0.1" := by decide +kernel
example : (ofDecimal false 3 (-1)).text = "0.3" := by decide +kernel
example : (ofDecimal true 0 0).text = "-0.0" := by decide +kernel
example : (ofDecimal false 49406564584124654 (-340)).text =
    (ofDecimal false 5 (-324)).text := by decide +kernel
example : (ofDecimal false 1 23).text = "100000000000000000000000.0" := by decide +kernel
example : (ofDecimal false 17976931348623159 292) = .infinity false := by decide +kernel

end Binary64

end TeenyToC
