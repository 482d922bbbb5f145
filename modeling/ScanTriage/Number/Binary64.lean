import ScanTriage.Number.Power

/-!
# Binary floating point

`Binary64` holds the values of the IEEE 754 format of that name as a sign, a
whole number and a power of two. Every operation computes the exact quotient
of two natural numbers and rounds it once, to the nearest value and to the
even one of two equally near.
-/

namespace ScanTriage

/-- A floating-point value. A finite one is `± mantissa * 2 ^ exponent` with
`mantissa < 2 ^ 53`. -/
inductive Binary64 where
  | finite (negative : Bool) (mantissa : Nat) (exponent : Int)
  | infinite (negative : Bool)
  | nan
  deriving DecidableEq

namespace Binary64

/-- `num / den` as a quotient of natural numbers after division by `2 ^ e`. -/
def scaled (num den : Nat) : Int → Nat × Nat
  | .ofNat e => (num, den * 2 ^ e)
  | .negSucc e => (num * 2 ^ (e + 1), den)

/-- The quotient rounded to the nearest natural number, ties to even. -/
def roundDiv (num den : Nat) : Nat :=
  let q := num / den
  let r := num % den
  if den < 2 * r || (2 * r == den && q % 2 == 1) then q + 1 else q

/-- The exponent at which the quotient has 53 binary digits, or the least one. -/
def fittingExponent (num den : Nat) : Int :=
  let e : Int := (num.log2 : Int) - (den.log2 : Int) - 52
  let (n, d) := scaled num den e
  max (if n / d < 2 ^ 52 then e - 1 else e) (-1074)

/-- The value nearest to `± num / den`. -/
def ofRatio (negative : Bool) (num den : Nat) : Binary64 :=
  if num == 0 then finite negative 0 0
  else
    let e := fittingExponent num den
    let (n, d) := scaled num den e
    let q := roundDiv n d
    let (q, e) := if q == 2 ^ 53 then (2 ^ 52, e + 1) else (q, e)
    if 971 < e then infinite negative
    else if q == 0 then finite negative 0 0
    else finite negative q e

def ofInt (n : Int) : Binary64 := ofRatio (n < 0) n.natAbs 1

/-- A finite value as sign, numerator and denominator. -/
def ratio (m : Nat) : Int → Nat × Nat
  | .ofNat e => (m * 2 ^ e, 1)
  | .negSucc e => (m, 2 ^ (e + 1))

/-- Division of a value by a nonzero finite one. -/
def div : Binary64 → Binary64 → Binary64
  | finite s m e, finite t k f =>
    let (n, d) := ratio m e
    let (n', d') := ratio k f
    ofRatio (s != t) (n * d') (d * n')
  | _, _ => nan

def mul : Binary64 → Binary64 → Binary64
  | finite s m e, finite t k f =>
    let (n, d) := ratio m e
    let (n', d') := ratio k f
    ofRatio (s != t) (n * n') (d * d')
  | _, _ => nan

def le : Binary64 → Binary64 → Bool
  | finite s m e, finite t k f =>
    let (n, d) := ratio m e
    let (n', d') := ratio k f
    let x : Int := if s then -(n : Int) else n
    let y : Int := if t then -(n' : Int) else n'
    x * d' ≤ y * d
  | _, _ => false

/-- The whole number next to a finite value on the side of zero. -/
def truncate? : Binary64 → Option Int
  | finite s m e =>
    let (n, d) := ratio m e
    some (if s then -((n / d : Nat) : Int) else ((n / d : Nat) : Int))
  | _ => none

/-! ## Decimal digits -/

/-- The decimal `0.d₁d₂… * 10 ^ point`. -/
structure Digits where
  digits : List Nat
  point : Int
  deriving DecidableEq

def natDigits : (fuel : Nat) → Nat → List Nat → List Nat
  | 0, _, acc => acc
  | fuel + 1, n, acc => if n < 10 then n :: acc else natDigits fuel (n / 10) (n % 10 :: acc)

/-- The least `k` with `num / den < 10 ^ k`, searched upward from `k`. -/
def decimalPoint (num den : Nat) : (fuel : Nat) → Int → Int
  | 0, k => k
  | fuel + 1, k =>
    let below : Bool :=
      match k with
      | .ofNat k => num < den * 10 ^ k
      | .negSucc k => num * 10 ^ (k + 1) < den
    if below then k else decimalPoint num den fuel (k + 1)

/-- The values that round to `m * 2 ^ e`, as four numerators over one
denominator: the lower end, the value, the upper end, and the denominator. -/
def neighbourhood (m : Nat) (e : Int) : Nat × Nat × Nat × Nat :=
  let (n, d) := ratio m e
  let unit := n / m
  let below := if m == 2 ^ 52 && -1074 < e then 1 else 2
  (4 * n - below * unit, 4 * n, 4 * n + 2 * unit, 4 * d)

/-- A decimal with `count` digits in the neighbourhood, the nearest one. -/
def digitsOfLength? (m : Nat) (e : Int) (point : Int) (count : Nat) : Option Nat :=
  let (low, value, high, den) := neighbourhood m e
  -- The grid of decimals with `count` digits: multiples of `10 ^ (point - count)`.
  let (up, down) : Nat × Nat :=
    match point - count with
    | .ofNat k => (10 ^ k, 1)
    | .negSucc k => (1, 10 ^ (k + 1))
  let holds (c : Nat) : Bool :=
    let x := c * up * den
    if m % 2 == 0 then low * down ≤ x && x ≤ high * down else low * down < x && x < high * down
  let c := value * down / (den * up)
  let r := value * down - c * up * den
  let r' := (c + 1) * up * den - value * down
  match holds c, holds (c + 1) with
  | true, true => some (if r < r' || (r == r' && c % 2 == 0) then c else c + 1)
  | true, false => some c
  | false, true => some (c + 1)
  | false, false => none

def dropTrailingZeros (ds : List Nat) : List Nat := (ds.reverse.dropWhile (· == 0)).reverse

def shortestFrom (m : Nat) (e : Int) (point : Int) : (fuel count : Nat) → Digits
  | 0, _ => ⟨[], 0⟩
  | fuel + 1, count =>
    match digitsOfLength? m e point count with
    | some c =>
      let ds := natDigits 20 c []
      ⟨dropTrailingZeros ds, point + ((ds.length : Int) - count)⟩
    | none => shortestFrom m e point fuel (count + 1)

/-- The fewest digits that round back to `m * 2 ^ e`. -/
def shortest (m : Nat) (e : Int) : Digits :=
  if m == 0 then ⟨[], 0⟩
  else
    let (n, d) := ratio m e
    let guess : Int := ((n.log2 : Int) - (d.log2 : Int) - 1) * 30103 / 100000 - 1
    shortestFrom m e (decimalPoint n d 8 guess) 18 1

end Binary64

end ScanTriage
