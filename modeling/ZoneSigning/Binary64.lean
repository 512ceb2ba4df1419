/-!
Double-precision numbers in exact arithmetic: rounding a quotient to the nearest number, reading a
decimal numeral, and writing the shortest decimal that reads back.
-/
namespace ZoneSigning

/-- The number `± significand · 2 ^ exponent`, with a significand below `2 ^ 53`. -/
structure Binary64 where
  negative : Bool
  significand : Nat
  exponent : Int
deriving DecidableEq, Repr, Inhabited

namespace Binary64

def significandBound : Nat := 9007199254740992

/-- The quotient `n / d` rounded to a whole number, a half going to the even neighbour. -/
def roundHalfEven (n d : Nat) : Nat :=
  let q := n / d
  let r := 2 * (n % d)
  if r < d || (r == d && q % 2 == 0) then q else q + 1

def scale (b : Nat) (n d : Nat) (e : Int) : Nat × Nat :=
  match e with
  | .ofNat k => (n * Nat.pow b k, d)
  | .negSucc k => (n, d * Nat.pow b (k + 1))

def ofQuotient (negative : Bool) (n d : Nat) : Option Binary64 :=
  if n = 0 then some ⟨negative, 0, -1074⟩
  else
    let estimate : Int := max (Int.ofNat n.log2 - Int.ofNat d.log2 - 53) (-1074)
    let (n₀, d₀) := scale 2 n d (-estimate)
    let e := if n₀ / d₀ ≥ significandBound then estimate + 1 else estimate
    let (n₁, d₁) := scale 2 n d (-e)
    let m := roundHalfEven n₁ d₁
    let (m, e) := if m = significandBound then (significandBound / 2, e + 1) else (m, e)
    if e > 971 then none else some ⟨negative, m, e⟩

def fraction (x : Binary64) : Nat × Nat := scale 2 x.significand 1 x.exponent

def powerOfTen (k : Nat) : Option Binary64 := ofQuotient false (Nat.pow 10 k) 1

def timesPowerOfTen (x : Binary64) (k : Nat) : Option Binary64 := do
  let (n, d) := x.fraction
  let (n', d') := (← powerOfTen k).fraction
  ofQuotient x.negative (n * n') (d * d')

/-- Divide by a power of ten that is itself rounded first. -/
def overPowerOfTen (x : Binary64) (k : Nat) : Option Binary64 := do
  let (n, d) := x.fraction
  let (n', d') := (← powerOfTen k).fraction
  ofQuotient x.negative (n * d') (d * n')

def topPower : Nat := 308

/-- Read `± digits · 10 ^ exponent`: the digits are rounded, then brought to their place by one
multiplication, or by divisions of at most `10 ^ 308` each. Nothing if the number is too large. -/
def ofDecimal (negative : Bool) (digits : Nat) (exponent : Int) : Option Binary64 := do
  let x ← ofQuotient negative digits 1
  if x.significand = 0 then return x
  match exponent with
  | .ofNat k => if k > topPower then none else x.timesPowerOfTen k
  | .negSucc k =>
    let k := k + 1
    if k ≤ topPower then x.overPowerOfTen k
    else
      let y ← x.overPowerOfTen topPower
      if y.significand = 0 then return y
      if k - topPower ≤ topPower then y.overPowerOfTen (k - topPower)
      else ofQuotient negative 0 1

def decimalLength (n d : Nat) (guess : Int) : Int :=
  let below (p : Int) : Bool := let (n', d') := scale 10 n d (-p); n' < d'
  if below (guess - 1) then guess - 1 else if below guess then guess
  else if below (guess + 1) then guess + 1 else guess + 2

/-- The shortest decimal `digits · 10 ^ exponent` that rounds to the magnitude of `x`, the nearest
one where several are as short. -/
def shortest (x : Binary64) : Nat × Int :=
  if x.significand = 0 then (0, 0)
  else
    let m := x.significand
    let closed := m % 2 == 0
    let below := if 2 * m = significandBound && x.exponent > -1074 then 1 else 2
    let (n, d) := x.fraction
    let length := decimalLength n d ((Int.ofNat m.log2 + x.exponent) * 30103 / 100000 + 1)
    let near (c : Nat) (g : Int) : Option Nat :=
      -- `c · 10 ^ g` against the ends of the interval, all in quarters of the last place
      let (cn, cd) := scale 10 (4 * c) 1 g
      let (vn, vd) := scale 2 1 1 x.exponent
      let value := cn * vd
      let unit := vn * cd
      let (low, high) := ((4 * m - below) * unit, (4 * m + 2) * unit)
      if (low < value || (closed && low == value)) && (value < high || (closed && value == high))
      then some (max value (4 * m * unit) - min value (4 * m * unit)) else none
    let grid (k : Nat) : Option (Nat × Int) :=
      let g := length - Int.ofNat (k + 1)
      let (n', d') := scale 10 n d (-g)
      let c := n' / d'
      match near c g, near (c + 1) g with
      | some a, some b =>
        some (if a < b || (a == b && c % 2 == 0) then c else c + 1, g)
      | some _, none => some (c, g)
      | none, some _ => some (c + 1, g)
      | none, none => none
    match (List.range 17).findSome? grid with
    | some (c, g) => (c, g)
    | none => (0, 0)

def stripZeros (c : Nat) (g : Int) : Nat × Int :=
  if c ≠ 0 ∧ c % 10 = 0 then stripZeros (c / 10) (g + 1) else (c, g)
termination_by c
decreasing_by omega

/-- The text of a number: positional from `0.00001` to below `10 ^ 16`, always with a point, and
otherwise with a signed exponent. -/
def text (x : Binary64) : String :=
  let sign := if x.negative then "-" else ""
  if x.significand = 0 then sign ++ "0.0"
  else
    let (c, g) := stripZeros x.shortest.1 x.shortest.2
    let digits := Nat.toDigits 10 c
    let zeros (k : Nat) : List Char := List.replicate k '0'
    let place := g + Int.ofNat digits.length - 1
    sign ++ String.ofList (
      if 0 ≤ place && place < 16 then
        let whole := place.toNat + 1
        if digits.length ≤ whole then digits ++ zeros (whole - digits.length) ++ ['.', '0']
        else digits.take whole ++ '.' :: digits.drop whole
      else if -5 ≤ place && place < 0 then
        '0' :: '.' :: (zeros ((-place).toNat - 1) ++ digits)
      else
        let mantissa := match digits with
          | [d] => [d]
          | d :: ds => d :: '.' :: ds
          | [] => []
        mantissa ++ 'e' :: (if place < 0 then '-' else '+') :: Nat.toDigits 10 place.natAbs)

end Binary64

end ZoneSigning
