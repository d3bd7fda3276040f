namespace GoCompact

-- The mantissa of a finite number has 53 bits, unless its exponent is the least one.
inductive Binary64
  | nan
  | infinite (negative : Bool)
  | finite (negative : Bool) (mantissa : Nat) (exponent : Int)
deriving DecidableEq, Repr, Inhabited

namespace Binary64

-- A positive decimal: its digits as a number, times a power of ten.
structure Decimal where
  digits : Nat
  exponent : Int
deriving DecidableEq, Repr

def leastExponent : Int := -1074

def greatestExponent : Int := 971

-- A mantissa has at most 53 bits.
def mantissaBound : Nat := 0x20000000000000

-- The quotient rounded to the nearest number, a half to the even one.
def nearest (num den : Nat) : Nat :=
  let q := num / den
  let r := num % den
  if 2 * r < den then q else if den < 2 * r then q + 1 else q + q % 2

-- A fraction divided by a power of two.
def scaled (num den : Nat) (e : Int) : Nat × Nat :=
  if 0 ≤ e then (num, den * Nat.pow 2 e.toNat) else (num * Nat.pow 2 (-e).toNat, den)

-- The exponent at which the value of a positive fraction has a mantissa of 53 bits, or the least.
def exponentOf (num den : Nat) : Int :=
  let guess : Int := num.log2 - den.log2 - 53
  let (n, d) := scaled num den guess
  max leastExponent (if n / d < mantissaBound then guess else guess + 1)

-- The number nearest to a positive fraction.
def ofFraction (negative : Bool) (num den : Nat) : Binary64 :=
  let e := exponentOf num den
  let (n, d) := scaled num den e
  let m := nearest n d
  let (m, e) := if m < mantissaBound then (m, e) else (mantissaBound / 2, e + 1)
  if e ≤ greatestExponent then .finite negative m e else .infinite negative

def zero (negative : Bool) : Binary64 := .finite negative 0 leastExponent

-- The number of decimal digits of a positive number.
def digitCount (n : Nat) : Nat := (Nat.toDigits 10 n).length

-- The number nearest to a decimal. Outside these powers of ten every decimal is infinite or zero,
-- so that no large power is computed.
def ofDecimal (negative : Bool) (d : Decimal) : Binary64 :=
  let top := d.exponent + digitCount d.digits
  if d.digits = 0 ∨ top < -330 then zero negative
  else if 310 < top then .infinite negative
  else if 0 ≤ d.exponent then ofFraction negative (d.digits * Nat.pow 10 d.exponent.toNat) 1
  else ofFraction negative d.digits (Nat.pow 10 (-d.exponent).toNat)

-- The value of a mantissa and an exponent as a fraction.
def fraction (m : Nat) (e : Int) : Nat × Nat :=
  if 0 ≤ e then (m * Nat.pow 2 e.toNat, 1) else (m, Nat.pow 2 (-e).toNat)

-- A fraction divided by a power of ten.
def scaledTen (num den : Nat) (e : Int) : Nat × Nat :=
  if 0 ≤ e then (num, den * Nat.pow 10 e.toNat) else (num * Nat.pow 10 (-e).toNat, den)

-- The power of ten of the leading digit of a fraction, found from a guess that is at most two off.
def leadingPower (num den : Nat) : Int :=
  let guess : Int := (digitCount num : Int) - digitCount den
  let fits (k : Int) : Bool := let (n, d) := scaledTen num den k; d ≤ n
  if fits guess then guess else if fits (guess - 1) then guess - 1 else guess - 2

-- The neighbours of a value among the multiples of a power of ten, the nearer one first.
def neighbours (num den : Nat) (power : Int) : List Decimal :=
  let (n, d) := scaledTen num den power
  let q := n / d
  let r := n % d
  let below : Decimal := ⟨q, power⟩
  let above : Decimal := ⟨q + 1, power⟩
  if 2 * r < d ∨ (2 * r = d ∧ q % 2 = 0) then [below, above] else [above, below]

-- The first grid of decimals, by number of digits, that holds one which reads back.
def shortestFrom (m : Nat) (e : Int) (lead : Int) : Nat → Nat → Option Decimal
  | 0, _ => none
  | rounds + 1, digits =>
    let (num, den) := fraction m e
    let candidates := neighbours num den (lead - digits + 1)
    match candidates.find? (fun d => ofDecimal false d = .finite false m e) with
    | some d => some d
    | none => shortestFrom m e lead rounds (digits + 1)

-- The shortest decimal that reads back as a positive number; seventeen digits always do.
def shortest (m : Nat) (e : Int) : Decimal :=
  let (num, den) := fraction m e
  (shortestFrom m e (leadingPower num den) 17 1).getD ⟨m, 0⟩

def dropTrailingZeros : List Char → List Char := fun ds =>
  (ds.reverse.dropWhile (· == '0')).reverse

-- Positional between 10^-4 and 10^16, always with a fraction part; otherwise one digit before the
-- point and a signed exponent of at least two digits.
def layout (digits : List Char) (lead : Int) : List Char :=
  if lead < -4 ∨ 16 ≤ lead then
    let power := (toString lead.natAbs).toList
    let mark := if lead < 0 then ['e', '-'] else ['e', '+']
    let tail := match digits.drop 1 with
      | [] => []
      | rest => '.' :: rest
    digits.take 1 ++ tail ++ mark ++ (if power.length < 2 then '0' :: power else power)
  else if lead < 0 then
    ['0', '.'] ++ List.replicate (lead.natAbs - 1) '0' ++ digits
  else
    let whole := lead.toNat + 1
    let padded := digits ++ List.replicate (whole - digits.length) '0'
    padded.take whole ++ ['.'] ++ (if padded.length ≤ whole then ['0'] else padded.drop whole)

-- The digits of a finite number that is not negative.
def magnitude (m : Nat) (e : Int) : List Char :=
  if m = 0 then ['0', '.', '0']
  else
    let d := shortest m e
    let digits := Nat.toDigits 10 d.digits
    layout (dropTrailingZeros digits) (d.exponent + digits.length - 1)

-- The written form, with the given words for the values that are no numbers.
def textWith (nan infinity : String) : Binary64 → String
  | .nan => nan
  | .infinite negative => if negative then "-" ++ infinity else infinity
  | .finite negative m e => String.ofList ((if negative then ['-'] else []) ++ magnitude m e)

def text : Binary64 → String := textWith "nan" "inf"

-- Zero has two signs and one value.
def isZero : Binary64 → Bool
  | .finite _ m _ => m == 0
  | _ => false

def isPositive : Binary64 → Bool
  | .finite negative m _ => !negative && m != 0
  | .infinite negative => !negative
  | .nan => false

-- The greatest whole number that is not above a finite value.
def floor? : Binary64 → Option Int
  | .finite negative m e =>
    let (num, den) := fraction m e
    some (if negative then -((num + den - 1) / den : Nat) else (num / den : Nat))
  | _ => none

-- The whole number that a value equals, if it equals one.
def toInt? : Binary64 → Option Int
  | .finite negative m e =>
    let (num, den) := fraction m e
    if num % den = 0 then some (if negative then -(num / den : Nat) else (num / den : Nat)) else none
  | _ => none

end Binary64

end GoCompact
