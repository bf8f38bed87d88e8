import MicroC.Decimal.Integer

/-!
# Binary floating point in decimal

A `Binary64` is a number of the 64-bit binary format, kept as an exact mantissa and exponent.
Reading rounds a decimal numeral to the nearest such number; writing gives the fewest digits that
read back as the same number. Both use exact arithmetic on natural numbers.

* `nearest`: rounds a fraction, a half to the even mantissa.
* `Binary64.shortest`: the fewest decimal digits inside the rounding interval.
* `Binary64.ofDecimal?`, `Binary64.text`: the numeral as it is read and written.
-/

namespace MicroC

/-- A number of the 64-bit binary format. `finite n m e` is `m * 2 ^ e`, negated when `n` holds. -/
inductive Binary64
  | finite (negative : Bool) (mantissa : Nat) (exponent : Int)
  | infinite (negative : Bool)
  | nan
deriving DecidableEq, Repr

namespace Binary64

/-- The least exponent of the format. -/
def minExponent : Int := -1074

/-- The greatest exponent of the format. -/
def maxExponent : Int := 971

/-- Mantissas have at most 53 bits. -/
def mantissaLimit : Nat := 9007199254740992

/-! ## Rounding -/

/-- The natural number nearest to `n / d`, the even one when two are equally near. -/
def roundDiv (n d : Nat) : Nat :=
  let q := n / d
  let r := n % d
  if d < 2 * r ∨ (2 * r = d ∧ q % 2 = 1) then q + 1 else q

/-- The fraction `n / d` divided by a power of two. -/
def scale (n d : Nat) (e : Int) : Nat × Nat :=
  if 0 ≤ e then (n, d * Nat.pow 2 e.toNat) else (n * Nat.pow 2 (-e).toNat, d)

/-- The mantissa of `n / d` at exponent `e`. -/
def mantissaAt (n d : Nat) (e : Int) : Nat :=
  let (a, b) := scale n d e
  roundDiv a b

/-- The number nearest to the positive fraction `n / d`: its mantissa has 53 bits, or fewer at the
least exponent. -/
def nearest (negative : Bool) (n d : Nat) : Binary64 :=
  let low := max ((n.log2 : Int) - (d.log2 : Int) - 53) minExponent
  let e := if mantissaAt n d low < mantissaLimit then low else low + 1
  let m := mantissaAt n d e
  let (m, e) := if m < mantissaLimit then (m, e) else (m / 2, e + 1)
  if maxExponent < e then .infinite negative else .finite negative m e

/-! ## The fewest digits -/

/-- The number `k` with `10 ^ (k - 1) ≤ n / d < 10 ^ k`. -/
def decimalPoint (n d : Nat) : Int :=
  if d ≤ n then ((Decimal.digits (n / d)).length : Int)
  else
    let t := (Decimal.digits (d / n)).length
    if n * Nat.pow 10 (t - 1) = d then 2 - t else 1 - t

/-- The rounding interval of `mantissa * 2 ^ exponent` in quarters of `2 ^ exponent`: the ends, and
whether they belong to it. Below a power of two the neighbour is only half as far away. -/
def interval (m : Nat) (e : Int) : Nat × Nat × Bool :=
  (if 2 * m = mantissaLimit ∧ minExponent < e then 4 * m - 1 else 4 * m - 2, 4 * m + 2, m % 2 == 0)

/-- Whether `c * 10 ^ t` lies in the rounding interval of `m * 2 ^ e`. -/
def reads (m : Nat) (e : Int) (c : Nat) (t : Int) : Bool :=
  let (lo, hi, closed) := interval m e
  let (a, b) := scale c 1 (e - 2)
  let (a, b) := if 0 ≤ t then (a * Nat.pow 10 t.toNat, b) else (a, b * Nat.pow 10 (-t).toNat)
  if closed then lo * b ≤ a ∧ a ≤ hi * b else lo * b < a ∧ a < hi * b

/-- The numeral of `n` digits nearest to `m * 2 ^ e` that reads back, as a whole number and a power
of ten; `k` is the place of the decimal point. On the grid of `n` digits only the two neighbours of
the number can qualify, and the upper one wins at equal distance. -/
def candidate? (m : Nat) (e k : Int) (n : Nat) : Option (Nat × Int) :=
  let t := k - n
  let (a, b) := scale m 1 (-e)
  let (a, b) := if 0 ≤ t then (a, b * Nat.pow 10 t.toNat) else (a * Nat.pow 10 (-t).toNat, b)
  let c := a / b
  match reads m e c t, reads m e (c + 1) t with
  | true, true => some (if b ≤ 2 * (a % b) then c + 1 else c, t)
  | true, false => some (c, t)
  | false, true => some (c + 1, t)
  | false, false => none

/-- The fewest digits that read back as the positive number `m * 2 ^ e`. Seventeen always do. -/
def shortest (m : Nat) (e : Int) : Nat × Int :=
  let (a, b) := scale m 1 (-e)
  ((List.range' 1 17).findSome? (candidate? m e (decimalPoint a b))).getD (0, 0)

/-! ## Numerals -/

/-- `0.digits * 10 ^ point`, written out between `10 ^ -4` and `10 ^ 16` with a fraction, and with an
exponent elsewhere. -/
def layout (ds : List Char) (point : Int) : List Char :=
  if -3 ≤ point ∧ point ≤ 16 then
    if point ≤ 0 then '0' :: '.' :: List.replicate (-point).toNat '0' ++ ds
    else if ds.length ≤ point.toNat then
      ds ++ List.replicate (point.toNat - ds.length) '0' ++ ['.', '0']
    else ds.take point.toNat ++ '.' :: ds.drop point.toNat
  else
    let fraction := if ds.length ≤ 1 then [] else '.' :: ds.drop 1
    ds.take 1 ++ fraction ++ 'e' :: Decimal.intChars (point - 1)

/-- Drops the zeros at the end of a list of digits. -/
def dropTrailingZeros (ds : List Char) : List Char := (ds.reverse.dropWhile (· == '0')).reverse

/-- The number in decimal: the fewest digits that read back, with a point or an exponent. -/
def text : Binary64 → String
  | .nan => "NaN"
  | .infinite negative => if negative then "-inf" else "inf"
  | .finite negative m e =>
    let body :=
      if m = 0 then ['0', '.', '0']
      else
        let (c, t) := shortest m e
        let ds := Decimal.digits c
        layout (dropTrailingZeros ds) (t + ds.length)
    String.ofList (if negative then '-' :: body else body)

/-- The number nearest to `digits * 10 ^ exponent`. Numerals far outside the format are settled by
their magnitude alone. -/
def ofDigits (negative : Bool) (ds : List Char) (exponent : Int) : Binary64 :=
  let ds := ds.dropWhile (· == '0')
  let point := exponent + ds.length
  if ds = [] ∨ point < -330 then .finite negative 0 minExponent
  else if 310 < point then .infinite negative
  else if 0 ≤ exponent then nearest negative (Decimal.value ds * Nat.pow 10 exponent.toNat) 1
  else nearest negative (Decimal.value ds) (Nat.pow 10 (-exponent).toNat)

/-- An exponent: nothing, or `e` and a signed numeral. -/
def exponent? : List Char → Option Int
  | [] => some 0
  | c :: cs => if c = 'e' ∨ c = 'E' then Decimal.int? cs else none

/-- An unsigned numeral: digits with at most one point and at least one digit, and an exponent. -/
def unsigned? (negative : Bool) (cs : List Char) : Option Binary64 :=
  let whole := cs.takeWhile Char.isDigit
  let (fraction, rest) := match cs.dropWhile Char.isDigit with
    | '.' :: ds => (ds.takeWhile Char.isDigit, ds.dropWhile Char.isDigit)
    | ds => ([], ds)
  if whole = [] ∧ fraction = [] then none
  else (exponent? rest).map fun x =>
    ofDigits negative (whole ++ fraction) (x - fraction.length)

/-- An unsigned number: `inf`, `infinity` and `nan` in any case, or a numeral. -/
def magnitude? (negative : Bool) (cs : List Char) : Option Binary64 :=
  let word := String.ofList (cs.map Char.toLower)
  if word = "inf" ∨ word = "infinity" then some (.infinite negative)
  else if word = "nan" then some .nan
  else unsigned? negative cs

/-- The number that a decimal numeral denotes, with at most one sign in front. -/
def ofDecimal? (numeral : String) : Option Binary64 :=
  match numeral.toList with
  | '-' :: cs => magnitude? true cs
  | '+' :: cs => magnitude? false cs
  | cs => magnitude? false cs

end Binary64

end MicroC
