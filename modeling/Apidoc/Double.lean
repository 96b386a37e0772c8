namespace Apidoc

/-- The finite double `mantissa · 2 ^ exponent`, with its sign. -/
structure Double where
  negative : Bool
  mantissa : Nat
  exponent : Int
  deriving DecidableEq

namespace Double

/-- The quotient rounded to the nearest integer, a half going to the even neighbour. -/
def roundDiv (num den : Nat) : Nat :=
  let q := num / den
  let r := num % den
  if 2 * r > den ∨ (2 * r = den ∧ q % 2 = 1) then q + 1 else q

/-- `num · 2 ^ e / den` as a quotient of natural numbers. -/
def scaled (num den : Nat) (e : Int) : Nat × Nat :=
  if 0 ≤ e then (num * Nat.pow 2 e.toNat, den) else (num, den * Nat.pow 2 (-e).toNat)

/-- The greatest `e` with `2 ^ e ≤ num / den`, for positive numbers. -/
def log2Ratio (num den : Nat) : Int :=
  let e : Int := (num.log2 : Int) - den.log2
  let (n, d) := scaled num den (-e)
  if n < d then e - 1 else e

/-- The double nearest to `num / den`; `none` when it is too large. -/
def ofRatio (negative : Bool) (num den : Nat) : Option Double :=
  if num = 0 then some ⟨negative, 0, -1074⟩
  else
    let q := max (log2Ratio num den - 52) (-1074)
    let (n, d) := scaled num den (-q)
    let m := roundDiv n d
    let (m, q) := if m = Nat.pow 2 53 then (Nat.pow 2 52, q + 1) else (m, q)
    if q > 971 then none else some ⟨negative, m, q⟩

/-- The double as a quotient of natural numbers, without its sign. -/
def toRatio (x : Double) : Nat × Nat :=
  scaled x.mantissa 1 x.exponent

/-- The double nearest to `digits · 10 ^ e`; `none` when it is too large. -/
def ofDecimal (negative : Bool) (digits : Nat) (e : Int) : Option Double :=
  if digits = 0 then some ⟨negative, 0, -1074⟩
  else if e > 400 then none
  else if e + (digits.log2 + 1) < -400 then some ⟨negative, 0, -1074⟩
  else if 0 ≤ e then ofRatio negative (digits * Nat.pow 10 e.toNat) 1
  else ofRatio negative digits (Nat.pow 10 (-e).toNat)

/-- `a · b` and `a / b`, each rounded once. -/
def mul (a b : Double) : Option Double :=
  let (an, ad) := a.toRatio
  let (bn, bd) := b.toRatio
  ofRatio (a.negative != b.negative) (an * bn) (ad * bd)

def div (a b : Double) : Option Double :=
  let (an, ad) := a.toRatio
  let (bn, bd) := b.toRatio
  ofRatio (a.negative != b.negative) (an * bd) (ad * bn)

/-- A point `c · 10 ^ k` of the decimal grid that rounds to the double, if the grid has one; of two
the nearer. The double is `m · 2 ^ q`. -/
def onGrid? (m : Nat) (q k : Int) : Option Nat :=
  let below := if m = Nat.pow 2 52 ∧ q > -1074 then 1 else 2
  let (a, b) := scaled 1 1 (q - 2)
  let (a, b) := if 0 ≤ k then (a, b * Nat.pow 10 k.toNat) else (a * Nat.pow 10 (-k).toNat, b)
  let value := 4 * m * a
  let inside (c : Nat) : Bool :=
    if m % 2 = 0 then (4 * m - below) * a ≤ c * b && c * b ≤ (4 * m + 2) * a
    else (4 * m - below) * a < c * b && c * b < (4 * m + 2) * a
  let c := value / b
  let nearer := if 2 * (value % b) < b then [c, c + 1] else [c + 1, c]
  nearer.find? fun c => c > 0 && inside c

/-- Searches the grids from `10 ^ k` downward. -/
def searchGrid (m : Nat) (q : Int) : Nat → Int → Nat × Int
  | 0, k => (m, k)
  | n + 1, k =>
    match onGrid? m q k with
    | some c => (c, k)
    | none => searchGrid m q n (k - 1)

/-- The shortest decimal `c · 10 ^ k` that rounds to the double, of several the nearest. -/
def shortest (x : Double) : Nat × Int :=
  if x.mantissa = 0 then (0, 0)
  else
    let top := ((x.mantissa.log2 : Int) + x.exponent + 1) * 30103 / 100000 + 1
    searchGrid x.mantissa x.exponent 40 top

/-- Numbers from `1e-5` up to below `1e16` are written positionally with at least one decimal, all
others with an exponent. -/
def render (x : Double) : String :=
  let (c, k) := x.shortest
  let ds := Nat.toDigits 10 c
  let point := (ds.length : Int) + k
  let text :=
    if c = 0 then "0.0".toList
    else if 0 ≤ k ∧ point ≤ 16 then ds ++ List.replicate k.toNat '0' ++ ['.', '0']
    else if 0 < point ∧ point ≤ 16 then ds.take point.toNat ++ '.' :: ds.drop point.toNat
    else if -5 < point ∧ point ≤ 0 then
      ['0', '.'] ++ List.replicate (-point).toNat '0' ++ ds
    else
      let exp := (toString (point - 1)).toList
      match ds with
      | [d] => d :: 'e' :: exp
      | d :: rest => d :: '.' :: rest ++ 'e' :: exp
      | [] => []
  String.ofList (if x.negative then '-' :: text else text)

end Double

end Apidoc
