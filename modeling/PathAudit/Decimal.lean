/-! The shortest decimal text of a binary floating point number: the fewest digits that read
back as the number, and of those the nearest to it. -/

namespace PathAudit

/-- The number `digits · 10 ^ exponent`. -/
structure Decimal where
  digits : Nat
  exponent : Int
deriving DecidableEq, Repr

namespace Decimal

/-- Compares `x · 2 ^ q` with `c · 10 ^ k`. -/
def compareBinary (x : Nat) (q : Int) (c : Nat) (k : Int) : Ordering :=
  compare ((x <<< q.toNat) * Nat.pow 10 (-k).toNat) ((c * Nat.pow 10 k.toNat) <<< (-q).toNat)

/-- The whole number of times that `10 ^ k` goes into `x · 2 ^ q`. -/
def quotient (x : Nat) (q k : Int) : Nat :=
  (x <<< q.toNat) * Nat.pow 10 (-k).toNat / (Nat.pow 10 k.toNat <<< (-q).toNat)

/-- The multiple of `10 ^ k` that reads back as `mid · 2 ^ q`, if one does: of the two next to
it the nearer, the even one when they are equally near. All numbers between `low` and `high`
read back, these two when `closed`. -/
def onGrid? (low mid high : Nat) (closed : Bool) (q k : Int) : Option Nat :=
  let below := quotient mid q k
  let reads := fun c =>
    let l := compareBinary low q c k
    let h := compareBinary high q c k
    c != 0 && (l == .lt || (closed && l == .eq)) && (h == .gt || (closed && h == .eq))
  match reads below, reads (below + 1) with
  | true, true =>
    match compareBinary (2 * mid) q (2 * below + 1) k with
    | .lt => some below
    | .gt => some (below + 1)
    | .eq => some (if below % 2 = 0 then below else below + 1)
  | true, false => some below
  | false, true => some (below + 1)
  | false, false => none

/-- Looks for a grid with a number that reads back, from `10 ^ k` down, on `fuel` grids. -/
def search (low mid high : Nat) (closed : Bool) (q : Int) : Nat → Int → Decimal
  | 0, k => ⟨quotient mid q k, k⟩
  | fuel + 1, k =>
    match onGrid? low mid high closed q k with
    | some c => ⟨c, k⟩
    | none => search low mid high closed q fuel (k - 1)

/-- The shortest decimal that reads back as the finite positive number with the exponent and the
fraction bits of a double. The numbers that read back reach half way to its neighbours, of which
the lower one is nearer at a power of two. -/
def ofBits (exponent fraction : Nat) : Decimal :=
  let mantissa := if exponent = 0 then fraction else fraction + (1 <<< 52)
  let q : Int := (if exponent = 0 then 1 else exponent) - 1075
  let gap := if fraction = 0 ∧ exponent > 1 then 1 else 2
  search (4 * mantissa - gap) (4 * mantissa) (4 * mantissa + 2) (mantissa % 2 = 0) (q - 2) 640 309

/-- Where positional notation ends: a number whose point comes after more digits than `most`, or
before more zeros than `leading`, is written with an exponent. -/
structure Style where
  most : Option Nat
  leading : Option Nat
deriving DecidableEq, Repr

def exponentText (n : Int) : String :=
  if n < 0 then toString n else "+" ++ toString n

def text (style : Style) (d : Decimal) : String :=
  let digits := Nat.toDigits 10 d.digits
  let point : Int := digits.length + d.exponent
  let positional := style.most.all (point ≤ ·) && style.leading.all (-point ≤ ·)
  String.ofList <|
    if !positional then
      let tail := digits.drop 1
      digits.take 1 ++ (if tail.isEmpty then [] else '.' :: tail) ++
        'e' :: (exponentText (point - 1)).toList
    else if d.exponent ≥ 0 then
      digits ++ List.replicate d.exponent.toNat '0' ++ ['.', '0']
    else if point > 0 then
      digits.take point.toNat ++ '.' :: digits.drop point.toNat
    else
      '0' :: '.' :: List.replicate (-point).toNat '0' ++ digits

def ofFloat (style : Style) (x : Float) : String :=
  let bits := x.toBits.toNat
  let sign := if bits >>> 63 = 1 then "-" else ""
  let exponent := (bits >>> 52) % 2048
  let fraction := bits % (1 <<< 52)
  if exponent = 2047 then
    if fraction = 0 then sign ++ "inf" else "NaN"
  else if exponent = 0 ∧ fraction = 0 then sign ++ "0.0"
  else sign ++ text style (ofBits exponent fraction)

/-- The floating point number nearest to a decimal. Numbers too large for one are infinite. -/
def toFloat (d : Decimal) : Float :=
  let size : Int := (Nat.toDigits 10 d.digits).length + d.exponent
  if d.digits = 0 ∨ size < -400 then 0.0
  else if size > 400 then 1.0 / 0.0
  else if d.exponent ≥ 0 then Float.ofScientific d.digits false d.exponent.toNat
  else Float.ofScientific d.digits true (-d.exponent).toNat

end Decimal

end PathAudit
