import UriTemplate.Text.Basic

/-!
# Numbers and their decimal texts

A binary64 number is not a number, an infinity, or a sign and a magnitude `m * 2^q`. The last place
`q` is as low as 53 binary digits allow but never below -1074, so two finite numbers are equal as
numbers just when they agree in sign, `m` and `q`, or both are zero.

* `natText`, `intText`   integers in base ten. Texts with more than `maxDigits` digits are neither
                         read nor written where a number may be of any size;
* `Binary64.toInt?`      the integer that a number is;
* `Binary64.shortest`    the fewest decimal digits that read back to a magnitude, by exact integer
                         arithmetic;
* `Binary64.toText`      their layout: positional for numbers from `1e-4` to below `1e16`, with a
                         point always; otherwise with an exponent, its sign and two digits at least.

A decimal reads back to `m * 2^q` if it lies between the midpoints to the two neighbours of that
number, the midpoints included if `m` is even. On the grid of a power of ten, if a point reads back,
so does one of the two that enclose the number; of two that do, the nearer is taken, on a tie the
even one.
-/

namespace UriTemplate

/-! ### integers -/

def natText (n : Nat) : Text := Nat.toDigits 10 n

def intText : Int → Text
  | .ofNat n => natText n
  | .negSucc n => '-' :: natText (n + 1)

/-- the number of digits that integers are read and written with -/
def maxDigits : Nat := 4300

/-- what is said of an integer with more digits, between the limit and what to do about it -/
def digitLimitExceeded (detail : Text) : Text :=
  "Exceeds the limit (".toList ++ natText maxDigits ++
    " digits) for integer string conversion".toList ++ detail ++
    "; use sys.set_int_max_str_digits() to increase the limit".toList

/-! ### binary64 numbers -/

inductive Binary64 where
  | nan
  | infinity (negative : Bool)
  | finite (negative : Bool) (m : Nat) (q : Int)
deriving DecidableEq, Repr

namespace Binary64

/-- the least last place -/
def lowest : Int := -1074

/-- what `m` stays below -/
def capacity : Nat := 0x20000000000000

/-- the integer that it is, if it is one -/
def toInt? : Binary64 → Option Int
  | finite negative m q =>
    let scaled := m * Nat.pow 2 q.toNat
    let unit := Nat.pow 2 (-q).toNat
    if scaled % unit = 0 then
      let n : Int := (scaled / unit : Nat)
      some (if negative then -n else n)
    else none
  | _ => none

example : (finite true 0 lowest).toInt? = some 0 ∧ (finite true 6 (-1)).toInt? = some (-3)
    ∧ (finite false 1 (-1)).toInt? = none := by decide +kernel

/-! ### decimal texts -/

/-- a magnitude between the midpoints to its neighbours, in quarters of its last place -/
structure Interval where
  low : Nat
  value : Nat
  high : Nat
  /-- whether the midpoints themselves read back to it -/
  closed : Bool

/-- Below a power of two the neighbour is only half as far away. -/
def interval (m : Nat) (q : Int) : Interval where
  low := if 2 * m = capacity ∧ lowest < q then 4 * m - 1 else 4 * m - 2
  value := 4 * m
  high := 4 * m + 2
  closed := m % 2 == 0

/-- the points `d * grid` of a grid that is given as the fraction `grid / unit` of a quarter place -/
def Interval.contains (i : Interval) (grid unit d : Nat) : Bool :=
  let x := d * grid
  if i.closed then i.low * unit ≤ x && x ≤ i.high * unit else i.low * unit < x && x < i.high * unit

/-- the point of the grid that reads back, if there is one: the nearer of two -/
def Interval.pick? (i : Interval) (grid unit : Nat) : Option Nat :=
  let d := i.value * unit / grid
  match i.contains grid unit d, i.contains grid unit (d + 1) with
  | false, false => none
  | true, false => some d
  | false, true => some (d + 1)
  | true, true =>
    match compare (2 * i.value * unit) ((2 * d + 1) * grid) with
    | .lt => some d
    | .gt => some (d + 1)
    | .eq => some (if d % 2 = 0 then d else d + 1)

/-- the least `k` with `m * 2^q < 10^k` -/
def scale (m : Nat) (q : Int) : Int :=
  let num := m * Nat.pow 2 q.toNat
  let den := Nat.pow 2 (-q).toNat
  if den ≤ num then (natText (num / den)).length
  else 1 - ((List.range 400).find? fun j => den ≤ num * Nat.pow 10 j).getD 0

/-- Digits `d` and an exponent `g` such that `d * 10^g` reads back to `m * 2^q`, where `m` is not
zero: the first hit on the grids that give one digit, two digits, and so on. Seventeen digits always
suffice; failing that, the number is written out. -/
def shortest (m : Nat) (q : Int) : Nat × Int :=
  let i := interval m q
  let k := scale m q
  let hit := (List.range 17).findSome? fun (n : Nat) =>
    let g := k - 1 - n
    let grid := Nat.pow 10 g.toNat * Nat.pow 2 (2 - q).toNat
    let unit := Nat.pow 10 (-g).toNat * Nat.pow 2 (q - 2).toNat
    (i.pick? grid unit).map fun d => (d, g)
  hit.getD (m * Nat.pow 2 q.toNat * Nat.pow 5 (-q).toNat, -((-q).toNat : Int))

/-- the digits without the zeros at their end -/
def significant (ds : Text) : Text := (ds.reverse.dropWhile (· = '0')).reverse

/-- lays out a number `0.ds * 10^(e + 1)`: positionally for `-4 ≤ e < 16` -/
def layout (ds : Text) (e : Int) : Text :=
  if 0 ≤ e && e < 16 then
    let whole := e.toNat + 1
    let padded := ds ++ List.replicate (whole - ds.length) '0'
    let fraction := ds.drop whole
    padded.take whole ++ '.' :: (if fraction.isEmpty then ['0'] else fraction)
  else if -4 ≤ e && e < 0 then
    '0' :: '.' :: (List.replicate ((-e).toNat - 1) '0' ++ ds)
  else
    let tail := ds.drop 1
    let exponent := natText e.natAbs
    ds.take 1 ++ (if tail.isEmpty then [] else '.' :: tail) ++
      'e' :: (if e < 0 then '-' else '+') :: (List.replicate (2 - exponent.length) '0' ++ exponent)

def toText : Binary64 → Text
  | nan => ['n', 'a', 'n']
  | infinity negative => (if negative then ['-'] else []) ++ ['i', 'n', 'f']
  | finite negative m q =>
    (if negative then ['-'] else []) ++
      if m = 0 then ['0', '.', '0']
      else
        let (d, g) := shortest m q
        let ds := natText d
        layout (significant ds) (g + ds.length - 1)

end Binary64
end UriTemplate
