/-!
# LoopDiff.Decimal.Shortest

The shortest decimal that reads back as a given binary number.

A binary number `m * 2 ^ q` stands for every real that rounds to it: an
interval that reaches half a step to either side and contains its ends
exactly when `m` is even.  A decimal reads back as the number if and only
if it lies in that interval.

`shortest` walks the grids `10 ^ e` from coarse to fine.  On each grid
only the two neighbours of the number can be in the interval when any
point is, so the first grid with a neighbour inside gives the fewest
digits.  Of two such neighbours the nearer is taken, and the upper one if
they are equally near.  All comparisons are between naturals.
-/

namespace LoopDiff

/-- The number `digits * 10 ^ exponent`. -/
structure Decimal where
  digits : Nat
  exponent : Int
deriving DecidableEq, Repr

namespace Decimal

/-- A positive binary number `mantissa * 2 ^ exponent`.  Where the step
below the number is half the step above it, `halfBelow` is set. -/
structure Source where
  mantissa : Nat
  exponent : Int
  halfBelow : Bool
deriving DecidableEq, Repr

/-- A quarter step is `2 ^ (exponent - 2)`; `scaled s e x` and
`grid s e d` put `x` quarter steps and `d` grid steps on one scale. -/
def Source.scaled (s : Source) (e : Int) (x : Nat) : Nat :=
  x * Nat.pow 2 (s.exponent - 2).toNat * Nat.pow 10 (-e).toNat

@[inherit_doc Source.scaled]
def Source.grid (s : Source) (e : Int) (d : Nat) : Nat :=
  d * Nat.pow 10 e.toNat * Nat.pow 2 (2 - s.exponent).toNat

/-- Whether `d * 10 ^ e` rounds to the number. -/
def Source.covers (s : Source) (e : Int) (d : Nat) : Bool :=
  let lo := s.scaled e (4 * s.mantissa - if s.halfBelow then 1 else 2)
  let hi := s.scaled e (4 * s.mantissa + 2)
  let x := s.grid e d
  if s.mantissa % 2 = 0 then lo ≤ x && x ≤ hi else lo < x && x < hi

/-- The neighbour of the number on the grid `10 ^ e` that reads back as the
number, if there is one. -/
def Source.onGrid? (s : Source) (e : Int) : Option Nat :=
  let v := s.scaled e (4 * s.mantissa)
  let below := v / s.grid e 1
  let above := below + 1
  match s.covers e below, s.covers e above with
  | true, true => some (if v - s.grid e below < s.grid e above - v then below else above)
  | true, false => some below
  | false, true => some above
  | false, false => none

/-- The first grid with a hit among `grids` grids from `10 ^ e` down. -/
def Source.search (s : Source) : (grids : Nat) → (e : Int) → Decimal
  | 0, e => ⟨s.scaled e (4 * s.mantissa) / s.grid e 1, e⟩
  | grids + 1, e =>
    match s.onGrid? e with
    | some d => ⟨d, e⟩
    | none => s.search grids (e - 1)

/-- The fewest digits that read back as the number.  The walk starts on a
grid coarser than the number itself: `30103 / 100000` is just above the
decimal logarithm of two. -/
def Source.shortest (s : Source) : Decimal :=
  let magnitude : Int := s.mantissa.log2 + s.exponent
  s.search 24 (magnitude * 30103 / 100000 + 2)

/-- A decimal written without an exponent: zeros fill the places between
the digits and the point, and a whole number has no point. -/
def positional (x : Decimal) : String :=
  let digits := (toString x.digits).toList
  if 0 ≤ x.exponent then
    String.ofList (digits ++ List.replicate x.exponent.toNat '0')
  else
    let places := (-x.exponent).toNat
    let padded := List.replicate (places + 1 - digits.length) '0' ++ digits
    let whole := padded.take (padded.length - places)
    let fraction := padded.drop (padded.length - places)
    String.ofList (whole ++ '.' :: fraction)

end Decimal

end LoopDiff
