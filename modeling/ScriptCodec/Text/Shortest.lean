/-!
# Shortest decimal text of a floating-point number

A positive double is `m * 2 ^ q`, and the reals that round to it form an interval around it, with
both ends included when `m` is even.  For one digit, two digits and so on, the two neighbours of
the number on that decimal grid are tested in exact arithmetic: the first grid with a neighbour
inside the interval wins, and of two such neighbours the nearer.

`text` writes the digits in positional form while the point stays within sixteen digits to the right
of the first digit or five to the left of it, and with a power of ten otherwise.  A power of ten
always has its sign: `1e+16`, `1e-6`.
-/

namespace ScriptCodec
namespace Shortest

/-- A positive binary number `m * 2 ^ q`, with the note whether the gap below it is halved. -/
structure Binary where
  m : Nat
  q : Int
  halvedBelow : Bool

/-- The magnitude of a finite number, from the fields of its representation. -/
def Binary.ofBits (bits : Nat) : Binary :=
  let fraction : Nat := bits % (1 <<< 52)
  let field : Nat := (bits >>> 52) % 2048
  if field = 0 then ⟨fraction, -1074, false⟩
  else ⟨fraction + (1 <<< 52), (field : Int) - 1075, fraction = 0 && 1 < field⟩

/-- Compares `a * 10 ^ e` with `b * 2 ^ q` by whole numbers: the two scaled sides. -/
def sides (a : Nat) (e : Int) (b : Nat) (q : Int) : Nat × Nat :=
  ((a * Nat.pow 10 e.toNat) <<< (-q).toNat, (b <<< q.toNat) * Nat.pow 10 (-e).toNat)

/-- Whether `c * 10 ^ e` rounds to the number. -/
def Binary.hasReading (x : Binary) (c : Nat) (e : Int) : Bool :=
  let low := sides c e (4 * x.m - if x.halvedBelow then 1 else 2) (x.q - 2)
  let high := sides c e (4 * x.m + 2) (x.q - 2)
  if x.m % 2 = 0 then low.2 ≤ low.1 && high.1 ≤ high.2
  else low.2 < low.1 && high.1 < high.2

/-- The grid point below the number among the multiples of `10 ^ e`. -/
def Binary.below (x : Binary) (e : Int) : Nat :=
  let (unit, scaled) := sides 1 e x.m x.q
  scaled / unit

/-- Whether the grid point above is strictly nearer than the one below, or as near and even. -/
def Binary.prefersAbove (x : Binary) (c : Nat) (e : Int) : Bool :=
  let (twice, scaled) := sides (2 * c + 1) e (2 * x.m) x.q
  twice < scaled || (twice == scaled && c % 2 = 1)

/-- The multiple of `10 ^ e` that stands for the number, if one rounds to it. -/
def Binary.onGrid? (x : Binary) (e : Int) : Option Nat :=
  let c := x.below e
  match x.hasReading c e, x.hasReading (c + 1) e with
  | true, true => some (if x.prefersAbove c e then c + 1 else c)
  | true, false => some c
  | false, true => some (c + 1)
  | false, false => none

/-- The least `p` with the number below `10 ^ p`. -/
def Binary.magnitude (x : Binary) : Int :=
  let guess := ((Nat.log2 x.m : Int) + x.q) * 1233 / 4096
  let tooSmall (p : Int) : Bool := (sides 1 p x.m x.q).1 ≤ (sides 1 p x.m x.q).2
  if tooSmall guess then (if tooSmall (guess + 1) then guess + 2 else guess + 1) else guess

/-- Drops trailing zeros of the digits into the exponent. -/
def dropZeros : (fuel : Nat) → Nat → Int → Nat × Int
  | 0, c, e => (c, e)
  | n + 1, c, e => if c % 10 = 0 then dropZeros n (c / 10) (e + 1) else (c, e)

/-- The fewest digits that read back, as a number and a power of ten. -/
def Binary.digits (x : Binary) : Nat × Int :=
  let p := x.magnitude
  let found := (List.range 17).findSome? fun (k : Nat) =>
    let e := p - (k + 1 : Int)
    (x.onGrid? e).map fun c => (c, e)
  match found with
  | some (c, e) => dropZeros 17 c e
  | none => (0, 0)

/-- Digits of a number in base ten as characters. -/
def decimalChars (n : Nat) : List Char :=
  Nat.toDigits 10 n

/-- Writes `c * 10 ^ e` for a positive `c`. -/
def layout (c : Nat) (e : Int) : List Char :=
  let ds := decimalChars c
  let point := (ds.length : Int) + e
  if 0 ≤ e ∧ point ≤ 16 then ds ++ List.replicate e.toNat '0' ++ ['.', '0']
  else if 0 < point ∧ point ≤ 16 then ds.take point.toNat ++ '.' :: ds.drop point.toNat
  else if -5 < point ∧ point ≤ 0 then '0' :: '.' :: List.replicate (-point).toNat '0' ++ ds
  else
    let mantissa := if ds.length = 1 then ds else ds.take 1 ++ '.' :: ds.drop 1
    let power := point - 1
    mantissa ++ 'e' :: (if power < 0 then '-' else '+') :: decimalChars power.natAbs

/-- The text of a finite number. -/
def text (x : Float) : String :=
  let bits := x.toBits.toNat
  let sign := if bits >>> 63 = 1 then ['-'] else []
  let b := Binary.ofBits bits
  let body := if b.m = 0 then ['0', '.', '0'] else
    let (c, e) := b.digits
    layout c e
  String.ofList (sign ++ body)

end Shortest
end ScriptCodec
