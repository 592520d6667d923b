/-! The shortest decimal text of a binary64 value: the fewest significant digits among the
reals that round to it, the nearer of two such decimals and on an exact tie the larger,
written without an exponent. -/

namespace GuiMarkup.Decimal

/-- A finite non-negative binary64 value `m * 2^q`. -/
structure Binary where
  m : Nat
  q : Int
  /-- The gap to the value below is half the gap to the value above. -/
  narrowBelow : Bool
deriving Repr, DecidableEq

/-- The magnitude of the value that a bit pattern encodes; the sign bit is ignored. -/
def Binary.ofBits (b : UInt64) : Binary :=
  let e := ((b >>> 52) &&& 0x7FF).toNat
  let f := (b &&& 0xFFFFFFFFFFFFF).toNat
  if e == 0 then ⟨f, -1074, false⟩
  else ⟨Nat.pow 2 52 + f, (e : Int) - 1075, f == 0 && e > 1⟩

/-- The decimal `digits * 10^exp`. -/
structure Dec where
  digits : Nat
  exp : Int
deriving Repr, DecidableEq

/-- Compares `a * 10^i` with `n * 2^j` exactly. -/
def cmpScaled (a : Nat) (i : Int) (n : Nat) (j : Int) : Ordering :=
  compare (a * Nat.pow 10 i.toNat * Nat.pow 2 (-j).toNat)
    (n * Nat.pow 2 j.toNat * Nat.pow 10 (-i).toNat)

/-- Whether a decimal lies among the reals that round to the value (to nearest, ties to even). -/
def Binary.readsBack (x : Binary) (d : Dec) : Bool :=
  let lo := if x.narrowBelow then 4 * x.m - 1 else 4 * x.m - 2
  let hi := 4 * x.m + 2
  let incl := x.m % 2 == 0
  let cl := cmpScaled d.digits d.exp lo (x.q - 2)
  let ch := cmpScaled d.digits d.exp hi (x.q - 2)
  (cl == .gt || (incl && cl == .eq)) && (ch == .lt || (incl && ch == .eq))

/-- The least `k` with `m * 2^q < 10^k`, searched near the estimate from the binary logarithm. -/
def Binary.scale (x : Binary) : Int :=
  let estimate : Int := ((Nat.log2 x.m : Int) + x.q) * 30103 / 100000
  let candidates := (List.range 6).map fun (i : Nat) => estimate - 2 + (i : Int)
  (candidates.find? fun k => cmpScaled 1 k x.m x.q == .gt).getD (estimate + 4)

/-- `⌊m * 2^q / 10^g⌋`. -/
def Binary.floorOn (x : Binary) (g : Int) : Nat :=
  (x.m * Nat.pow 2 x.q.toNat * Nat.pow 10 (-g).toNat) /
    (Nat.pow 2 (-x.q).toNat * Nat.pow 10 g.toNat)

/-- Of the value's two neighbours on the grid `10^g`, the one that reads back; when both
do, the nearer, and the larger on a tie. -/
def Binary.pickOn (x : Binary) (g : Int) : Option Dec :=
  let lo : Dec := ⟨x.floorOn g, g⟩
  let hi : Dec := ⟨x.floorOn g + 1, g⟩
  match x.readsBack lo, x.readsBack hi with
  | true, true =>
    -- twice the value against the sum of the two neighbours
    if cmpScaled (2 * lo.digits + 1) g (2 * x.m) x.q == .gt then some lo else some hi
  | true, false => some lo
  | false, true => some hi
  | false, false => none

/-- Moves trailing zeros of the digits into the exponent. -/
def Dec.strip (d : Dec) : Dec :=
  if h : d.digits ≠ 0 ∧ d.digits % 10 = 0 then
    Dec.strip ⟨d.digits / 10, d.exp + 1⟩
  else d
termination_by d.digits
decreasing_by exact Nat.div_lt_self (Nat.pos_of_ne_zero h.1) (by decide)

/-- The exact decimal value of `m * 2^q`. -/
def Binary.exact (x : Binary) : Dec :=
  if x.q ≥ 0 then ⟨x.m * Nat.pow 2 x.q.toNat, 0⟩ else ⟨x.m * Nat.pow 5 (-x.q).toNat, x.q⟩

/-- The shortest decimal that reads back to a non-zero value, trailing zeros stripped. -/
def Binary.shortest (x : Binary) : Dec :=
  let k := x.scale
  let found := (List.range 17).findSome? fun n => x.pickOn (k - (n + 1 : Nat))
  (found.getD x.exact).strip

/-- The digits of a decimal written positionally: no exponent, and a point only when the
value has a fractional part. -/
def Dec.positional (d : Dec) : String :=
  let ds := (Nat.toDigits 10 d.digits)
  if d.exp ≥ 0 then String.ofList (ds ++ List.replicate d.exp.toNat '0')
  else
    let n := ds.length
    let shift := (-d.exp).toNat
    if shift < n then String.ofList (ds.take (n - shift) ++ '.' :: ds.drop (n - shift))
    else String.ofList ('0' :: '.' :: List.replicate (shift - n) '0' ++ ds)

/-- The text of a float: shortest digits written positionally; a value with no fractional
part keeps a `.0`; the specials are `NaN`, `inf` and `-inf`. -/
def floatText (f : Float) : String :=
  let bits := f.toBits
  let negative := bits >>> 63 == 1
  let sign := if negative then "-" else ""
  if f.isNaN then "NaN"
  else if f.isInf then sign ++ "inf"
  else
    let x := Binary.ofBits bits
    let body := if x.m == 0 then "0" else x.shortest.positional
    let body := if body.toList.contains '.' then body else body ++ ".0"
    sign ++ body

end GuiMarkup.Decimal
