import PhasedArray.Solvers.Rows

set_option autoImplicit false

/-!
# Eigenvalues of a real matrix by double steps (SPEC §4.5)

A real matrix without entries below its first subdiagonal is brought towards block
triangular form by steps that take two shifts at once: both real, or a conjugate
pair, so that all numbers stay real.  A negligible entry on the subdiagonal cuts the
matrix; a last block of one row is an eigenvalue, one of two rows holds two real
eigenvalues or a conjugate pair, exactly so.
-/

namespace PhasedArray

namespace RealSteps

open Binary64 (ulp leastNormal withSign)

/-- The eigenvalues of the matrix with rows `(a, b)` and `(c, d)` whose off-diagonal
entries have opposite signs or whose discriminant is small: the diagonal is made equal
by a rotation first. -/
def ofEqualized (a b c d : Float) : Cplx Float × Cplx Float :=
  let sum := b + c
  let gap := a - d
  let e := Binary64.binaryExponent (if gap.abs < sum.abs then sum.abs else gap.abs)
  let sum := sum.scaleB (-e)
  let gap := gap.scaleB (-e)
  let τ := Binary64.hypot sum gap
  let cs := Float.sqrt (0.5 * (1.0 + sum.abs / τ))
  let sn := -(0.5 * gap / (τ * cs)) * withSign 1.0 sum
  let aa := a * cs + b * sn
  let bb := b * cs - a * sn
  let cc := c * cs + d * sn
  let dd := d * cs - c * sn
  let a := aa * cs + cc * sn
  let b := bb * cs + dd * sn
  let c := cc * cs - aa * sn
  let d := dd * cs - bb * sn
  let middle := 0.5 * (a + d)
  if c == 0.0 || b == 0.0 then (.ofReal middle, .ofReal middle)
  else
    let p := Float.sqrt b.abs * Float.sqrt c.abs
    if withSign 1.0 b == withSign 1.0 c then
      (.ofReal (middle + withSign p c), .ofReal (middle - withSign p c))
    else (⟨middle, p⟩, ⟨middle, -p⟩)

/-- The eigenvalues of the matrix with rows `(a, b)` and `(c, d)`. -/
def ofTwoRows (a b c d : Float) : Cplx Float × Cplx Float :=
  if c == 0.0 then (.ofReal a, .ofReal d)
  else if b == 0.0 then (.ofReal d, .ofReal a)
  else if a - d == 0.0 && withSign 1.0 b != withSign 1.0 c then
    let p := Float.sqrt b.abs * Float.sqrt c.abs
    (⟨a, p⟩, ⟨d, -p⟩)
  else
    let p := 0.5 * (a - d)
    let larger := if b.abs < c.abs then c.abs else b.abs
    let smaller := (if b.abs < c.abs then b.abs else c.abs) * withSign 1.0 b * withSign 1.0 c
    let scale := if p.abs < larger then larger else p.abs
    let z := p / scale * p + larger / scale * smaller
    if 4.0 * ulp ≤ z then
      let z := p + withSign (Float.sqrt scale * Float.sqrt z) p
      (.ofReal (d + z), .ofReal (d - larger / z * smaller))
    else ofEqualized a b c d

/-! ## Cuts -/

/-- Whether the entry below the diagonal in row `k` is negligible against the block
around it; `small` is negligible against anything. -/
def isCut (small : Float) (n : Nat) (A : Rows Float) (k : Nat) : Bool :=
  let below := (A.entry k (k - 1)).abs
  if below ≤ small then true
  else
    let around := (A.entry (k - 1) (k - 1)).abs + (A.entry k k).abs
    let around :=
      if around == 0.0 then
        (if 2 ≤ k then (A.entry (k - 1) (k - 2)).abs else 0.0) +
          (if k + 1 < n then (A.entry (k + 1) k).abs else 0.0)
      else around
    if below ≤ ulp * around then
      let above := (A.entry (k - 1) k).abs
      let corner := (A.entry k k).abs
      let gap := (A.entry (k - 1) (k - 1) - A.entry k k).abs
      let ab := if above < below then below else above
      let ba := if above < below then above else below
      let aa := if corner < gap then gap else corner
      let bb := if corner < gap then corner else gap
      let s := aa + ab
      let bound := ulp * (bb * (aa / s))
      decide (ba * (ab / s) ≤ if small < bound then bound else small)
    else false

/-- The first row of the part that ends at row `i`. -/
def partStart (small : Float) (n : Nat) (A : Rows Float) : (i : Nat) → Nat
  | 0 => 0
  | i + 1 => if isCut small n A (i + 1) then i + 1 else partStart small n A i

/-! ## Steps -/

/-- The two shifts of a step, taken from a matrix with rows `(a, b)` and `(c, d)`: its
eigenvalues if they are a pair, else twice the one nearer to `d`. -/
def shifts (a b c d : Float) : Cplx Float × Cplx Float :=
  let s := a.abs + b.abs + c.abs + d.abs
  if s == 0.0 then (0, 0)
  else
    let a := a / s
    let b := b / s
    let c := c / s
    let d := d / s
    let middle := (a + d) / 2.0
    let det := (a - middle) * (d - middle) - b * c
    let root := Float.sqrt det.abs
    if 0.0 ≤ det then (⟨middle * s, root * s⟩, ⟨middle * s, -(root * s)⟩)
    else
      let x := middle + root
      let y := middle - root
      let nearer := if (x - d).abs ≤ (y - d).abs then x * s else y * s
      (.ofReal nearer, .ofReal nearer)

/-- The shifts of the step number `stalled` since the last cut, for the part from row `lo`
to row `hi`; now and then a step takes shifts of its own, to leave a cycle. -/
def stepShifts (A : Rows Float) (lo hi stalled : Nat) : Cplx Float × Cplx Float :=
  if stalled % 20 = 0 then
    let s := (A.entry hi (hi - 1)).abs + (A.entry (hi - 1) (hi - 2)).abs
    let a := 0.75 * s + A.entry hi hi
    shifts a (-0.4375 * s) s a
  else if stalled % 10 = 0 then
    let s := (A.entry (lo + 1) lo).abs + (A.entry (lo + 2) (lo + 1)).abs
    let a := 0.75 * s + A.entry lo lo
    shifts a (-0.4375 * s) s a
  else
    shifts (A.entry (hi - 1) (hi - 1)) (A.entry (hi - 1) hi) (A.entry hi (hi - 1)) (A.entry hi hi)

/-- The column that a step from row `m` starts with, scaled. -/
def firstColumn (A : Rows Float) (x y : Cplx Float) (m : Nat) : Float × Float × Float :=
  let s := (A.entry m m - y.re).abs + y.im.abs + (A.entry (m + 1) m).abs
  let below := A.entry (m + 1) m / s
  let v₁ := below * A.entry m (m + 1) + (A.entry m m - x.re) * ((A.entry m m - y.re) / s) -
    x.im * (y.im / s)
  let v₂ := below * (A.entry m m + A.entry (m + 1) (m + 1) - x.re - y.re)
  let v₃ := below * A.entry (m + 2) (m + 1)
  let s := v₁.abs + v₂.abs + v₃.abs
  (v₁ / s, v₂ / s, v₃ / s)

/-- The row in which a step may start: the last one before which two small entries follow
each other on the subdiagonal. -/
def stepStart (A : Rows Float) (x y : Cplx Float) (lo : Nat) : (m : Nat) → Nat
  | 0 => 0
  | m + 1 =>
      if m + 1 ≤ lo then lo
      else
        let (v₁, v₂, v₃) := firstColumn A x y (m + 1)
        let around := (A.entry m m).abs + (A.entry (m + 1) (m + 1)).abs +
          (A.entry (m + 2) (m + 2)).abs
        if (A.entry (m + 1) m).abs * (v₂.abs + v₃.abs) ≤ ulp * v₁.abs * around then m + 1
        else stepStart A x y lo m

/-- The change of up to three rows that turns a column into a multiple of the first axis:
what is left of the first entry, the weight, and the other two entries. -/
def clearing (v₁ v₂ v₃ : Float) : Float × Float × Float × Float :=
  let r := Binary64.hypot v₂ v₃
  if r == 0.0 then (v₁, 0.0, v₂, v₃)
  else
    let β := -withSign (Binary64.hypot v₁ r) v₁
    let e := Binary64.binaryExponent β.abs
    let b := β.scaleB (-e)
    let a := v₁.scaleB (-e)
    (β, (b - a) / b, v₂.scaleB (-e) / (a - b), v₃.scaleB (-e) / (a - b))

/-- Applies a change to rows `k, k + 1, k + 2`, the last only if `three` is set, and its
transpose to the columns, within the part from row `lo` to row `hi`. -/
def applyChange (τ v₂ v₃ : Float) (three : Bool) (k lo hi : Nat) (A : Rows Float) : Rows Float :=
  let A := (List.range' k (hi + 1 - k)).foldl
    (fun A j =>
      let s := A.entry k j + v₂ * A.entry (k + 1) j +
        (if three then v₃ * A.entry (k + 2) j else 0.0)
      let A := (A.put k j (A.entry k j - s * τ)).put (k + 1) j (A.entry (k + 1) j - s * (τ * v₂))
      if three then A.put (k + 2) j (A.entry (k + 2) j - s * (τ * v₃)) else A) A
  (List.range' lo (min (k + 3) hi + 1 - lo)).foldl
    (fun A i =>
      let s := A.entry i k + v₂ * A.entry i (k + 1) +
        (if three then v₃ * A.entry i (k + 2) else 0.0)
      let A := (A.put i k (A.entry i k - s * τ)).put i (k + 1) (A.entry i (k + 1) - s * (τ * v₂))
      if three then A.put i (k + 2) (A.entry i (k + 2) - s * (τ * v₃)) else A) A

/-- One step on the part from row `lo` to row `hi`. -/
def step (x y : Cplx Float) (lo hi : Nat) (A : Rows Float) : Rows Float :=
  let start := stepStart A x y lo (hi - 2)
  let start := if start < lo then lo else start
  (List.range' start (hi - start)).foldl
    (fun A k =>
      let three := k + 2 ≤ hi
      let (v₁, v₂, v₃) :=
        if start < k then
          (A.entry k (k - 1), A.entry (k + 1) (k - 1),
            if three then A.entry (k + 2) (k - 1) else 0.0)
        else firstColumn A x y k
      let (β, τ, w₂, w₃) := clearing v₁ v₂ v₃
      let A :=
        if start < k then
          let A := (A.put k (k - 1) β).put (k + 1) (k - 1) 0.0
          if three then A.put (k + 2) (k - 1) 0.0 else A
        else if lo < start then A.put k (k - 1) (A.entry k (k - 1) * (1.0 - τ))
        else A
      applyChange τ w₂ w₃ three k lo hi A) A

/-- The eigenvalues of the first `count` rows, the last ones first; `stalled` counts the
steps since the last cut. -/
def values (small : Float) (n : Nat) :
    (fuel count stalled : Nat) → Rows Float → List (Cplx Float)
  | _, 0, _, _ => []
  | 0, count, _, A => (List.range count).reverse.map fun i => .ofReal (A.entry i i)
  | fuel + 1, hi + 1, stalled, A =>
      let lo := partStart small n A hi
      let A := if 0 < lo then A.put lo (lo - 1) 0.0 else A
      if lo = hi then .ofReal (A.entry hi hi) :: values small n fuel hi 0 A
      else if lo + 1 = hi then
        let (x, y) := ofTwoRows (A.entry lo lo) (A.entry lo hi) (A.entry hi lo) (A.entry hi hi)
        y :: x :: values small n fuel lo 0 A
      else
        let (x, y) := stepShifts A lo hi (stalled + 1)
        values small n fuel (hi + 1) (stalled + 1) (step x y lo hi A)

/-- The eigenvalues of a real matrix of `n` rows without entries below its first
subdiagonal, in the order of the rows in which they come to stand. -/
def eigenvalues (n : Nat) (A : Rows Float) : List (Cplx Float) :=
  let small := leastNormal * (Float.ofNat n / ulp)
  (values small n (40 * (n + 10) * (n + 1)) n 0 A).reverse

end RealSteps

end PhasedArray
