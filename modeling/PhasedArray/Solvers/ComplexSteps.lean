import PhasedArray.Solvers.Rows

set_option autoImplicit false

/-!
# Eigenvalues of a complex matrix by single steps (SPEC §4.5)

A matrix without entries below its first subdiagonal is brought towards triangular
form by steps with one shift, which is close to an eigenvalue of the last two rows.
The entries on the subdiagonal are kept real.  A negligible one cuts the matrix; a
last block of one row is an eigenvalue.
-/

namespace PhasedArray

namespace ComplexSteps

open Binary64 (ulp leastNormal partSum)

/-- A complex square root; magnitudes far from one are scaled on the way. -/
def root (z : Cplx Float) : Cplx Float :=
  let e := Binary64.binaryExponent (Binary64.largerPart z)
  let h := e / 2
  Binary64.scaleParts h (Cplx.sqrt (Binary64.scaleParts (-(2 * h)) z))

/-- Multiplies row `i` by a number, in the columns from `left` up to `right`. -/
def scaleRow (z : Cplx Float) (i left right : Nat) (A : Rows (Cplx Float)) : Rows (Cplx Float) :=
  (List.range' left (right - left)).foldl (fun A j => A.put i j (A.entry i j * z)) A

/-- Multiplies column `j` by a number, in the rows from `top` up to `bottom`. -/
def scaleColumn (z : Cplx Float) (j top bottom : Nat) (A : Rows (Cplx Float)) :
    Rows (Cplx Float) :=
  (List.range' top (bottom - top)).foldl (fun A i => A.put i j (A.entry i j * z)) A

/-- Makes the entries on the subdiagonal of a matrix of `n` rows real. -/
def realSubdiagonal (n : Nat) (A : Rows (Cplx Float)) : Rows (Cplx Float) :=
  (List.range' 1 (n - 1)).foldl
    (fun A i =>
      let z := A.entry i (i - 1)
      if z.im == 0.0 then A
      else
        let u := z.divReal (partSum z)
        let u := u.conj.divReal u.abs
        let A := A.put i (i - 1) (.ofReal z.abs)
        scaleColumn u.conj i 0 (min n (i + 2)) (scaleRow u i i n A)) A

/-! ## Cuts -/

/-- Whether the entry below the diagonal in row `k` is negligible against the block
around it; `small` is negligible against anything. -/
def isCut (small : Float) (n : Nat) (A : Rows (Cplx Float)) (k : Nat) : Bool :=
  let below := partSum (A.entry k (k - 1))
  if below ≤ small then true
  else
    let around := partSum (A.entry (k - 1) (k - 1)) + partSum (A.entry k k)
    let around :=
      if around == 0.0 then
        (if 2 ≤ k then (A.entry (k - 1) (k - 2)).re.abs else 0.0) +
          (if k + 1 < n then (A.entry (k + 1) k).re.abs else 0.0)
      else around
    if (A.entry k (k - 1)).re.abs ≤ ulp * around then
      let above := partSum (A.entry (k - 1) k)
      let corner := partSum (A.entry k k)
      let gap := partSum (A.entry (k - 1) (k - 1) - A.entry k k)
      let ab := if above < below then below else above
      let ba := if above < below then above else below
      let aa := if corner < gap then gap else corner
      let bb := if corner < gap then corner else gap
      let s := aa + ab
      let bound := ulp * (bb * (aa / s))
      decide (ba * (ab / s) ≤ if small < bound then bound else small)
    else false

/-- The first row of the part that ends at row `i`. -/
def partStart (small : Float) (n : Nat) (A : Rows (Cplx Float)) : (i : Nat) → Nat
  | 0 => 0
  | i + 1 => if isCut small n A (i + 1) then i + 1 else partStart small n A i

/-! ## Steps -/

/-- The eigenvalue of the last two rows of the part that ends at row `hi`, the one nearer
to its last entry. -/
def shift (A : Rows (Cplx Float)) (hi : Nat) : Cplx Float :=
  let t := A.entry hi hi
  let u := root (A.entry (hi - 1) hi) * root (A.entry hi (hi - 1))
  if partSum u == 0.0 then t
  else
    let x := (A.entry (hi - 1) (hi - 1) - t).scale 0.5
    let sx := partSum x
    let s := if partSum u < sx then sx else partSum u
    let p := x.divReal s
    let q := u.divReal s
    let y := (root (p * p + q * q)).scale s
    let y :=
      if 0.0 < sx then
        let d := x.divReal sx
        if d.re * y.re + d.im * y.im < 0.0 then -y else y
      else y
    t - u * u.quot (x + y)

/-- The shift of the step number `stalled` since the last cut, for the part from row `lo` to
row `hi`; now and then a step takes a shift of its own, to leave a cycle. -/
def stepShift (A : Rows (Cplx Float)) (lo hi stalled : Nat) : Cplx Float :=
  if stalled % 20 = 0 then
    .ofReal (0.75 * (A.entry hi (hi - 1)).re.abs) + A.entry hi hi
  else if stalled % 10 = 0 then
    .ofReal (0.75 * (A.entry (lo + 1) lo).re.abs) + A.entry lo lo
  else shift A hi

/-- The column that a step from row `m` starts with, scaled. -/
def firstColumn (A : Rows (Cplx Float)) (t : Cplx Float) (m : Nat) : Cplx Float × Float :=
  let a := A.entry m m - t
  let b := (A.entry (m + 1) m).re
  let s := partSum a + b.abs
  (a.divReal s, b / s)

/-- The row in which a step may start: the last one before which two small entries follow
each other on the subdiagonal. -/
def stepStart (A : Rows (Cplx Float)) (t : Cplx Float) (lo : Nat) : (m : Nat) → Nat
  | 0 => 0
  | m + 1 =>
      if m + 1 ≤ lo then lo
      else
        let (a, b) := firstColumn A t (m + 1)
        let around := partSum (A.entry (m + 1) (m + 1)) + partSum (A.entry (m + 2) (m + 2))
        if (A.entry (m + 1) m).re.abs * b.abs ≤ ulp * (partSum a * around) then m + 1
        else stepStart A t lo m

/-- Applies the change of rows `k` and `k + 1` with weight `τ` and second entry `v`, and its
adjoint to the columns, within the part from row `lo` to row `hi`. -/
def applyChange (τ v : Cplx Float) (k lo hi : Nat) (A : Rows (Cplx Float)) :
    Rows (Cplx Float) :=
  let τ₂ := (τ * v).re
  let A := (List.range' k (hi + 1 - k)).foldl
    (fun A j =>
      let s := τ.conj * A.entry k j + (A.entry (k + 1) j).scale τ₂
      (A.put k j (A.entry k j - s)).put (k + 1) j (A.entry (k + 1) j - s * v)) A
  (List.range' lo (min (k + 2) hi + 1 - lo)).foldl
    (fun A i =>
      let s := τ * A.entry i k + (A.entry i (k + 1)).scale τ₂
      (A.put i k (A.entry i k - s)).put i (k + 1) (A.entry i (k + 1) - s * v.conj)) A

/-- A step that starts below row `lo` leaves a complex entry above its start; this makes it
real again. -/
def turnBack (τ : Cplx Float) (m lo hi : Nat) (A : Rows (Cplx Float)) : Rows (Cplx Float) :=
  let u := 1 - τ
  let u := u.divReal u.abs
  let A := A.put (m + 1) m (A.entry (m + 1) m * u.conj)
  let A := if m + 2 ≤ hi then A.put (m + 2) (m + 1) (A.entry (m + 2) (m + 1) * u) else A
  (List.range' m (hi + 1 - m)).foldl
    (fun A j =>
      if j = m + 1 then A else scaleColumn u.conj j lo j (scaleRow u j (j + 1) (hi + 1) A)) A

/-- One step on the part from row `lo` to row `hi`. -/
def step (t : Cplx Float) (lo hi : Nat) (A : Rows (Cplx Float)) : Rows (Cplx Float) :=
  let start := stepStart A t lo (hi - 1)
  let start := if start < lo then lo else start
  let A := (List.range' start (hi - start)).foldl
    (fun A k =>
      let column : Array (Cplx Float) :=
        if start < k then #[A.entry k (k - 1), A.entry (k + 1) (k - 1)]
        else
          let (a, b) := firstColumn A t k
          #[a, .ofReal b]
      let (β, H) := Reflection.clearing column
      let A := if start < k then (A.put k (k - 1) β).put (k + 1) (k - 1) 0 else A
      let A := applyChange H.τ (H.v.getD 1 0) k lo hi A
      if k = start && lo < start then turnBack H.τ start lo hi A else A) A
  let z := A.entry hi (hi - 1)
  if z.im == 0.0 then A
  else
    let r := z.abs
    scaleColumn (z.divReal r) hi lo hi (A.put hi (hi - 1) (.ofReal r))

/-- The eigenvalues of the first `count` rows, the last ones first; `stalled` counts the
steps since the last cut. -/
def values (small : Float) (n : Nat) :
    (fuel count stalled : Nat) → Rows (Cplx Float) → List (Cplx Float)
  | _, 0, _, _ => []
  | 0, count, _, A => (List.range count).reverse.map fun i => A.entry i i
  | fuel + 1, hi + 1, stalled, A =>
      let lo := partStart small n A hi
      let A := if 0 < lo then A.put lo (lo - 1) 0 else A
      if lo = hi then A.entry hi hi :: values small n fuel hi 0 A
      else
        values small n fuel (hi + 1) (stalled + 1)
          (step (stepShift A lo hi (stalled + 1)) lo hi A)

/-- The eigenvalues of a matrix of `n` rows without entries below its first subdiagonal,
in the order of the rows in which they come to stand. -/
def eigenvalues (n : Nat) (A : Rows (Cplx Float)) : List (Cplx Float) :=
  let small := leastNormal * (Float.ofNat n / ulp)
  (values small n (40 * (n + 10) * (n + 1)) n 0 (realSubdiagonal n A)).reverse

end ComplexSteps

end PhasedArray
