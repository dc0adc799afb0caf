import PhasedArray.Solvers.Pairwise
import PhasedArray.Solvers.Rows

set_option autoImplicit false

/-!
# Eigenvectors of a Hermitian matrix (SPEC §4.3)

Reflections bring a Hermitian matrix to a real one that is zero but on the diagonal
and beside it.  Entries beside the diagonal that are negligible there cut it into
blocks, and plane rotations make each block diagonal.  An eigenvalue that occurs in
several blocks has no eigenvectors of its own; the cuts decide which are given.
-/

namespace PhasedArray

/-- A real symmetric matrix that is zero but on the diagonal and beside it; `beside` at
place `i` stands in rows `i` and `i + 1`. -/
structure Tridiagonal where
  diagonal : Array Float
  beside : Array Float

namespace Tridiagonal

/-- The parts that count of a matrix of `n` rows without other ones. -/
def ofRows (n : Nat) (A : Rows (Cplx Float)) : Tridiagonal :=
  { diagonal := ((List.range n).map fun i => (A.entry i i).re).toArray
    beside := ((List.range (n - 1)).map fun i => (A.entry (i + 1) i).re).toArray }

/-- The number on the diagonal in row `i`. -/
@[inline] def onDiagonal (T : Tridiagonal) (i : Nat) : Float := T.diagonal.getD i 0.0

/-- The number beside the diagonal in rows `i` and `i + 1`. -/
@[inline] def offDiagonal (T : Tridiagonal) (i : Nat) : Float := T.beside.getD i 0.0

/-! ## Cuts -/

/-- The mean, as of areas, of the diagonal in rows `i` and `i + 1`. -/
def around (T : Tridiagonal) (i : Nat) : Float :=
  (T.onDiagonal i).abs.sqrt * (T.onDiagonal (i + 1)).abs.sqrt

/-- The number beside the diagonal against the diagonal around it. -/
def ratio (T : Tridiagonal) (i : Nat) : Float := (T.offDiagonal i).abs / T.around i

/-- Whether the diagonal dominates every row, however small it is there.  The small
eigenvalues of such a matrix are as well determined as the large ones. -/
def isDominated (T : Tridiagonal) : Bool :=
  T.diagonal.all (fun d => 1e-146 ≤ d.abs.sqrt) &&
    (List.range T.beside.size).all fun i =>
      (if i = 0 then 0.0 else T.ratio (i - 1)) + T.ratio i < 0.999

/-- How far row `i` reaches from the diagonal. -/
def reach (T : Tridiagonal) (i : Nat) : Float :=
  (T.offDiagonal i).abs + if i = 0 then 0.0 else (T.offDiagonal (i - 1)).abs

/-- The length of an interval that holds every eigenvalue. -/
def spread (T : Tridiagonal) : Float :=
  let places := List.range T.diagonal.size
  let top := places.foldl (fun acc i => max acc (T.onDiagonal i + T.reach i))
    (T.onDiagonal 0 + T.reach 0)
  let bottom := places.foldl (fun acc i => min acc (T.onDiagonal i - T.reach i))
    (T.onDiagonal 0 - T.reach 0)
  top - bottom

/-- Puts zero for what is negligible beside the diagonal: against the diagonal around it
if that dominates, else against the whole matrix. -/
def cut (T : Tridiagonal) : Tridiagonal :=
  let dominated := T.isDominated
  let whole := Binary64.ulp * T.spread
  { T with
    beside := T.beside.mapIdx fun i x =>
      if x.abs ≤ (if dominated then Binary64.ulp * T.around i else whole) then 0.0 else x }

/-- The number of cuts before row `i`. -/
def blockOf (T : Tridiagonal) (i : Nat) : Nat := (T.beside.extract 0 i).countP fun x => x == 0.0

/-- The matrix as columns. -/
def toColumns (T : Tridiagonal) : Columns :=
  let n := T.diagonal.size
  Columns.ofEntries n ((List.range n).flatMap fun j => (List.range n).map fun i =>
    .ofReal (
      if i = j then T.onDiagonal i
      else if i + 1 = j then T.offDiagonal i
      else if j + 1 = i then T.offDiagonal j
      else 0.0))

end Tridiagonal

namespace Hermitian

/-! ## Two rows -/

/-- The eigenvalues of the real symmetric matrix with diagonal `a`, `c` and `b` beside it,
the one of larger magnitude first, and an eigenvector of that one. -/
def ofTwoRows (a b c : Float) : Float × Float × Float × Float :=
  let sum := a + c
  let gap := a - c
  let twice := b + b
  let (larger, smaller) := if c.abs < a.abs then (a, c) else (c, a)
  let root := Binary64.hypot gap twice
  let (x, y) :=
    if sum == 0.0 then (0.5 * root, -(0.5 * root))
    else
      let x := if sum < 0.0 then 0.5 * (sum - root) else 0.5 * (sum + root)
      (x, larger / x * smaller - b / x * b)
  let s := if 0.0 ≤ gap then gap + root else gap - root
  let (cosine, sine) :=
    if twice.abs < s.abs then
      let t := -twice / s
      let sine := 1.0 / Float.sqrt (1.0 + t * t)
      (t * sine, sine)
    else if twice == 0.0 then (1.0, 0.0)
    else
      let t := -s / twice
      let cosine := 1.0 / Float.sqrt (1.0 + t * t)
      (cosine, t * cosine)
  if (sum < 0.0) == (gap < 0.0) then (x, y, -sine, cosine) else (x, y, cosine, sine)

/-- The eigenvalues of a matrix of two rows in ascending order, with eigenvectors. -/
def pair (T : Tridiagonal) : Columns × Columns :=
  let (x, y, cosine, sine) := ofTwoRows (T.onDiagonal 0) (T.offDiagonal 0) (T.onDiagonal 1)
  let entries (l : List Float) : Columns := Columns.ofEntries 2 (l.map .ofReal)
  if x < y then (entries [x, 0.0, 0.0, y], entries [cosine, sine, -sine, cosine])
  else (entries [y, 0.0, 0.0, x], entries [-sine, cosine, cosine, sine])

/-! ## Any number of rows -/

/-- Exchanges places until the keys ascend: each place in turn with the first of the
smallest keys behind it. -/
def selectionSort {n : Nat} (key : Nat → Float) (places : Vector Nat n) : Vector Nat n :=
  (List.range n).foldl
    (fun places j =>
      let least := (List.range' (j + 1) (n - (j + 1))).foldl
        (fun best k => if key (places.getD k 0) < key (places.getD best 0) then k else best) j
      places.swapIfInBounds j least) places

/-- The places of the eigenvalues in ascending order: each block is sorted by itself, and
the blocks one after the other are then sorted by exchanges. -/
def ascending (n : Nat) (block : Nat → Nat) (key : Nat → Float) : Vector Nat n :=
  let places : Vector Nat n :=
    ⟨((List.range n).mergeSort fun i j =>
        decide (block i < block j) || (block i == block j && decide (key i ≤ key j))).toArray,
      by simp⟩
  if block (n - 1) = 0 then places else selectionSort key places

/-- The eigenvalues of a Hermitian matrix in ascending order, with orthonormal
eigenvectors as columns.  The matrix is brought to moderate size first. -/
def eigenpairs {n : Nat} (A : Mat (Cplx Float) n n) : Vector Float n × Mat (Cplx Float) n n :=
  let e := Binary64.binaryExponent (Binary64.largestPart A.toArray)
  let rows := (Rows.ofMat A).mapEntries (Binary64.scaleParts (-e))
  let (H, basis) := Rows.clearBelow n rows (Rows.ofMat (Mat.identity n))
  let T := Tridiagonal.ofRows n H
  let (values, vectors, places) :=
    if n = 2 then
      let (values, vectors) := pair T
      (values, vectors, Vector.range n)
    else
      let T := T.cut
      let w := Pairwise.sweeps (Pairwise.pairs n) Pairwise.diagonalize Pairwise.sweepLimit
        ⟨T.toColumns, Pairwise.identity n⟩
      (w.matrix, w.basis, ascending n T.blockOf fun i => (w.matrix.get i i).re)
  (places.map fun i => (values.get i i).re.scaleB e,
    Mat.of fun i j => total n fun k => basis.entry i k * vectors.get k (places.get j))

end Hermitian

end PhasedArray
