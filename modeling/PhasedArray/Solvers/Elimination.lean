import PhasedArray.Mat

set_option autoImplicit false

/-!
# Linear systems by elimination (SPEC §4.5, §4.7)

Among the remaining equations the one with the largest leading coefficient is solved
for its first unknown; the others lose that unknown and are solved first.  A leading
coefficient of zero means that the matrix is singular.
-/

namespace PhasedArray

namespace Elimination

variable {α : Type} [Scalar α]

/-- A linear equation: the coefficients of the unknowns, the first apart, and the right
sides, one for each system that is solved at once. -/
structure Equation (α : Type) where
  lead : Cplx α
  others : List (Cplx α)
  right : List (Cplx α)

/-- The size that decides which equation comes first. -/
@[inline] def weight (e : Equation α) : α := Scalar.abs e.lead.re + Scalar.abs e.lead.im

/-- The equation of largest weight, and all others in some order. -/
def pickPivot : Equation α → List (Equation α) → Equation α × List (Equation α)
  | best, [] => (best, [])
  | best, e :: rest =>
      if weight best < weight e then
        let (p, others) := pickPivot e rest
        (p, best :: others)
      else
        let (p, others) := pickPivot best rest
        (p, e :: others)

/-- The equation `e` without its first unknown; `none` if no unknown is left. -/
def reduce (pivot e : Equation α) : Option (Equation α) :=
  let f := e.lead.quot pivot.lead
  match List.zipWith (fun x y => x - f * y) e.others pivot.others with
  | [] => none
  | lead :: others =>
      some ⟨lead, others, List.zipWith (fun x y => x - f * y) e.right pivot.right⟩

/-- The quotient; a real divisor divides either part by itself. -/
@[inline] def quotient (z w : Cplx α) : Cplx α :=
  if Scalar.same w.im 0 then ⟨z.re / w.re, z.im / w.re⟩ else z.quot w

/-- What is left of the right sides when the other unknowns are known. -/
def substitute (pivot : Equation α) (known : List (List (Cplx α))) : List (Cplx α) :=
  let left := (pivot.others.zip known).foldl
    (fun acc entry => List.zipWith (fun r x => r - entry.1 * x) acc entry.2) pivot.right
  left.map fun r => quotient r pivot.lead

/-- Solves `n` equations in `n` unknowns; each unknown has one value for each right side.
A leading coefficient is refused if it is zero or fails the test. -/
def solveEquations (test : Cplx α → Bool) :
    (n : Nat) → List (Equation α) → Option (List (List (Cplx α)))
  | 0, _ => some []
  | _ + 1, [] => none
  | n + 1, e :: es =>
      let (pivot, rest) := pickPivot e es
      if pivot.lead.same 0 || !test pivot.lead then none
      else do
        let known ← solveEquations test n (rest.filterMap (reduce pivot))
        return substitute pivot known :: known

/-- The equation of row `i`; `none` for a matrix without columns. -/
def equation {n p : Nat} (A : Mat (Cplx α) n n) (B : Mat (Cplx α) n p) (i : Fin n) :
    Option (Equation α) :=
  match (A.rows.get i).toList with
  | [] => none
  | lead :: others => some ⟨lead, others, (B.rows.get i).toList⟩

/-- Whether a number has a finite reciprocal. -/
def isInvertible (z : Cplx α) : Bool := (Cplx.quot 1 z).isFinite

/-- The solution of `A X = B`; `none` if `A` is singular.  A coefficient so small that its
reciprocal is not finite counts as zero, unless it is the only one. -/
def solve {n p : Nat} (A : Mat (Cplx α) n n) (B : Mat (Cplx α) n p) :
    Option (Mat (Cplx α) n p) :=
  let test (z : Cplx α) : Bool := n = 1 || isInvertible z
  (solveEquations test n ((List.finRange n).filterMap (equation A B))).map fun X =>
    Mat.of fun i j => (X.getD i []).getD j 0

end Elimination

end PhasedArray
