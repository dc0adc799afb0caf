import PhasedArray.Reading

set_option autoImplicit false

/-!
# The number of sources: checked and estimated (SPEC §4.3)

A subspace method needs the number `K` of sources to lie strictly between zero and
the number `M` of elements.  When `K` is not known, an information criterion picks
it from the covariance eigenvalues: for each candidate `k` it weighs how unequal the
`M - k` smallest eigenvalues are against a penalty that grows with `k`.
-/

namespace PhasedArray

/-- A number of sources that an array of `m` elements can tell apart. -/
abbrev SourceCount (m : Nat) := { k : Nat // 0 < k ∧ k < m }

namespace SourceCount

variable {α : Type} [Scalar α]

/-- Reads a number of sources for `m` elements; `elements` is that number as messages
show it. -/
def ofSetting (m : Nat) (elements given : Setting α) : Outcome α (SourceCount m) := do
  let i ← given.toWhole "num_sources" (.sourceCount elements given)
  if h : 0 < i.toNat ∧ i.toNat < m then return ⟨i.toNat, h⟩
  else throw (.sourceCount elements given)

/-- Whether a number of sources lies between zero and a number of elements, which need not
be that of an array and is looked at last. -/
def check (elements given : Setting α) : Outcome α Unit := do
  let i ← given.toWhole "num_sources" (.sourceCount elements given)
  if i ≤ 0 then throw (.sourceCount elements given)
  let m ← elements.toNumber "num_elements"
  if (Number.whole i).below m then return () else throw (.sourceCount elements given)

/-! ## Estimation -/

/-- The two information criteria: minimum description length, and the one whose penalty does
not grow with the number of snapshots. -/
inductive Criterion where
  | mdl
  | aic
  deriving DecidableEq, Repr, Inhabited

/-- The criterion of the given name. -/
def Criterion.ofSetting : Setting α → Outcome α Criterion
  | .text "mdl" => .ok .mdl
  | .text "aic" => .ok .aic
  | s => .error (.criterion s)

/-- The logarithm of the ratio of the geometric to the arithmetic mean: zero for equal
values, negative otherwise. -/
@[specialize] def logMeanRatio (values : List α) : α :=
  let geometric := Scalar.exp (Scalar.mean (values.map Scalar.log))
  Scalar.log (geometric / Scalar.mean values)

/-- The score of `k` sources among `m` eigenvalues for `n` snapshots, the other `m - k`
eigenvalues being `smallest`; smaller is better. -/
@[specialize] def score (criterion : Criterion) (n : Number α) (m k : Nat) (smallest : List α) :
    α :=
  let ratio := logMeanRatio smallest
  match criterion with
  | .mdl =>
      n.times (-(m - k : Nat)) * ratio +
        0.5 * Scalar.ofNat k * Scalar.ofNat (2 * m - k) * Scalar.log n.value
  | .aic =>
      n.times (-2 * (m - k : Nat)) * ratio +
        2 * Scalar.ofNat (k * (2 * m - k))

/-- The least value an eigenvalue is taken to have. -/
def eigenvalueFloor : α := 1e-12

/-- An eigenvalue as the criteria see it, raised to the floor. -/
@[inline] def raised (x : α) : α := Scalar.maxNaN x eigenvalueFloor

/-- The eigenvalues as the criteria see them: raised to the floor, in descending order. -/
@[specialize] def prepared (values : List α) : List α := (Scalar.sorted (values.map raised)).reverse

/-- The number of sources with the best score, the smallest one on ties; `none` if
there are no eigenvalues. -/
@[specialize] def estimate (criterion : Criterion) (n : Number α) (values : List α) : Option Nat :=
  let prep := prepared values
  Scalar.argmin? ((List.range prep.length).map fun k =>
    score criterion n prep.length k (prep.drop k))

/-- The same for rows of eigenvalues: a row counts as one, and what a number of sources
leaves is the first rows. -/
def estimateRows (criterion : Criterion) (n : Number α) (rows : List (List α)) : Option Nat :=
  let prep := (rows.map fun row => row.map raised).reverse
  Scalar.argmin? ((List.range prep.length).map fun k =>
    score criterion n prep.length k (prep.drop k).flatten)

/-- The number of snapshots behind `m` eigenvalues.  Its logarithm is taken of a kept number
alone, and its largest multiple has to be in range. -/
def snapshotsOf (criterion : Criterion) (m : Nat) (given : Setting α) : Outcome α (Number α) := do
  if criterion = .mdl then
    let _ ← given.toSingle "num_snapshots"
  let n ← given.toNumber "num_snapshots"
  if n.isWhole && !Scalar.isFinite (n.times (2 * m)) then throw .numberTooLarge
  return n

/-- The number of sources for a tensor of eigenvalues, which has to have an axis; the number
of snapshots is looked at if there are eigenvalues. -/
def ofTensor (criterion : Criterion) (given : Setting α) (t : Tensor α) : Outcome α Nat :=
  if t.isAssorted then .error .assortedEntries
  else
    match t.shape with
    | [] => .error .axisMissing
    | 0 :: _ => .error .emptyValues
    | m :: rest => do
        let n ← snapshotsOf criterion m given
        let found :=
          if rest.isEmpty then estimate criterion n t.reals
          else estimateRows criterion n (t.slices.map fun row => row.map Cplx.re)
        match found with
        | some k => return k
        | none => throw .emptyValues

end SourceCount

end PhasedArray
