import PhasedArray.Solvers.Rows

set_option autoImplicit false

/-!
# Balancing a matrix before its eigenvalues are sought (SPEC §4.5)

Two changes keep the eigenvalues of a matrix and make them easier to find.  A row or
a column that is zero off the diagonal shows an eigenvalue; moving such rows to the
end and such columns to the front leaves a smaller block in between.  In the block,
each row is divided and its column multiplied by a power of two that brings their
lengths together, so that no digit is lost.
-/

namespace PhasedArray

/-- A matrix whose eigenvalues outside the rows `first, ..., last - 1` stand on its
diagonal. -/
structure Balance where
  rows : Rows (Cplx Float)
  first : Nat
  last : Nat

namespace Balance

/-- Exchanges rows and columns `i` and `j`. -/
def exchange (A : Rows (Cplx Float)) (i j : Nat) : Rows (Cplx Float) :=
  (A.swapIfInBounds i j).map fun row => row.swapIfInBounds i j

/-- Whether row `i` is zero off the diagonal, in the columns `first, ..., last - 1`. -/
def rowStandsAlone (A : Rows (Cplx Float)) (first last i : Nat) : Bool :=
  (List.range' first (last - first)).all fun j => i == j || (A.entry i j).same 0

/-- Whether column `j` is zero off the diagonal, in the rows `first, ..., last - 1`. -/
def columnStandsAlone (A : Rows (Cplx Float)) (first last j : Nat) : Bool :=
  (List.range' first (last - first)).all fun i => i == j || (A.entry i j).same 0

/-- Moves rows that stand alone to the end, the lowest first. -/
def sinkRows : (fuel : Nat) → Balance → Balance
  | 0, b => b
  | fuel + 1, b =>
      let next := (List.range b.last).reverse.foldl
        (fun (b : Balance) i =>
          if i < b.last && rowStandsAlone b.rows 0 b.last i then
            { b with rows := exchange b.rows i (b.last - 1), last := b.last - 1 }
          else b) b
      if next.last = b.last then b else sinkRows fuel next

/-- Moves columns that stand alone to the front, the leftmost first. -/
def raiseColumns : (fuel : Nat) → Balance → Balance
  | 0, b => b
  | fuel + 1, b =>
      let next := (List.range' b.first (b.last - b.first)).foldl
        (fun (b : Balance) j =>
          if b.first ≤ j && columnStandsAlone b.rows b.first b.last j then
            { b with rows := exchange b.rows b.first j, first := b.first + 1 }
          else b) b
      if next.first = b.first then b else raiseColumns fuel next

/-! ## Scaling -/

/-- No scaled number gets below this one. -/
def least : Float := Binary64.leastNormal / Binary64.ulp * 2.0

/-- No scaled number gets above this one. -/
def greatest : Float := 1.0 / least

/-- The lengths of a column and a row under scaling, their largest entries, and the
factor of the column so far. -/
structure Lengths where
  column : Float
  row : Float
  columnTop : Float
  rowTop : Float
  factor : Float

/-- Doubles the column for as long as it is shorter than half the row. -/
def Lengths.grow : (fuel : Nat) → Lengths → Lengths
  | 0, l => l
  | fuel + 1, l =>
      if l.column < l.row / 2.0 && l.factor < greatest && l.column < greatest &&
          l.columnTop < greatest && least < l.row / 2.0 && least < l.rowTop then
        grow fuel ⟨l.column * 2.0, l.row / 2.0, l.columnTop * 2.0, l.rowTop / 2.0, l.factor * 2.0⟩
      else l

/-- Halves the column for as long as it is at least twice as long as the row. -/
def Lengths.shrink : (fuel : Nat) → Lengths → Lengths
  | 0, l => l
  | fuel + 1, l =>
      if l.row ≤ l.column / 2.0 && l.row < greatest && l.rowTop < greatest &&
          least < l.factor && least < l.column / 2.0 && least < l.columnTop then
        shrink fuel ⟨l.column / 2.0, l.row * 2.0, l.columnTop / 2.0, l.rowTop * 2.0,
          l.factor / 2.0⟩
      else l

/-- The largest modulus of a list of numbers. -/
def top (zs : List (Cplx Float)) : Float :=
  zs.foldl (fun acc z => let a := z.abs; if acc < a then a else acc) 0.0

/-- Scales row and column `i` if that brings their lengths together by a twentieth. -/
def scaleOne (b : Balance) (i : Nat) : Balance × Bool :=
  let inner := List.range' b.first (b.last - b.first)
  let column := Binary64.length (inner.map fun k => b.rows.entry k i).toArray
  let row := Binary64.length (inner.map fun k => b.rows.entry i k).toArray
  if column == 0.0 || row == 0.0 then (b, false)
  else
    let start : Lengths :=
      { column, row, factor := 1.0
        columnTop := top ((List.range b.last).map fun k => b.rows.entry k i)
        rowTop :=
          top ((List.range' b.first (b.rows.size - b.first)).map fun k => b.rows.entry i k) }
    let l := (start.grow 2200).shrink 2200
    if l.column + l.row < 0.95 * (column + row) then
      let rows := b.rows.modify i fun r => r.map fun z => z.scale (1.0 / l.factor)
      let rows := rows.map fun r => r.modify i fun z => z.scale l.factor
      ({ b with rows }, true)
    else (b, false)

/-- Scales every row and column of the block until none changes. -/
def scaleAll : (fuel : Nat) → Balance → Balance
  | 0, b => b
  | fuel + 1, b =>
      let (next, changed) := (List.range' b.first (b.last - b.first)).foldl
        (fun (acc : Balance × Bool) i =>
          let (b, c) := scaleOne acc.1 i
          (b, acc.2 || c)) (b, false)
      if changed then scaleAll fuel next else next

/-- Balances a matrix of `n` rows. -/
def of (n : Nat) (A : Rows (Cplx Float)) : Balance :=
  scaleAll 1000 (raiseColumns n (sinkRows n ⟨A, 0, n⟩))

end Balance

end PhasedArray
