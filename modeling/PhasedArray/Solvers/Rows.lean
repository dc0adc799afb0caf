import PhasedArray.Solvers.Scale

set_option autoImplicit false

/-!
# Matrices under transformation, row by row

The solvers for eigenvalues change a matrix entry by entry until its eigenvalues
can be read off.  `Rows` stores the rows of such a matrix; the unitary changes they
rely on are reflections, which turn a whole column into a multiple of one axis.
-/

namespace PhasedArray

/-- The rows of a matrix under transformation. -/
abbrev Rows (β : Type) := Array (Array β)

namespace Rows

variable {β : Type} [Zero β]

/-- The entry in row `i` and column `j`. -/
@[inline] def entry (A : Rows β) (i j : Nat) : β := (A.getD i #[]).getD j 0

/-- Replaces one entry. -/
@[inline] def put (A : Rows β) (i j : Nat) (x : β) : Rows β := A.modify i (·.setIfInBounds j x)

/-- The rows of a matrix. -/
def ofMat {m n : Nat} (A : Mat β m n) : Rows β := A.rows.toArray.map Vector.toArray

/-- The rows and columns `first, ..., first + count - 1` as a matrix of their own. -/
def block (A : Rows β) (first count : Nat) : Rows β :=
  (A.extract first (first + count)).map fun row => row.extract first (first + count)

/-- The same rule at every entry. -/
def mapEntries {γ : Type} (f : β → γ) (A : Rows β) : Rows γ := A.map (·.map f)

end Rows

/-! ## Reflections -/

/-- The unitary change `x ↦ x - τ̄ (vᴴ x) v` of consecutive rows. -/
structure Reflection where
  τ : Cplx Float
  v : Array (Cplx Float)

namespace Reflection

/-- The reflection that turns the column `x` into a real multiple of its first axis, and
the first entry it leaves.  A column that is one already is left alone. -/
def clearing (x : Array (Cplx Float)) : Cplx Float × Reflection :=
  let α := x.getD 0 0
  let rest := x.extract 1 x.size
  let r := Binary64.length rest
  if r == 0.0 && α.im == 0.0 then (α, ⟨0, #[]⟩)
  else
    let β := -Binary64.withSign (Binary64.length x) α.re
    let e := Binary64.binaryExponent β.abs
    let b := β.scaleB (-e)
    let a := Binary64.scaleParts (-e) α
    let τ : Cplx Float := ⟨(b - a.re) / b, -a.im / b⟩
    let f : Cplx Float := Cplx.quot 1 ⟨a.re - b, a.im⟩
    (.ofReal β, ⟨τ, #[1] ++ rest.map fun z => Binary64.scaleParts (-e) z * f⟩)

/-- Changes the rows from `first` on, in the columns from `left` up to `right`. -/
def onRows (H : Reflection) (first left right : Nat) (A : Rows (Cplx Float)) :
    Rows (Cplx Float) :=
  (List.range' left (right - left)).foldl
    (fun A j =>
      let s := (List.range H.v.size).foldl
        (fun s k => s + (H.v.getD k 0).conj * A.entry (first + k) j) 0
      let s := H.τ.conj * s
      (List.range H.v.size).foldl
        (fun A k => A.put (first + k) j (A.entry (first + k) j - s * H.v.getD k 0)) A) A

/-- Changes the columns from `first` on by the adjoint, in the rows from `top` up to
`bottom`. -/
def onColumns (H : Reflection) (first top bottom : Nat) (A : Rows (Cplx Float)) :
    Rows (Cplx Float) :=
  (List.range' top (bottom - top)).foldl
    (fun A i =>
      let s := (List.range H.v.size).foldl
        (fun s k => s + A.entry i (first + k) * H.v.getD k 0) 0
      let s := s * H.τ
      (List.range H.v.size).foldl
        (fun A k => A.put i (first + k) (A.entry i (first + k) - s * (H.v.getD k 0).conj)) A) A

end Reflection

namespace Rows

/-- Clears every entry of a matrix of `n` rows below the first subdiagonal.  The second
matrix collects the changes of its columns. -/
def clearBelow (n : Nat) (A basis : Rows (Cplx Float)) :
    Rows (Cplx Float) × Rows (Cplx Float) :=
  (List.range (n - 1)).foldl
    (fun (acc : Rows (Cplx Float) × Rows (Cplx Float)) k =>
      match acc with
      | (A, basis) =>
          let x := ((List.range' (k + 1) (n - (k + 1))).map fun i => A.entry i k).toArray
          match Reflection.clearing x with
          | (α, H) =>
              let A := H.onRows (k + 1) (k + 1) n (H.onColumns (k + 1) 0 n A)
              let A := (List.range' (k + 2) (n - (k + 2))).foldl (fun A i => A.put i k 0) A
              (A.put (k + 1) k α, H.onColumns (k + 1) 0 basis.size basis))
    (A, basis)

end Rows

end PhasedArray
