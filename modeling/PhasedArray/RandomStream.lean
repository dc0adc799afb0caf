import PhasedArray.Mat
import PhasedArray.Scalar.Float

set_option autoImplicit false

/-!
# Random streams (SPEC §4.6)

A random experiment draws from a stream: an explicit state, and two functions that
give the next uniform and the next normal value with the state after it.  Nothing
about the values is assumed, so what is proved of an experiment holds of every
stream, in particular of one that merely counts its draws.
-/

namespace PhasedArray

/-- The two kinds of draw from a stream with states `σ`. -/
structure Generator (α σ : Type) where
  /-- The next value in the unit interval. -/
  uniform : σ → α × σ
  /-- The next value of mean zero and variance one. -/
  normal : σ → α × σ

namespace Generator

variable {α σ : Type}

/-- Appends the next `n` draws to `drawn`. -/
@[specialize] def drawInto (draw : σ → α × σ) : (n : Nat) → (drawn : Array α) → σ → Array α × σ
  | 0, drawn, s => (drawn, s)
  | n + 1, drawn, s =>
      match draw s with
      | (x, s) => drawInto draw n (drawn.push x) s

theorem size_drawInto (draw : σ → α × σ) (n : Nat) (drawn : Array α) (s : σ) :
    (drawInto draw n drawn s).1.size = drawn.size + n := by
  induction n generalizing drawn s with
  | zero => rfl
  | succ n ih =>
    simp only [drawInto]
    rw [ih]
    simp
    omega

/-- The next `n` draws. -/
@[inline] def drawVector (draw : σ → α × σ) (n : Nat) (s : σ) : Vector α n × σ :=
  (⟨(drawInto draw n #[] s).1, by simp [size_drawInto]⟩, (drawInto draw n #[] s).2)

/-- The next `m * n` draws, row by row. -/
@[inline] def drawMat (draw : σ → α × σ) (m n : Nat) (s : σ) : Mat α m n × σ :=
  match drawVector draw (m * n) s with
  | (xs, s) => (Mat.ofEntries xs, s)

end Generator

/-! ## A splitting mixer -/

namespace SplitMix

/-- The distance between successive states, an odd number near the golden ratio of the
state space. -/
def gamma : UInt64 := 0x9E3779B97F4A7C15

/-- Scrambles a state into an output. -/
@[inline] def mix (z : UInt64) : UInt64 :=
  let z := (z ^^^ (z >>> 30)) * 0xBF58476D1CE4E5B9
  let z := (z ^^^ (z >>> 27)) * 0x94D049BB133111EB
  z ^^^ (z >>> 31)

/-- The 53 leading bits of an output as a fraction of one. -/
@[inline] def fraction (z : UInt64) : Float := (z >>> 11).toFloat / 9007199254740992.0

/-- The state that a seed stands for. -/
def seeded (seed : Int) : UInt64 := UInt64.ofNat (seed % 0x10000000000000000).toNat

/-- The next value in the unit interval. -/
@[inline] def uniform (s : UInt64) : Float × UInt64 :=
  let s := s + gamma
  (fraction (mix s), s)

/-- Adds up the next `n` values in the unit interval. -/
def sumOf : (n : Nat) → (sum : Float) → UInt64 → Float × UInt64
  | 0, sum, s => (sum, s)
  | n + 1, sum, s =>
      let s := s + gamma
      sumOf n (sum + fraction (mix s)) s

/-- Twelve uniform values have variance one; their sum less six has mean zero. -/
def normal (s : UInt64) : Float × UInt64 :=
  match sumOf 12 0.0 s with
  | (x, s) => (x - 6.0, s)

end SplitMix

/-- The stream of a splitting mixer. -/
def Generator.splitMix : Generator Float UInt64 := ⟨SplitMix.uniform, SplitMix.normal⟩

/-! ## Recorded draws -/

/-- Two lists of values, each read from the start again when it is used up. -/
structure Recorded (α : Type) where
  uniform : Array α
  normal : Array α
  uniformPlace : Nat := 0
  normalPlace : Nat := 0
  deriving Inhabited

/-- The stream of recorded draws. -/
def Generator.recorded {α : Type} [Scalar α] : Generator α (Recorded α) where
  uniform r :=
    (r.uniform.getD (r.uniformPlace % r.uniform.size) 0,
      { r with uniformPlace := r.uniformPlace + 1 })
  normal r :=
    (r.normal.getD (r.normalPlace % r.normal.size) 0, { r with normalPlace := r.normalPlace + 1 })

/-- The state of either kind of stream. -/
inductive Stream where
  | splitMix (state : UInt64)
  | recorded (draws : Recorded Float)

/-- The stream that is the one or the other. -/
def Generator.stream : Generator Float Stream where
  uniform
    | .splitMix s => let (x, s) := SplitMix.uniform s; (x, .splitMix s)
    | .recorded r => let (x, r) := recorded.uniform r; (x, .recorded r)
  normal
    | .splitMix s => let (x, s) := SplitMix.normal s; (x, .splitMix s)
    | .recorded r => let (x, r) := recorded.normal r; (x, .recorded r)

end PhasedArray
