import Mathlib.Logic.Function.Iterate
import PhasedArray.Signal

set_option autoImplicit false

/-!
# What a scene draws (SPEC §4.6)

A scene draws its symbols first, one uniform value for each source and snapshot, and its noise
after them, if there is any: two normal values for each element and snapshot.  A scene that is
refused draws nothing.
-/

namespace PhasedArray

namespace Generator

variable {α σ : Type}

/-- The state of the stream after `n` draws of one kind. -/
def after (draw : σ → α × σ) (n : ℕ) : σ → σ := (fun s => (draw s).2)^[n]

theorem after_add (draw : σ → α × σ) (m n : ℕ) (s : σ) :
    after draw (m + n) s = after draw n (after draw m s) := by
  rw [Nat.add_comm, after, Function.iterate_add_apply]
  rfl

theorem drawInto_snd (draw : σ → α × σ) (n : ℕ) (drawn : Array α) (s : σ) :
    (drawInto draw n drawn s).2 = after draw n s := by
  induction n generalizing drawn s with
  | zero => rfl
  | succ n ih => exact ih _ _

/-- A matrix takes as many draws as it has entries. -/
theorem drawMat_snd (draw : σ → α × σ) (m n : ℕ) (s : σ) :
    (drawMat draw m n s).2 = after draw (m * n) s := drawInto_snd draw (m * n) #[] s

end Generator

namespace Signal

open Generator

section Draws

variable {α σ : Type} [Scalar α] {G : Generator α σ} {g : Geometry α} {scene : Scene α}

theorem symbols_snd (G : Generator α σ) (k n : ℕ) (s : σ) :
    (symbols G k n s).2 = after G.uniform (k * n) s := drawMat_snd G.uniform k n s

theorem noise_snd (G : Generator α σ) (amplitude : α) (m n : ℕ) (s : σ) :
    (noise G amplitude m n s).2 = after G.normal (2 * (m * n)) s := by
  rw [Nat.two_mul, after_add, ← drawMat_snd, ← drawMat_snd]
  rfl

/-- The snapshots without noise. -/
def clean (G : Generator α σ) (g : Geometry α) (θ : List α) (n : ℕ) (s : σ) :
    Mat (Cplx α) g.size n :=
  g.steeringOf θ * (symbols G θ.length n s).1

variable {θ : List α} {n : ℕ}

/-- Without power in the noise only the symbols are drawn. -/
theorem generate_of_silent (hplan : planOf g scene = .ok (θ, n)) {power : α}
    (hpower : noisePowerOf scene = .ok power) (hsilent : ¬ 0 < power) (s : σ) :
    generate G g scene s = (.ok ⟨n, clean G g θ n s⟩, after G.uniform (θ.length * n) s) := by
  rw [← symbols_snd, generate, hplan]
  dsimp only
  rw [snapshotsOf, hpower]
  dsimp only
  rw [if_neg hsilent]
  rfl

/-- Noise of some power is drawn after the symbols, and added to the snapshots without noise. -/
theorem generate_of_noisy (hcounted : g.isCounted = true) (hplan : planOf g scene = .ok (θ, n))
    {power : α} (hpower : noisePowerOf scene = .ok power) (hpos : 0 < power) (s : σ) :
    generate G g scene s =
      (.ok ⟨n, clean G g θ n s +
          (noise G (amplitudeOf power) g.size n (after G.uniform (θ.length * n) s)).1⟩,
        after G.normal (2 * (g.size * n)) (after G.uniform (θ.length * n) s)) := by
  rw [← noise_snd G (amplitudeOf power), ← symbols_snd, generate, hplan]
  dsimp only
  rw [snapshotsOf, hpower]
  dsimp only
  rw [if_pos hpos, if_pos hcounted]
  rfl

/-- Fewer snapshots than one are refused before anything is drawn. -/
theorem generate_of_belowOne {N : Number α}
    (hread : scene.snapshots.toNumber "num_snapshots" = .ok N) (hbelow : N.belowOne = true)
    (G : Generator α σ) (g : Geometry α) (s : σ) :
    generate G g scene s = (.error (.snapshotCount scene.snapshots), s) := by
  have hplan : planOf g scene = .error (.snapshotCount scene.snapshots) := by
    rw [planOf, hread]
    exact if_pos hbelow
  rw [generate, hplan]

end Draws

end Signal

end PhasedArray
