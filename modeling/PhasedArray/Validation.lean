import PhasedArray.CommandLine
import PhasedArray.Engine
import PhasedArray.Solvers.Numeric

set_option autoImplicit false

/-!
# Validation: a sweep asked for on the command line (SPEC §6)

The options describe an array, its sources and a sweep; the report repeats what was
asked for and gives the statistics of each signal-to-noise ratio.
-/

namespace PhasedArray

namespace Validation

open CommandLine (Given Options Stop)

/-- What a sweep found, with what was asked for. -/
structure Report where
  options : Options
  sweep : Evaluation.Sweep Float

/-- What an option was given as a setting; no value at all is an empty list. -/
def settingOf {β : Type} (read : β → Setting Float) : Given β → Setting Float
  | .value x => read x
  | .nothing => .list []

/-- The settings of the array. -/
def arraySettings (o : Options) : Settings Float :=
  [("num_elements", settingOf .whole o.numElements), ("element_spacing", settingOf .real o.spacing)]

/-- The settings of the estimator. -/
def estimatorSettings (o : Options) : Settings Float :=
  [("num_sources", .whole o.angles.length), ("method", settingOf (.text ·.key) o.method),
    ("forward_backward", .flag o.forwardBackward)]

/-- The seed of the stream; without one it starts from zero. -/
def seedOf (o : Options) : Outcome Float Int :=
  match o.seed with
  | none => .ok 0
  | some (.value i) => .ok i
  | some .nothing => .error (.misfitSetting "seed")

/-- What the sweep runs through. -/
def sweepRequest (o : Options) : Evaluation.SweepRequest Float :=
  { angles := .list (o.angles.map fun x => .real (Scalar.toRadians x))
    ratios := .list (o.snr.map .real)
    trials := settingOf .whole o.trials
    snapshots := settingOf .whole o.snapshots
    threshold := Evaluation.defaultThreshold }

/-- Runs the sweep that the options describe.  The number of trials is looked at before the
seed, and the number of snapshots where there are ratios to try. -/
def run (o : Options) : Outcome Float Report := do
  let u ← Engine.setup (.table (arraySettings o)) (.table (estimatorSettings o)) (.table [])
  let request := sweepRequest o
  let _ ← request.checked
  let seed ← seedOf o
  let sweep ← (Evaluation.sweep .numeric .splitMix u.estimator request Scalar.same
    (SplitMix.seeded seed)).1
  return ⟨o, sweep⟩

/-! ## The text of a report -/

/-- A float in a report; infinities and undefined values are words. -/
def floatText (x : Float) : String :=
  if x.isNaN then "NaN"
  else if x.isInf then if x < 0.0 then "-Infinity" else "Infinity"
  else Decimal.shortestText x

/-- The mean error of a point of the sweep. -/
def errorText : Option (AngleError Float) → String
  | none => "NaN"
  | some .unmatched => "Infinity"
  | some (.rms x) => floatText x

/-- A line break and the indentation of a nesting depth. -/
def lineBreak (depth : Nat) : String := "\n" ++ String.ofList (List.replicate (2 * depth) ' ')

/-- Items between brackets, one on each line. -/
def bracketed (opening closing : String) (depth : Nat) (items : List String) : String :=
  if items.isEmpty then opening ++ closing
  else
    opening ++ lineBreak (depth + 1) ++ (("," ++ lineBreak (depth + 1)).intercalate items) ++
      lineBreak depth ++ closing

/-- A name and a value. -/
def field (name value : String) : String := "\"" ++ name ++ "\": " ++ value

/-- One point of the sweep. -/
def pointText (depth : Nat) (entry : Float × Evaluation.SweepPoint Float) : String :=
  let p := entry.2
  bracketed "\x7b" "\x7d" depth
    [field "snr_db" (floatText entry.1), field "rmse" (errorText p.meanError),
      field "success_rate" (floatText p.successRate), field "num_trials" (toString p.trials),
      field "num_degenerate" (toString p.degenerate)]

/-- What an option was given. -/
def givenText {β : Type} (text : β → String) : Given β → String
  | .value x => text x
  | .nothing => "[]"

/-- The report. -/
def Report.text (r : Report) : String :=
  let o := r.options
  bracketed "\x7b" "\x7d" 0
    [field "method" (givenText (fun m => "\"" ++ m.key ++ "\"") o.method),
      field "num_elements" (givenText toString o.numElements),
      field "element_spacing" (givenText floatText o.spacing),
      field "true_angles_deg" (bracketed "[" "]" 1 (o.angles.map floatText)),
      field "num_snapshots" (givenText toString o.snapshots),
      field "seed" (match o.seed with | some s => givenText toString s | none => "null"),
      field "results" (bracketed "[" "]" 1 (r.sweep.map (pointText 2)))]

/-- The help text. -/
def helpText : String :=
  "usage: phased-array [options]\n\n" ++
  "Monte Carlo validation of ULA direction-of-arrival estimators\n\n" ++
  "options:\n" ++
  "  -h, --help             show this help message and exit\n" ++
  "  --num-elements N       Number of array elements (default: 16)\n" ++
  "  --spacing D            Element spacing in wavelengths (default: 0.5)\n" ++
  "  --method NAME          music, esprit or tls_esprit (default: esprit)\n" ++
  "  --angles A [A ...]     True source directions in degrees (default: -30 10 45)\n" ++
  "  --snr S [S ...]        SNR points in dB (default: 0 10 20)\n" ++
  "  --trials N             Trials per SNR point (default: 100)\n" ++
  "  --snapshots N          Snapshots per trial (default: 256)\n" ++
  "  --seed N               Random seed for reproducible runs\n" ++
  "  --forward-backward     Use forward-backward averaged covariance\n" ++
  "  --debug                Enable debug logging\n"

end Validation

end PhasedArray
