import PhasedArray.Validation

set_option autoImplicit false

/-!
# The program (SPEC §6)

Reads the command line, runs the sweep and prints the report.  A command line that
cannot be read ends the program with code 2, a request that cannot be answered with
code 1.
-/

open PhasedArray

/-- Runs the program. -/
def main (words : List String) : IO UInt32 := do
  match CommandLine.parse words with
  | .error .help =>
      IO.print Validation.helpText
      return 0
  | .error (.usage reason) =>
      IO.eprintln s!"error: {reason}"
      return 2
  | .ok options =>
      match Validation.run options with
      | .error fault =>
          IO.eprintln s!"error: {fault.message}"
          return 1
      | .ok report =>
          IO.println report.text
          return 0
