set_option autoImplicit false

/-!
# The methods of direction finding (SPEC §3, §4.9)

One spectral search and two rotation fits.  A method has a key, by which it is
requested and counted, and a label, by which results name it.
-/

namespace PhasedArray

/-- A way of finding directions. -/
inductive Method where
  /-- Search for the peaks of the noise-subspace spectrum. -/
  | music
  /-- Fit the rotation between two overlapping sub-arrays by least squares. -/
  | esprit
  /-- Fit the rotation by total least squares. -/
  | tlsEsprit
  deriving DecidableEq, Repr, Inhabited

namespace Method

/-- Every method, in the order in which they are counted. -/
def all : List Method := [music, esprit, tlsEsprit]

/-- The name under which a method is requested. -/
def key : Method → String
  | music => "music"
  | esprit => "esprit"
  | tlsEsprit => "tls_esprit"

/-- The name a result carries. -/
def label : Method → String
  | music => "MUSIC"
  | esprit => "ESPRIT"
  | tlsEsprit => "TLS-ESPRIT"

/-- The name of an estimator that uses the method. -/
def estimatorName : Method → String
  | music => "MUSICEstimator"
  | esprit => "ESPRITEstimator"
  | tlsEsprit => "TLSESPRITEstimator"

/-- The method with the given key, in capitals or not. -/
def ofText? (text : String) : Option Method := all.find? fun m => m.key = text.toLower

end Method

end PhasedArray
