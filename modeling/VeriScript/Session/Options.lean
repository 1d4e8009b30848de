/-!
# Options of a run (`make_options`)
-/

namespace VeriScript

/-- The importance of a message. -/
inductive Level where
  | error
  | warn
  | info
  deriving DecidableEq, Repr

/-- The least verbosity that lets a message through. -/
def Level.rank : Level → Nat
  | .error => 1
  | .warn => 2
  | .info => 3

inductive SummaryFormat where
  | pretty
  | json
  deriving DecidableEq, Repr

structure Options where
  /-- Zero lets no message through. -/
  verbosity : Nat
  /-- Show the position of the statement with its output. -/
  showPosition : Bool
  /-- The file to write the summary of proofs to. -/
  summaryFile : Option String
  summaryFormat : SummaryFormat
  useColor : Bool
  /-- Trace checking and evaluation. -/
  debug : Bool
  deriving DecidableEq, Repr

def Options.standard : Options := ⟨3, false, none, .pretty, false, false⟩

end VeriScript
