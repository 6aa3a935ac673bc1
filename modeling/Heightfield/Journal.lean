import Heightfield.Diagnostic

/-! Log records. -/

namespace Heightfield

inductive LogLevel
  | error | warn | info | debug | trace
deriving DecidableEq, Inhabited

/-- A diagnostic that does not refuse is logged by how much it matters. -/
def Severity.logLevel : Severity → LogLevel
  | .error => .error | .warning => .warn | .note => .info

structure LogRecord where
  level : LogLevel
  message : String
deriving DecidableEq, Inhabited

/-- Records in the order they were made. -/
abbrev Journal := List LogRecord

end Heightfield
