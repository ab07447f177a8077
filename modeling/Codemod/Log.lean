/-!
# Log records
-/

namespace Codemod

inductive LogLevel where
  | warn
  | info
  | debug
  | trace
deriving DecidableEq, Repr

def LogLevel.label : LogLevel → String
  | .warn => "WARN"
  | .info => "INFO"
  | .debug => "DEBUG"
  | .trace => "TRACE"

structure LogRecord where
  level : LogLevel
  message : String
deriving DecidableEq, Repr

def LogRecord.render (record : LogRecord) : String :=
  s!"{record.level.label} {record.message}"

end Codemod
