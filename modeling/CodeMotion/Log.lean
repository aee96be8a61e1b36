/-! Log records: a level, a message and named fields. -/

namespace CodeMotion

inductive LogLevel
  | debug | info | warn
deriving DecidableEq

namespace LogLevel

def name : LogLevel → String
  | debug => "DEBUG" | info => "INFO" | warn => "WARN"

/-- Levels are compared by severity. -/
def severity : LogLevel → Int
  | debug => -4 | info => 0 | warn => 4

end LogLevel

inductive LogField
  | text (s : String)
  | number (n : Int)
deriving DecidableEq

structure LogRecord where
  level : LogLevel
  message : String
  fields : List (String × LogField)
deriving DecidableEq

end CodeMotion
