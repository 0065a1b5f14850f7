/-!
# Log records
-/

namespace CallerFirst

/-- How much a record matters. -/
inductive Level
  | info
  | debug
  | trace
  deriving DecidableEq, Repr

/-- A line of the log. -/
structure LogRecord where
  level : Level
  message : String
  deriving DecidableEq, Repr

namespace LogRecord

/-- The level in capitals and the message. -/
def display (r : LogRecord) : String :=
  match r.level with
  | .info => "INFO " ++ r.message
  | .debug => "DEBUG " ++ r.message
  | .trace => "TRACE " ++ r.message

end LogRecord

end CallerFirst
