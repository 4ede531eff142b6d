/-!
# Configuration errors

A settings document that cannot be read as the settings it should hold is a parse error; its
detail is the reader's and is not kept. Settings that read well but break a rule are a validation
error, with a sentence that names the rule.
-/

namespace QuantumRuntime

/-- Why settings could not be loaded. -/
inductive ConfigError
  | parse
  | validation (detail : String)
deriving DecidableEq, Repr

namespace ConfigError

/-- The name of the kind of error. -/
def kind : ConfigError → String
  | parse => "ParseError"
  | validation _ => "ValidationError"

/-- The message of the error, when it has one of its own. -/
def message? : ConfigError → Option String
  | parse => none
  | validation detail => some ("Validation error: " ++ detail)

end ConfigError

end QuantumRuntime
