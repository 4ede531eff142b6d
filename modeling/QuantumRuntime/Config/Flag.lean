import QuantumRuntime.Text.Blank
import QuantumRuntime.Config.Error

/-!
# Boolean flags

An environment flag is read after trimming blanks and folding ASCII capitals to lower case:
`1`, `true`, `yes` and `on` switch it on; `0`, `false`, `no`, `off` and the empty text switch it
off; anything else is refused with the folded text.
-/

namespace QuantumRuntime

/-- The texts that switch a flag on. -/
def flagOnWords : List String := ["1", "true", "yes", "on"]

/-- The texts that switch a flag off. -/
def flagOffWords : List String := ["0", "false", "no", "off", ""]

/-- Folds ASCII capitals to lower case and leaves every other character alone. -/
def asciiLower (s : String) : String := String.ofList (s.toList.map Char.toLower)

/-- Reads the flag `key` from its text `value`. -/
def parseFlag (key value : String) : Except ConfigError Bool :=
  let folded := asciiLower (trimBlank value)
  if flagOnWords.contains folded then .ok true
  else if flagOffWords.contains folded then .ok false
  else .error (.validation s!"{key}: expected a boolean, got '{folded}'")

end QuantumRuntime
