/-!
# Statistics as JSON text

One object to a command, each member on a line of its own, indented by two blanks.
-/

namespace DeflateHeader.Cli

/-- A value of a member. -/
inductive StatValue
  | absent
  | flag (value : Bool)
  | number (value : Nat)
  /-- A word without characters that JSON would escape. -/
  | word (value : String)
  deriving DecidableEq, Repr

namespace StatValue

/-- The JSON text of a value. -/
def render : StatValue → String
  | absent => "null"
  | flag true => "true"
  | flag false => "false"
  | number value => toString value
  | word value => "\"" ++ value ++ "\""

end StatValue

/-- Members with their names, in the order of the names. -/
abbrev Stats := List (String × StatValue)

namespace Stats

/-- The JSON text of an object, whose members stand in the given order. -/
def render (stats : Stats) : String :=
  let member (m : String × StatValue) := "  \"" ++ m.1 ++ "\": " ++ m.2.render
  "\x7b\n" ++ ",\n".intercalate (stats.map member) ++ "\n\x7d"

end Stats
end DeflateHeader.Cli
