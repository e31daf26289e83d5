import RegionGuard.Json.Value
set_option autoImplicit false

namespace RegionGuard.Json

def quote (l : Literal) : String := "\"" ++ l.spelling ++ "\""

mutual

def compact : Json → String
  | .null => "null"
  | .bool b => if b then "true" else "false"
  | .integer i => toString i
  | .fraction => "0.0"
  | .string l => quote l
  | .array items => "[" ++ ",".intercalate (compactItems items) ++ "]"
  | .object members => "\x7b" ++ ",".intercalate (compactMembers members) ++ "\x7d"

def compactItems : List Json → List String
  | [] => []
  | j :: js => compact j :: compactItems js

def compactMembers : List (Literal × Json) → List String
  | [] => []
  | (name, j) :: ms => (quote name ++ ":" ++ compact j) :: compactMembers ms

end

/-- Brackets around indented lines; empty ones stay closed. -/
def spread (opening closing indent : String) (lines : List String) : String :=
  if lines.isEmpty then opening ++ closing
  else
    let inner := "\n" ++ indent ++ "  "
    opening ++ inner ++ ("," ++ inner).intercalate lines ++ "\n" ++ indent ++ closing

mutual

/-- The text with one item a line, for a value that starts at the given indentation. -/
def pretty (indent : String) : Json → String
  | .array items => spread "[" "]" indent (prettyItems (indent ++ "  ") items)
  | .object members => spread "\x7b" "\x7d" indent (prettyMembers (indent ++ "  ") members)
  | .null => "null"
  | .bool b => if b then "true" else "false"
  | .integer i => toString i
  | .fraction => "0.0"
  | .string l => quote l

def prettyItems (indent : String) : List Json → List String
  | [] => []
  | j :: js => pretty indent j :: prettyItems indent js

def prettyMembers (indent : String) : List (Literal × Json) → List String
  | [] => []
  | (name, j) :: ms => (quote name ++ ": " ++ pretty indent j) :: prettyMembers indent ms

end

end RegionGuard.Json
