import ObjectLayout.Text

/-!
# JSON texts

The indented form of a JSON value: two blanks a level, one item or member a line, and a bare
pair of brackets for an empty list or object. Quotes, backslashes and control characters below
the blank are escaped in strings; every other character stands for itself.
-/
namespace ObjectLayout

inductive JsonValue where
  | null
  | bool (value : Bool)
  | number (value : Nat)
  | string (value : String)
  | list (items : List JsonValue)
  | object (members : List (String × JsonValue))

namespace JsonValue

/-- The text of a value, or null for its absence. -/
def ofOption {α : Type} (encode : α → JsonValue) : Option α → JsonValue
  | none => .null
  | some value => encode value

def hexDigit (n : Nat) : Char := if n < 10 then Char.ofNat (48 + n) else Char.ofNat (87 + n)

/-- A character as it stands between the quotes of a string. -/
def escape (c : Char) : List Char :=
  if c = '"' then ['\\', '"']
  else if c = '\\' then ['\\', '\\']
  else if c.toNat = 8 then ['\\', 'b']
  else if c.toNat = 9 then ['\\', 't']
  else if c.toNat = 10 then ['\\', 'n']
  else if c.toNat = 12 then ['\\', 'f']
  else if c.toNat = 13 then ['\\', 'r']
  else if c.toNat < 32 then ['\\', 'u', '0', '0', hexDigit (c.toNat / 16), hexDigit (c.toNat % 16)]
  else [c]

def quote (text : String) : String :=
  String.ofList ('"' :: text.toList.flatMap escape ++ ['"'])

/-- Begin a line at a level. -/
def newLine (level : Nat) : String := "\n" ++ Text.blanks (2 * level)

mutual

/-- The text of a value whose first line is already indented to `level`. -/
def write (level : Nat) : JsonValue → String
  | .null => "null"
  | .bool value => if value then "true" else "false"
  | .number value => toString value
  | .string value => quote value
  | .list [] => "[]"
  | .list (item :: rest) =>
    "[" ++ newLine (level + 1) ++ write (level + 1) item ++ writeItems (level + 1) rest
      ++ newLine level ++ "]"
  | .object [] => "\x7b\x7d"
  | .object ((name, value) :: rest) =>
    "\x7b" ++ newLine (level + 1) ++ quote name ++ ": " ++ write (level + 1) value
      ++ writeMembers (level + 1) rest ++ newLine level ++ "\x7d"

/-- The items behind the first one. -/
def writeItems (level : Nat) : List JsonValue → String
  | [] => ""
  | item :: rest => "," ++ newLine level ++ write level item ++ writeItems level rest

/-- The members behind the first one. -/
def writeMembers (level : Nat) : List (String × JsonValue) → String
  | [] => ""
  | (name, value) :: rest =>
    "," ++ newLine level ++ quote name ++ ": " ++ write level value ++ writeMembers level rest

end

/-- The indented text of a value, without a final line break. -/
def text (value : JsonValue) : String := value.write 0

end JsonValue

end ObjectLayout
