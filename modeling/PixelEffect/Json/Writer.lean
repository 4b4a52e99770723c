import PixelEffect.Json.Basic

namespace PixelEffect.Json

/-- A character of a string; quotes, backslashes and control characters are escaped. -/
def escape (c : Char) : List Char :=
  match c with
  | '"' => ['\\', '"']
  | '\\' => ['\\', '\\']
  | '\x08' => ['\\', 'b']
  | '\x0c' => ['\\', 'f']
  | '\n' => ['\\', 'n']
  | '\r' => ['\\', 'r']
  | '\t' => ['\\', 't']
  | c =>
    if c.toNat < 0x20 then
      ['\\', 'u', '0', '0', Nat.digitChar (c.toNat / 16), Nat.digitChar (c.toNat % 16)]
    else [c]

def stringChars (s : String) : List Char := '"' :: s.toList.flatMap escape ++ ['"']

/-- A new line at the given level. -/
def newline (level : Nat) : List Char := '\n' :: List.replicate (2 * level) ' '

mutual

/-- The text of a value whose first line is already indented. -/
def chars (level : Nat) : Json → List Char
  | null => ['n', 'u', 'l', 'l']
  | bool true => ['t', 'r', 'u', 'e']
  | bool false => ['f', 'a', 'l', 's', 'e']
  | number n => n.toChars
  | string s => stringChars s
  | array [] => ['[', ']']
  | array (item :: rest) =>
    '[' :: newline (level + 1) ++ chars (level + 1) item ++ itemChars (level + 1) rest
      ++ newline level ++ [']']
  | object [] => ['\x7b', '\x7d']
  | object ((name, v) :: rest) =>
    '\x7b' :: newline (level + 1) ++ stringChars name ++ [':', ' '] ++ chars (level + 1) v
      ++ memberChars (level + 1) rest ++ newline level ++ ['\x7d']

/-- The items behind the first one. -/
def itemChars (level : Nat) : List Json → List Char
  | [] => []
  | item :: rest => ',' :: newline level ++ chars level item ++ itemChars level rest

/-- The members behind the first one. -/
def memberChars (level : Nat) : List (String × Json) → List Char
  | [] => []
  | (name, v) :: rest =>
    ',' :: newline level ++ stringChars name ++ [':', ' '] ++ chars level v
      ++ memberChars level rest

end

/-- The text of a value with one item or member to a line, indented by two blanks for every
level. -/
def pretty (v : Json) : String := String.ofList (chars 0 v)

end PixelEffect.Json
