import ThreeAddress.Json.Value

/-!
Writing a JSON value: one item or member to a line, indented by two spaces a level; empty brackets stand together.
-/

namespace ThreeAddress.Json

def hexChar (n : Nat) : Char := (Nat.digitChar n)

def Piece.write : Piece → List Char
  | .char '"' => ['\\', '"']
  | .char '\\' => ['\\', '\\']
  | .char '\x08' => ['\\', 'b']
  | .char '\t' => ['\\', 't']
  | .char '\n' => ['\\', 'n']
  | .char '\x0c' => ['\\', 'f']
  | .char '\r' => ['\\', 'r']
  | .char c => [c]
  | .unit u => ['\\', 'u', hexChar (u / 4096 % 16), hexChar (u / 256 % 16), hexChar (u / 16 % 16), hexChar (u % 16)]

def Literal.write (s : Literal) : List Char := '"' :: s.pieces.flatMap Piece.write ++ ['"']

def Number.write (n : Number) : List Char :=
  (if n.negative then ['-'] else []) ++ n.whole ++
  (match n.fraction with
    | some ds => '.' :: ds
    | none => []) ++
  match n.exponent with
  | some (negative, ds) => 'e' :: (if negative then ['-'] else []) ++ ds
  | none => []

/-- The start of a line at the given level. -/
def newline (level : Nat) : List Char := '\n' :: List.replicate (2 * level) ' '

mutual

/-- A value that starts at the given level. -/
def Value.write (level : Nat) : Value → List Char
  | .null => ['n', 'u', 'l', 'l']
  | .bool true => ['t', 'r', 'u', 'e']
  | .bool false => ['f', 'a', 'l', 's', 'e']
  | .number n => n.write
  | .string s => s.write
  | .array [] _ => ['[', ']']
  | .array (v :: vs) _ =>
    '[' :: newline (level + 1) ++ v.write (level + 1) ++ writeItems (level + 1) vs ++ newline level ++ [']']
  | .object [] _ => ['\x7b', '\x7d']
  | .object ((k, v) :: ms) _ =>
    '\x7b' :: newline (level + 1) ++ k.write ++ [':', ' '] ++ v.write (level + 1) ++ writeMembers (level + 1) ms ++
      newline level ++ ['\x7d']
  | .missing _ | .broken _ _ => []

def writeItems (level : Nat) : List Value → List Char
  | [] => []
  | v :: vs => ',' :: newline level ++ v.write level ++ writeItems level vs

def writeMembers (level : Nat) : List (Literal × Value) → List Char
  | [] => []
  | (k, v) :: ms => ',' :: newline level ++ k.write ++ [':', ' '] ++ v.write level ++ writeMembers level ms

end

end ThreeAddress.Json
