import ThreeAddress.Text.Unprintable

/-!
Text in quotes, as messages show it: quotes, backslashes and whatever cannot be seen on its own are escaped.
-/

namespace ThreeAddress.Text

def escape (c : Char) : String :=
  match c with
  | '\x00' => "\\0"
  | '\t' => "\\t"
  | '\r' => "\\r"
  | '\n' => "\\n"
  | '\\' => "\\\\"
  | '"' => "\\\""
  | c =>
    if isUnprintable c then "\\u\x7b" ++ String.ofList (Nat.toDigits 16 c.toNat) ++ "\x7d" else String.singleton c

def quoted (s : String) : String := "\"" ++ String.join (s.toList.map escape) ++ "\""

end ThreeAddress.Text
