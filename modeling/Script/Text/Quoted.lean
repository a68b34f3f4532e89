import Script.Text.Unprintable

/-! # Quoted text

A text between quotation marks, with every character that would end it or would not be seen replaced
by an escape. -/

namespace Script.Text

/-- A character as it stands between quotation marks. -/
def escape : Char → String
  | '\x00' => "\\0"
  | '\t' => "\\t"
  | '\r' => "\\r"
  | '\n' => "\\n"
  | '"' => "\\\""
  | '\\' => "\\\\"
  | c =>
    if isPrintable c then String.singleton c
    else "\\u\x7b" ++ String.ofList (Nat.toDigits 16 c.toNat) ++ "\x7d"

/-- A text between quotation marks. -/
def quoted (s : String) : String :=
  "\"" ++ String.join (s.toList.map escape) ++ "\""

end Script.Text
