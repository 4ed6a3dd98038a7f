import ScriptVm.Text.Hex
import ScriptVm.Text.Printable

/-! Quoted text. Quotes, backslashes and the usual control characters are escaped by a letter, and
every other character that cannot be shown by its number. -/

namespace ScriptVm.Quoted

def escape (c : Char) : String :=
  match c with
  | '"' => "\\\""
  | '\\' => "\\\\"
  | '\n' => "\\n"
  | '\r' => "\\r"
  | '\t' => "\\t"
  | '\x00' => "\\0"
  | c => if isPrintable c then c.toString else "\\u\x7b" ++ Hex.ofNat c.toNat ++ "\x7d"

def ofString (s : String) : String := "\"" ++ String.join (s.toList.map escape) ++ "\""

end ScriptVm.Quoted
