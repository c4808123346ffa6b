import Resumable.Text.Digits
import Resumable.Text.Hidden

/-!
# Quoted text

String constants and unit names are listed between double quotes.  The quote and the backslash are
written after a backslash, the tab, the line feed, the carriage return and the null character have
letters of their own, and any other character without a visible shape is written as its code point.
-/

namespace Resumable.Text

/-- The written form of one character of a quoted text. -/
def quotedChar (c : Char) : String :=
  if c = '\x00' then "\\0"
  else if c = '\t' then "\\t"
  else if c = '\n' then "\\n"
  else if c = '\r' then "\\r"
  else if c = '"' then "\\\""
  else if c = '\\' then "\\\\"
  else if isHidden c then "\\u\x7b" ++ hex c.toNat ++ "\x7d"
  else c.toString

/-- The text between double quotes, with escapes. -/
def quoted (s : String) : String :=
  "\"" ++ String.join (s.toList.map quotedChar) ++ "\""

end Resumable.Text
