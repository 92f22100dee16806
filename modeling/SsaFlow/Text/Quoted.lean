import SsaFlow.Text.Unseen

/-!
# Quoted text

Messages quote names.  A quoted text stands between double quotes.  Inside, a
double quote and a backslash get a backslash in front, line breaks, tabs and
NUL have letters of their own, and every other character that has no form of
its own is written by its number in hexadecimal.
-/

namespace SsaFlow.Text

/-- The number of a character, in lower-case hexadecimal. -/
def hexNumber (c : Char) : String := String.ofList (Nat.toDigits 16 c.toNat)

/-- A character as it stands between quotes. -/
def quotedChar (c : Char) : String :=
  if c = '"' then "\\\""
  else if c = '\\' then "\\\\"
  else if c = '\n' then "\\n"
  else if c = '\t' then "\\t"
  else if c = '\r' then "\\r"
  else if c.toNat = 0 then "\\0"
  else if isUnseen c then "\\u\x7b" ++ hexNumber c ++ "\x7d"
  else c.toString

/-- A text between double quotes. -/
def quoted (s : String) : String :=
  "\"" ++ String.join (s.toList.map quotedChar) ++ "\""

end SsaFlow.Text
