import ScriptEngine.Text.Pad
import ScriptEngine.Text.Visible
/-!
# Quoted text

Text between quotes: the quote, the backslash and a few control characters have short escapes, and
every other character that cannot be seen is written by its number.
-/

namespace ScriptEngine.Text

/-- A character inside quotes of the given kind. -/
def escape (quote c : Char) : String :=
  if c = '\x00' then "\\0"
  else if c = '\t' then "\\t"
  else if c = '\r' then "\\r"
  else if c = '\n' then "\\n"
  else if c = '\\' then "\\\\"
  else if c = quote then "\\" ++ String.singleton quote
  else if isVisible c then String.singleton c
  else "\\u\x7b" ++ numeral 16 c.toNat ++ "\x7d"

/-- Text between quotes of the given kind. -/
def quoteWith (quote : Char) (s : String) : String :=
  String.singleton quote ++ String.join (s.toList.map (escape quote)) ++ String.singleton quote

def quoted (s : String) : String := quoteWith '"' s

def quotedChar (c : Char) : String := quoteWith '\'' (String.singleton c)

end ScriptEngine.Text
