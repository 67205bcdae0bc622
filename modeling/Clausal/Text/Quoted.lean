import Clausal.Text.Hidden

/-!
# Quoted text

A quotation stands between double quotes. Quotes, backslashes and the common control characters have
escapes of their own; any other hidden character is spelt by its code point.
-/

namespace Clausal.Text

/-- The code point of a character in hexadecimal, between braces. -/
def codePoint (c : Char) : List Char :=
  ['\\', 'u', '\x7b'] ++ Nat.toDigits 16 c.toNat ++ ['\x7d']

/-- A character as it stands in a quotation. -/
def escape (c : Char) : List Char :=
  if c = '\x00' then ['\\', '0']
  else if c = '\t' then ['\\', 't']
  else if c = '\r' then ['\\', 'r']
  else if c = '\n' then ['\\', 'n']
  else if c = '\\' || c = '\x22' then ['\\', c]
  else if isHidden c then codePoint c
  else [c]

/-- A text between double quotes. -/
def quote (text : String) : String := "\x22" ++ String.ofList (text.toList.flatMap escape) ++ "\x22"

end Clausal.Text
