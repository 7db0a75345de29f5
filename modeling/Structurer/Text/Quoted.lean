/-
**Quoted text.**

Text in error reports stands in double quotes.  What would end the text, or would not be seen, is
written with a backslash.
-/

import Structurer.Text.Unprintable

namespace Structurer.Text

def escapeChar (c : Char) : List Char :=
  if c = '\x00' then ['\\', '0']
  else if c = '\t' then ['\\', 't']
  else if c = '\r' then ['\\', 'r']
  else if c = '\n' then ['\\', 'n']
  else if c = '"' ∨ c = '\\' then ['\\', c]
  else if isUnprintable c then
    ['\\', 'u', '\x7b'] ++ Nat.toDigits 16 c.toNat ++ ['\x7d']
  else [c]

def quoted (text : String) : String :=
  "\"" ++ String.ofList (text.toList.flatMap escapeChar) ++ "\""

def quotedPath (path : String) : String :=
  let escape (c : Char) := if c = '\'' then ['\\', '\''] else escapeChar c
  "\"" ++ String.ofList (path.toList.flatMap escape) ++ "\""

end Structurer.Text
