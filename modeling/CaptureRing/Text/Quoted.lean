/-
  CaptureRing.Text.Quoted — text between double quotes, as a diagnostic shows it.

  A backslash and a quote that ends the text are written with a backslash before them,
  NUL, tab, carriage return and line feed by their letter, any other unprintable
  character by its number in braces.
-/

import CaptureRing.Text.Digits
import CaptureRing.Text.Unprintable

namespace CaptureRing.Text

/-- One character between quotes; an apostrophe needs no backslash there. -/
def quoteChar (c : Char) : List Char :=
  if c = '\x00' then ['\x5c', '0']
  else if c = '\t' then ['\x5c', 't']
  else if c = '\r' then ['\x5c', 'r']
  else if c = '\n' then ['\x5c', 'n']
  else if c = '\x22' ∨ c = '\x5c' then ['\x5c', c]
  else if isUnprintable c then
    ['\x5c', 'u', '\x7b'] ++ hexadecimal c.toNat ++ ['\x7d']
  else [c]

def quote (s : String) : String :=
  String.ofList (['\x22'] ++ s.toList.flatMap quoteChar ++ ['\x22'])

end CaptureRing.Text
