/-
  CaptureRing.Number.Numeral — decimal numerals and the binary64 value they stand for.

  A numeral is digits with at most one point among, before or after them, at least one
  digit, then perhaps `e` or `E` and a whole exponent with its own sign. Its value is
  rounded to binary64, ties to even. Thresholds are positive and finite, so only a plus
  sign may stand in front: what begins with a minus sign, an infinity, and what is not a
  number are all refused, like text that is no numeral.
-/

import CaptureRing.Number.Dyadic

namespace CaptureRing

structure Numeral where
  digits : Nat
  exponent : Int
  deriving DecidableEq, Repr

namespace Numeral

def digitValue (c : Char) : Nat := c.toNat - '0'.toNat

def ofDigits (cs : List Char) : Nat := cs.foldl (fun n c => 10 * n + digitValue c) 0

/-- The value of an exponent's digits. From 65536 on further digits are ignored: no
    numeral of sensible length comes back from there into the range of the format. -/
def exponentOfDigits (cs : List Char) : Nat :=
  cs.foldl (fun n c => if n < 65536 then 10 * n + digitValue c else n) 0

def sign? : List Char → Bool × List Char
  | '-' :: cs => (true, cs)
  | '+' :: cs => (false, cs)
  | cs => (false, cs)

/-- What follows the digits: nothing, or `e` with an exponent. -/
def exponent? : List Char → Option Int
  | [] => some 0
  | c :: cs =>
    if c = 'e' ∨ c = 'E' then
      let (negative, ds) := sign? cs
      if ds.isEmpty || !ds.all Char.isDigit then none
      else if negative then some (-(exponentOfDigits ds : Int))
      else some (exponentOfDigits ds)
    else none

def parse? (cs : List Char) : Option Numeral :=
  let whole := cs.takeWhile Char.isDigit
  let rest := cs.dropWhile Char.isDigit
  let (fraction, rest) := match rest with
    | '.' :: r => (r.takeWhile Char.isDigit, r.dropWhile Char.isDigit)
    | r => ([], r)
  if whole.isEmpty && fraction.isEmpty then none
  else (exponent? rest).map fun e => ⟨ofDigits (whole ++ fraction), e - fraction.length⟩

def toBinary64? (n : Numeral) : Option Dyadic :=
  binary64.nearest (n.digits * 10 ^ n.exponent.toNat) (10 ^ (-n.exponent).toNat)

end Numeral

/-- The positive finite binary64 value that a text stands for. -/
def positiveNumber? (cs : List Char) : Option Dyadic := do
  let cs := match cs with | '+' :: r => r | r => r
  let n ← Numeral.parse? cs
  let d ← n.toBinary64?
  if d.isZero then none else some d

end CaptureRing
