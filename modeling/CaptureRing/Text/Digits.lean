/-
  CaptureRing.Text.Digits — numbers as text, filled with zeros on the left.
-/

namespace CaptureRing.Text

/-- Zeros in front of `s` up to `width` characters. -/
def zeroFill (width : Nat) (s : List Char) : List Char :=
  List.replicate (width - s.length) '0' ++ s

def decimal (n : Nat) : List Char := Nat.toDigits 10 n

def hexadecimal (n : Nat) : List Char := Nat.toDigits 16 n

def hexWord (n : UInt32) : String := "0x" ++ String.ofList (zeroFill 8 (hexadecimal n.toNat))

end CaptureRing.Text
