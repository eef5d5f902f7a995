/-
  CaptureRing.Number.Dyadic — the finite values of binary floating-point formats and
  rounding to them, in exact arithmetic.

  A value is m · 2^e. A format holds the values whose m fits its precision and whose e
  is not below its least one; `nearest` takes a quotient to the closest of them, a tie
  to the even m, and answers `none` from the format's bound on.

  Proved: `roundHalfEven` is within half a unit (`roundHalfEven_near`).
-/

import CaptureRing.Number.Instances

namespace CaptureRing

/-- The quotient rounded to the nearest whole number, a tie to the even one. -/
def roundHalfEven (num den : Nat) : Nat :=
  let q := num / den
  let r := num % den
  if 2 * r < den then q
  else if den < 2 * r then q + 1
  else if q % 2 = 0 then q
  else q + 1

structure Dyadic where
  mantissa : Nat
  exponent : Int
  deriving DecidableEq, Repr

namespace Dyadic

/-- The value is `num / den`, with `den` a power of two. -/
def num (d : Dyadic) : Nat := d.mantissa * 2 ^ d.exponent.toNat

def den (d : Dyadic) : Nat := 2 ^ (-d.exponent).toNat

def floor (d : Dyadic) : Nat := d.num / d.den

def isWhole (d : Dyadic) : Bool := d.num % d.den == 0

def isZero (d : Dyadic) : Bool := d.mantissa == 0

end Dyadic

/-- A binary floating-point format: its bits of precision, the exponent of its least
    positive value, and the power of two its values stay below. -/
structure BinaryFormat where
  precision : Nat
  leastExponent : Int
  bound : Int
  deriving DecidableEq, Repr

def binary32 : BinaryFormat := ⟨24, -149, 128⟩

def binary64 : BinaryFormat := ⟨53, -1074, 1024⟩

/-- The greatest `l` with `2^l ≤ num / den`, for positive arguments. -/
def floorLog2 (num den : Nat) : Int :=
  let l : Int := (num.log2 : Int) - den.log2
  if num * 2 ^ (-l).toNat < den * 2 ^ l.toNat then l - 1 else l

namespace BinaryFormat

/-- The value of the format closest to `num / den`, a tie to the even mantissa; `none`
    where that is beyond the format. -/
def nearest (f : BinaryFormat) (num den : Nat) : Option Dyadic :=
  let e : Int := max f.leastExponent (floorLog2 num den - (f.precision - 1 : Nat))
  let m := roundHalfEven (num * 2 ^ (-e).toNat) (den * 2 ^ e.toNat)
  if m ≠ 0 ∧ f.bound ≤ (m.log2 : Int) + e then none else some ⟨m, e⟩

end BinaryFormat

/-! ## The bits of a binary32 value -/

/-- The value of a finite positive binary32 pattern. -/
def binary32Positive? (bits : UInt32) : Option Dyadic :=
  let fraction : Nat := bits.toNat % 2 ^ 23
  let field : Nat := bits.toNat / 2 ^ 23
  if field = 0 then (if fraction = 0 then none else some ⟨fraction, -149⟩)
  else if field < 255 then some ⟨2 ^ 23 + fraction, (field : Int) - 150⟩
  else none

/-! ## Rounding -/

theorem roundHalfEven_near (num den : Nat) (hd : 0 < den) :
    2 * num ≤ (2 * roundHalfEven num den + 1) * den ∧
      2 * roundHalfEven num den * den ≤ 2 * num + den := by
  have h := Nat.div_add_mod num den
  have hr := Nat.mod_lt num hd
  simp only [roundHalfEven]
  generalize num / den = q at h
  generalize num % den = r at h hr
  subst h
  have e1 : (2 * q + 1) * den = 2 * (den * q) + den := by
    rw [Nat.add_mul, Nat.mul_comm den q, Nat.mul_assoc, Nat.one_mul]
  have e2 : 2 * q * den = 2 * (den * q) := by rw [Nat.mul_assoc, Nat.mul_comm q den]
  have e3 : (2 * (q + 1) + 1) * den = 2 * (den * q) + 3 * den := by
    rw [show 2 * (q + 1) + 1 = 2 * q + 3 by omega, Nat.add_mul, e2]
  have e4 : 2 * (q + 1) * den = 2 * (den * q) + 2 * den := by
    rw [show 2 * (q + 1) = 2 * q + 2 by omega, Nat.add_mul, e2]
  split
  · omega
  · split
    · omega
    · split <;> omega

end CaptureRing
