/-
  CaptureRing.Bytes — byte strings, their padding to 32 bits, and cutting them with
  the bounds checked.

  A block's variable parts are padded with zero bytes to a multiple of four, so a
  padded length is known from the plain one (`length_pad`). `slice?` is the only way
  a part between two offsets is taken: outside the string it answers `none`.
-/

import CaptureRing.Number.Instances

namespace CaptureRing

abbrev Bytes := List UInt8

def paddedLength (n : Nat) : Nat := (n + 3) / 4 * 4

/-- The length rounded up, if it is reckoned in 64 bits: the sum before the cut has to fit. -/
def paddedLength? (n : Nat) : Option Nat :=
  if n + 3 < 2 ^ 64 then some (paddedLength n) else none

def pad (bs : Bytes) : Bytes :=
  bs ++ List.replicate (paddedLength bs.length - bs.length) 0

/-- The first `n` bytes and what follows them, if there are that many. -/
def split? (n : Nat) (bs : Bytes) : Option (Bytes × Bytes) :=
  let front := bs.take n
  if front.length = n then some (front, bs.drop n) else none

/-- The bytes from offset `a` up to offset `b`, if both lie in the string in this order. -/
def slice? (a b : Nat) (bs : Bytes) : Option Bytes :=
  if a ≤ b then (split? (b - a) (bs.drop a)).map (·.1) else none

/-! ## Lengths -/

theorem le_paddedLength (n : Nat) : n ≤ paddedLength n := by
  unfold paddedLength; omega

theorem paddedLength_lt (n : Nat) : paddedLength n < n + 4 := by
  unfold paddedLength; omega

theorem paddedLength?_eq_some {n : Nat} (h : n + 3 < 2 ^ 64) :
    paddedLength? n = some (paddedLength n) := if_pos h

theorem paddedLength_mod (n : Nat) : paddedLength n % 4 = 0 := by
  unfold paddedLength; omega

@[simp] theorem length_pad (bs : Bytes) : (pad bs).length = paddedLength bs.length := by
  have := le_paddedLength bs.length
  simp only [pad, List.length_append, List.length_replicate]; omega

theorem split?_eq_some_iff {n : Nat} {bs front rest : Bytes} :
    split? n bs = some (front, rest) ↔ bs = front ++ rest ∧ front.length = n := by
  constructor
  · intro h
    simp only [split?] at h
    split at h
    · next hn =>
      simp only [Option.some.injEq, Prod.mk.injEq] at h
      obtain ⟨rfl, rfl⟩ := h
      exact ⟨(List.take_append_drop n bs).symm, hn⟩
    · cases h
  · rintro ⟨rfl, rfl⟩
    simp [split?]

theorem split?_append {front rest : Bytes} :
    split? front.length (front ++ rest) = some (front, rest) :=
  split?_eq_some_iff.mpr ⟨rfl, rfl⟩

end CaptureRing
