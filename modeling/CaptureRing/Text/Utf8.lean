/-
  CaptureRing.Text.Utf8 — bytes as text and back.

  The first byte of a character fixes how many bytes follow and the range of the first
  of them; all later ones lie in 80–BF. The ranges leave out overlong forms, surrogates
  and numbers above 10FFFF. A byte that fits none of this ends a malformed sequence:
  the bytes accepted so far are the sequence, and reading goes on at the byte itself.

  `decode?` refuses malformed bytes; `decodeLossy` puts the replacement character for
  each malformed sequence.
-/

import CaptureRing.Bytes

namespace CaptureRing.Utf8

def encodeChar (c : Char) : Bytes := String.utf8EncodeChar c

def encode (cs : List Char) : Bytes := cs.flatMap encodeChar

structure Owed where
  count : Nat
  least : UInt8
  greatest : UInt8
  deriving DecidableEq

/-- What a first byte stands for: the bits it gives and the bytes it owes. -/
def lead? (b : UInt8) : Option (Nat × Owed) :=
  if b < 0x80 then some (b.toNat, ⟨0, 0x80, 0xBF⟩)
  else if b < 0xC2 then none
  else if b < 0xE0 then some (b.toNat - 0xC0, ⟨1, 0x80, 0xBF⟩)
  else if b = 0xE0 then some (0, ⟨2, 0xA0, 0xBF⟩)
  else if b = 0xED then some (0xD, ⟨2, 0x80, 0x9F⟩)
  else if b < 0xF0 then some (b.toNat - 0xE0, ⟨2, 0x80, 0xBF⟩)
  else if b = 0xF0 then some (0, ⟨3, 0x90, 0xBF⟩)
  else if b < 0xF4 then some (b.toNat - 0xF0, ⟨3, 0x80, 0xBF⟩)
  else if b = 0xF4 then some (4, ⟨3, 0x80, 0x8F⟩)
  else none

/-- The rest of a character whose first bytes gave `bits`; `none` where it is malformed.
    The second part is what is left to read. -/
def finish : Nat → UInt8 → UInt8 → Nat → Bytes → Option Char × Bytes
  | 0, _, _, bits, bs => (some (Char.ofNat bits), bs)
  | _ + 1, _, _, _, [] => (none, [])
  | n + 1, least, greatest, bits, b :: bs =>
    if least ≤ b ∧ b ≤ greatest then finish n 0x80 0xBF (bits * 64 + (b.toNat - 0x80)) bs
    else (none, b :: bs)

/-- The character that starts with `b`, or `none` for a malformed sequence, and what is
    left to read. -/
def next (b : UInt8) (bs : Bytes) : Option Char × Bytes :=
  match lead? b with
  | none => (none, bs)
  | some (bits, owed) => finish owed.count owed.least owed.greatest bits bs

theorem length_finish_le (n : Nat) (l g : UInt8) (bits : Nat) (bs : Bytes) :
    (finish n l g bits bs).2.length ≤ bs.length := by
  induction n generalizing l g bits bs with
  | zero => simp [finish]
  | succ n ih =>
    cases bs with
    | nil => simp [finish]
    | cons b bs =>
      simp only [finish]
      split
      · have := ih 0x80 0xBF (bits * 64 + (b.toNat - 0x80)) bs
        simp only [List.length_cons]; omega
      · simp

theorem length_next_le (b : UInt8) (bs : Bytes) : (next b bs).2.length ≤ bs.length := by
  unfold next; split
  · simp
  · exact length_finish_le ..

def sequences : Bytes → List (Option Char)
  | [] => []
  | b :: bs => (next b bs).1 :: sequences (next b bs).2
termination_by bs => bs.length
decreasing_by
  have := length_next_le b bs
  simp only [List.length_cons]; omega

def decode? (bs : Bytes) : Option (List Char) := (sequences bs).mapM id

/-- The text of any bytes, with the replacement character for each malformed sequence. -/
def decodeLossy (bs : Bytes) : List Char := (sequences bs).map (·.getD (Char.ofNat 0xFFFD))

end CaptureRing.Utf8
