/-
  CaptureRing.World — what writing output files needs from outside.

  A clock, and one file at a time that is open for writing. Whatever the world does with
  them, the controller of the output only sees these answers, so what is proved of it
  for every world holds wherever it runs.
-/

import CaptureRing.Bytes
import CaptureRing.Error

namespace CaptureRing

structure Moment where
  /-- Nanoseconds of a clock that never goes back. -/
  instant : Nat
  /-- Year, month, day, hour, minute and second, in fourteen digits. -/
  calendar : String
  deriving DecidableEq, Repr

class World (σ : Type) where
  now : σ → Moment × σ
  /-- Opens a file for writing, without content; no other is open. -/
  create : String → σ → Except IoFault Unit × σ
  /-- Writes all these bytes to the open file. -/
  write : Bytes → σ → Except IoFault Unit × σ
  /-- Gives up the open file; what is held back is written first. -/
  release : σ → Except IoFault Unit × σ

end CaptureRing
