/-
  CaptureRing.Number.Instances — powers and sums of natural numbers.

  Which instance stands behind `2 ^ n` and behind the sum of a list depends on what else is
  imported. Those of the core library go first here, so that a definition is the same
  term where it runs and where it is reasoned about.
-/

namespace CaptureRing

@[default_instance 10000]
instance (priority := high) powNat : Pow Nat Nat := instPowNat

instance (priority := high) zeroNat : Zero Nat := Zero.ofOfNat0

end CaptureRing
