/-
  CaptureRing.Config.Stored — a configuration in a file.

  What cannot be saved leaves the file as it was.
-/

import CaptureRing.Config.Saved
import CaptureRing.Disk

namespace CaptureRing.Config

def save (path : String) (c : Config) (d : Disk) : Result Unit × Disk :=
  match c.encode with
  | .error e => (.error e, d)
  | .ok bs =>
    match d.write path bs with
    | .ok d => (.ok (), d)
    | .error _ => (fail .io, d)

def load (path : String) (d : Disk) : Result Config :=
  match d.bytes? path with
  | some bs => decode bs
  | none => fail .io

end CaptureRing.Config
