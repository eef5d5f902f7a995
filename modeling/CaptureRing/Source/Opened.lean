/-
  CaptureRing.Source.Opened — the stream of blocks that a source gives once it is opened.

  There is no network interface to capture on, and nothing on the standard input.
-/

import CaptureRing.Disk
import CaptureRing.Source
import CaptureRing.Stream

namespace CaptureRing.Source

def opened (d : Disk) (s : Source) : Result Stream :=
  match s with
  | .fifo path | .file path =>
    match d.reader path with
    | .ok r => .ok (Stream.ofReader r)
    | .error e => fail (.unableOpenSource s.display e)
  | .stdin => .ok (Stream.ofReader (Reader.ofBytes []))
  | .interface name => fail (.unableFoundInterface name)
  | .reader r => .ok (Stream.ofReader r)

end CaptureRing.Source
