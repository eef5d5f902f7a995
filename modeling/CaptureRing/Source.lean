/-
  CaptureRing.Source — where the packets of one source come from.
-/

import CaptureRing.Reader
import CaptureRing.Text.Quoted

namespace CaptureRing

inductive Source where
  /-- A named pipe, opened when the capture starts. -/
  | fifo (path : String)
  /-- A regular file, read once like a pipe. -/
  | file (path : String)
  | stdin
  /-- A network interface, by name. -/
  | interface (name : String)
  /-- Any reader; it belongs to one capture only. -/
  | reader (r : Reader)
  deriving DecidableEq, Repr

namespace Source

def display : Source → String
  | fifo path | file path => path
  | stdin => "-"
  | interface name => name
  | reader _ => "reader"

def debug : Source → String
  | fifo path => "Fifo(" ++ Text.quote path ++ ")"
  | file path => "File(" ++ Text.quote path ++ ")"
  | stdin => "Stdin"
  | interface name => "Interface(" ++ Text.quote name ++ ")"
  | reader _ => "Reader(..)"

/-- The same source again, if it can be used twice. -/
def clone? : Source → Option Source
  | reader _ => none
  | s => some s

end Source

end CaptureRing
