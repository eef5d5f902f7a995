/-
  CaptureRing.Capture.Schedule — a whole capture in which the order of arrivals is given.

  A paced source delivers its bytes chunk by chunk, one chunk a turn. Its turn ends when
  it asks for more, that is after every block completed by the chunk was sent; a stream
  that turns out to be corrupt fails in the turn that shows it, and gives up the rest of
  its turns. Instead of bytes a turn may bring a pause; then a directory may disappear,
  and the read that waited may fail, which ends the source too. Sources that are not
  paced send everything at once, before the first turn.

  When all turns are over, every paced source ends, except those that hold: they stay
  silent until the capture is over, and poll intervals go by.
-/

import CaptureRing.Capture
import CaptureRing.Machine
import CaptureRing.Source.Opened

namespace CaptureRing

inductive Chunk where
  | bytes (bs : Bytes)
  /-- Time passes, then a directory is removed, and then the read fails. -/
  | pause (nanos : Nat) (removed : Option String) (fails : Bool)
  deriving DecidableEq, Repr

structure Paced where
  chunks : List Chunk
  /-- Stays silent after the last turn. -/
  hold : Bool
  deriving DecidableEq, Repr

inductive Feed where
  | whole (s : Source)
  | paced (p : Paced)
  deriving DecidableEq, Repr

inductive Move where
  | arrive (i : Input)
  | pause (nanos : Nat) (removed : Option String)
  deriving DecidableEq, Repr

/-! ## From bytes to arrivals -/

def Chunk.pieces : Chunk → List Piece
  | .bytes bs => Piece.ofBytes bs
  | .pause _ _ fails => if fails then [.failed] else []

def Paced.reader (p : Paced) : Reader := ⟨p.chunks.flatMap Chunk.pieces, none⟩

/-- The failure shows only once no more bytes come. -/
def isCut : Failure → Bool
  | .error (.truncatedBlock ..) | .error (.streamCorrupt (.truncated ..)) => true
  | _ => false

/-- The failure is that of a read, which shows in the turn of that read. -/
def isFailedRead : Failure → Bool
  | .error .io => true
  | _ => false

def inputOf (source : Nat) : Result (Option Block) → Input
  | .ok (some b) => .block source b
  | .ok none => .ended source
  | .error e => .failed source e.message

def comesLast : Result (Option Block) → Bool
  | .ok none => true
  | .ok (some _) => false
  | .error e => isCut e

/-- Comes in the turn that brings the last byte it depends on. -/
def comesWithBytes : Result (Option Block) → Bool
  | .ok none => false
  | .ok (some _) => true
  | .error e => !isCut e && !isFailedRead e

/-- The results of reading on, each with the number of bytes read by then: `read` before
    the first of them, and a block is all that is read for it. -/
def readBy (total read : Nat) :
    List (Result (Option Block) × Stream) → List (Nat × Result (Option Block))
  | [] => []
  | (.ok (some b), _) :: rs =>
    (read + b.raw.length, .ok (some b)) :: readBy total (read + b.raw.length) rs
  | (r, s) :: rs => (total - s.reader.remaining, r) :: readBy total read rs

/-- Deals arrivals to the chunks that complete them. An arrival has the number of bytes
    that were read for it, `read` is the number of bytes before the first chunk. -/
def deal (source read : Nat) : List Chunk → List (Nat × Result (Option Block)) → List (List Move)
  | [], _ => []
  | .pause nanos removed fails :: chunks, rs =>
    if fails then [[.pause nanos removed, .arrive (inputOf source (fail .io))]]
    else [.pause nanos removed] :: deal source read chunks rs
  | .bytes bs :: chunks, rs =>
    let read := read + bs.length
    let now := rs.takeWhile (·.1 ≤ read)
    let later := rs.dropWhile (·.1 ≤ read)
    let moves := now.map fun r => .arrive (inputOf source r.2)
    if now.all fun r => Stream.isBlock r.2 then moves :: deal source read chunks later else [moves]

def Paced.moves (source : Nat) (p : Paced) : List (List Move) × List Move :=
  let results := readBy p.reader.remaining 0 (Stream.ofReader p.reader).run
  let turns := deal source 0 p.chunks (results.filter fun r => comesWithBytes r.2)
  let ending := results.filter fun r => comesLast r.2
  (turns, if p.hold then [] else ending.map fun r => .arrive (inputOf source r.2))

def wholeMoves (source : Nat) (s : Source) (d : Disk) : List Move :=
  match s.opened d with
  | .error e => [.arrive (.failed source e.message)]
  | .ok stream => stream.run.map fun r => .arrive (inputOf source r.1)

structure Plan where
  first : List Move
  turns : List (List Move)
  last : List Move
  deriving DecidableEq, Repr

def Feed.plan (d : Disk) (f : Feed) (source : Nat) : Plan :=
  match f with
  | .whole s => ⟨wholeMoves source s d, [], []⟩
  | .paced p =>
    let (turns, last) := p.moves source
    ⟨[], turns, last⟩

/-- The turns as scheduled; those left out follow, source by source. -/
def interleave : List Nat → List (List (List Move)) → List Move
  | [], queues => (queues.map List.flatten).flatten
  | source :: schedule, queues =>
    match queues[source]? with
    | some (turn :: rest) => turn ++ interleave schedule (queues.set source rest)
    | _ => interleave schedule queues

/-! ## Running -/

structure Running where
  writer : Writer
  machine : Machine
  /-- Nanoseconds since the writer was last told something. -/
  quiet : Nat
  deriving DecidableEq, Repr

/-- Poll intervals come to their end, at most `n` and as long as there is something to wait
    for. -/
def goIdle : Nat → Running → Running
  | 0, s => s
  | n + 1, s =>
    if s.writer.isFinished then s
    else
      let (x, m) := s.writer.idle (s.machine.wait (s.writer.poll.nanos - s.quiet))
      goIdle n ⟨x, m, 0⟩

/-- Nothing comes for this long; a poll interval that has begun goes on. -/
def pauseFor (nanos : Nat) (s : Running) : Running :=
  let poll := s.writer.poll.nanos
  let quiet := (s.quiet + nanos) % poll
  let s := goIdle ((s.quiet + nanos) / poll) s
  { s with machine := s.machine.wait (quiet - s.quiet), quiet }

def Machine.remove (path : String) (m : Machine) : Machine :=
  { m with disk := (m.disk.removeDirectory path).2 }

def Move.make (s : Running) (move : Move) : Running :=
  if s.writer.isFinished then s
  else match move with
    | .arrive i =>
      let (x, m) := s.writer.step i s.machine
      ⟨x, m, 0⟩
    | .pause nanos removed =>
      let s := pauseFor nanos s
      { s with machine := removed.elim s.machine s.machine.remove }

def durations (c : Config) : List Nat :=
  c.autostop.map (fun x => match x with | .duration d => d.nanos | _ => 0)
    ++ c.rotation.triggers.map (fun t => match t with | .duration d => d.nanos | _ => 0)

def patience (c : Config) (poll : Nat) : Nat := ((durations c).sum / poll) + 2

structure Scenario where
  config : Config
  feeds : List Feed
  schedule : List Nat
  /-- The capture is stopped once every source that holds is silent. -/
  stop : Bool
  deriving DecidableEq, Repr

def Feed.source : Feed → Source
  | .whole s => s
  | .paced p => .reader p.reader

def Scenario.start (x : Scenario) (h : Host) (m : Machine) : Result Writer × Machine :=
  startCapture { x.config with sources := x.feeds.map Feed.source } h m

def Scenario.finish (x : Scenario) (w : Writer) (m : Machine) : CaptureResult × Machine :=
  let plans := x.feeds.zipIdx.map fun (f, i) => f.plan m.disk i
  let moves := plans.flatMap (·.first) ++ interleave x.schedule (plans.map (·.turns))
    ++ plans.flatMap (·.last)
  let s := moves.foldl Move.make ⟨w, m, 0⟩
  let s := goIdle (if x.stop then 1 else patience x.config w.poll.nanos) s
  s.writer.conclude s.machine

end CaptureRing
