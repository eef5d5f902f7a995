/-
  CaptureRing.Writer — what becomes of the events of all sources.

  The writer takes one input at a time: a block of a source, its end, its failure, or a
  poll interval in which nothing came. With several sources the first blocks are held
  back in a preamble. A block goes through the merger; what the merger gives is written,
  into a new file if the current one is rotating. The seed of that file is taken before
  the merger sees the block, so that it does not describe the block itself.

  The first output error and the first condition met end the writing for good.

  Proved: once done, a block changes nothing (`handle_of_isDone`).
-/

import CaptureRing.Merge
import CaptureRing.Output
import CaptureRing.Preamble
import CaptureRing.Tally

namespace CaptureRing

inductive Input where
  | block (source : Nat) (b : Block)
  | ended (source : Nat)
  | failed (source : Nat) (error : String)
  /-- Nothing came for a poll interval. -/
  | idle
  /-- No source is left to send anything. -/
  | disconnected
  deriving DecidableEq, Repr

structure Writer where
  merger : Merger
  output : Output
  tally : Tally
  /-- The poll interval. -/
  poll : Duration
  /-- Which sources have neither ended nor failed. -/
  live : List Bool
  preamble : Option Preamble
  packets : Nat
  /-- Every byte written, seeds included. -/
  bytes : Nat
  sourceErrors : List (Nat × String)
  outputError : Option String
  deriving DecidableEq, Repr

structure CaptureResult where
  /-- The files kept, oldest first. -/
  files : List String
  packets : Nat
  bytes : Nat
  sourceErrors : List (Nat × String)
  outputError : Option String
  stoppedBy : Option Condition
  deriving DecidableEq, Repr

namespace Writer

def isDone (x : Writer) : Bool := x.outputError.isSome || x.tally.fired.isSome

def isFinished (x : Writer) : Bool :=
  x.isDone || (x.preamble.isNone && x.live.all (! ·))

variable {σ : Type} [World σ]

/-! ## One block -/

def checkTally (x : Writer) (w : σ) : Writer × σ :=
  let (m, w) := World.now w
  ({ x with tally := x.tally.check m.instant }, w)

def openNext (seed : Bytes) (x : Writer) (w : σ) : Writer × σ :=
  match x.output.openNext seed w with
  | (.error e, output, w) => ({ x with output, outputError := some e.message }, w)
  | (.ok (), output, w) =>
    ({ x with output, tally := x.tally.addBytes seed.length,
              bytes := x.bytes + seed.length }, w)

/-- Counts a block that was written; `full`: the file has met a trigger with it. -/
def count (size : Nat) (packet full : Bool) (x : Writer) : Writer :=
  let tally := if packet then x.tally.addPacket size else x.tally.addBytes size
  { x with
    bytes := x.bytes + size
    packets := if packet then x.packets + 1 else x.packets
    tally := if full then tally.addFile else tally }

def put (data : Bytes) (packet : Bool) (x : Writer) (w : σ) : Writer × σ :=
  match x.output.write data packet w with
  | (.error e, output, w) => ({ x with output, outputError := some e.message }, w)
  | (.ok full, output, w) => (count data.length packet full { x with output }).checkTally w

def handle (source : Nat) (b : Block) (x : Writer) (w : σ) : Writer × σ :=
  if x.isDone then (x, w)
  else
    let seed := if x.output.state = .rotating then some (x.merger.seed (some b)) else none
    match x.merger.process source b with
    | (.error e, merger) =>
      ({ x with merger, sourceErrors := x.sourceErrors ++ [(source, e.message)] }, w)
    | (.ok none, merger) => ({ x with merger }, w)
    | (.ok (some data), merger) =>
      let x := { x with merger }
      match seed with
      | none => x.put data b.isPacket w
      | some seed =>
        let (x, w) := x.openNext seed w
        if x.outputError.isSome then (x, w) else x.put data b.isPacket w

/-! ## The preamble -/

def flush (x : Writer) (w : σ) : Writer × σ :=
  match x.preamble with
  | none => (x, w)
  | some p =>
    p.inOrder.foldl (fun s e => handle e.1 e.2 s.1 s.2) ({ x with preamble := none }, w)

/-- Holds on to the preamble unless all sources are ready. -/
def hold (p : Preamble) (x : Writer) (w : σ) : Writer × σ :=
  let x := { x with preamble := some p }
  if p.allReady then x.flush w else (x, w)

/-- A busy source must not wait for a quiet one longer than a poll interval. -/
def expire (x : Writer) (w : σ) : Writer × σ :=
  match x.preamble with
  | none => (x, w)
  | some p =>
    let (m, w) := World.now w
    x.hold (p.expire m.instant x.poll.nanos) w

/-! ## One input -/

def receive (source : Nat) (b : Block) (x : Writer) (w : σ) : Writer × σ :=
  match x.preamble with
  | none => x.handle source b w
  | some p =>
    let (m, w) := World.now w
    x.hold (p.push source b m.instant) w

def sourceDone (source : Nat) (x : Writer) (w : σ) : Writer × σ :=
  let x := { x with live := x.live.set source false }
  match x.preamble with
  | none => (x, w)
  | some p => x.hold (p.markReady source) w

/-- A source that was quiet for a whole poll interval will not show more interfaces soon. -/
def idle (x : Writer) (w : σ) : Writer × σ :=
  let (x, w) := x.flush w
  let (met, output, w) := x.output.checkRotation w
  let x := { x with output, tally := if met then x.tally.addFile else x.tally }
  x.checkTally w

def step (i : Input) (x : Writer) (w : σ) : Writer × σ :=
  match i with
  | .block source b =>
    let (x, w) := x.receive source b w
    x.expire w
  | .ended source =>
    let (x, w) := x.sourceDone source w
    x.expire w
  | .failed source error =>
    let (x, w) := { x with sourceErrors := x.sourceErrors ++ [(source, error)] }.sourceDone source w
    x.expire w
  | .idle => x.idle w
  | .disconnected => { x with live := x.live.map fun _ => false }.flush w

def run (is : List Input) (x : Writer) (w : σ) : Writer × σ :=
  is.foldl (fun s i => if s.1.isFinished then s else step i s.1 s.2) (x, w)

/-! ## The end -/

/-- Seals the output; also what a request to stop leads to. -/
def conclude (x : Writer) (w : σ) : CaptureResult × σ :=
  let (x, w) := x.flush w
  let (r, output, w) := x.output.close w
  let outputError := match r, x.outputError with
    | .error e, none => some e.message
    | _, earlier => earlier
  (⟨output.files, x.packets, x.bytes, x.sourceErrors, outputError, x.tally.fired⟩, w)

theorem handle_of_isDone {x : Writer} (h : x.isDone = true) (source : Nat) (b : Block) (w : σ) :
    x.handle source b w = (x, w) := by
  simp [handle, h]

end Writer

end CaptureRing
