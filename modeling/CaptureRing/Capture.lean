/-
  CaptureRing.Capture — the beginning of a capture.

  The first output file is created before anything is read, so an output path that
  cannot be written fails here. So does a capacity that no memory has room for.
-/

import CaptureRing.Config
import CaptureRing.Writer

namespace CaptureRing

variable {σ : Type} [World σ]

def startCapture (c : Config) (h : Host) (w : σ) : Result Writer × σ :=
  if c.sources.isEmpty then (fail .noSources, w)
  else match c.poll with
    | .error e => (.error e, w)
    | .ok poll =>
      if c.hasRoom then
        let sources := c.sources.length
        let merger := Merger.ofCount h sources
        let (started, w) := World.now w
        let seed := merger.seed none
        match (Output.make c.output c.rotation).openNext seed w with
        | (.error e, _, w) => (fail e, w)
        | (.ok (), output, w) =>
          let (began, w) := World.now w
          let tally := (Tally.start c.autostop started.instant).addBytes seed.length
          let preamble := match merger.mode with
            | .synthesized => some (Preamble.start sources began.instant)
            | .passthrough => none
          (.ok ⟨merger, output, tally, poll, List.replicate sources true, preamble, 0, seed.length,
            [], none⟩, w)
      else (.error .crash, w)

end CaptureRing
