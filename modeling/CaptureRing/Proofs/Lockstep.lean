/-
  CaptureRing.Proofs.Lockstep — a capture with conditions beside the same one without.

  The conditions that end a capture are looked at and never looked up: up to the moment one is
  met, nothing that is done depends on them. So a writer and the same one without conditions
  do the same, in the same world and by the same clock, until the first of them is done; from
  then on it does nothing, and the other may go on.

  Proved:
  - `handle_freed`, `lookOver_freed`, `gate_freed`: taking the conditions away changes nothing
    else in what is done next;
  - `Abreast.run`, `Abreast.finish`: two such courses stay abreast, or one has stopped and its
    log is the beginning of the other's.
-/

import CaptureRing.Proofs.Passage

namespace CaptureRing

namespace Writer

def freed (x : Writer) : Writer := { x with tally := { x.tally with conditions := [], fired := none } }

variable {σ : Type} {x : Writer}

/-! ## What is let go -/

def freedGate (g : List (Nat × Block) × Writer × σ) : List (Nat × Block) × Writer × σ := (g.1, g.2.1.freed, g.2.2)

theorem settle_freed (p : Preamble) (x : Writer) (w : σ) : settle p x.freed w = freedGate (settle p x w) := by
  unfold settle
  by_cases h : p.allReady = true <;> simp only [h, if_true] <;> rfl

theorem letGo_freed (x : Writer) (w : σ) : letGo x.freed w = freedGate (letGo x w) := by
  have hpreamble : x.freed.preamble = x.preamble := rfl
  unfold letGo
  rw [hpreamble]
  cases x.preamble <;> rfl

variable [World σ]

theorem await_freed (p : Preamble) (x : Writer) (w : σ) : await p x.freed w = freedGate (await p x w) := by
  unfold await
  by_cases h : p.allReady = true
  · simp only [h, if_true]
    rfl
  · simp only [h]
    exact settle_freed _ x _

theorem closeSource_freed (source : Nat) (x : Writer) (w : σ) :
    closeSource source x.freed w = freedGate (closeSource source x w) := by
  have hpreamble : x.freed.preamble = x.preamble := rfl
  unfold closeSource
  simp only [hpreamble]
  cases x.preamble with
  | none => rfl
  | some p => exact await_freed _ { x with live := x.live.set source false } w

/-- What an input lets go does not depend on the conditions. -/
theorem gate_freed (i : Input) (x : Writer) (w : σ) : gate i x.freed w = freedGate (gate i x w) := by
  have hpreamble : x.freed.preamble = x.preamble := rfl
  cases i with
  | block source b =>
    unfold gate
    simp only [hpreamble]
    cases x.preamble with
    | none => rfl
    | some p => exact await_freed _ x _
  | ended source => exact closeSource_freed source x w
  | failed source error =>
    exact closeSource_freed source { x with sourceErrors := x.sourceErrors ++ [(source, error)] } w
  | idle => exact letGo_freed x w
  | disconnected => exact letGo_freed { x with live := x.live.map fun _ => false } w

/-! ## What is done next -/

theorem isDone_freed (h : x.tally.fired = none) : x.freed.isDone = x.isDone := by
  simp [isDone, freed, h]

theorem isFinished_freed (h : x.tally.fired = none) : x.freed.isFinished = x.isFinished := by
  unfold isFinished
  rw [isDone_freed h]
  rfl

theorem checkTally_freed (h : x.tally.fired = none) (w : σ) :
    x.freed.checkTally w = ((x.checkTally w).1.freed, (x.checkTally w).2) := by
  simp [checkTally, freed, Tally.check, h]

theorem count_freed (size : Nat) (packet full : Bool) (x : Writer) :
    count size packet full x.freed = (count size packet full x).freed := by
  cases packet <;> cases full <;> rfl

theorem fired_count (size : Nat) (packet full : Bool) (x : Writer) :
    (count size packet full x).tally.fired = x.tally.fired := by
  cases packet <;> cases full <;> rfl

theorem put_freed (h : x.tally.fired = none) (data : Bytes) (packet : Bool) (w : σ) :
    x.freed.put data packet w = ((x.put data packet w).1.freed, (x.put data packet w).2) := by
  have houtput : x.freed.output = x.output := rfl
  unfold put
  rw [houtput]
  rcases x.output.write data packet w with ⟨e | full, output, w'⟩
  · rfl
  · have hfired : (count data.length packet full { x with output }).tally.fired = none := by
      rw [fired_count]
      exact h
    have hcheck := checkTally_freed hfired w'
    rw [← count_freed] at hcheck
    exact hcheck

theorem openNext_freed (seed : Bytes) (x : Writer) (w : σ) :
    x.freed.openNext seed w = ((x.openNext seed w).1.freed, (x.openNext seed w).2) := by
  have houtput : x.freed.output = x.output := rfl
  unfold openNext
  rw [houtput]
  rcases x.output.openNext seed w with ⟨e | _, output, w'⟩ <;> rfl

theorem fired_openNext (seed : Bytes) (x : Writer) (w : σ) : (x.openNext seed w).1.tally.fired = x.tally.fired := by
  unfold openNext
  split <;> rfl

/-- Up to the moment a condition is met, nothing depends on there being any. -/
theorem handle_freed (h : x.tally.fired = none) (source : Nat) (b : Block) (w : σ) :
    x.freed.handle source b w = ((x.handle source b w).1.freed, (x.handle source b w).2) := by
  have houtput : x.freed.output = x.output := rfl
  have hmerger : x.freed.merger = x.merger := rfl
  unfold handle
  rw [isDone_freed h, houtput, hmerger]
  by_cases hd : x.isDone = true
  · rw [if_pos hd, if_pos hd]
  · rw [if_neg hd, if_neg hd]
    rcases x.merger.process source b with ⟨e | none | data, merger⟩
    · rfl
    · rfl
    · by_cases hs : x.output.state = .rotating
      · simp only [hs, if_true]
        have hopen := openNext_freed (x.merger.seed (some b)) { x with merger } w
        have hfired := fired_openNext (x.merger.seed (some b)) { x with merger } w
        show (if (openNext _ (freed { x with merger }) w).1.outputError.isSome then
            openNext _ (freed { x with merger }) w
          else (openNext _ (freed { x with merger }) w).1.put data b.isPacket
            (openNext _ (freed { x with merger }) w).2) = _
        rw [hopen]
        generalize openNext (x.merger.seed (some b)) { x with merger } w = r at hfired
        have herror : r.1.freed.outputError = r.1.outputError := rfl
        dsimp only
        rw [herror]
        by_cases he : r.1.outputError.isSome = true
        · rw [if_pos he, if_pos he]
        · rw [if_neg he, if_neg he]
          exact put_freed (hfired.trans h) data b.isPacket r.2
      · simp only [hs, if_false]
        exact put_freed (x := { x with merger }) h data b.isPacket w

theorem deeds_freed (h : x.tally.fired = none) (source : Nat) (b : Block) (w : σ) :
    x.freed.deeds source b w = x.deeds source b w := by
  unfold deeds
  rw [isDone_freed h, handle_freed h]
  rfl

theorem lookOver_freed (h : x.tally.fired = none) (w : σ) :
    x.freed.lookOver w = ((x.lookOver w).1.freed, (x.lookOver w).2) := by
  have houtput : x.freed.output = x.output := rfl
  unfold lookOver
  rw [houtput]
  rcases x.output.checkRotation w with ⟨met, output, w'⟩
  cases met
  · exact checkTally_freed (x := { x with output }) h w'
  · exact checkTally_freed (x := { x with output, tally := x.tally.addFile }) h w'

/-! ## What has ended it -/

def isStopped (x : Writer) : Bool := x.tally.fired.isSome

theorem isDone_of_isStopped (h : x.isStopped = true) : x.isDone = true := by
  unfold isStopped at h
  simp [isDone, h]

theorem isStopped_eq_false : x.isStopped = false ↔ x.tally.fired = none := by
  unfold isStopped
  cases x.tally.fired <;> simp

theorem isStopped_lookOver (h : x.isStopped = true) (w : σ) : (x.lookOver w).1.isStopped = true := by
  unfold isStopped at h ⊢
  obtain ⟨c, hc⟩ := Option.isSome_iff_exists.mp h
  rw [fired_lookOver hc]
  rfl

theorem Gated.isStopped {w : σ} {g : List (Nat × Block) × Writer × σ} (h : Gated x w g) :
    g.2.1.isStopped = x.isStopped := by
  obtain ⟨live, preamble, sourceErrors, hx⟩ := h.writer
  rw [hx]
  rfl

end Writer

namespace Course

variable {σ : Type} {s s₀ : Course σ}

def freed (s : Course σ) : Course σ := { s with writer := s.writer.freed }

/-! ## Side by side -/

/-- Two courses, the second without conditions: they are alike, or the first has stopped and the
    second has gone on from there, and may have failed since. -/
inductive Abreast (s s₀ : Course σ) : Prop
  | together : s.writer.tally.fired = none → s₀ = s.freed → Abreast s s₀
  | parted : s.writer.isStopped = true → s.log <+: s₀.log →
      (s₀.writer.outputError = none → s.writer.outputError = none) → Abreast s s₀

/-- Alike, unless what was done last has met a condition. -/
theorem Abreast.of_freed (s : Course σ) : Abreast s s.freed := by
  cases h : s.writer.isStopped with
  | false => exact .together (Writer.isStopped_eq_false.mp h) rfl
  | true => exact .parted h List.prefix_rfl id

theorem Abreast.log (h : Abreast s s₀) : s.log <+: s₀.log := by
  cases h with
  | together _ h => exact h ▸ List.prefix_rfl
  | parted _ h _ => exact h

/-- The one with conditions that none has stopped has done all that the other has. -/
theorem Abreast.log_eq (h : Abreast s s₀) (hfired : s.writer.tally.fired = none) : s.log = s₀.log := by
  cases h with
  | together _ h =>
    rw [h]
    rfl
  | parted hstopped _ _ =>
    rw [Writer.isStopped_eq_false.mpr hfired] at hstopped
    cases hstopped

/-- The one that stops first does not fail first. -/
theorem Abreast.outputError (h : Abreast s s₀) (he : s₀.writer.outputError = none) : s.writer.outputError = none := by
  cases h with
  | together _ h =>
    rw [h] at he
    exact he
  | parted _ _ h => exact h he

variable [World σ]

theorem take_freed (h : s.writer.tally.fired = none) (e : Nat × Block) : s.freed.take e = (s.take e).freed := by
  unfold take freed
  simp only [Writer.deeds_freed h, Writer.handle_freed h]

theorem look_freed (h : s.writer.tally.fired = none) : s.freed.look = s.look.freed := by
  have houtput : s.writer.freed.output = s.writer.output := rfl
  unfold look freed
  simp only [Writer.isDone_freed h, houtput, Writer.lookOver_freed h]

theorem takes_of_isDone (h : s.writer.isDone = true) (order : List (Nat × Block)) : s.takes order = s := by
  induction order with
  | nil => rfl
  | cons e order ih =>
    have htake : s.take e = s := by
      unfold take Writer.deeds
      rw [Writer.handle_of_isDone h, if_pos h, List.append_nil]
    show (s.take e).takes order = s
    rw [htake, ih]

theorem Abreast.take (e : Nat × Block) (h : Abreast s s₀) : Abreast (s.take e) (s₀.take e) := by
  cases h with
  | together hfired h =>
    rw [h, take_freed hfired]
    exact .of_freed _
  | parted hstopped h he =>
    have htake : s.take e = s := takes_of_isDone (Writer.isDone_of_isStopped hstopped) [e]
    rw [htake]
    exact .parted hstopped (h.trans (List.prefix_append _ _)) fun he₀ => he (outputError_of_take he₀)

theorem Abreast.takes (order : List (Nat × Block)) (h : Abreast s s₀) : Abreast (s.takes order) (s₀.takes order) := by
  induction order generalizing s s₀ with
  | nil => exact h
  | cons e order ih => exact ih (h.take e)

theorem Abreast.look (h : Abreast s s₀) : Abreast s.look s₀.look := by
  cases h with
  | together hfired h =>
    rw [h, look_freed hfired]
    exact .of_freed _
  | parted hstopped h he =>
    refine .parted (Writer.isStopped_lookOver hstopped s.world) ?_ he
    unfold Course.look
    rw [if_pos (Writer.isDone_of_isStopped hstopped), List.append_nil]
    exact h.trans (List.prefix_append _ _)

theorem Abreast.pass {g g₀ : List (Nat × Block) × Writer × σ} (h : Abreast s s₀) (hg : Writer.Gated s.writer s.world g)
    (hg₀ : Writer.Gated s₀.writer s₀.world g₀) (hfreed : s₀ = s.freed → g₀ = Writer.freedGate g) :
    Abreast (s.pass g) (s₀.pass g₀) := by
  cases h with
  | together hfired h =>
    rw [hfreed h, h]
    exact Abreast.takes g.1 (.of_freed ⟨s.log, g.2.1, g.2.2⟩)
  | parted hstopped h he =>
    have hkept : g.2.1.isStopped = true := hg.isStopped.trans hstopped
    have hvain : s.pass g = ⟨s.log, g.2.1, g.2.2⟩ := takes_of_isDone (Writer.isDone_of_isStopped hkept) g.1
    have halong := (Along.start (a := s₀)).pass hg₀
    rw [hvain]
    refine .parted hkept (h.trans halong.log) fun he₀ => ?_
    obtain ⟨live, preamble, sourceErrors, hx⟩ := hg.writer
    rw [hx]
    exact he (halong.outputError he₀)

theorem Abreast.step (i : Input) (h : Abreast s s₀) : Abreast (s.step i) (s₀.step i) := by
  have hpass : Abreast (s.pass (s.writer.gate i s.world)) (s₀.pass (s₀.writer.gate i s₀.world)) := by
    refine h.pass (Writer.gate_gated i s.writer s.world) (Writer.gate_gated i s₀.writer s₀.world) fun he => ?_
    rw [he]
    exact Writer.gate_freed i s.writer s.world
  unfold Course.step
  by_cases hi : i = .idle
  · rw [if_pos hi, if_pos hi]
    exact hpass.look
  · rw [if_neg hi, if_neg hi]
    exact hpass

theorem Abreast.advance (i : Input) (h : Abreast s s₀) : Abreast (s.advance i) (s₀.advance i) := by
  cases h with
  | together hfired he =>
    have hfinished : s₀.writer.isFinished = s.writer.isFinished := by
      rw [he]
      exact Writer.isFinished_freed hfired
    unfold Course.advance
    rw [hfinished]
    by_cases hf : s.writer.isFinished = true
    · rw [if_pos hf, if_pos hf]
      exact .together hfired he
    · rw [if_neg hf, if_neg hf]
      exact Abreast.step i (.together hfired he)
  | parted hstopped hlog he =>
    have hf : s.writer.isFinished = true := by
      unfold Writer.isFinished
      rw [Writer.isDone_of_isStopped hstopped]
      rfl
    have hstill : s.advance i = s := if_pos hf
    obtain ⟨_, halong⟩ := (Along.start (a := s₀)).advance i
    rw [hstill]
    exact .parted hstopped (hlog.trans halong.log) fun he₀ => he (halong.outputError he₀)

theorem Abreast.run (is : List Input) (h : Abreast s s₀) : Abreast (s.run is) (s₀.run is) := by
  induction is generalizing s s₀ with
  | nil => exact h
  | cons i is ih => exact ih (h.advance i)

theorem Abreast.finish (h : Abreast s s₀) : Abreast s.finish s₀.finish :=
  h.pass (Writer.letGo_gated s.writer s.world) (Writer.letGo_gated s₀.writer s₀.world) fun he => by
    rw [he]
    exact Writer.letGo_freed s.writer s.world

end Course

end CaptureRing
