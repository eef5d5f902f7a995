/-
  CaptureRing.Proofs.Accounts — the books of a capture agree with its deeds.

  The deeds of a course say what its files hold, how many packets and bytes were written and how
  many files met their threshold. The writer keeps three books of its own: its counts, the tally
  that the conditions are held against, and the state of the output, by which it knows when the
  next block needs a new file. As long as nothing fails and nothing has stopped it, all of them
  say the same (`Booked`); and it stops with the first deed whose totals meet a condition.

  Proved:
  - `Stops.checked`: looking at the conditions after a deed finds the first that is met;
  - `Course.take_taken`: what one block can do to a course;
  - `Booked.put`, `Booked.openNext`, `Booked.look`: one deed more keeps the books right;
  - `Along.booked`: so they are for as long as nothing fails.
-/

import CaptureRing.Proofs.Lockstep
import Mathlib.Data.List.Find

namespace CaptureRing

/-! ## The moment to stop -/

/-- The conditions are looked at after the last deed, and its totals meet one. -/
structure Due (conds : Autostop) (log : List Deed) : Prop where
  looked : ∃ p d, log = p ++ [d] ∧ d.isOpening = false
  met : conds.any (Totals.of log).meets = true

/-- No moment to stop has come, or the last deed was the first, and this condition the first of
    those it met. -/
def Stops (conds : Autostop) (log : List Deed) : Option Condition → Prop
  | none => ∀ p, p <+: log → ¬ Due conds p
  | some c => conds.find? (Totals.of log).meets = some c ∧ Due conds log ∧ ∀ p, p <+: log → Due conds p → p = log

variable {conds : Autostop} {log : List Deed}

theorem Stops.nil : Stops conds [] none := by
  intro p hp
  rw [List.prefix_nil.mp hp]
  rintro ⟨⟨q, d, he, -⟩, -⟩
  simp at he

/-- Nothing is looked at when a file is opened. -/
theorem not_due_opened (path : String) (seed : Bytes) : ¬ Due conds (log ++ [.opened path seed]) := by
  rintro ⟨⟨p, d, he, hd⟩, -⟩
  obtain ⟨-, he⟩ := List.append_inj' he rfl
  cases he
  cases hd

theorem Stops.opened (h : Stops conds log none) (path : String) (seed : Bytes) :
    Stops conds (log ++ [.opened path seed]) none := by
  intro p hp
  rcases List.prefix_concat_iff.mp hp with rfl | hp
  · exact not_due_opened path seed
  · exact h p hp

/-- Looking at the conditions after a deed finds the first that is met, if it is time to stop. -/
theorem Stops.checked (h : Stops conds log none) {d : Deed} (hd : d.isOpening = false) :
    Stops conds (log ++ [d]) (conds.find? (Totals.of (log ++ [d])).meets) := by
  cases hfind : conds.find? (Totals.of (log ++ [d])).meets with
  | none =>
    intro p hp
    rcases List.prefix_concat_iff.mp hp with rfl | hp
    · intro hdue
      obtain ⟨c, hc, hm⟩ := List.any_eq_true.mp hdue.met
      exact List.find?_eq_none.mp hfind c hc hm
    · exact h p hp
  | some c =>
    have hmet : conds.any (Totals.of (log ++ [d])).meets = true :=
      List.any_eq_true.mpr ⟨c, List.mem_of_find?_eq_some hfind, List.find?_some hfind⟩
    refine ⟨hfind, ⟨⟨log, d, rfl, hd⟩, hmet⟩, fun p hp hdue => ?_⟩
    rcases List.prefix_concat_iff.mp hp with rfl | hp
    · rfl
    · exact absurd hdue (h p hp)

/-! ## Totals of the tally -/

def Tally.totals (t : Tally) : Totals := ⟨t.packets, t.bytes, t.files⟩

def Timeless (conds : Autostop) : Prop := ∀ c ∈ conds, ∀ d, c ≠ .duration d

theorem Timeless.find? (h : Timeless conds) (t : Tally) (now : Nat) :
    conds.find? (t.reaches now) = conds.find? t.totals.meets := by
  refine List.find?_congr fun c hc => ?_
  cases c with
  | duration d => exact absurd rfl (h _ hc d)
  | packets n | bytes n | files n => rfl

/-! ## The output -/

namespace Output

variable {σ : Type} [World σ]

/-- A file that was not rotating is rotating after a look at the triggers that met one, and only
    then. -/
theorem checkRotation_met {o : Output} (hs : o.state ≠ .rotating) (w : σ) :
    decide ((o.checkRotation w).2.1.state = .rotating) = (o.checkRotation w).1 := by
  rcases checkRotation_cases o w with ⟨w', hc, -⟩ | ⟨hc, -, -⟩
  · rw [hc]
    exact decide_eq_false hs
  · rw [hc]
    exact decide_eq_true rfl

theorem write_met {data : Bytes} {packet met : Bool} {o o' : Output} {w w' : σ}
    (h : o.write data packet w = (.ok met, o', w')) (hs : o.state ≠ .rotating) :
    decide (o'.state = .rotating) = met := by
  cases write_cases h with
  | block _ _ _ _ => exact decide_eq_false hs
  | @packet f w₁ _ _ _ _ _ _ _ hlook =>
    have hmet := checkRotation_met (o := o.counting data packet f) hs w₁
    rw [hlook] at hmet
    exact hmet

end Output

/-! ## The books -/

variable {σ : Type}

/-- What is known of the writer and the files from the deeds. The tally and the output are up to
    date for as long as no condition has stopped the writer. -/
structure Books (s : Course (Ledger σ)) : Prop where
  files : s.world.files = Deed.files s.log
  packets : s.writer.packets = (Totals.of s.log).packets
  bytes : s.writer.bytes = (Totals.of s.log).bytes
  tally : s.writer.isStopped = false → s.writer.tally.totals = Totals.of s.log
  /-- The first file apart, one is opened for each that has met its threshold; the last of these
      may be opened yet. -/
  owed : s.writer.isStopped = false →
    Deed.openings s.log + (if s.writer.output.state = .rotating then 1 else 0) = (Totals.of s.log).files + 1
  opened : ∀ p path seed, p ++ [.opened path seed] <+: s.log → Deed.openings p = (Totals.of p).files

structure Booked (conds : Autostop) (s : Course (Ledger σ)) : Prop extends Books s where
  conditions : s.writer.tally.conditions = conds
  stops : Stops conds s.log s.writer.tally.fired

variable {s : Course (Ledger σ)} {x x' : Writer} {l l' : Ledger σ}

/-- The books do not depend on the sources, nor on the merger. -/
theorem Booked.of_same (h : Booked conds ⟨log, x, l⟩) (htally : x'.tally = x.tally) (houtput : x'.output = x.output)
    (hpackets : x'.packets = x.packets) (hbytes : x'.bytes = x.bytes) (hfiles : l'.files = l.files) :
    Booked conds ⟨log, x', l'⟩ := by
  obtain ⟨⟨files, packets, bytes, tally, owed, opened⟩, conditions, stops⟩ := h
  unfold Writer.isStopped at tally owed
  refine ⟨⟨hfiles.trans files, hpackets.trans packets, hbytes.trans bytes, ?_, ?_, opened⟩, ?_, ?_⟩
  · unfold Writer.isStopped
    rw [htally]
    exact tally
  · unfold Writer.isStopped
    rw [htally, houtput]
    exact owed
  · rw [htally]
    exact conditions
  · rw [htally]
    exact stops

namespace Deed

theorem opened_of_snoc {p : List Deed} {path : String} {seed : Bytes} {d : Deed} (hd : d.isOpening = false)
    (h : p ++ [.opened path seed] <+: log ++ [d]) : p ++ [.opened path seed] <+: log := by
  rcases List.prefix_concat_iff.mp h with h | h
  · obtain ⟨-, h⟩ := List.append_inj' h rfl
    cases h
    cases hd
  · exact h

end Deed

theorem Books.openedNext (h : Books ⟨log, x, l⟩) (hfired : x.tally.fired = none) (hs : x.output.state = .rotating)
    {seed : Bytes} {path : String} {ring : List String} {output : Output}
    (ho : Output.Opened seed path ring x.output output l l') :
    Books ⟨log ++ [.opened path seed],
      { x with output, tally := x.tally.addBytes seed.length, bytes := x.bytes + seed.length }, l'⟩ := by
  have hup : x.isStopped = false := Writer.isStopped_eq_false.mpr hfired
  have howed : Deed.openings log + 1 = (Totals.of log).files + 1 := by
    rw [← h.owed hup, if_pos hs]
  constructor
  · rw [Deed.files_snoc, ← h.files]
    exact ho.files
  · rw [Totals.of_snoc]
    exact h.packets
  · rw [Totals.of_snoc]
    exact congrArg (· + seed.length) h.bytes
  · intro _
    rw [Totals.of_snoc, ← h.tally hup]
    rfl
  · intro _
    rw [Deed.openings_snoc, Totals.of_snoc]
    show _ + 1 + (if output.state = .rotating then 1 else 0) = (Totals.of log).files + 1
    rw [ho.state]
    exact howed
  · intro p path' seed' hp
    rcases List.prefix_concat_iff.mp hp with hp | hp
    · obtain ⟨rfl, -⟩ := List.append_inj' hp rfl
      exact Nat.succ.inj howed
    · exact h.opened p path' seed' hp

variable [World σ]

/-- Looking at the conditions after a deed stops the writer if it is time to. -/
theorem Books.checked {d : Deed} (h : Books ⟨log ++ [d], x, l⟩) (hd : d.isOpening = false)
    (hstops : Stops conds log none) (hconds : x.tally.conditions = conds) (htime : Timeless conds)
    (hfired : x.tally.fired = none) : Booked conds ⟨log ++ [d], (x.checkTally l).1, (x.checkTally l).2⟩ := by
  have hup : x.isStopped = false := Writer.isStopped_eq_false.mpr hfired
  have hcheck : (x.checkTally l).1.tally =
      { x.tally with fired := conds.find? (Totals.of (log ++ [d])).meets } := by
    unfold Writer.checkTally Tally.check
    simp only [hfired, hconds]
    rw [htime.find?, h.tally hup]
  constructor
  · exact ⟨h.files, h.packets, h.bytes, fun _ => by rw [hcheck]; exact h.tally hup, fun _ => h.owed hup, h.opened⟩
  · rw [hcheck]
    exact hconds
  · rw [hcheck]
    exact hstops.checked hd

theorem Writer.conditions_lookOver (x : Writer) (l : Ledger σ) :
    (x.lookOver l).1.tally.conditions = x.tally.conditions := by
  have hkept : (if (x.output.checkRotation l).1 = true then x.tally.addFile else x.tally).conditions
      = x.tally.conditions := by
    split <;> rfl
  unfold Writer.lookOver Writer.checkTally Tally.check
  dsimp only
  split <;> exact hkept

theorem Writer.conditions_count (size : Nat) (packet full : Bool) (x : Writer) :
    (count size packet full x).tally.conditions = x.tally.conditions := by
  cases packet <;> cases full <;> rfl

theorem Writer.count_eq (size : Nat) (packet full : Bool) (x : Writer) :
    (count size packet full x).packets = x.packets + (if packet then 1 else 0) ∧
      (count size packet full x).bytes = x.bytes + size ∧
      (count size packet full x).tally.totals =
        ⟨x.tally.packets + if packet then 1 else 0, x.tally.bytes + size, x.tally.files + if full then 1 else 0⟩ := by
  cases packet <;> cases full <;> simp [count, Tally.totals, Tally.addPacket, Tally.addBytes, Tally.addFile]

/-! ## What a block does -/

namespace Writer

def putNext (seed data : Bytes) (packet : Bool) (x : Writer) (l : Ledger σ) : Writer × Ledger σ :=
  let r := x.openNext seed l
  if r.1.outputError.isSome then r else r.1.put data packet r.2

theorem handle_of_gives_none (hd : x.isDone = false) {source : Nat} {b : Block}
    (hg : x.merger.gives source b = none) (l : Ledger σ) :
    ∃ sourceErrors, x.handle source b l =
      ({ x with merger := (x.merger.process source b).2, sourceErrors }, l) := by
  unfold Merger.gives at hg
  unfold handle
  rw [hd]
  generalize x.merger.process source b = r at hg ⊢
  rcases r with ⟨e | none | data, merger⟩
  · exact ⟨x.sourceErrors ++ [(source, e.message)], rfl⟩
  · exact ⟨x.sourceErrors, rfl⟩
  · cases hg

/-- A block that is written, into a new file if the current one is rotating. -/
theorem handle_of_gives (hd : x.isDone = false) {source : Nat} {b : Block} {data : Bytes}
    (hg : x.merger.gives source b = some data) (l : Ledger σ) :
    x.handle source b l =
      let x' := { x with merger := (x.merger.process source b).2 }
      if x.output.state = .rotating then x'.putNext (x.merger.seed (some b)) data b.isPacket l
      else x'.put data b.isPacket l := by
  unfold Merger.gives at hg
  unfold handle
  rw [hd]
  generalize x.merger.process source b = r at hg ⊢
  rcases r with ⟨e | none | data', merger⟩
  · cases hg
  · cases hg
  · cases hg
    by_cases hs : x.output.state = .rotating
    · simp only [hs, if_true]
      rfl
    · simp only [hs, if_false]
      rfl

end Writer

namespace Course

def put (data : Bytes) (packet : Bool) (s : Course (Ledger σ)) : Course (Ledger σ) :=
  let r := s.writer.put data packet s.world
  ⟨s.log ++ [.wrote data packet (r.1.output.state = .rotating)], r.1, r.2⟩

def openNext (seed : Bytes) (s : Course (Ledger σ)) : Course (Ledger σ) :=
  let r := s.writer.openNext seed s.world
  ⟨s.log ++ [.opened (r.1.output.ring.getLast?.getD "") seed], r.1, r.2⟩

def merged (e : Nat × Block) (s : Course (Ledger σ)) : Course (Ledger σ) :=
  { s with writer := { s.writer with merger := (s.writer.merger.process e.1 e.2).2 } }

@[simp] theorem merger_put (data : Bytes) (packet : Bool) (s : Course (Ledger σ)) :
    (s.put data packet).writer.merger = s.writer.merger := by
  unfold put Writer.put
  dsimp only
  split <;> rfl

@[simp] theorem merger_openNext (seed : Bytes) (s : Course (Ledger σ)) :
    (s.openNext seed).writer.merger = s.writer.merger := by
  unfold openNext Writer.openNext
  dsimp only
  split <;> rfl

/-- Writing a block behind a seed is one thing, unless it fails. -/
theorem putNext_eq {s : Course (Ledger σ)} {seed data : Bytes} {packet : Bool} {r : Writer × Ledger σ}
    (hr : s.writer.putNext seed data packet s.world = r) (he : r.1.outputError = none) :
    (s.openNext seed).writer.outputError = none ∧
      (s.openNext seed).put data packet = ⟨s.log ++ ([.opened (r.1.output.ring.getLast?.getD "") seed] ++
        [.wrote data packet (r.1.output.state = .rotating)]), r.1, r.2⟩ := by
  unfold Writer.putNext at hr
  dsimp only at hr
  split at hr
  · rename_i hsome
    rw [← hr] at he
    rw [he] at hsome
    cases hsome
  · rename_i hnone
    refine ⟨Option.not_isSome_iff_eq_none.mp hnone, ?_⟩
    -- the block is written to the file that was opened for it
    have hring : r.1.output.ring = (s.writer.openNext seed s.world).1.output.ring := by
      rcases Writer.put_cases data packet (s.writer.openNext seed s.world).1 (s.writer.openNext seed s.world).2 with
        ⟨hfailed, -, -⟩ | ⟨-, -, -, -, hshelf⟩
      · rw [hr, he] at hfailed
        cases hfailed
      · rw [← hshelf.ring, hr]
    unfold put openNext
    dsimp only
    rw [hr, hring, List.append_assoc]

inductive Taken (e : Nat × Block) (s : Course (Ledger σ)) : Course (Ledger σ) → Prop
  | ended : s.writer.isDone = true → Taken e s s
  | skipped (sourceErrors : List (Nat × String)) : s.writer.isDone = false → s.writer.merger.gives e.1 e.2 = none →
      Taken e s { s.merged e with writer := { (s.merged e).writer with sourceErrors } }
  | put {data : Bytes} : s.writer.isDone = false → s.writer.merger.gives e.1 e.2 = some data →
      s.writer.output.state ≠ .rotating → Taken e s ((s.merged e).put data e.2.isPacket)
  | turned {data : Bytes} : s.writer.isDone = false → s.writer.merger.gives e.1 e.2 = some data →
      s.writer.output.state = .rotating →
      ((s.merged e).openNext (s.writer.merger.seed (some e.2))).writer.outputError = none →
      Taken e s (((s.merged e).openNext (s.writer.merger.seed (some e.2))).put data e.2.isPacket)

theorem take_taken {s : Course (Ledger σ)} {e : Nat × Block} (he : (s.take e).writer.outputError = none) :
    Taken e s (s.take e) := by
  by_cases hdone : s.writer.isDone = true
  · have htake : s.take e = s := takes_of_isDone hdone [e]
    rw [htake]
    exact .ended hdone
  have hd : s.writer.isDone = false := Bool.eq_false_iff.mpr hdone
  unfold take Writer.deeds at he ⊢
  dsimp only at he ⊢
  rw [if_neg hdone]
  cases hg : s.writer.merger.gives e.1 e.2 with
  | none =>
    obtain ⟨sourceErrors, hh⟩ := Writer.handle_of_gives_none hd hg s.world
    rw [hh, List.append_nil]
    exact .skipped sourceErrors hd hg
  | some data =>
    rw [Writer.handle_of_gives hd hg s.world] at he ⊢
    by_cases hs : s.writer.output.state = .rotating
    · simp only [hs, if_true] at he ⊢
      obtain ⟨hopened, heq⟩ := putNext_eq (s := s.merged e) rfl he
      have hturned := Taken.turned hd hg hs hopened
      rw [heq] at hturned
      exact hturned
    · simp only [hs, if_false] at he ⊢
      exact .put hd hg hs

end Course

/-! ## One deed more -/

theorem Books.counted (h : Books ⟨log, x, l⟩) (hfired : x.tally.fired = none) (hs : x.output.state ≠ .rotating)
    {data : Bytes} {packet met : Bool} {output : Output} (hw : x.output.write data packet l = (.ok met, output, l')) :
    Books ⟨log ++ [.wrote data packet met], Writer.count data.length packet met { x with output }, l'⟩ := by
  have hup : x.isStopped = false := Writer.isStopped_eq_false.mpr hfired
  obtain ⟨hpackets, hbytes, htally⟩ := Writer.count_eq data.length packet met { x with output }
  constructor
  · rw [Deed.files_snoc, ← h.files]
    exact (Output.write_ok hw).1
  · rw [hpackets, Totals.of_snoc]
    exact congrArg (· + _) h.packets
  · rw [hbytes, Totals.of_snoc]
    exact congrArg (· + _) h.bytes
  · intro _
    rw [htally, Totals.of_snoc, ← h.tally hup]
    rfl
  · intro _
    have howed : Deed.openings log + 0 = (Totals.of log).files + 1 := by
      rw [← h.owed hup, if_neg hs]
    rw [Deed.openings_snoc, Totals.of_snoc]
    show Deed.openings log + 0 + (if output.state = .rotating then 1 else 0) =
      (Totals.of log).files + (if met = true then 1 else 0) + 1
    simp only [← Output.write_met hw hs, decide_eq_true_eq]
    omega
  · exact fun p path seed hp => h.opened p path seed (Deed.opened_of_snoc rfl hp)

theorem Booked.put (h : Booked conds s) (hfired : s.writer.tally.fired = none) (htime : Timeless conds)
    (hs : s.writer.output.state ≠ .rotating) {data : Bytes} {packet : Bool}
    (he : (s.put data packet).writer.outputError = none) : Booked conds (s.put data packet) := by
  obtain ⟨log, x, l⟩ := s
  have hstops : Stops conds log none := hfired ▸ h.stops
  dsimp only at hs
  unfold Course.put Writer.put at he ⊢
  dsimp only at he ⊢
  split at he
  · cases he
  · rename_i met output l' hw
    change Booked conds ⟨log ++ [.wrote data packet (output.state = .rotating)], _, _⟩
    rw [Output.write_met hw hs]
    refine (h.counted hfired hs hw).checked rfl hstops ?_ htime ((Writer.fired_count ..).trans hfired)
    rw [Writer.conditions_count]
    exact h.conditions

theorem Booked.openNext (h : Booked conds s) (hfired : s.writer.tally.fired = none)
    (hs : s.writer.output.state = .rotating) {seed : Bytes} (he : (s.openNext seed).writer.outputError = none) :
    (s.openNext seed).writer.output.state = .filling ∧ Booked conds (s.openNext seed) := by
  obtain ⟨log, x, l⟩ := s
  have hstops : Stops conds log none := hfired ▸ h.stops
  have hopen := Output.openNext_opening seed x.output l
  unfold Course.openNext Writer.openNext at he ⊢
  dsimp only at he ⊢
  split at he
  · cases he
  · rename_i output l' ho
    rw [ho] at hopen
    cases hopen with
    | opened path ring hnext hopened =>
      have hlast : output.ring.getLast?.getD "" = path := by
        rw [hopened.ring]
        simp
      dsimp only
      rw [hlast]
      refine ⟨hopened.state, h.openedNext hfired hs hopened, h.conditions, ?_⟩
      show Stops conds _ x.tally.fired
      rw [hfired]
      exact hstops.opened path seed

theorem Booked.taken {s' : Course (Ledger σ)} {e : Nat × Block} (h : Booked conds s) (htime : Timeless conds)
    (ht : Course.Taken e s s') (he : s'.writer.outputError = none) : Booked conds s' := by
  have hmerged : Booked conds (s.merged e) := h.of_same rfl rfl rfl rfl rfl
  cases ht with
  | ended _ => exact h
  | skipped _ _ _ => exact h.of_same rfl rfl rfl rfl rfl
  | put hd _ hs => exact hmerged.put (Writer.not_isDone hd).2 htime hs he
  | turned hd _ hs hopened =>
    have hfired : s.writer.tally.fired = none := (Writer.not_isDone hd).2
    obtain ⟨hfilling, hnext⟩ := hmerged.openNext hfired hs hopened
    exact hnext.put ((Writer.fired_openNext ..).trans hfired) htime (by rw [hfilling]; exact nofun) he

/-! ## The end of a poll interval -/

/-- The output is looked over, which may be what the current file needed to rotate. -/
theorem Books.lookedOver (h : Books ⟨log, x, l⟩) (hfired : x.tally.fired = none) :
    Books ⟨log ++ [.waited (x.output.checkRotation l).1],
      { x with
        output := (x.output.checkRotation l).2.1
        tally := if (x.output.checkRotation l).1 then x.tally.addFile else x.tally },
      (x.output.checkRotation l).2.2⟩ := by
  have hup : x.isStopped = false := Writer.isStopped_eq_false.mpr hfired
  have howed : Deed.openings log + _ = (Totals.of log).files + 1 := h.owed hup
  constructor
  · rw [Deed.files_snoc, ← h.files]
    exact Output.checkRotation_files x.output l
  · rw [Totals.of_snoc]
    exact h.packets
  · rw [Totals.of_snoc]
    exact h.bytes
  · intro _
    rw [Totals.of_snoc, ← h.tally hup]
    show Tally.totals (if (x.output.checkRotation l).1 = true then _ else _) = _
    cases (x.output.checkRotation l).1 <;> rfl
  · intro _
    rw [Deed.openings_snoc, Totals.of_snoc]
    show Deed.openings log + 0 + (if (x.output.checkRotation l).2.1.state = .rotating then 1 else 0) =
      (Totals.of log).files + (if (x.output.checkRotation l).1 = true then 1 else 0) + 1
    rcases Output.checkRotation_cases x.output l with ⟨w', hc, -⟩ | ⟨hc, hfilling, -⟩
    · rw [hc]
      exact howed
    · simp [hfilling] at howed
      simp [hc]
      omega
  · exact fun p path seed hp => h.opened p path seed (Deed.opened_of_snoc rfl hp)

/-- Looking over what has stopped changes nothing that is in the books. -/
theorem Booked.lookedAfter (h : Booked conds ⟨log, x, l⟩) (hstopped : x.isStopped = true) :
    Booked conds ⟨log, (x.lookOver l).1, (x.lookOver l).2⟩ := by
  have hstill : (x.lookOver l).1.isStopped = true := Writer.isStopped_lookOver hstopped l
  have hfired : (x.lookOver l).1.tally.fired = x.tally.fired := by
    unfold Writer.isStopped at hstopped
    obtain ⟨c, hc⟩ := Option.isSome_iff_exists.mp hstopped
    rw [hc, Writer.fired_lookOver hc]
  refine ⟨⟨?_, h.packets, h.bytes, ?_, ?_, h.opened⟩, (Writer.conditions_lookOver x l).trans h.conditions, ?_⟩
  · exact (Writer.lookOver_keeps x l).1.trans h.files
  · intro hup
    rw [hstill] at hup
    cases hup
  · intro hup
    rw [hstill] at hup
    cases hup
  · rw [hfired]
    exact h.stops

theorem Booked.look (h : Booked conds s) (htime : Timeless conds) (he : s.writer.outputError = none) :
    Booked conds s.look := by
  obtain ⟨log, x, l⟩ := s
  unfold Course.look
  dsimp only at he ⊢
  cases hstopped : x.isStopped with
  | true =>
    rw [if_pos (Writer.isDone_of_isStopped hstopped), List.append_nil]
    exact h.lookedAfter hstopped
  | false =>
    have hfired : x.tally.fired = none := Writer.isStopped_eq_false.mp hstopped
    have hd : x.isDone = false := by simp [Writer.isDone, he, hfired]
    have hstops : Stops conds log none := hfired ▸ h.stops
    rw [hd, if_neg Bool.false_ne_true]
    have htally : ∀ met : Bool, (if met = true then x.tally.addFile else x.tally).conditions = conds ∧
        (if met = true then x.tally.addFile else x.tally).fired = none := by
      intro met
      cases met
      · exact ⟨h.conditions, hfired⟩
      · exact ⟨h.conditions, hfired⟩
    exact (h.lookedOver hfired).checked rfl hstops (htally _).1 htime (htally _).2

/-! ## The whole way -/

/-- A course that has not failed has kept its books all the way. -/
theorem Course.Along.booked {a : Course (Ledger σ)} {order : List (Nat × Block)} (h : Along a order s)
    (ha : Booked conds a) (htime : Timeless conds) (he : s.writer.outputError = none) : Booked conds s := by
  induction h with
  | start => exact ha
  | block e _ ih => exact (ih (outputError_of_take he)).taken htime (take_taken he) he
  | clock _ ih => exact (ih he).of_same rfl rfl rfl rfl rfl
  | aside live preamble sourceErrors _ ih => exact (ih he).of_same rfl rfl rfl rfl rfl
  | look _ ih => exact (ih he).look htime he

end CaptureRing
