/-
  CaptureRing.Proofs.Balance — the totals of a capture agree at every moment.

  Three parties count what is written. The output counts the bytes and packets of its current
  file and knows whether it has met a trigger, the writer counts all bytes and packets for the
  result, and the tally counts both once more, and the files that have met their threshold. They
  are told of a seed, of a block and of a look at the triggers at different places, and each of
  these can end early.

  What the output shows of its files, one after the other, are their sheets. A capture is watched
  when the sheets are kept up with it, block by block and look by look.

  Proved, for a ledger over any world:
  - `Balanced.handle`, `Balanced.lookOver`: a block and a look keep the counts in agreement;
  - `Watched.run`, `Watched.flush`: every run can be watched, and so can what is let go at its end;
  - `totals_agree`: the three agree with each other and with the files at every moment.
-/

import CaptureRing.Proofs.Autostop
import CaptureRing.Proofs.Context

namespace CaptureRing

structure Sheet where
  bytes : Nat
  packets : Nat
  /-- It has met a trigger. -/
  rotated : Bool
  deriving DecidableEq, Repr

variable {σ : Type} {sheets earlier : List Sheet}

def Sheet.totals (sheets : List Sheet) : Totals :=
  ⟨(sheets.map Sheet.packets).sum, (sheets.map Sheet.bytes).sum, sheets.countP Sheet.rotated⟩

theorem Sheet.totals_snoc (sheets : List Sheet) (s : Sheet) :
    totals (sheets ++ [s]) = ⟨(totals sheets).packets + s.packets, (totals sheets).bytes + s.bytes,
      (totals sheets).files + if s.rotated then 1 else 0⟩ := by
  unfold totals
  rw [List.map_append, List.map_append, List.sum_append, List.sum_append, List.countP_append, List.countP_singleton]
  simp only [List.map_singleton, List.sum_singleton]

namespace Output

def sheet (o : Output) (f : OutputFile) : Sheet := ⟨f.bytes, f.packets, o.state = .rotating⟩

/-- The sheets, with that of the current file as it is now; the files are told apart by their
    number. -/
def seen (o : Output) (sheets : List Sheet) : List Sheet :=
  match o.current with
  | none => sheets
  | some f => sheets.take (o.sequence - 1) ++ [o.sheet f]

def Shown (o : Output) (sheets : List Sheet) : Prop :=
  ∃ earlier f, o.current = some f ∧ o.sequence = earlier.length + 1 ∧ sheets = earlier ++ [o.sheet f]

variable {o o' : Output} {f : OutputFile} {last : Sheet}

theorem seen_concat (hf : o.current = some f) (hn : o.sequence = earlier.length + 1) :
    o.seen (earlier ++ [last]) = earlier ++ [o.sheet f] := by
  unfold seen
  rw [hf]
  dsimp only
  rw [hn, Nat.add_sub_cancel, List.take_left]

theorem seen_next (hf : o.current = some f) (hn : o.sequence = sheets.length + 1) :
    o.seen sheets = sheets ++ [o.sheet f] := by
  unfold seen
  rw [hf]
  dsimp only
  rw [hn, Nat.add_sub_cancel, List.take_length]

/-- A look that shows nothing new. -/
theorem Shown.seen_eq (h : o.Shown sheets) : o.seen sheets = sheets := by
  obtain ⟨earlier, f, hf, hn, rfl⟩ := h
  exact seen_concat hf hn

variable [World σ]

theorem checkRotation_current (o : Output) (w : σ) : (o.checkRotation w).2.1.current = o.current := by
  rcases checkRotation_cases o w with ⟨w', h, -⟩ | ⟨h, -, -⟩ <;> rw [h]

theorem write_counts {data : Bytes} {packet met : Bool} {w w' : σ} (h : o.write data packet w = (.ok met, o', w'))
    (hf : o.current = some f) :
    ∃ f', o'.current = some f' ∧ f'.bytes = f.bytes + data.length ∧ f'.packets = f.packets + if packet then 1 else 0 := by
  cases write_cases h with
  | block _ _ hg _ =>
    cases hf.symm.trans hg
    exact ⟨_, rfl, rfl, rfl⟩
  | @packet g w₁ _ _ _ _ _ hg _ hlook =>
    cases hf.symm.trans hg
    have hcurrent := checkRotation_current (o.counting data packet f) w₁
    rw [hlook] at hcurrent
    exact ⟨_, hcurrent, rfl, rfl⟩

theorem openNext_counts {seed : Bytes} {w w' : σ} (h : o.openNext seed w = (.ok (), o', w')) :
    ∃ f, o'.current = some f ∧ f.bytes = seed.length ∧ f.packets = 0 := by
  cases openNext_cases h with
  | bare hcreated hseed =>
    cases hcreated
    exact ⟨_, rfl, by rw [hseed]; rfl, rfl⟩
  | seeded hcreated _ hw =>
    cases hcreated
    obtain ⟨f, hf, hbytes, hpackets⟩ := write_counts hw rfl
    exact ⟨f, hf, hbytes.trans (Nat.zero_add _), hpackets⟩

end Output

/-! ## The counts and the files -/

structure Balanced (sheets : List Sheet) (x : Writer) (l : Ledger σ) : Prop where
  shown : x.output.Shown sheets
  contents : l.contents.map List.length = sheets.map Sheet.bytes
  packets : x.packets = (Sheet.totals sheets).packets
  bytes : x.bytes = (Sheet.totals sheets).bytes
  tally : x.tally.totals = Sheet.totals sheets

variable {x x' : Writer} {l l' : Ledger σ}

/-- What writes nothing and rotates nothing leaves the counts as they are. -/
theorem Balanced.of_same (h : Balanced sheets x l) (houtput : x'.output = x.output)
    (htally : x'.tally.totals = x.tally.totals) (hpackets : x'.packets = x.packets) (hbytes : x'.bytes = x.bytes)
    (hfiles : l'.files = l.files) : Balanced sheets x' l' := by
  refine ⟨houtput ▸ h.shown, ?_, hpackets.trans h.packets, hbytes.trans h.bytes, htally.trans h.tally⟩
  unfold Ledger.contents
  rw [hfiles]
  exact h.contents

theorem Writer.totals_checkTally [World σ] (x : Writer) (w : σ) : (x.checkTally w).1.tally.totals = x.tally.totals := by
  unfold checkTally Tally.check
  dsimp only
  split <;> rfl

theorem Balanced.checkTally [World σ] (h : Balanced sheets x l) :
    Balanced sheets (x.checkTally l).1 (x.checkTally l).2 :=
  h.of_same rfl (Writer.totals_checkTally x l) rfl rfl rfl

theorem lengths_note {contents : List Bytes} (bs : Bytes) {ns : List Nat} {n : Nat}
    (h : contents.map List.length = ns ++ [n]) :
    (contents.modifyLast (· ++ bs)).map List.length = ns ++ [n + bs.length] := by
  obtain ⟨cs, ds, rfl, hcs, hds⟩ := List.map_eq_append_iff.mp h
  obtain ⟨d, rfl, rfl⟩ := List.map_eq_singleton_iff.mp hds
  rw [List.modifyLast_concat, List.map_append, hcs, List.map_singleton, List.length_append]

/-- A file that was filled has just met a trigger, and is counted. -/
theorem Balanced.rotated (h : Balanced sheets x l) (hs : x.output.state = .filling) {output : Output}
    (hcurrent : output.current = x.output.current) (hsequence : output.sequence = x.output.sequence)
    (hstate : output.state = .rotating) (hfiles : l'.files = l.files) :
    Balanced (output.seen sheets) { x with output, tally := x.tally.addFile } l' := by
  obtain ⟨⟨earlier, f, hf, hn, rfl⟩, hcontents, hpackets, hbytes, htally⟩ := h
  have hf' : output.current = some f := hcurrent.trans hf
  have hn' : output.sequence = earlier.length + 1 := hsequence.trans hn
  have htotals : Sheet.totals (earlier ++ [output.sheet f]) =
      (Sheet.totals (earlier ++ [x.output.sheet f])).add (.waited true) := by
    have hunmet : (x.output.sheet f).rotated = false := decide_eq_false (by rw [hs]; exact nofun)
    have hmet : (output.sheet f).rotated = true := decide_eq_true hstate
    rw [Sheet.totals_snoc, Sheet.totals_snoc, hunmet, hmet]
    rfl
  rw [Output.seen_concat hf' hn']
  refine ⟨⟨earlier, f, hf', hn', rfl⟩, ?_, ?_, ?_, ?_⟩
  · unfold Ledger.contents at hcontents ⊢
    rw [hfiles, hcontents, List.map_append, List.map_append]
    rfl
  · rw [htotals]
    exact hpackets
  · rw [htotals]
    exact hbytes
  · rw [htotals, ← htally]
    rfl

variable [World σ]

theorem Balanced.written (h : Balanced sheets x l) (hs : x.output.state ≠ .rotating) {data : Bytes} {packet met : Bool}
    {output : Output} (hw : x.output.write data packet l = (.ok met, output, l')) :
    Balanced (output.seen sheets) (Writer.count data.length packet met { x with output }) l' := by
  obtain ⟨⟨earlier, f, hf, hn, rfl⟩, hcontents, hpackets, hbytes, htally⟩ := h
  obtain ⟨f', hf', hb, hp⟩ := Output.write_counts hw hf
  obtain ⟨hfiles, hshelf, -⟩ := Output.write_ok hw
  have hn' : output.sequence = earlier.length + 1 := hshelf.sequence.trans hn
  obtain ⟨hxp, hxb, hxt⟩ := Writer.count_eq data.length packet met { x with output }
  have htotals : Sheet.totals (earlier ++ [output.sheet f']) =
      (Sheet.totals (earlier ++ [x.output.sheet f])).add (.wrote data packet met) := by
    have hunmet : (x.output.sheet f).rotated = false := decide_eq_false hs
    have hmet : (output.sheet f').rotated = met := Output.write_met hw hs
    rw [Sheet.totals_snoc, Sheet.totals_snoc, hunmet, hmet]
    unfold Output.sheet Totals.add
    dsimp only
    rw [hb, hp, Nat.add_assoc, Nat.add_assoc]
    rfl
  rw [Output.seen_concat hf' hn']
  refine ⟨⟨earlier, f', hf', hn', rfl⟩, ?_, ?_, ?_, ?_⟩
  · rw [List.map_append] at hcontents ⊢
    rw [Ledger.contents_note hfiles, lengths_note data hcontents]
    exact congrArg (fun n => _ ++ [n]) hb.symm
  · rw [hxp, htotals]
    exact congrArg (· + _) hpackets
  · rw [hxb, htotals]
    exact congrArg (· + _) hbytes
  · rw [hxt, htotals, ← htally]
    rfl

theorem Balanced.openedNext (h : Balanced sheets x l) {seed : Bytes} {output : Output}
    (ho : x.output.openNext seed l = (.ok (), output, l')) :
    ∃ f, output.current = some f ∧ output.sequence = sheets.length + 1 ∧ output.state = .filling ∧
      Balanced (sheets ++ [output.sheet f])
        { x with output, tally := x.tally.addBytes seed.length, bytes := x.bytes + seed.length } l' := by
  obtain ⟨⟨earlier, f, hf, hn, rfl⟩, hcontents, hpackets, hbytes, htally⟩ := h
  obtain ⟨f', hf', hb, hp⟩ := Output.openNext_counts ho
  have hopening := Output.openNext_opening seed x.output l
  rw [ho] at hopening
  cases hopening with
  | opened path ring _ hopened =>
    have hn' : output.sequence = (earlier ++ [x.output.sheet f]).length + 1 := by
      rw [hopened.sequence, hn, List.length_append, List.length_singleton]
    have htotals : Sheet.totals (earlier ++ [x.output.sheet f] ++ [output.sheet f']) =
        (Sheet.totals (earlier ++ [x.output.sheet f])).add (.opened path seed) := by
      have hunmet : (output.sheet f').rotated = false := decide_eq_false (by rw [hopened.state]; exact nofun)
      rw [Sheet.totals_snoc _ (output.sheet f'), hunmet]
      unfold Output.sheet Totals.add
      dsimp only
      rw [hb, hp]
      rfl
    refine ⟨f', hf', hn', hopened.state, ⟨_, f', hf', hn', rfl⟩, ?_, ?_, ?_, ?_⟩
    · unfold Ledger.contents at hcontents ⊢
      rw [hopened.files, List.map_append, List.map_append, hcontents]
      simp only [List.map_append, List.map_singleton, LedgerFile.content_seeded]
      exact congrArg (fun n => _ ++ [n]) hb.symm
    · rw [htotals]
      exact hpackets
    · rw [htotals]
      exact congrArg (· + _) hbytes
    · rw [htotals, ← htally]
      rfl

/-! ## One block, and one look -/

theorem Balanced.put (h : Balanced sheets x l) (hs : x.output.state ≠ .rotating) {data : Bytes} {packet : Bool}
    (he : (x.put data packet l).1.outputError = none) :
    Balanced ((x.put data packet l).1.output.seen sheets) (x.put data packet l).1 (x.put data packet l).2 := by
  unfold Writer.put at he ⊢
  split at he
  · cases he
  · rename_i met output l' hw
    exact (h.written hs hw).checkTally

theorem Balanced.openNext (h : Balanced sheets x l) {seed : Bytes} (he : (x.openNext seed l).1.outputError = none) :
    ∃ f, (x.openNext seed l).1.output.current = some f ∧ (x.openNext seed l).1.output.sequence = sheets.length + 1 ∧
      (x.openNext seed l).1.output.state = .filling ∧
      Balanced (sheets ++ [(x.openNext seed l).1.output.sheet f]) (x.openNext seed l).1 (x.openNext seed l).2 := by
  unfold Writer.openNext at he ⊢
  split at he
  · cases he
  · rename_i output l' ho
    exact h.openedNext ho

/-- The file that was opened for a block is shown when the block stands in it. -/
theorem Balanced.putNext (h : Balanced sheets x l) {seed data : Bytes} {packet : Bool} {r : Writer × Ledger σ}
    (ho : (x.openNext seed l).1.outputError = none)
    (hr : (x.openNext seed l).1.put data packet (x.openNext seed l).2 = r) (he : r.1.outputError = none) :
    Balanced (r.1.output.seen sheets) r.1 r.2 := by
  obtain ⟨f, -, hn, hs, hopened⟩ := h.openNext ho
  have hput : Balanced (r.1.output.seen (sheets ++ [(x.openNext seed l).1.output.sheet f])) r.1 r.2 := by
    rw [← hr] at he ⊢
    exact hopened.put (by rw [hs]; exact nofun) he
  have hn' : r.1.output.sequence = sheets.length + 1 := by
    rcases Writer.put_cases data packet (x.openNext seed l).1 (x.openNext seed l).2 with
      ⟨hfailed, -, -⟩ | ⟨-, -, -, -, hshelf⟩
    · rw [hr, he] at hfailed
      cases hfailed
    · rw [← hr, hshelf.sequence, hn]
  obtain ⟨_, f', hf', -, -⟩ := hput.shown
  rw [Output.seen_concat hf' hn'] at hput
  rw [Output.seen_next hf' hn']
  exact hput

theorem Balanced.taken {s s' : Course (Ledger σ)} {e : Nat × Block} (h : Balanced sheets s.writer s.world)
    (ht : Course.Taken e s s') (he : s'.writer.outputError = none) :
    Balanced (s'.writer.output.seen sheets) s'.writer s'.world := by
  have hmerged : Balanced sheets (s.merged e).writer (s.merged e).world := h.of_same rfl rfl rfl rfl rfl
  cases ht with
  | ended _ =>
    rw [h.shown.seen_eq]
    exact h
  | skipped sourceErrors _ _ =>
    have hseen := h.shown.seen_eq
    exact hseen.symm ▸ h.of_same rfl rfl rfl rfl rfl
  | put _ _ hs => exact hmerged.put hs he
  | turned _ _ _ hopened => exact hmerged.putNext hopened rfl he

theorem Balanced.handle (h : Balanced sheets x l) (source : Nat) (b : Block)
    (he : (x.handle source b l).1.outputError = none) :
    Balanced ((x.handle source b l).1.output.seen sheets) (x.handle source b l).1 (x.handle source b l).2 :=
  Balanced.taken (s := ⟨[], x, l⟩) h (Course.take_taken (e := (source, b)) he) he

theorem Balanced.lookOver (h : Balanced sheets x l) :
    Balanced ((x.lookOver l).1.output.seen sheets) (x.lookOver l).1 (x.lookOver l).2 := by
  unfold Writer.lookOver
  rcases Output.checkRotation_cases x.output l with ⟨l', hc, hl⟩ | ⟨hc, hs, -⟩
  · rw [hc]
    have hfiles : l'.files = l.files := by rcases hl with rfl | rfl <;> rfl
    have hlook : Balanced sheets (x.checkTally l').1 (x.checkTally l').2 :=
      (h.of_same rfl rfl rfl rfl hfiles).checkTally
    have hseen := hlook.shown.seen_eq
    exact hseen.symm ▸ hlook
  · rw [hc]
    have hrotated : Balanced (({ x.output with state := .rotating } : Output).seen sheets)
        { x with output := { x.output with state := .rotating }, tally := x.tally.addFile } (World.now l).2 :=
      h.rotated hs rfl rfl rfl rfl
    exact hrotated.checkTally

/-! ## A capture that is watched -/

/-- From a capture that has just begun to this moment of it, with the sheets of all files opened by
    then: they are looked at after every block and every look at the triggers. In between the clock
    goes on, whatever else happens in the world, and the sources come and go. -/
inductive Watched (a : Writer × Ledger σ) : List Sheet → Writer × Ledger σ → Prop
  | start : Watched a (a.1.output.seen []) a
  | block {sheets : List Sheet} {x : Writer} {l : Ledger σ} (source : Nat) (b : Block) :
      Watched a sheets (x, l) → Watched a ((x.handle source b l).1.output.seen sheets) (x.handle source b l)
  | look {sheets : List Sheet} {x : Writer} {l : Ledger σ} :
      Watched a sheets (x, l) → Watched a ((x.lookOver l).1.output.seen sheets) (x.lookOver l)
  | outside {sheets : List Sheet} {x : Writer} {l : Ledger σ} (l' : Ledger σ) :
      Watched a sheets (x, l) → l'.files = l.files → Watched a sheets (x, l')
  | aside {sheets : List Sheet} {x : Writer} {l : Ledger σ} (live : List Bool) (preamble : Option Preamble)
      (sourceErrors : List (Nat × String)) :
      Watched a sheets (x, l) → Watched a sheets ({ x with live, preamble, sourceErrors }, l)

namespace Watched

variable {a : Writer × Ledger σ}

theorem takes {s : Writer × Ledger σ} (h : Watched a sheets s) (order : List (Nat × Block)) :
    ∃ sheets', Watched a sheets' (Writer.takes order s) := by
  induction order generalizing sheets s with
  | nil => exact ⟨_, h⟩
  | cons e order ih => exact ih (h.block e.1 e.2)

/-- Before the blocks of a gate are taken, nothing happens to the files. -/
theorem pass (h : Watched a sheets (x, l)) {g : List (Nat × Block) × Writer × Ledger σ} (hg : Writer.Gated x l g) :
    ∃ sheets', Watched a sheets' (Writer.pass g) := by
  obtain ⟨order, y, l'⟩ := g
  obtain ⟨⟨live, preamble, sourceErrors, hy⟩, hl⟩ := hg
  have hfiles : l'.files = l.files := by
    rcases hl with rfl | rfl | rfl <;> rfl
  have hgate := (h.aside live preamble sourceErrors).outside l' hfiles
  rw [← hy] at hgate
  exact hgate.takes order

theorem step (h : Watched a sheets (x, l)) (i : Input) : ∃ sheets', Watched a sheets' (Writer.step i x l) := by
  obtain ⟨sheets', hpass⟩ := h.pass (Writer.gate_gated i x l)
  rw [Writer.step_eq]
  split
  · exact ⟨_, hpass.look⟩
  · exact ⟨_, hpass⟩

theorem run (h : Watched a sheets (x, l)) (is : List Input) : ∃ sheets', Watched a sheets' (Writer.run is x l) := by
  induction is generalizing sheets x l with
  | nil => exact ⟨_, h⟩
  | cons i is ih =>
    by_cases hf : x.isFinished = true
    · rw [Writer.run_of_isFinished hf]
      exact ⟨_, h⟩
    · rw [Writer.run_cons (Bool.eq_false_iff.mpr hf)]
      obtain ⟨sheets', hstep⟩ := h.step i
      exact ih hstep

theorem flush (h : Watched a sheets (x, l)) : ∃ sheets', Watched a sheets' (x.flush l) := by
  rw [Writer.flush_eq]
  exact h.pass (Writer.letGo_gated x l)

theorem balanced {s : Writer × Ledger σ} (h : Watched a sheets s) (ha : Balanced (a.1.output.seen []) a.1 a.2)
    (he : s.1.outputError = none) : Balanced sheets s.1 s.2 := by
  induction h with
  | start => exact ha
  | @block sheets x l source b _ ih =>
    have hx : x.outputError = none := Course.outputError_of_take (s := ⟨[], x, l⟩) (e := (source, b)) he
    exact (ih hx).handle source b he
  | look _ ih => exact (ih he).lookOver
  | outside l' _ hfiles ih => exact (ih he).of_same rfl rfl rfl rfl hfiles
  | aside live preamble sourceErrors _ ih => exact (ih he).of_same rfl rfl rfl rfl rfl

end Watched

/-! ## The beginning -/

namespace Writer

variable {c : Config} {h : Host}

/-- What a capture starts with is a file that was just opened. -/
theorem startCapture_openNext {w w' : σ} (hs : startCapture c h w = (.ok x, w')) :
    ∃ w₀ w₁ : σ, (Output.make c.output c.rotation).openNext (x.merger.seed none) w₀ = (.ok (), x.output, w₁) := by
  unfold startCapture at hs
  split at hs
  · cases hs
  split at hs
  · cases hs
  split at hs
  · dsimp only at hs
    split at hs
    · cases hs
    · rename_i hopen
      cases hs
      exact ⟨_, _, hopen⟩
  · cases hs

theorem startCapture_balanced {w : σ} (hs : startCapture c h (Ledger.blank w) = (.ok x, l)) :
    Balanced (x.output.seen []) x l := by
  have hst := startCapture_started hs
  obtain ⟨hbytes, htotals⟩ := startCapture_counts hs
  obtain ⟨_, _, hopen⟩ := startCapture_openNext hs
  obtain ⟨f, hf, hb, hp⟩ := Output.openNext_counts hopen
  obtain ⟨path, ring, l₀, hl₀, -, ho⟩ := hst.opened
  have hn : x.output.sequence = ([] : List Sheet).length + 1 := ho.sequence
  have hunmet : (x.output.sheet f).rotated = false := decide_eq_false (by rw [ho.state]; exact nofun)
  have hof : Sheet.totals [x.output.sheet f] = ⟨0, (x.merger.seed none).length, 0⟩ := by
    rw [← List.nil_append [x.output.sheet f], Sheet.totals_snoc, hunmet]
    unfold Output.sheet
    dsimp only
    rw [hb, hp]
    exact congrArg (Totals.mk 0 · 0) (Nat.zero_add _)
  rw [Output.seen_next hf hn, List.nil_append]
  refine ⟨⟨[], f, hf, hn, rfl⟩, ?_, ?_, ?_, ?_⟩
  · unfold Ledger.contents
    rw [ho.files, hl₀]
    simp only [List.nil_append, List.map_singleton, LedgerFile.content_seeded]
    exact congrArg (fun n => [n]) hb.symm
  · rw [hof]
    exact hst.packets
  · rw [hof]
    exact hbytes
  · rw [hof]
    exact htotals

end Writer

/-! ## The theorem -/

open Writer

/-- Every run can be watched, up to any of its inputs and to what is let go at its end. And at any
    moment that is watched, if nothing has failed: the bytes of the result are those of the tally
    and those of all files opened, seeds and files that were written over included; the packets of
    the result are those of the tally and of all files opened; and the tally has as many files as
    have come to rotate. -/
theorem totals_agree {c : Config} {h : Host} {w : σ}
    (hs : startCapture c h (Ledger.blank w) = (.ok x, l)) :
    (∀ is, (∃ sheets, Watched (x, l) sheets (run is x l)) ∧
      ∃ sheets, Watched (x, l) sheets ((run is x l).1.flush (run is x l).2)) ∧
    ∀ sheets s, Watched (x, l) sheets s → s.1.outputError = none →
      (s.1.bytes = s.1.tally.bytes ∧ s.1.bytes = (s.2.contents.map List.length).sum) ∧
      (s.1.packets = s.1.tally.packets ∧ s.1.packets = (sheets.map Sheet.packets).sum) ∧
      s.1.tally.files = sheets.countP Sheet.rotated ∧ s.2.contents.map List.length = sheets.map Sheet.bytes := by
  refine ⟨fun is => ?_, fun sheets s hwatched he => ?_⟩
  · have hstart : Watched (x, l) _ (x, l) := .start
    obtain ⟨sheets, hrun⟩ := hstart.run is
    exact ⟨⟨sheets, hrun⟩, hrun.flush⟩
  · obtain ⟨-, hcontents, hpackets, hbytes, htally⟩ := hwatched.balanced (startCapture_balanced hs) he
    have htally' : s.1.tally.packets = _ ∧ s.1.tally.bytes = _ ∧ s.1.tally.files = _ :=
      ⟨congrArg Totals.packets htally, congrArg Totals.bytes htally, congrArg Totals.files htally⟩
    refine ⟨⟨hbytes.trans htally'.2.1.symm, ?_⟩, ⟨hpackets.trans htally'.1.symm, hpackets⟩, htally'.2.2, hcontents⟩
    rw [hcontents]
    exact hbytes

/-- A tick before anything came, then the blocks of `loneStream`: its three packets stand in three
    files, and the tally stops the capture after the second of them has met its threshold. -/
theorem totals_agree_lone : ∃ x l sheets,
    startCapture { loneConfig with autostop := [.files 2] } ⟨none, none⟩ (Ledger.blank (Machine.ofDisk .empty)) =
        (.ok x, l) ∧
      Watched (x, l) sheets (run loneInputs x l) ∧
      (run loneInputs x l).1.tally.files = 2 ∧ sheets.countP Sheet.rotated = 2 ∧
      (run loneInputs x l).1.packets = 2 ∧ (sheets.map Sheet.packets).sum = 2 := by
  obtain ⟨x, l, hs, herror, hfiles, hpackets⟩ : ∃ x l,
      startCapture { loneConfig with autostop := [.files 2] } ⟨none, none⟩ (Ledger.blank (Machine.ofDisk .empty)) =
          (.ok x, l) ∧
        (run loneInputs x l).1.outputError = none ∧ (run loneInputs x l).1.tally.files = 2 ∧
        (run loneInputs x l).1.packets = 2 :=
    ⟨_, _, rfl, by decide +kernel⟩
  obtain ⟨hall, hagree⟩ := totals_agree hs
  obtain ⟨⟨sheets, hwatched⟩, -⟩ := hall loneInputs
  obtain ⟨-, ⟨-, hsum⟩, hcount, -⟩ := hagree sheets _ hwatched herror
  exact ⟨x, l, sheets, hs, hwatched, hfiles, hcount.symm.trans hfiles, hpackets, hsum.symm.trans hpackets⟩

end CaptureRing
