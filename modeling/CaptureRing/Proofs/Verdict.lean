/-
  CaptureRing.Proofs.Verdict — what the result says of how a capture ended.

  The tally grows with every seed, every block and every file that meets its threshold, and it is
  held against the conditions after a block was written and at the end of an idle poll interval.
  What grows without a look is a seed, and a seed is followed by the block that the file was opened
  for. There is one seed that is not: that of the first file, when a capture ends before a block was
  written or a poll interval passed. With this exception the result tells the truth.

  Proved, for a ledger over any world:
  - `Judged.taken`, `Judged.look`: one block more, and one look;
  - `Along.judged`: the verdict is right for as long as nothing fails;
  - `stoppedBy_agrees`: so it is in the result of a capture;
  - `seed_unjudged`: the exception.
-/

import CaptureRing.Proofs.Paging

namespace CaptureRing

variable {σ : Type} {conds : Autostop} {c : Condition}

/-! ## The verdict -/

inductive Verdict (conds : Autostop) (totals : Totals) : Option Condition → Prop
  | stopped {c : Condition} : c ∈ conds → totals.meets c = true → Verdict conds totals (some c)
  | going : (∀ c ∈ conds, totals.meets c = false) → Verdict conds totals none

/-- A file more does not unmeet a condition. -/
theorem Totals.meets_file {t : Totals} (h : t.meets c = true) : ({ t with files := t.files + 1 } : Totals).meets c = true := by
  cases c with
  | packets n => exact h
  | bytes n => exact h
  | duration d => cases h
  | files n =>
    have hle := of_decide_eq_true h
    exact decide_eq_true (Nat.le_succ_of_le hle)

namespace Tally

structure Judged (conds : Autostop) (t : Tally) : Prop where
  conditions : t.conditions = conds
  verdict : Verdict conds t.totals t.fired

variable {t : Tally}

/-- Nothing has been found, whether it was looked for or not. -/
def Open (conds : Autostop) (t : Tally) : Prop := t.conditions = conds ∧ t.fired = none

theorem Open.judged (h : t.Open conds) (htime : Timeless conds) (now : Nat) : (t.check now).Judged conds := by
  obtain ⟨hconds, hfired⟩ := h
  have hcheck : t.check now = { t with fired := conds.find? t.totals.meets } := by
    unfold check
    rw [hfired, ← htime.find? t now, hconds]
  rw [hcheck]
  refine ⟨hconds, ?_⟩
  show Verdict conds t.totals (conds.find? t.totals.meets)
  cases hfind : conds.find? t.totals.meets with
  | none =>
    refine .going fun c hc => ?_
    have hunmet := List.find?_eq_none.mp hfind c hc
    rwa [Bool.not_eq_true] at hunmet
  | some c => exact .stopped (List.mem_of_find?_eq_some hfind) (List.find?_some hfind)

theorem Open.addFile (h : t.Open conds) : t.addFile.Open conds := h

/-- A verdict stands when one more file has met its threshold. -/
theorem Judged.addFile (h : t.Judged conds) (hfired : t.fired = some c) : t.addFile.Judged conds := by
  obtain ⟨hconds, hverdict⟩ := h
  refine ⟨hconds, ?_⟩
  rw [hfired] at hverdict
  show Verdict conds { t.totals with files := t.totals.files + 1 } t.fired
  rw [hfired]
  cases hverdict with
  | stopped hmem hmet => exact .stopped hmem (Totals.meets_file hmet)

end Tally

/-! ## Along a course -/

/-- The tally of the course is right; or nothing was done since these deeds, and nothing was looked at. -/
def Course.Judged (conds : Autostop) (before : List Deed) (s : Course σ) : Prop :=
  (s.log = before ∧ s.writer.tally.Open conds) ∨ s.writer.tally.Judged conds

theorem Course.Judged.isOpen {before : List Deed} {s : Course σ} (h : s.Judged conds before)
    (hfired : s.writer.tally.fired = none) : s.writer.tally.Open conds := by
  rcases h with ⟨-, hopen⟩ | hjudged
  · exact hopen
  · exact ⟨hjudged.conditions, hfired⟩

variable [World σ] {x : Writer} {l : Ledger σ} {before log : List Deed}

namespace Writer

theorem put_judged (h : x.tally.Open conds) (htime : Timeless conds) {data : Bytes} {packet : Bool}
    (he : (x.put data packet l).1.outputError = none) : (x.put data packet l).1.tally.Judged conds := by
  unfold put at he ⊢
  split at he
  · cases he
  · rename_i met output l' hw
    have hopen : (count data.length packet met { x with output }).tally.Open conds :=
      ⟨(conditions_count ..).trans h.1, (fired_count ..).trans h.2⟩
    exact hopen.judged htime _

theorem openNext_open (h : x.tally.Open conds) (seed : Bytes) : (x.openNext seed l).1.tally.Open conds := by
  unfold openNext
  split
  · exact h
  · exact h

end Writer

namespace Course.Judged

theorem taken {s s' : Course (Ledger σ)} {e : Nat × Block} (h : s.Judged conds before) (htime : Timeless conds)
    (ht : Course.Taken e s s') (he : s'.writer.outputError = none) : s'.Judged conds before := by
  cases ht with
  | ended _ => exact h
  | skipped _ _ _ => exact h
  | put hd _ _ =>
    have hopen : (s.merged e).writer.tally.Open conds := h.isOpen (Writer.not_isDone hd).2
    exact Or.inr (Writer.put_judged hopen htime he)
  | turned hd _ _ _ =>
    have hopen : (s.merged e).writer.tally.Open conds := h.isOpen (Writer.not_isDone hd).2
    exact Or.inr (Writer.put_judged (Writer.openNext_open hopen _) htime he)

theorem look {s : Course (Ledger σ)} (h : s.Judged conds before) (htime : Timeless conds)
    (he : s.writer.outputError = none) : s.look.Judged conds before := by
  obtain ⟨log, x, l⟩ := s
  right
  show (x.lookOver l).1.tally.Judged conds
  unfold Writer.lookOver Writer.checkTally
  dsimp only
  cases hfired : x.tally.fired with
  | none =>
    have hopen : x.tally.Open conds := h.isOpen hfired
    refine Tally.Open.judged ?_ htime _
    split
    · exact hopen.addFile
    · exact hopen
  | some c =>
    have hjudged : x.tally.Judged conds := by
      rcases h with ⟨-, -, hnone⟩ | hjudged
      · exact absurd (hfired.symm.trans hnone) nofun
      · exact hjudged
    split
    · rw [Tally.check_of_fired _ (by exact hfired)]
      exact hjudged.addFile hfired
    · rw [Tally.check_of_fired _ hfired]
      exact hjudged

end Course.Judged

theorem Course.Along.judged {a s : Course (Ledger σ)} {order : List (Nat × Block)} (h : Along a order s)
    (ha : a.writer.tally.Open conds) (htime : Timeless conds) (he : s.writer.outputError = none) :
    s.Judged conds a.log := by
  induction h with
  | start => exact Or.inl ⟨rfl, ha⟩
  | block e _ ih => exact (ih (outputError_of_take he)).taken htime (take_taken he) he
  | clock _ ih => exact ih he
  | aside live preamble sourceErrors _ ih => exact ih he
  | look _ ih => exact (ih he).look htime he

/-! ## The theorem -/

open Writer

/-- The result of a capture names a condition that its totals meet; or it names none, and they meet
    none. The totals are its packets, its bytes, those of all seeds included, and the files that have
    met their threshold. Only of a capture that ends before a block was written or a poll interval
    passed nothing is known: it has the bytes of the first seed, and no condition was looked at. -/
theorem stoppedBy_agrees {c : Config} {h : Host} {w : σ} (hs : startCapture c h (Ledger.blank w) = (.ok x, l))
    (htime : Timeless c.autostop) (is : List Input)
    (he : ((run is x l).1.conclude (run is x l).2).1.outputError = none) :
    let out := (run is x l).1.conclude (run is x l).2
    ∃ sheets, Watched (x, l) sheets ((run is x l).1.flush (run is x l).2) ∧
      out.2.contents.map List.length = sheets.map Sheet.bytes ∧
      (Verdict c.autostop ⟨out.1.packets, out.1.bytes, sheets.countP Sheet.rotated⟩ out.1.stoppedBy ∨
        out.1.stoppedBy = none ∧ (∃ path, x.history is l = [.opened path (x.merger.seed none)]) ∧
          out.1.packets = 0 ∧ out.1.bytes = (x.merger.seed none).length ∧ sheets.countP Sheet.rotated = 0) := by
  intro out
  have hst := startCapture_started hs
  have hfinal := course_writer is x l
  have herror : (course is x l).writer.outputError = none := outputError_course he
  have hstart : Watched (x, l) _ (x, l) := .start
  obtain ⟨_, hrun⟩ := hstart.run is
  obtain ⟨sheets, hwatched⟩ : ∃ sheets, Watched (x, l) sheets ((run is x l).1.flush (run is x l).2) := hrun.flush
  obtain ⟨-, hcontents, hpackets, hbytes, htally⟩ := hwatched.balanced (startCapture_balanced hs) (hfinal ▸ herror)
  have htotals : (⟨out.1.packets, out.1.bytes, sheets.countP Sheet.rotated⟩ : Totals)
      = (course is x l).writer.tally.totals := by
    rw [hfinal, htally]
    show (⟨((run is x l).1.flush (run is x l).2).1.packets, ((run is x l).1.flush (run is x l).2).1.bytes, _⟩
      : Totals) = _
    rw [hpackets, hbytes]
    rfl
  have hstopped : out.1.stoppedBy = (course is x l).writer.tally.fired := by
    rw [hfinal]
    rfl
  refine ⟨sheets, hwatched, ?_, ?_⟩
  · rw [conclude_contents]
    exact hcontents
  rw [htotals, hstopped]
  rcases (course_along is x l).judged ⟨hst.conditions, hst.fired⟩ htime herror with ⟨hlog, -, hfired⟩ | hjudged
  · -- nothing was done: the totals are those of the first deed
    right
    have hbooked := course_booked hs htime herror
    have hof : (course is x l).writer.tally.totals = ⟨0, (x.merger.seed none).length, 0⟩ := by
      rw [hbooked.tally (isStopped_eq_false.mpr hfired), hlog]
      simp [Course.begin, Totals.of, Totals.add]
    rw [hof] at htotals
    exact ⟨hfired, ⟨_, hlog⟩, congrArg Totals.packets htotals, congrArg Totals.bytes htotals,
      congrArg Totals.files htotals⟩
  · exact Or.inl hjudged.verdict

/-- A packet to a file: the capture is stopped by a condition on files, and two of them are full. -/
theorem stoppedBy_agrees_lone : ∃ x l sheets,
    startCapture { loneConfig with autostop := [.files 2] } ⟨none, none⟩ (Ledger.blank (Machine.ofDisk .empty)) =
        (.ok x, l) ∧
      Watched (x, l) sheets ((run loneInputs x l).1.flush (run loneInputs x l).2) ∧
      ((run loneInputs x l).1.conclude (run loneInputs x l).2).1.stoppedBy = some (.files 2) ∧
      2 ≤ sheets.countP Sheet.rotated := by
  obtain ⟨x, l, hs, hok, hstopped⟩ : ∃ x l,
      startCapture { loneConfig with autostop := [.files 2] } ⟨none, none⟩ (Ledger.blank (Machine.ofDisk .empty)) =
          (.ok x, l) ∧
        ((run loneInputs x l).1.conclude (run loneInputs x l).2).1.outputError = none ∧
        ((run loneInputs x l).1.conclude (run loneInputs x l).2).1.stoppedBy = some (.files 2) :=
    ⟨_, _, rfl, by decide +kernel, by decide +kernel⟩
  have htime : Timeless [.files 2] := by
    intro c hc d
    rw [List.mem_singleton.mp hc]
    exact nofun
  obtain ⟨sheets, hwatched, -, hverdict⟩ := stoppedBy_agrees hs htime loneInputs hok
  refine ⟨x, l, sheets, hs, hwatched, hstopped, ?_⟩
  rcases hverdict with hverdict | ⟨hnone, -⟩
  · rw [hstopped] at hverdict
    cases hverdict with
    | stopped _ hmet => exact of_decide_eq_true hmet
  · rw [hstopped] at hnone
    cases hnone

/-- Two sources that end at once: the section header of the merged file is longer than the capture
    should have become, and no condition is named. -/
theorem seed_unjudged : ∃ x l,
    startCapture { pairConfig with rotation := .never, autostop := [.bytes 50] } ⟨none, none⟩
        (Ledger.blank (Machine.ofDisk .empty)) = (.ok x, l) ∧
      (run [.ended 0, .ended 1] x l).1.isFinished = true ∧
      ((run [.ended 0, .ended 1] x l).1.conclude (run [.ended 0, .ended 1] x l).2).1.outputError = none ∧
      ((run [.ended 0, .ended 1] x l).1.conclude (run [.ended 0, .ended 1] x l).2).1.stoppedBy = none ∧
      50 ≤ ((run [.ended 0, .ended 1] x l).1.conclude (run [.ended 0, .ended 1] x l).2).1.bytes :=
  ⟨_, _, rfl, by decide +kernel⟩

end CaptureRing
