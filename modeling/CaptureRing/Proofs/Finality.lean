/-
  CaptureRing.Proofs.Finality — what a stream fails with, and that this is the last of it.

  A stream asks its reader for bytes and looks at what it gets. If a read fails, that is what the call
  fails with. Everything else that can go wrong is found in the bytes, and called by its name only
  while the format is unknown; from the second block on it is corruption. The first call that gives no
  block is the last that reads.

  Nothing is asked of the reader: it may fail, be interrupted, or give nothing and then go on, as often
  as it likes.

  Proved:
  - `Ends.pull`: a step of reading fails with what its reader does, or refuses the bytes it got;
  - `spent_of_pull`: it finds the end only where a read gives nothing between two blocks;
  - `format_of_later`: after the first call the format is known, or the stream has ended;
  - `errors_by_position`: so errors tell the position, and are final.
-/

import CaptureRing.Proofs.Acceptance
import CaptureRing.Proofs.Pieces
import CaptureRing.Proofs.Refusals

namespace CaptureRing

/-! ## Reads that fail -/

namespace Reader

def failures (r : Reader) : Nat := r.pieces.count .failed

variable {n : Nat} {r r' : Reader}

theorem failures_read {got : Reading} (h : r.read n = (got, r')) :
    r'.failures + (if got = .failed then 1 else 0) = r.failures := by
  obtain ⟨pieces, limit⟩ := r
  unfold failures
  match pieces with
  | [] => cases h; rfl
  | .interrupted :: ps => cases h; simp
  | .failed :: ps => cases h; simp
  | .bytes bs :: ps =>
    simp only [read] at h
    cases h
    split <;> simp

theorem failures_fillOnto {got : Bytes} {result : Option Bytes} (h : r.fillOnto got n = (result, r')) :
    r'.failures + (if result = none then 1 else 0) = r.failures := by
  fun_induction fillOnto got n r with
  | case1 got r => cases h; rfl
  | case2 got n r hn r₁ hread =>
    cases h
    exact failures_read hread
  | case3 got n r hn b more r₁ hread ih => exact (ih h).trans (failures_read hread)
  | case4 got n r hn r₁ hread ih => exact (ih h).trans (failures_read hread)
  | case5 got n r hn r₁ hread =>
    cases h
    exact failures_read hread

/-- Asked for more, the reader gives nothing. -/
def Spent (r : Reader) : Prop := ∃ n, 0 < n ∧ (r.fill n).1 = some []

end Reader

namespace Stream

/-! ## How a step of reading ends -/

/-- A step gives something or refuses what it got, and no read has failed; or one has, and this is
    what the step fails with. -/
inductive Ending {α : Type} (s : Stream) : Except Failure α × Stream → Prop
  | done {a : α} {s' : Stream} : s'.reader.failures = s.reader.failures → Ending s (.ok a, s')
  | refused {e : Failure} {s' : Stream} : e.Refusal → s'.reader.failures = s.reader.failures → Ending s (.error e, s')
  | broken {s' : Stream} : s'.reader.failures + 1 = s.reader.failures → Ending s (.error (.error .io), s')

def Ends {α : Type} (step : Pull α) : Prop := ∀ s, Ending s (step.run.run s)

namespace Ends

variable {α β : Type}

theorem pure (a : α) : Ends (pure a) := fun _ => .done rfl

theorem throw {e : Failure} (h : e.Refusal) : Ends (throw e : Pull α) := fun _ => .refused h rfl

theorem lift {r : Result α} (h : FailsAs Failure.Refusal r) : Ends (ExceptT.mk (Pure.pure r)) := by
  intro s
  cases r with
  | error e => exact .refused (h e rfl) rfl
  | ok a => exact .done rfl

theorem modify {f : Stream → Stream} (hf : ∀ s, (f s).reader = s.reader) : Ends (modify f : Pull Unit) := fun s =>
  .done (congrArg Reader.failures (hf s))

theorem bind {step : Pull α} {next : α → Pull β} (h : Ends step) (hnext : ∀ a, Ends (next a)) :
    Ends (step >>= next) := by
  intro s
  have hs := h s
  rw [run_bind]
  generalize step.run.run s = p at hs
  cases hs with
  | refused he hkept => exact .refused he hkept
  | broken hfailed => exact .broken hfailed
  | @done a s₁ hkept =>
    dsimp only
    have hrest := hnext a s₁
    generalize (next a).run.run s₁ = p at hrest
    cases hrest with
    | done hkept' => exact .done (hkept'.trans hkept)
    | refused he hkept' => exact .refused he (hkept'.trans hkept)
    | broken hfailed => exact .broken (hfailed.trans hkept)

theorem map {step : Pull α} (h : Ends step) (f : α → β) : Ends (f <$> step) := by
  rw [map_eq_pure_bind]
  exact bind h fun a => pure (f a)

theorem get_bind {next : Stream → Pull β} (h : ∀ s, Ends (next s)) : Ends (get >>= next) := fun s => h s s

theorem fill (n : Nat) : Ends (fill n) := by
  intro s
  rcases hf : s.reader.fill n with ⟨got, r⟩
  have hcount := Reader.failures_fillOnto hf
  cases got with
  | some bs =>
    rw [run_fill hf]
    exact .done hcount
  | none =>
    rw [run_fill_none hf]
    exact .broken hcount

theorem extend (buf : Bytes) (n : Nat) : Ends (extend buf n) := by
  unfold Stream.extend
  refine bind (fill n) fun got => ?_
  split
  · exact throw (.truncated _ _)
  · exact pure _

theorem head (n : Nat) : Ends (head n) := by
  unfold Stream.head
  refine bind (fill n) fun got => ?_
  split
  · exact pure _
  · split
    · exact throw (.truncated _ _)
    · exact pure _

theorem nextSectioned (buf : Bytes) : Ends (nextSectioned buf) := by
  unfold Stream.nextSectioned
  refine bind (extend _ _) fun buf => get_bind fun s => ?_
  refine bind (lift Block.frameHeader_fails) fun frame => bind (extend _ _) fun buf => ?_
  refine bind (lift Block.read_fails) fun b => ?_
  split
  · exact bind (modify fun _ => rfl) fun _ => pure b
  · exact pure b

theorem nextRecord (f : PcapFormat) : Ends (nextRecord f) := by
  unfold Stream.nextRecord
  refine bind (head _) fun got => ?_
  cases got with
  | none => exact pure none
  | some buf =>
    exact bind (lift Block.recordLength_fails) fun length => bind (extend _ _) fun buf =>
      bind (lift Block.readRecord_fails) fun b => pure (some b)

theorem first : Ends first := by
  unfold Stream.first
  refine bind (head 4) fun got => ?_
  cases got with
  | none => exact pure none
  | some magic =>
    refine bind (lift (formatOf_fails magic)) fun format => bind (modify fun _ => rfl) fun _ => ?_
    cases format with
    | sectioned => exact map (nextSectioned magic) some
    | classic f =>
      exact bind (extend _ _) fun buf => bind (lift Block.readFileHeader_fails) fun b =>
        bind (modify fun _ => rfl) fun _ => pure (some b)

theorem pull (format : Option StreamFormat) : Ends (pull format) := by
  cases format with
  | none => exact first
  | some format =>
    cases format with
    | classic f => exact nextRecord f
    | sectioned =>
      unfold Stream.pull
      refine bind (head _) fun got => ?_
      cases got with
      | none => exact pure none
      | some buf => exact map (nextSectioned buf) some

end Ends

/-! ## Where the end is found -/

theorem head_none {n : Nat} {s s' : Stream} (h : (head n).run.run s = (.ok none, s')) : (s.reader.fill n).1 = some [] := by
  unfold head at h
  rw [run_bind] at h
  rcases hf : s.reader.fill n with ⟨got, r⟩
  cases got with
  | none =>
    rw [run_fill_none hf] at h
    cases h
  | some bs =>
    rw [run_fill hf] at h
    dsimp only at h
    split at h
    · rename_i hnone
      exact congrArg some (List.isEmpty_iff.mp hnone)
    · split at h <;> cases h

/-- What starts with a head and otherwise gives a block finds the end where there is no head. -/
theorem spent_of_head {n : Nat} (hn : 0 < n) {s : Stream} {next : Option Bytes → Pull (Option Block)}
    (hnone : next none = pure none) (hsome : ∀ s₁ buf, Yields s₁ (next (some buf)) fun o _ => o ≠ none) :
    Yields s (head n >>= next) fun o _ => o = none → s.reader.Spent := by
  refine .bind fun got s₁ hgot => ?_
  cases got with
  | none =>
    rw [hnone]
    exact .pure fun _ => ⟨n, hn, head_none hgot⟩
  | some buf => exact fun o s' ho hend => absurd hend (hsome s₁ buf o s' ho)

theorem some_of_map {s : Stream} (step : Pull Block) : Yields s (some <$> step) fun o _ => o ≠ none :=
  .map fun _ _ _ => nofun

/-- The end is found where the reader gives nothing at the front of a block, and nowhere else. -/
theorem spent_of_pull (format : Option StreamFormat) {s : Stream} :
    Yields s (pull format) fun o _ => o = none → s.reader.Spent := by
  cases format with
  | none =>
    refine spent_of_head (by decide) rfl fun s₁ magic => ?_
    refine .bind (.lift fun format _ => .bind (.modify ?_))
    cases format with
    | sectioned => exact some_of_map _
    | classic f => exact .bind (.extend fun _ _ => .bind (.lift fun b _ => .bind (.modify (.pure nofun))))
  | some format =>
    cases format with
    | sectioned => exact spent_of_head (by decide) rfl fun s₁ buf => some_of_map _
    | classic f =>
      refine spent_of_head (by decide) rfl fun s₁ buf => ?_
      exact .bind (.lift fun length _ => .bind (.extend fun _ _ => .bind (.lift fun b _ => .pure nofun)))

/-! ## Call by call -/

def after : Nat → Stream → Stream
  | 0, s => s
  | k + 1, s => after k s.next.2

variable {s : Stream} {k : Nat}

theorem result_eq (k : Nat) (s : Stream) : s.result k = (s.after k).next.1 := by
  induction k generalizing s with
  | zero => rfl
  | succ k ih => exact ih s.next.2

theorem after_succ (k : Nat) (s : Stream) : s.after (k + 1) = (s.after k).next.2 := by
  induction k generalizing s with
  | zero => rfl
  | succ k ih => exact ih s.next.2

/-- A stream has ended as soon as a call has given no block. -/
theorem finished_after_succ (k : Nat) (s : Stream) : (s.after (k + 1)).finished = !isBlock (s.result k) := by
  rw [after_succ, result_eq]
  by_cases hf : (s.after k).finished = true
  · rw [next_of_finished hf, hf]
    rfl
  · unfold next
    rw [if_neg hf]

theorem isBlock_result (k : Nat) (s : Stream) : isBlock (s.result k) = !(s.after (k + 1)).finished := by
  rw [finished_after_succ, Bool.not_not]

theorem format_of_block {b : Block} (hf : s.finished = false) (h : s.next.1 = .ok (some b)) :
    s.next.2.format.isSome = true := by
  obtain ⟨s', hrun, hnext⟩ := next_of_block hf h
  rw [hnext]
  cases hformat : s.format with
  | none =>
    rw [hformat] at hrun
    obtain ⟨format, hknown, -⟩ := Yields.first _ _ hrun b rfl
    exact Option.isSome_of_eq_some hknown
  | some format =>
    rw [hformat] at hrun
    have hkept := (Yields.pull format _ _ hrun).1
    exact Option.isSome_of_eq_some (hkept.trans hformat)

/-- After a call the format is known, or the stream has ended. -/
theorem format_of_later (k : Nat) (s : Stream) (hf : (s.after (k + 1)).finished = false) :
    (s.after (k + 1)).format.isSome = true := by
  have hblock : isBlock (s.result k) = true := by
    rw [isBlock_result, hf]
    rfl
  obtain ⟨b, hb⟩ := exists_of_isBlock hblock
  rw [result_eq] at hb
  rw [after_succ]
  refine format_of_block ?_ hb
  -- a stream that had ended would have given no block
  cases hended : (s.after k).finished with
  | false => rfl
  | true =>
    rw [next_of_finished hended] at hb
    cases hb

theorem ended (hf : s.finished = true) (j : Nat) : s.result j = .ok none ∧ s.after j = s := by
  induction j with
  | zero => exact ⟨congrArg Prod.fst (next_of_finished hf), rfl⟩
  | succ j ih =>
    unfold result after
    rw [next_of_finished hf]
    exact ih

/-- In the middle of a stream a call fails because something is corrupt, or because a read failed. -/
theorem error_midStream (hf : s.finished = false) (hformat : s.format.isSome = true) {e : Failure}
    (h : s.next.1 = .error e) :
    e.IsCorruption ∨ (e = .error .io ∧ s.next.2.reader.failures + 1 = s.reader.failures) := by
  have hends := Ends.pull s.format s
  cases hp : (pull s.format).run.run s with
  | mk r s' =>
    rw [hp] at hends
    cases hends with
    | done hkept =>
      rw [next_of_run hf rfl hp] at h
      cases h
    | refused he hkept =>
      rw [next_of_failed hf rfl hp, if_pos hformat] at h
      cases h
      exact .inl (midStream_of_refusal he)
    | broken hfailed =>
      rw [next_of_failed hf rfl hp, if_pos hformat] at h ⊢
      cases h
      exact .inr ⟨rfl, hfailed⟩

theorem spent_of_next (hf : s.finished = false) (h : s.next.1 = .ok none) : s.reader.Spent := by
  cases hp : (pull s.format).run.run s with
  | mk r s' =>
    cases r with
    | error e =>
      rw [next_of_failed hf rfl hp] at h
      cases h
    | ok o =>
      rw [next_of_run hf rfl hp] at h
      cases h
      exact spent_of_pull s.format none s' hp rfl

/-- For every reader and every call: blocks that are cut short or whose magic is unknown are told as
    such by the first call alone. A later one fails because something is corrupt, or because a read
    failed. It gives the end where an earlier call gave no block, or where the reader gives nothing.
    And after a call that gave no block all give the end and nothing is read, whatever could be. -/
theorem errors_by_position (r : Reader) (k : Nat) :
    ((∀ needed available, (ofReader r).result k = fail (.truncatedBlock needed available) → k = 0) ∧
      ∀ m, (ofReader r).result k = fail (.unknownMagic m) → k = 0) ∧
    (0 < k → ∀ e, (ofReader r).result k = .error e → e.IsCorruption ∨
      (e = .error .io ∧
        ((ofReader r).after (k + 1)).reader.failures + 1 = ((ofReader r).after k).reader.failures)) ∧
    ((ofReader r).result k = .ok none →
      (∃ j < k, isBlock ((ofReader r).result j) = false) ∨ ((ofReader r).after k).reader.Spent) ∧
    (isBlock ((ofReader r).result k) = false → ∀ more j,
      { (ofReader r).after (k + 1) with reader := more }.result j = .ok none ∧
      { (ofReader r).after (k + 1) with reader := more }.after j = { (ofReader r).after (k + 1) with reader := more }) := by
  have hlater : 0 < k → ∀ e, (ofReader r).result k = .error e → e.IsCorruption ∨
      (e = .error .io ∧
        ((ofReader r).after (k + 1)).reader.failures + 1 = ((ofReader r).after k).reader.failures) := by
    intro hk e he
    obtain ⟨k, rfl⟩ := Nat.exists_eq_succ_of_ne_zero (Nat.pos_iff_ne_zero.mp hk)
    rw [result_eq] at he
    rw [after_succ (k + 1)]
    cases hf : ((ofReader r).after (k + 1)).finished with
    | true =>
      rw [next_of_finished hf] at he
      cases he
    | false => exact error_midStream hf (format_of_later k _ hf) he
  refine ⟨⟨fun needed available h => ?_, fun m h => ?_⟩, hlater, fun h => ?_, fun h more j => ended ?_ j⟩
  · by_contra hk
    obtain ⟨c, hc⟩ | ⟨hio, -⟩ := hlater (Nat.pos_of_ne_zero hk) _ h
    · cases hc
    · cases hio
  · by_contra hk
    obtain ⟨c, hc⟩ | ⟨hio, -⟩ := hlater (Nat.pos_of_ne_zero hk) _ h
    · cases hc
    · cases hio
  · rw [result_eq] at h
    cases hf : ((ofReader r).after k).finished with
    | false => exact .inr (spent_of_next hf h)
    | true =>
      cases k with
      | zero => cases hf
      | succ k =>
        refine .inl ⟨k, k.lt_succ_self, ?_⟩
        rw [isBlock_result, hf]
        rfl
  · show ((ofReader r).after (k + 1)).finished = true
    rw [finished_after_succ, h]
    rfl

/-- The first eight bytes of an interface description stand behind the section header, and the others
    only come after an end. -/
def resuming : Reader :=
  ⟨[.bytes (brokenOff.take 30), .bytes (brokenOff.drop 30), .bytes [],
    .bytes (((Interface.make 1 0 []).encode .bigEndian).drop 8)], none⟩

theorem errors_by_position_resuming :
    isBlock ((ofReader resuming).result 0) = true ∧ (ofReader resuming).result 1 = corrupt (.truncated 12 8) ∧
      ∀ more j, { (ofReader resuming).after 2 with reader := more }.result j = .ok none := by
  have hcut : (ofReader resuming).result 1 = corrupt (.truncated 12 8) := by decide +kernel
  have hlast : isBlock ((ofReader resuming).result 1) = false := by
    rw [hcut]
    rfl
  exact ⟨by decide +kernel, hcut, fun more j => ((errors_by_position resuming 1).2.2.2 hlast more j).1⟩

end Stream

end CaptureRing
