/-
  CaptureRing.Proofs.Acceptance — how the blocks of a stream were read.

  A stream keeps to the format that its first bytes tell: after a section header all blocks
  are read by their own frames, after the header of a classic capture all are records, and
  read in the order and the unit of that header. Nothing is asked of the reader here; what it
  delivers may end, fail or be interrupted anywhere.

  Proved:
  - `Yields.pull`: the next block is read by the format of the stream, which stays;
  - `accepted_cases`: so the blocks of a stream are all framed, or a file header and records.
-/

import CaptureRing.Proofs.Cutting

namespace CaptureRing

/-! ## Reading at most what is asked for -/

namespace Reader

theorem length_read_le {n : Nat} {r r' : Reader} {bs : Bytes} (h : r.read n = (.bytes bs, r')) : bs.length ≤ n := by
  obtain ⟨pieces, limit⟩ := r
  match pieces with
  | [] => cases h; exact Nat.zero_le n
  | .interrupted :: ps => cases h
  | .failed :: ps => cases h
  | .bytes piece :: ps =>
    have hmost : most ⟨.bytes piece :: ps, limit⟩ n ≤ n := by
      unfold most
      cases limit with
      | none => exact Nat.le_refl n
      | some l => exact Nat.min_le_left n l
    simp only [read] at h
    cases h
    rw [List.length_take]
    omega

theorem length_fillOnto_le {got bs : Bytes} {n : Nat} {r r' : Reader} (h : r.fillOnto got n = (some bs, r')) :
    bs.length ≤ got.length + n := by
  fun_induction fillOnto got n r with
  | case1 got r =>
    cases h
    simp
  | case2 got n r hn r₁ hread =>
    cases h
    simp
  | case3 got n r hn b more r₁ hread ih =>
    have hle := length_read_le hread
    have := ih h
    simp only [List.reverseAux_eq, List.length_append, List.length_reverse, List.length_cons] at this hle ⊢
    omega
  | case4 got n r hn r₁ hread ih => exact ih h
  | case5 got n r hn r₁ hread => cases h

theorem length_fill_le {bs : Bytes} {n : Nat} {r r' : Reader} (h : r.fill n = (some bs, r')) : bs.length ≤ n := by
  simpa using length_fillOnto_le h

end Reader

/-! ## What a step yields -/

/-- Where the step succeeds on this stream, `Q` holds of its result and of the stream after it. -/
def Yields {α : Type} (s : Stream) (step : Pull α) (Q : α → Stream → Prop) : Prop :=
  ∀ a s', step.run.run s = (.ok a, s') → Q a s'

namespace Yields

variable {α β : Type} {s : Stream}

theorem pure {a : α} {Q : α → Stream → Prop} (h : Q a s) : Yields s (pure a) Q := by
  intro b s' he
  cases he
  exact h

theorem throw {e : Failure} {Q : α → Stream → Prop} : Yields s (throw e) Q := by
  intro a s' he
  cases he

theorem lift {r : Result α} {Q : α → Stream → Prop} (h : ∀ a, r = .ok a → Q a s) :
    Yields s (ExceptT.mk (Pure.pure r)) Q := by
  intro a s' he
  cases r with
  | error e => cases he
  | ok b => cases he; exact h a rfl

theorem get {Q : Stream → Stream → Prop} (h : Q s s) : Yields s get Q := by
  intro a s' he
  cases he
  exact h

theorem modify {f : Stream → Stream} {Q : Unit → Stream → Prop} (h : Q () (f s)) : Yields s (modify f) Q := by
  intro a s' he
  cases he
  exact h

theorem bind {step : Pull α} {next : α → Pull β} {Q : β → Stream → Prop}
    (h : Yields s step fun a s₁ => Yields s₁ (next a) Q) : Yields s (step >>= next) Q := by
  intro b s' he
  rw [Stream.run_bind] at he
  cases hstep : step.run.run s with
  | mk r s₁ =>
    rw [hstep] at he
    cases r with
    | error e => cases he
    | ok a => exact h a s₁ hstep b s' he

theorem map {step : Pull α} {f : α → β} {Q : β → Stream → Prop} (h : Yields s step fun a s₁ => Q (f a) s₁) :
    Yields s (f <$> step) Q := by
  rw [map_eq_pure_bind]
  exact bind fun a s₁ ha => pure (h a s₁ ha)

theorem fill {n : Nat} {Q : Bytes → Stream → Prop}
    (h : ∀ bs r, bs.length ≤ n → Q bs { s with reader := r }) : Yields s (Stream.fill n) Q := by
  intro bs s' he
  cases hf : s.reader.fill n with
  | mk got r =>
    cases got with
    | some bs' =>
      rw [Stream.run_fill hf] at he
      cases he
      exact h bs r (Reader.length_fill_le hf)
    | none =>
      rw [Stream.run_fill_none hf] at he
      cases he

theorem extend {buf : Bytes} {n : Nat} {Q : Bytes → Stream → Prop}
    (h : ∀ more r, Q (buf ++ more) { s with reader := r }) : Yields s (Stream.extend buf n) Q := by
  unfold Stream.extend
  refine bind (fill fun got r _ => ?_)
  split
  · exact throw
  · exact pure (h got r)

theorem head {n : Nat} {Q : Option Bytes → Stream → Prop} (hend : ∀ r, Q none { s with reader := r })
    (h : ∀ front r, front.length = n → Q (some front) { s with reader := r }) : Yields s (Stream.head n) Q := by
  unfold Stream.head
  refine bind (fill fun got r hle => ?_)
  split
  · exact pure (hend r)
  · split
    · exact throw
    · exact pure (h got r (by omega))

/-! ## The next block -/

theorem nextSectioned {buf : Bytes} : Yields s (Stream.nextSectioned buf) fun b s' =>
    s'.format = s.format ∧ ∃ current whole, Block.read current whole = .ok b := by
  unfold Stream.nextSectioned
  refine bind (extend fun _ _ => bind (get ?_))
  refine bind (lift fun frame _ => ?_)
  refine bind (extend fun _ _ => bind (lift fun b hread => ?_))
  split
  · exact bind (modify (pure ⟨rfl, _, _, hread⟩))
  · exact pure ⟨rfl, _, _, hread⟩

theorem nextRecord {f : PcapFormat} : Yields s (Stream.nextRecord f) fun o s' =>
    s'.format = s.format ∧ ∀ b, o = some b → ∃ whole, Block.readRecord f whole = .ok b := by
  unfold Stream.nextRecord
  refine bind (head (fun _ => pure ⟨rfl, nofun⟩) fun _ _ _ => ?_)
  dsimp only
  refine bind (lift fun _ _ => bind (extend fun _ _ => bind (lift fun b hread => pure ⟨rfl, fun b' hb => ?_⟩)))
  cases hb
  exact ⟨_, hread⟩

end Yields

def StreamFormat.Reads (format : StreamFormat) (b : Block) : Prop :=
  match format with
  | .sectioned => ∃ current whole, Block.read current whole = .ok b
  | .classic f => ∃ whole, Block.readRecord f whole = .ok b

def StreamFormat.Begins (format : StreamFormat) (b : Block) : Prop :=
  match format with
  | .sectioned => ∃ current whole, Block.read current whole = .ok b
  | .classic f => ∃ whole, Block.readFileHeader whole = .ok b ∧ PcapFormat.ofMagic? (whole.take 4) = some f

namespace Yields

variable {s : Stream}

theorem pull (format : StreamFormat) : Yields s (Stream.pull (some format)) fun o s' =>
    s'.format = s.format ∧ ∀ b, o = some b → format.Reads b := by
  cases format with
  | classic f => exact nextRecord
  | sectioned =>
    unfold Stream.pull
    refine bind (head (fun _ => pure ⟨rfl, nofun⟩) fun _ _ _ => map fun b s' hb => ⟨?_, fun b' he => ?_⟩)
    · exact (nextSectioned b s' hb).1
    · cases he
      exact (nextSectioned _ s' hb).2

/-- The first block tells the format of the stream. -/
theorem first : Yields s Stream.first fun o s' =>
    ∀ b, o = some b → ∃ format, s'.format = some format ∧ format.Begins b := by
  unfold Stream.first
  refine bind (head (fun _ => pure nofun) fun magic _ hlen => ?_)
  dsimp only
  refine bind (lift fun format hformat => bind (modify ?_))
  cases format with
  | sectioned =>
    refine map fun b s' hb b' he => ?_
    cases he
    obtain ⟨hkept, hread⟩ := nextSectioned _ s' hb
    exact ⟨.sectioned, hkept, hread⟩
  | classic f =>
    have hmagic : PcapFormat.ofMagic? magic = some f := by
      unfold Stream.formatOf at hformat
      split at hformat
      · rename_i g hg
        cases hformat
        exact hg
      · dsimp only at hformat
        split at hformat <;> cases hformat
    dsimp only
    refine bind (extend fun more _ => bind (lift fun b hread => bind (modify (pure fun b' he => ?_))))
    cases he
    refine ⟨.classic f, rfl, _, hread, ?_⟩
    rw [List.take_left' hlen]
    exact hmagic

end Yields

/-! ## A whole stream -/

namespace Stream

variable {s : Stream}

theorem next_of_block {b : Block} (hf : s.finished = false) (h : s.next.1 = .ok (some b)) :
    ∃ s', (pull s.format).run.run s = (.ok (some b), s') ∧ s.next.2 = { s' with finished := false } := by
  cases hp : (pull s.format).run.run s with
  | mk r s' =>
    cases r with
    | error e =>
      rw [next_of_failed hf rfl hp] at h
      cases h
    | ok o =>
      rw [next_of_run hf rfl hp] at h ⊢
      cases h
      exact ⟨s', rfl, rfl⟩

theorem reads_blocksOf_pulls {format : StreamFormat} (n : Nat) (hf : s.finished = false) (hformat : s.format = some format) :
    ∀ b ∈ blocksOf (pulls n s), format.Reads b := by
  induction n generalizing s with
  | zero => exact fun b hb => absurd hb List.not_mem_nil
  | succ n ih =>
    cases hb : isBlock s.next.1 with
    | false =>
      rw [blocksOf_pulls_of_end hb]
      exact fun b hb => absurd hb List.not_mem_nil
    | true =>
      obtain ⟨b, hblock⟩ := exists_of_isBlock hb
      obtain ⟨s', hrun, hnext⟩ := next_of_block hf hblock
      rw [hformat] at hrun
      obtain ⟨hkept, hreads⟩ := Yields.pull format _ _ hrun
      rw [blocksOf_pulls_of_block hblock]
      refine List.forall_mem_cons.mpr ⟨hreads b rfl, ih ?_ ?_⟩
      · rw [hnext]
      · rw [hnext]
        exact hkept.trans hformat

/-- The blocks of a stream are all of one format, which the first of them tells. -/
theorem accepted_cases (r : Reader) : (ofReader r).accepted = [] ∨
    ∃ (format : StreamFormat) (first : Block) (rest : List Block), (ofReader r).accepted = first :: rest ∧
      format.Begins first ∧ ∀ b ∈ rest, format.Reads b := by
  unfold accepted run
  cases hb : isBlock (ofReader r).next.1 with
  | false => exact Or.inl (blocksOf_pulls_of_end hb)
  | true =>
    obtain ⟨b, hblock⟩ := exists_of_isBlock hb
    obtain ⟨s', hrun, hnext⟩ := next_of_block rfl hblock
    obtain ⟨format, hformat, hbegins⟩ := Yields.first _ _ hrun b rfl
    rw [blocksOf_pulls_of_block hblock]
    refine Or.inr ⟨format, b, _, rfl, hbegins, reads_blocksOf_pulls _ ?_ ?_⟩
    · rw [hnext]
    · rw [hnext]
      exact hformat

end Stream

end CaptureRing
