/-
  CaptureRing.Proofs.Cutting — cutting a stream into blocks loses no byte of it.

  A reader may deliver its bytes in any pieces, and be interrupted in between. What is cut
  from it only depends on the bytes: every step of reading takes some from the front and
  leaves the others, and a block has as its own bytes all that were taken for it.

  Proved:
  - `Delivers.fill`: filling a buffer takes the first bytes, fewer only at the end;
  - `Takes.pull`: the next block is what stands in front, and only a clean end leaves nothing;
  - `raw_accepted_prefix`, `raw_accepted_of_clean`: the blocks of a stream are its bytes, in
    order, up to where it breaks, and all of them where it does not.
-/

import CaptureRing.Proofs.Framing

namespace CaptureRing

/-! ## Readers -/

def Piece.content : Piece → Bytes
  | .bytes bs => bs
  | .interrupted | .failed => []

namespace Reader

/-- It delivers these bytes and never fails; a piece of no bytes would be an end before the
    end, and so would a read that may give none. -/
structure Delivers (r : Reader) (bs : Bytes) : Prop where
  content : r.pieces.flatMap Piece.content = bs
  sound : ∀ p ∈ r.pieces, p ≠ .failed ∧ p ≠ .bytes []
  limit : r.limit ≠ some 0

theorem ofBytes_delivers (bs : Bytes) : (ofBytes bs).Delivers bs := by
  unfold ofBytes Piece.ofBytes
  cases bs with
  | nil => exact ⟨rfl, fun p hp => absurd hp List.not_mem_nil, nofun⟩
  | cons b rest =>
    refine ⟨List.append_nil _, fun p hp => ?_, nofun⟩
    rw [List.mem_singleton.mp hp]
    exact ⟨nofun, nofun⟩

variable {r : Reader} {bs : Bytes}

/-- A read is interrupted, or gives the first bytes; it gives none only at the end. -/
theorem Delivers.read (h : r.Delivers bs) {n : Nat} (hn : 0 < n) :
    (∃ r', r.read n = (.interrupted, r') ∧ r'.Delivers bs) ∨
      ∃ got r' rest, r.read n = (.bytes got, r') ∧ r'.Delivers rest ∧ bs = got ++ rest ∧ got.length ≤ n ∧
        (got = [] → bs = []) := by
  obtain ⟨pieces, limit⟩ := r
  obtain ⟨hc, hs, hl⟩ := h
  cases pieces with
  | nil =>
    refine Or.inr ⟨[], ⟨[], limit⟩, [], rfl, ⟨rfl, hs, hl⟩, hc.symm, Nat.zero_le n, fun _ => hc.symm⟩
  | cons p ps =>
    have hps : ∀ q ∈ ps, q ≠ .failed ∧ q ≠ .bytes [] := fun q hq => hs q (List.mem_cons_of_mem _ hq)
    cases p with
    | interrupted => exact Or.inl ⟨⟨ps, limit⟩, rfl, hc, hps, hl⟩
    | failed => exact absurd rfl (hs _ List.mem_cons_self).1
    | bytes piece =>
      have hpiece : piece ≠ [] := fun he => (hs _ List.mem_cons_self).2 (congrArg _ he)
      have hmost : 0 < most ⟨.bytes piece :: ps, limit⟩ n ∧ most ⟨.bytes piece :: ps, limit⟩ n ≤ n := by
        unfold most
        dsimp only
        split
        · rename_i k
          have hk : k ≠ 0 := fun he => hl (congrArg some he)
          omega
        · omega
      unfold Reader.read
      dsimp only
      generalize most ⟨.bytes piece :: ps, limit⟩ n = k at hmost
      have hbs : bs = piece.take k ++ (piece.drop k ++ ps.flatMap Piece.content) := by
        rw [← List.append_assoc, List.take_append_drop]
        exact hc.symm
      refine Or.inr ⟨_, _, _, rfl, ?_, hbs, ?_, fun he => ?_⟩
      · by_cases hd : (piece.drop k).isEmpty = true
        · rw [if_pos hd, List.isEmpty_iff.mp hd]
          exact ⟨rfl, hps, hl⟩
        · rw [if_neg hd]
          refine ⟨rfl, fun q hq => ?_, hl⟩
          rcases List.mem_cons.mp hq with rfl | hq
          · refine ⟨nofun, fun he => hd ?_⟩
            rw [List.isEmpty_iff]
            exact Piece.bytes.inj he
          · exact hps q hq
      · rw [List.length_take]; omega
      · have hlen : (piece.take k).length = 0 := by rw [he]; rfl
        have := List.length_pos_iff.mpr hpiece
        rw [List.length_take] at hlen
        omega

/-- Filling takes the first `n` bytes, behind those that were there. -/
theorem Delivers.fillOnto (h : r.Delivers bs) (got : Bytes) (n : Nat) :
    ∃ r', r.fillOnto got n = (some (got.reverse ++ bs.take n), r') ∧ r'.Delivers (bs.drop n) := by
  induction hw : r.weight using Nat.strongRecOn generalizing r bs got n with
  | _ weight ih =>
    subst hw
    unfold Reader.fillOnto
    by_cases hn : n = 0
    · rw [if_pos hn, hn, List.take_zero, List.append_nil, List.drop_zero]
      exact ⟨r, rfl, h⟩
    rw [if_neg hn]
    have hlt : (r.read n).1 ≠ .bytes [] → (r.read n).2.weight < r.weight := weight_read_lt n r
    rcases h.read (Nat.pos_of_ne_zero hn) with ⟨r₁, hr, hd⟩ | ⟨front, r₁, rest, hr, hd, hbs, hlen, hend⟩
    · rw [hr] at hlt
      split
      · rename_i heq; rw [hr] at heq; cases heq
      · rename_i heq; rw [hr] at heq; cases heq
      · rename_i heq
        rw [hr] at heq
        cases heq
        exact ih _ (hlt fun he => by cases he) hd got n rfl
      · rename_i heq; rw [hr] at heq; cases heq
    · rw [hr] at hlt
      split
      · rename_i heq
        rw [hr] at heq
        cases heq
        rw [List.nil_append] at hbs
        rw [← hbs, hend rfl] at hd
        rw [hend rfl, List.take_nil, List.append_nil, List.drop_nil]
        exact ⟨_, rfl, hd⟩
      · rename_i b more _ heq
        rw [hr] at heq
        cases heq
        obtain ⟨r₂, hf, hd₂⟩ := ih _ (hlt fun he => by cases he) hd ((b :: more).reverseAux got) (n - (more.length + 1)) rfl
        have htake : bs.take n = (b :: more) ++ rest.take (n - (b :: more).length) := by
          rw [hbs, List.take_append, List.take_of_length_le hlen]
        have hdrop : bs.drop n = rest.drop (n - (b :: more).length) := by
          rw [hbs, List.drop_append, List.drop_of_length_le hlen, List.nil_append]
        refine ⟨r₂, ?_, ?_⟩
        · rw [hf, htake, List.reverseAux_eq, List.reverse_append, List.reverse_reverse, List.append_assoc]
          rfl
        · rw [hdrop]
          exact hd₂
      · rename_i heq; rw [hr] at heq; cases heq
      · rename_i heq; rw [hr] at heq; cases heq

theorem Delivers.fill (h : r.Delivers bs) (n : Nat) :
    ∃ r', r.fill n = (some (bs.take n), r') ∧ r'.Delivers (bs.drop n) := h.fillOnto [] n

theorem Delivers.remaining (h : r.Delivers bs) : r.remaining = bs.length := by
  rw [← h.content]
  unfold Reader.remaining
  rw [List.length_flatMap]
  congr 2
  funext p
  cases p <;> rfl

end Reader

/-! ## Steps of reading -/

/-- What follows a step goes on from the stream it left, or not at all. -/
theorem Stream.run_bind {α β : Type} (step : Pull α) (next : α → Pull β) (s : Stream) :
    (step >>= next).run.run s = match step.run.run s with
      | (.ok a, s₁) => (next a).run.run s₁
      | (.error e, s₁) => (.error e, s₁) := by
  rw [ExceptT.run_bind, StateT.run_bind]
  cases step.run.run s with
  | mk r s₁ =>
    cases r with
    | ok a => rfl
    | error e => rfl

/-- Where the step succeeds on a stream that still has the bytes `left`, it has taken some of
    them, and `Q` holds of its result, of all that was taken by then and of what is left. -/
def Takes {α : Type} (taken left : Bytes) (step : Pull α) (Q : α → Bytes → Bytes → Prop) : Prop :=
  ∀ (s s' : Stream) (a : α), s.reader.Delivers left → step.run.run s = (.ok a, s') →
    ∃ front rest, left = front ++ rest ∧ s'.reader.Delivers rest ∧ Q a (taken ++ front) rest

namespace Takes

variable {α β : Type} {taken left : Bytes}

theorem mono {step : Pull α} {P Q : α → Bytes → Bytes → Prop} (h : Takes taken left step P)
    (hpq : ∀ a t l, P a t l → Q a t l) : Takes taken left step Q := by
  intro s s' a hs he
  obtain ⟨front, rest, hl, hd, hp⟩ := h s s' a hs he
  exact ⟨front, rest, hl, hd, hpq _ _ _ hp⟩

theorem of_untouched {step : Pull α} {Q : α → Bytes → Bytes → Prop}
    (h : ∀ s s' a, step.run.run s = (.ok a, s') → s'.reader = s.reader ∧ Q a taken left) : Takes taken left step Q := by
  intro s s' a hs he
  obtain ⟨hr, hq⟩ := h s s' a he
  refine ⟨[], left, rfl, hr ▸ hs, ?_⟩
  rw [List.append_nil]
  exact hq

theorem pure {a : α} {Q : α → Bytes → Bytes → Prop} (h : Q a taken left) : Takes taken left (pure a) Q :=
  of_untouched fun s s' b he => by cases he; exact ⟨rfl, h⟩

theorem lift {r : Result α} {Q : α → Bytes → Bytes → Prop} (h : ∀ a, r = .ok a → Q a taken left) :
    Takes taken left (ExceptT.mk (Pure.pure r)) Q :=
  of_untouched fun s s' a he => by
    cases r with
    | error e => cases he
    | ok b => cases he; exact ⟨rfl, h a rfl⟩

theorem get {Q : Stream → Bytes → Bytes → Prop} (h : ∀ s, Q s taken left) : Takes taken left get Q :=
  of_untouched fun s s' a he => by cases he; exact ⟨rfl, h s⟩

theorem modify {f : Stream → Stream} (hf : ∀ s, (f s).reader = s.reader) {Q : Unit → Bytes → Bytes → Prop}
    (h : Q () taken left) : Takes taken left (modify f) Q :=
  of_untouched fun s s' a he => by cases he; exact ⟨hf s, h⟩

theorem bind {step : Pull α} {next : α → Pull β} {Q : β → Bytes → Bytes → Prop}
    (h : Takes taken left step fun a taken' left' => Takes taken' left' (next a) Q) :
    Takes taken left (step >>= next) Q := by
  intro s s' b hs he
  rw [Stream.run_bind] at he
  cases hstep : step.run.run s with
  | mk r s₁ =>
    rw [hstep] at he
    cases r with
    | error e => cases he
    | ok a =>
      obtain ⟨front, rest, rfl, hd, hnext⟩ := h s s₁ a hs hstep
      obtain ⟨front', rest', rfl, hd', hq⟩ := hnext s₁ s' b hd he
      refine ⟨front ++ front', rest', by rw [List.append_assoc], hd', ?_⟩
      rw [← List.append_assoc]
      exact hq

theorem map {step : Pull α} {f : α → β} {Q : β → Bytes → Bytes → Prop}
    (h : Takes taken left step fun a taken' left' => Q (f a) taken' left') : Takes taken left (f <$> step) Q := by
  rw [map_eq_pure_bind]
  exact bind (h.mono fun _ _ _ hq => pure hq)

theorem fill {n : Nat} {Q : Bytes → Bytes → Bytes → Prop}
    (h : Q (left.take n) (taken ++ left.take n) (left.drop n)) : Takes taken left (Stream.fill n) Q := by
  intro s s' got hs he
  obtain ⟨r, hf, hd⟩ := hs.fill n
  rw [Stream.run_fill hf] at he
  cases he
  exact ⟨left.take n, left.drop n, (List.take_append_drop n left).symm, hd, h⟩

theorem extend {buf : Bytes} {n : Nat} {Q : Bytes → Bytes → Bytes → Prop}
    (h : n ≤ left.length → Q (buf ++ left.take n) (taken ++ left.take n) (left.drop n)) :
    Takes taken left (Stream.extend buf n) Q := by
  unfold Stream.extend
  refine bind (fill ?_)
  split
  · exact fun s s' a _ he => by cases he
  · rename_i hl
    rw [List.length_take] at hl
    exact pure (h (by omega))

theorem head {n : Nat} (hn : 0 < n) {Q : Option Bytes → Bytes → Bytes → Prop} (hend : left = [] → Q none taken [])
    (h : n ≤ left.length → Q (some (left.take n)) (taken ++ left.take n) (left.drop n)) :
    Takes taken left (Stream.head n) Q := by
  unfold Stream.head
  refine bind (fill ?_)
  split
  · rename_i he
    have hl : left = [] := by
      cases left with
      | nil => rfl
      | cons b bs =>
        cases n with
        | zero => omega
        | succ n => cases he
    subst hl
    rw [List.take_nil, List.append_nil, List.drop_nil]
    exact pure (hend rfl)
  · split
    · exact fun s s' a _ he => by cases he
    · rename_i hl
      rw [List.length_take] at hl
      exact pure (h (by omega))

/-! ## The next block -/

def Whole (b : Block) (taken _left : Bytes) : Prop := taken = b.raw ∧ 0 < b.raw.length

/-- The same where there may be none; then nothing was taken, and nothing is left. -/
def WholeOrEnd (o : Option Block) (taken left : Bytes) : Prop :=
  match o with
  | some b => Whole b taken left
  | none => taken = [] ∧ left = []

theorem nextSectioned {buf : Bytes} (hbuf : buf.length ≤ Block.minSize) :
    Takes buf left (Stream.nextSectioned buf) fun b taken left => Whole b taken left ∧
      (wordAt .littleEndian 0 b.raw = .ok BlockKind.sectionHeader.number → b.startsSection = true) := by
  unfold Stream.nextSectioned
  refine bind (extend fun hmin => ?_)
  -- twelve bytes are there, which tell the length
  have hlen₁ : (buf ++ left.take (Block.minSize - buf.length)).length = Block.minSize := by
    rw [List.length_append, List.length_take]; omega
  generalize buf ++ left.take (Block.minSize - buf.length) = buf₁ at hlen₁
  refine bind (get fun s => ?_)
  refine bind (lift fun frame hframe => ?_)
  obtain ⟨order, length⟩ := frame
  have hle := Block.minSize_le_of_frameHeader hframe
  dsimp only
  refine bind (extend fun hmore => ?_)
  generalize hx : (left.drop (Block.minSize - buf.length)).take (length - buf₁.length) = more
  have hlen₂ : (buf₁ ++ more).length = length := by
    rw [List.length_append, ← hx, List.length_take]; omega
  refine bind (lift fun b hread => ?_)
  have hframe₂ : Block.frameHeader s.order (buf₁ ++ more) = .ok (order, length) :=
    (Block.frameHeader_append s.order (Nat.le_of_eq hlen₁.symm) more).trans hframe
  have hraw : b.raw = buf₁ ++ more := by
    rw [Block.raw_of_read hframe₂ hread, List.take_of_length_le (Nat.le_of_eq hlen₂)]
  have hwhole : Whole b (buf₁ ++ more) ((left.drop (Block.minSize - buf.length)).drop (length - buf₁.length)) := by
    refine ⟨hraw.symm, ?_⟩
    rw [hraw, hlen₂]
    unfold Block.minSize at hle
    omega
  split
  · exact bind (modify (fun _ => by rfl) (pure ⟨hwhole, Block.startsSection_of_read hread⟩))
  · exact pure ⟨hwhole, Block.startsSection_of_read hread⟩

theorem nextRecord (f : PcapFormat) : Takes [] left (Stream.nextRecord f) WholeOrEnd := by
  unfold Stream.nextRecord
  refine bind (head (by decide) (fun _ => pure ⟨rfl, rfl⟩) fun hhead => ?_)
  dsimp only
  have hlen₁ : (left.take Record.headerSize).length = Record.headerSize := by
    rw [List.length_take]; omega
  rw [List.nil_append]
  generalize left.take Record.headerSize = buf at hlen₁
  refine bind (lift fun length hlength => ?_)
  have hle := Block.headerSize_le_of_recordLength hlength
  refine bind (extend fun hmore => ?_)
  generalize hx : (left.drop Record.headerSize).take (length - Record.headerSize) = more
  have hlen₂ : (buf ++ more).length = length := by
    rw [List.length_append, ← hx, List.length_take]; omega
  refine bind (lift fun b hread => pure ?_)
  have hlength₂ : Block.recordLength f.order (buf ++ more) = .ok length :=
    (Block.recordLength_append f.order (Nat.le_of_eq hlen₁.symm) more).trans hlength
  have hraw : b.raw = buf ++ more := by
    rw [Block.raw_of_readRecord hlength₂ hread, List.take_of_length_le (Nat.le_of_eq hlen₂)]
  refine ⟨hraw.symm, ?_⟩
  rw [hraw, hlen₂]
  unfold Record.headerSize at hle
  omega

theorem first : Takes [] left Stream.first fun o taken left =>
    WholeOrEnd o taken left ∧ ∀ b, o = some b → b.startsSection = true := by
  unfold Stream.first
  refine bind (head (by decide) (fun _ => pure ⟨⟨rfl, rfl⟩, nofun⟩) fun hhead => ?_)
  dsimp only
  have hlen₁ : (left.take 4).length = 4 := by
    rw [List.length_take]; omega
  rw [List.nil_append]
  generalize left.take 4 = magic at hlen₁
  refine bind (lift fun format hformat => ?_)
  refine bind (modify (fun _ => by rfl) ?_)
  cases format with
  | sectioned =>
    have hkind := wordAt_of_formatOf hlen₁ hformat
    refine map ?_
    intro s s' b hs he
    obtain ⟨front, rest, hl, hd, hwhole, hstarts⟩ := nextSectioned (by rw [hlen₁]; decide) s s' b hs he
    refine ⟨front, rest, hl, hd, hwhole, fun b' hb => ?_⟩
    cases hb
    refine hstarts ?_
    rw [← hwhole.1, wordAt_append _ (Nat.le_of_eq hlen₁.symm)]
    exact hkind
  | classic f =>
    dsimp only
    refine bind (extend fun hmore => ?_)
    generalize hx : (left.drop 4).take (FileHeader.size - 4) = more
    have hlen₂ : (magic ++ more).length = FileHeader.size := by
      rw [List.length_append, ← hx, List.length_take]
      unfold FileHeader.size at hmore ⊢
      omega
    refine bind (lift fun b hread => bind (modify (fun _ => by rfl) (pure ?_)))
    have hraw : b.raw = magic ++ more := by
      rw [Block.raw_of_readFileHeader hread, List.take_of_length_le (Nat.le_of_eq hlen₂)]
    refine ⟨⟨hraw.symm, ?_⟩, fun b' hb => ?_⟩
    · rw [hraw, hlen₂]
      decide
    · cases hb
      exact Block.startsSection_of_readFileHeader hread

theorem pull (format : Option StreamFormat) : Takes [] left (Stream.pull format) WholeOrEnd := by
  cases format with
  | none => exact first.mono fun _ _ _ h => h.1
  | some format =>
    cases format with
    | classic f => exact nextRecord f
    | sectioned =>
      unfold Stream.pull
      refine bind (head (by decide) (fun _ => pure ⟨rfl, rfl⟩) fun hhead => ?_)
      rw [List.nil_append]
      have hlen : (left.take Block.minSize).length = Block.minSize := by
        rw [List.length_take]; omega
      exact map ((nextSectioned (Nat.le_of_eq hlen)).mono fun _ _ _ h => h.1)

end Takes

namespace Stream

variable {s : Stream} {bs : Bytes}

/-! ## A whole stream -/

def blocksOf (rs : List (Result (Option Block) × Stream)) : List Block := rs.filterMap (·.1.toOption.join)

def accepted (s : Stream) : List Block := blocksOf s.run

/-- Unless it has ended, a stream gives what its step of reading gives. -/
theorem next_of_run {f : Option StreamFormat} {o : Option Block} {s' : Stream} (hf : s.finished = false)
    (hformat : s.format = f) (h : (pull f).run.run s = (.ok o, s')) :
    s.next = (.ok o, { s' with finished := !isBlock (.ok o) }) := by
  unfold next
  rw [if_neg (by rw [hf]; exact Bool.false_ne_true), hformat, h]
  dsimp only
  split <;> rfl

/-- A failure is one in the middle of the stream as soon as the format is known, and ends it. -/
theorem next_of_failed {f : Option StreamFormat} {e : Failure} {s' : Stream} (hf : s.finished = false)
    (hformat : s.format = f) (h : (pull f).run.run s = (.error e, s')) :
    s.next = (.error (if f.isSome then midStream e else e), { s' with finished := true }) := by
  unfold next
  rw [if_neg (by rw [hf]; exact Bool.false_ne_true), hformat, h]
  dsimp only
  split <;> rfl

/-- What the next result says of the bytes that are left. -/
theorem next_cases (hs : s.reader.Delivers bs) (hf : s.finished = false) :
    (∃ b rest, s.next.1 = .ok (some b) ∧ bs = b.raw ++ rest ∧ 0 < b.raw.length ∧ s.next.2.reader.Delivers rest ∧
        s.next.2.finished = false ∧ (s.format = none → b.startsSection = true)) ∨
      (s.next.1 = .ok none ∧ bs = []) ∨ ∃ e, s.next.1 = .error e := by
  cases hp : (pull s.format).run.run s with
  | mk r s' =>
    cases r with
    | error e => exact Or.inr (Or.inr ⟨_, congrArg Prod.fst (next_of_failed hf rfl hp)⟩)
    | ok o =>
      rw [next_of_run hf rfl hp]
      obtain ⟨front, rest, hbs, hd, hq⟩ := Takes.pull s.format s s' o hs hp
      cases o with
      | none =>
        obtain ⟨rfl, rfl⟩ := hq
        exact Or.inr (Or.inl ⟨rfl, hbs⟩)
      | some b =>
        obtain ⟨hraw, hpos⟩ := hq
        refine Or.inl ⟨b, rest, rfl, hraw ▸ hbs, hpos, hd, rfl, fun hformat => ?_⟩
        rw [hformat] at hp
        obtain ⟨_, _, _, _, -, hstarts⟩ := Takes.first s s' (some b) hs hp
        exact hstarts b rfl

theorem pulls_of_block {n : Nat} {b : Block} (h : s.next.1 = .ok (some b)) :
    pulls (n + 1) s = s.next :: pulls n s.next.2 := by
  unfold pulls
  dsimp only
  rw [h]
  cases n <;> rfl

theorem pulls_of_end {n : Nat} (h : isBlock s.next.1 = false) : pulls (n + 1) s = [s.next] := by
  unfold pulls
  dsimp only
  rw [if_neg (by rw [h]; exact Bool.false_ne_true)]

theorem blocksOf_pulls_of_block {n : Nat} {b : Block} (h : s.next.1 = .ok (some b)) :
    blocksOf (pulls (n + 1) s) = b :: blocksOf (pulls n s.next.2) := by
  rw [pulls_of_block h]
  unfold blocksOf
  rw [List.filterMap_cons, h]
  rfl

theorem blocksOf_pulls_of_end {n : Nat} (h : isBlock s.next.1 = false) : blocksOf (pulls (n + 1) s) = [] := by
  rw [pulls_of_end h]
  unfold blocksOf
  rw [List.filterMap_cons]
  cases hr : s.next.1 with
  | error e => rfl
  | ok o =>
    cases o with
    | none => rfl
    | some b =>
      rw [hr] at h
      cases h

theorem exists_of_isBlock {r : Result (Option Block)} (h : isBlock r = true) : ∃ b, r = .ok (some b) := by
  unfold isBlock at h
  split at h
  · exact ⟨_, rfl⟩
  · cases h

theorem pairwise_pulls (n : Nat) (s : Stream) : (pulls n s).Pairwise fun p _ => isBlock p.1 = true := by
  induction n generalizing s with
  | zero => exact List.Pairwise.nil
  | succ n ih =>
    cases hb : isBlock s.next.1 with
    | false =>
      rw [pulls_of_end hb]
      exact List.pairwise_singleton _ _
    | true =>
      obtain ⟨b, hblock⟩ := exists_of_isBlock hb
      rw [pulls_of_block hblock]
      exact List.pairwise_cons.mpr ⟨fun _ _ => hb, ih _⟩

/-- The blocks of a stream are its bytes from the front on; all of them, unless it breaks. -/
theorem raw_blocksOf_pulls (hs : s.reader.Delivers bs) (hf : s.finished = false) {n : Nat} (hn : bs.length < n) :
    (blocksOf (pulls n s)).flatMap (·.raw) <+: bs ∧
      ((∀ p ∈ pulls n s, ∃ o, p.1 = .ok o) → (blocksOf (pulls n s)).flatMap (·.raw) = bs) := by
  induction n generalizing s bs with
  | zero => exact absurd hn (Nat.not_lt_zero _)
  | succ n ih =>
    rcases next_cases hs hf with ⟨b, rest, hb, hbs, hpos, hd, hf', -⟩ | ⟨hnone, hbs⟩ | ⟨e, he⟩
    · have hlen : rest.length < n := by
        rw [hbs, List.length_append] at hn
        omega
      obtain ⟨hbegin, hall⟩ := ih hd hf' hlen
      rw [blocksOf_pulls_of_block hb, List.flatMap_cons, hbs, pulls_of_block hb]
      refine ⟨(List.prefix_append_right_inj _).mpr hbegin, fun hok => ?_⟩
      rw [hall fun p hp => hok p (List.mem_cons_of_mem _ hp)]
    · rw [blocksOf_pulls_of_end (by rw [hnone]; rfl), hbs]
      exact ⟨List.prefix_rfl, fun _ => rfl⟩
    · have hend : isBlock s.next.1 = false := by
        rw [he]
        rfl
      rw [blocksOf_pulls_of_end hend, pulls_of_end hend]
      refine ⟨List.nil_prefix, fun hok => ?_⟩
      obtain ⟨o, ho⟩ := hok _ List.mem_cons_self
      rw [he] at ho
      cases ho

theorem raw_accepted_prefix {r : Reader} (hr : r.Delivers bs) : (ofReader r).accepted.flatMap (·.raw) <+: bs :=
  (raw_blocksOf_pulls hr rfl (by rw [← hr.remaining]; exact Nat.lt_succ_self _)).1

theorem raw_accepted_of_clean {r : Reader} (hr : r.Delivers bs)
    (hok : ∀ p ∈ (ofReader r).run, ∃ o, p.1 = .ok o) : (ofReader r).accepted.flatMap (·.raw) = bs :=
  (raw_blocksOf_pulls hr rfl (by rw [← hr.remaining]; exact Nat.lt_succ_self _)).2 hok

/-- The first block of a stream is a section header, or that of a classic capture. -/
theorem startsSection_of_head_accepted {r : Reader} (hr : r.Delivers bs) {b : Block} {rest : List Block}
    (h : (ofReader r).accepted = b :: rest) : b.startsSection = true := by
  have hs : (ofReader r).reader.Delivers bs := hr
  unfold accepted run at h
  rcases next_cases hs rfl with ⟨b', _, hb, -, -, -, -, hstarts⟩ | ⟨hnone, -⟩ | ⟨e, he⟩
  · rw [blocksOf_pulls_of_block hb] at h
    cases h
    exact hstarts rfl
  · rw [blocksOf_pulls_of_end (by rw [hnone]; rfl)] at h
    cases h
  · rw [blocksOf_pulls_of_end (by rw [he]; rfl)] at h
    cases h

end Stream

end CaptureRing
