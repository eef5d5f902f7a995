/-
  CaptureRing.Proofs.Truncation — a capture that is cut short.

  The reader can stop anywhere: in the magic, in the fixed front of a block or a record, or in
  its body. Each of these is read by a step of its own, and each of the steps says how many
  bytes it needed and how many of the block there were. The blocks before the cut are read as
  they were, and behind what ends the stream there is nothing but the end.

  Proved:
  - `lacks_pull`, `Opens.lacks_first`: the front of a block is not taken for a block, nor for an
    end; the step that lacks bytes says how many;
  - `gives_of_legible`: so a legible stream gives the blocks inside the cut, then what ends it;
  - `cut_short_anywhere`: the same of every stream that was once read to its end.
-/

import CaptureRing.Proofs.Legibility
import CaptureRing.Proofs.Pieces

namespace CaptureRing

namespace Stream

variable {α β : Type} {s s₁ : Stream} {front back : Bytes} {b : Block}

/-! ## A step that lacks bytes -/

/-- The step fails, because there are only `left` bytes of a block that has at most `size`. -/
def Lacks (left size : Nat) (step : Pull α) (s : Stream) : Prop :=
  ∃ needed s', step.run.run s = (.error (.error (.truncatedBlock needed left)), s') ∧ left < needed ∧ needed ≤ size

namespace Lacks

variable {left size : Nat} {step : Pull α}

theorem bind (h : Lacks left size step s) (next : α → Pull β) : Lacks left size (step >>= next) s := by
  obtain ⟨needed, s', hrun, hneeded⟩ := h
  refine ⟨needed, s', ?_, hneeded⟩
  rw [run_bind, hrun]

theorem map (h : Lacks left size step s) (f : α → β) : Lacks left size (f <$> step) s := by
  rw [map_eq_pure_bind]
  exact h.bind _

/-- What is lacking behind a step that succeeds is lacking in both together. -/
theorem behind {next : α → Pull β} {a : α} (hrun : step.run.run s = (.ok a, s₁)) (h : Lacks left size (next a) s₁) :
    Lacks left size (step >>= next) s := by
  unfold Lacks at h ⊢
  rw [run_bind_ok hrun]
  exact h

theorem lift {r : Result α} {next : α → Pull β} {a : α} (hr : r = .ok a) (h : Lacks left size (next a) s) :
    Lacks left size (ExceptT.mk (pure r) >>= next) s := by
  unfold Lacks at h ⊢
  rw [run_lift_bind hr]
  exact h

theorem extend {buf : Bytes} {n : Nat} (hs : s.reader.Delivers front) (hn : front.length < n)
    (hleft : left = buf.length + front.length) (hsize : buf.length + n ≤ size) : Lacks left size (extend buf n) s := by
  obtain ⟨r, hfill, -⟩ := hs.fill n
  rw [List.take_of_length_le (by omega)] at hfill
  subst hleft
  refine ⟨buf.length + n, { s with reader := r }, ?_, by omega, hsize⟩
  unfold Stream.extend
  rw [run_bind_ok (run_fill hfill), if_pos hn]
  rfl

theorem head {n : Nat} (hs : s.reader.Delivers front) (hpos : 0 < front.length) (hn : front.length < n)
    (hsize : n ≤ size) : Lacks front.length size (head n) s := by
  obtain ⟨r, hfill, -⟩ := hs.fill n
  rw [List.take_of_length_le (by omega)] at hfill
  have hne : ¬ front.isEmpty = true := by
    rw [List.isEmpty_iff]
    exact List.ne_nil_of_length_pos hpos
  refine ⟨n, { s with reader := r }, ?_, hn, hsize⟩
  unfold Stream.head
  rw [run_bind_ok (run_fill hfill), if_neg hne, if_pos hn]
  rfl

end Lacks

/-! ## The next block -/

/-- Twelve bytes tell how long the block is, and then some of them are missing; or there are
    not even twelve. -/
theorem lacks_nextSectioned {buf : Bytes} (hs : s.reader.Delivers front) (hbuf : buf.length ≤ Block.minSize)
    (hraw : b.raw = buf ++ front ++ back) (hback : 0 < back.length) (hread : Block.read s.order b.raw = .ok b) :
    Lacks (buf ++ front).length b.raw.length (nextSectioned buf) s := by
  obtain ⟨o, hframe⟩ := frameHeader_of_read hread rfl
  have hmin := Block.minSize_le_of_frameHeader hframe
  have hlen : b.raw.length = buf.length + front.length + back.length := by
    rw [hraw, List.length_append, List.length_append]
  rw [List.length_append]
  unfold nextSectioned
  by_cases hshort : front.length < Block.minSize - buf.length
  · exact (Lacks.extend hs hshort rfl (by omega)).bind _
  · obtain ⟨header, body, rfl, hheader, -⟩ := exists_front (Nat.le_of_not_lt hshort)
    rw [List.length_append] at hlen ⊢
    obtain ⟨r, hrun, hr⟩ := run_extend buf hs hheader.symm
    have htwelve : (buf ++ header).length = Block.minSize := by
      rw [List.length_append]
      omega
    have hhead : Block.frameHeader s.order (buf ++ header) = .ok (o, b.raw.length) := by
      rw [← hframe, hraw, ← List.append_assoc, List.append_assoc (buf ++ header)]
      exact (Block.frameHeader_append s.order (Nat.le_of_eq htwelve.symm) _).symm
    have hbody : Lacks (buf.length + (header.length + body.length)) b.raw.length
        (extend (buf ++ header) (b.raw.length - (buf ++ header).length)) { s with reader := r } :=
      .extend hr (by omega) (by omega) (by omega)
    exact .behind hrun (.behind rfl (.lift hhead (hbody.bind _)))

theorem lacks_nextRecord {f : PcapFormat} (hs : s.reader.Delivers front) (hpos : 0 < front.length)
    (hraw : b.raw = front ++ back) (hback : 0 < back.length) (hread : Block.readRecord f b.raw = .ok b) :
    Lacks front.length b.raw.length (nextRecord f) s := by
  obtain ⟨hlength, hmin⟩ := recordLength_of_read hread rfl
  have hlen : b.raw.length = front.length + back.length := by rw [hraw, List.length_append]
  unfold nextRecord
  by_cases hshort : front.length < Record.headerSize
  · exact (Lacks.head hs hpos hshort hmin).bind _
  · obtain ⟨header, body, rfl, hheader, -⟩ := exists_front (Nat.le_of_not_lt hshort)
    rw [List.length_append] at hlen ⊢
    obtain ⟨r, hrun, hr⟩ := run_head hs hheader.symm (by decide)
    have hhead : Block.recordLength f.order header = .ok b.raw.length := by
      rw [← hlength, hraw, List.append_assoc]
      exact (Block.recordLength_append f.order (Nat.le_of_eq hheader.symm) _).symm
    have hbody : Lacks (header.length + body.length) b.raw.length (extend header (b.raw.length - Record.headerSize))
        { s with reader := r } := .extend hr (by omega) (by omega) (by omega)
    exact .behind hrun (.lift hhead (hbody.bind _))

/-- Only the front of a block is there. -/
theorem lacks_pull {format : StreamFormat} (hs : s.reader.Delivers front) (hpos : 0 < front.length)
    (hraw : b.raw = front ++ back) (hback : 0 < back.length) (hb : Reread format s.order b) :
    Lacks front.length b.raw.length (pull (some format)) s := by
  cases format with
  | classic f => exact lacks_nextRecord hs hpos hraw hback hb
  | sectioned =>
    obtain ⟨o, hframe⟩ := frameHeader_of_read hb rfl
    have hmin := Block.minSize_le_of_frameHeader hframe
    unfold pull
    by_cases hshort : front.length < Block.minSize
    · exact (Lacks.head hs hpos hshort hmin).bind _
    · obtain ⟨header, body, rfl, hheader, -⟩ := exists_front (Nat.le_of_not_lt hshort)
      obtain ⟨r, hrun, hr⟩ := run_head hs hheader.symm (by decide)
      refine .behind hrun ?_
      dsimp only
      exact (lacks_nextSectioned (s := { s with reader := r }) hr (Nat.le_of_eq hheader) hraw hback hb).map _

/-- Only the front of the first block is there. -/
theorem Opens.lacks_first {format : StreamFormat} {order : Option ByteOrder} (h : Opens format b order)
    (hs : s.reader.Delivers front) (horder : s.order = none) (hpos : 0 < front.length) (hraw : b.raw = front ++ back)
    (hback : 0 < back.length) : Lacks front.length b.raw.length first s := by
  have hformat := h.formatOf
  have hfour := h.four_le_length
  unfold first
  by_cases hshort : front.length < 4
  · exact (Lacks.head hs hpos hshort hfour).bind _
  · obtain ⟨magic, body, rfl, hmagic, -⟩ := exists_front (Nat.le_of_not_lt hshort)
    obtain ⟨r, hrun, hr⟩ := run_head hs hmagic.symm (by decide)
    rw [hraw, List.append_assoc, List.take_left' hmagic] at hformat
    refine .behind hrun ?_
    dsimp only
    refine .lift hformat (.behind rfl ?_)
    cases h with
    | sectioned _ hread =>
      rw [← horder] at hread
      exact (lacks_nextSectioned (s := { s with reader := r, format := some .sectioned }) hr
        (by rw [hmagic]; decide) hraw hback hread).map _
    | @classic f _ hread _ =>
      have hsize := (Block.readFileHeader_raw hread).2
      have hlen : b.raw.length = magic.length + body.length + back.length := by
        rw [hraw, List.length_append, List.length_append]
      have hbody : Lacks (magic ++ body).length b.raw.length (extend magic (FileHeader.size - 4))
          { s with reader := r, format := some (.classic f) } :=
        .extend hr (by omega) List.length_append (by omega)
      exact hbody.bind _

/-! ## All results -/

/-- Asking again and again gives these results, and behind them nothing but the end. -/
def Gives (s : Stream) (rs : List (Result (Option Block))) : Prop := ∀ k, s.result k = rs.getD k (.ok none)

theorem gives_of_finished (hf : s.finished = true) : Gives s [] := by
  intro k
  induction k with
  | zero => exact congrArg Prod.fst (next_of_finished hf)
  | succ k ih =>
    unfold result
    rw [next_of_finished hf]
    exact ih

theorem Gives.cons {rs : List (Result (Option Block))} (h : Gives s.next.2 rs) : Gives s (s.next.1 :: rs) := by
  intro k
  cases k with
  | zero => rfl
  | succ k => exact h k

/-- Inside a later block the stream is corrupt, inside the first one the block is cut short. -/
theorem next_of_lacks {left size : Nat} (hf : s.finished = false) (h : Lacks left size (pull s.format) s) :
    ∃ needed, s.next.1 = fail (if s.format.isSome then .streamCorrupt (.truncated needed left)
      else .truncatedBlock needed left) ∧ left < needed ∧ needed ≤ size := by
  obtain ⟨needed, s', hrun, hlt, hsize⟩ := h
  refine ⟨needed, ?_, hlt, hsize⟩
  rw [next_of_failed hf rfl hrun]
  cases s.format <;> rfl

/-- What is not a block is the last result that is not the end. -/
theorem gives_last (h : isBlock s.next.1 = false) : Gives s [s.next.1] := (gives_of_finished (finished_next h)).cons

/-! ## The blocks inside the cut -/

/-- Of the blocks `whole ++ rest` the first ones lie within so many bytes, and the next does not. -/
structure CutAt (n : Nat) (whole rest : List Block) : Prop where
  within : (whole.flatMap (·.raw)).length ≤ n
  beyond : ∀ b ∈ rest.head?, n < (whole.flatMap (·.raw)).length + b.raw.length

inductive Severed (cause : Nat → Nat → CaptureError) : List Block → Nat → Result (Option Block) → Prop
  | between {rest : List Block} : Severed cause rest 0 (.ok none)
  | inside {b : Block} {rest : List Block} {left needed : Nat} : 0 < left → left < needed → needed ≤ b.raw.length →
      Severed cause (b :: rest) left (fail (cause needed left))

def shortage : List Block → Nat → Nat → CaptureError
  | [], needed, available => .truncatedBlock needed available
  | _ :: _, needed, available => .streamCorrupt (.truncated needed available)

/-- What a stream of these blocks gives, of which only so many bytes are there. -/
def GivesWithin (s : Stream) (cause : List Block → Nat → Nat → CaptureError) (n : Nat) (blocks : List Block) : Prop :=
  ∃ whole rest last, blocks = whole ++ rest ∧ CutAt n whole rest ∧
    Severed (cause whole) rest (n - (whole.flatMap (·.raw)).length) last ∧
    Gives s (whole.map (fun b => .ok (some b)) ++ [last])

section Within

variable {format : StreamFormat} {n : Nat} {blocks : List Block} {cause : List Block → Nat → Nat → CaptureError}

/-- A block that is there is given, and then the others. -/
theorem GivesWithin.cons (hnext : s.next.1 = .ok (some b)) (hle : b.raw.length ≤ n)
    (h : GivesWithin s.next.2 (fun bs => cause (b :: bs)) (n - b.raw.length) blocks) :
    GivesWithin s cause n (b :: blocks) := by
  obtain ⟨whole, rest, last, rfl, ⟨hwithin, hbeyond⟩, hsevered, hgives⟩ := h
  have hall := hgives.cons
  rw [hnext] at hall
  refine ⟨b :: whole, rest, last, rfl, ⟨?_, fun c hc => ?_⟩, ?_, hall⟩
  · rw [List.flatMap_cons, List.length_append]
    omega
  · have := hbeyond c hc
    rw [List.flatMap_cons, List.length_append]
    omega
  · rw [List.flatMap_cons, List.length_append, ← Nat.sub_sub]
    exact hsevered

theorem givesWithin_zero (hpos : ∀ b ∈ blocks.head?, 0 < b.raw.length) (hnext : s.next.1 = .ok none) :
    GivesWithin s cause 0 blocks := by
  have hlast := gives_last (s := s) (by rw [hnext]; rfl)
  rw [hnext] at hlast
  exact ⟨[], blocks, .ok none, rfl, ⟨Nat.le_refl _, fun b hb => by simpa using hpos b hb⟩, .between, hlast⟩

/-- Only a part of the next block is there, and the step that lacks the others ends the stream. -/
theorem givesWithin_inside {needed : Nat} (hpos : 0 < n) (hlt : n < needed) (hle : needed ≤ b.raw.length)
    (hnext : s.next.1 = fail (cause [] needed n)) : GivesWithin s cause n (b :: blocks) := by
  have hlast := gives_last (s := s) (by rw [hnext]; rfl)
  rw [hnext] at hlast
  refine ⟨[], b :: blocks, _, rfl, ⟨Nat.zero_le _, fun c hc => ?_⟩, .inside hpos hlt hle, hlast⟩
  cases hc
  show n < 0 + b.raw.length
  omega

theorem take_raw_append (hle : b.raw.length ≤ n) (rest : Bytes) :
    (b.raw ++ rest).take n = b.raw ++ rest.take (n - b.raw.length) := by
  rw [List.take_append, List.take_of_length_le hle]

theorem exists_missing (hlt : n < b.raw.length) (rest : Bytes) :
    ∃ back, b.raw = (b.raw ++ rest).take n ++ back ∧ ((b.raw ++ rest).take n).length = n ∧ 0 < back.length := by
  rw [List.take_append_of_le_length (Nat.le_of_lt hlt)]
  refine ⟨b.raw.drop n, (List.take_append_drop n _).symm, ?_, ?_⟩
  · rw [List.length_take]
    omega
  · rw [List.length_drop]
    omega

/-- Behind its first block, a legible stream that is cut short gives the blocks inside the cut,
    and in a block that is cut short it is corrupt. -/
theorem gives_of_legible (hs : s.reader.Delivers ((blocks.flatMap (·.raw)).take n))
    (hn : n ≤ (blocks.flatMap (·.raw)).length) (hf : s.finished = false) (hformat : s.format = some format)
    (h : Legible format s.order blocks) :
    GivesWithin s (fun _ needed available => .streamCorrupt (.truncated needed available)) n blocks := by
  induction blocks generalizing s n with
  | nil =>
    obtain rfl : n = 0 := Nat.le_zero.mp hn
    obtain ⟨r, hrun⟩ := run_pull_end hs format
    exact givesWithin_zero (fun b hb => by cases hb) (congrArg Prod.fst (next_of_run hf hformat hrun))
  | cons b blocks ih =>
    cases h with
    | cons hb htail =>
      rw [List.flatMap_cons] at hs hn
      by_cases hle : b.raw.length ≤ n
      · rw [take_raw_append hle] at hs
        obtain ⟨r, hrun, hr⟩ := run_pull hs hb
        have hnext := next_of_run hf hformat hrun
        rw [List.length_append] at hn
        refine .cons (by rw [hnext]) hle ?_
        rw [hnext]
        exact ih hr (by omega) rfl hformat htail
      · obtain ⟨back, hraw, hlen, hback⟩ := exists_missing (Nat.lt_of_not_le hle) (blocks.flatMap (·.raw))
        rcases Nat.eq_zero_or_pos n with rfl | hpos
        · obtain ⟨r, hrun⟩ := run_pull_end hs format
          exact givesWithin_zero (fun c hc => by cases hc; exact hb.raw_pos)
            (congrArg Prod.fst (next_of_run hf hformat hrun))
        · have hlacks := lacks_pull hs (by omega) hraw hback hb
          rw [hlen, ← hformat] at hlacks
          obtain ⟨needed, hnext, hlt, hsize⟩ := next_of_lacks hf hlacks
          rw [hformat] at hnext
          exact givesWithin_inside hpos hlt hsize hnext

theorem Opens.gives {order : Option ByteOrder} (h : Opens format b order) (hrest : Legible format order blocks)
    {r : Reader} (hr : r.Delivers (((b :: blocks).flatMap (·.raw)).take n))
    (hn : n ≤ ((b :: blocks).flatMap (·.raw)).length) : GivesWithin (ofReader r) shortage n (b :: blocks) := by
  have hs : (ofReader r).reader.Delivers ((b.raw ++ blocks.flatMap (·.raw)).take n) := hr
  rw [List.flatMap_cons] at hn
  by_cases hle : b.raw.length ≤ n
  · rw [take_raw_append hle] at hs
    obtain ⟨r', hrun, hr'⟩ := h.run_first hs rfl
    have hnext := next_of_run (s := ofReader r) rfl rfl hrun
    rw [List.length_append] at hn
    refine .cons (by rw [hnext]) hle ?_
    rw [hnext]
    exact gives_of_legible hr' (by omega) rfl rfl hrest
  · obtain ⟨back, hraw, hlen, hback⟩ := exists_missing (Nat.lt_of_not_le hle) (blocks.flatMap (·.raw))
    rcases Nat.eq_zero_or_pos n with rfl | hpos
    · obtain ⟨r', hrun⟩ := run_first_end (s := ofReader r) hs
      exact givesWithin_zero (fun c hc => by cases hc; have := h.four_le_length; omega)
        (congrArg Prod.fst (next_of_run (s := ofReader r) rfl rfl hrun))
    · have hlacks := h.lacks_first hs rfl (by omega) hraw hback
      rw [hlen] at hlacks
      obtain ⟨needed, hnext, hlt, hsize⟩ := next_of_lacks (s := ofReader r) rfl hlacks
      exact givesWithin_inside hpos hlt hsize hnext

/-- A stream that was cut into blocks and a clean end, delivered only up to any of its bytes: it
    gives exactly the blocks that are wholly there. Then comes the clean end if the last byte is
    that of a block; inside the first block that block is cut short, inside a later one the
    stream is corrupt, with the bytes needed and those there. After that comes nothing but the end. -/
theorem cut_short_anywhere {r r' : Reader} {bs : Bytes} (hr : r.Delivers bs)
    (hclean : (ofReader r).run.map (·.1) = blocks.map (fun b => .ok (some b)) ++ [.ok none]) (hn : n ≤ bs.length)
    (hr' : r'.Delivers (bs.take n)) : GivesWithin (ofReader r') shortage n blocks := by
  have haccepted := accepted_of_run hclean
  obtain rfl := raw_of_run hr hclean
  rcases accepted_legible r with hnone | ⟨format, first, order, rest, hall, hopens, hlegible⟩
  · obtain rfl := haccepted.symm.trans hnone
    obtain rfl : n = 0 := Nat.le_zero.mp hn
    obtain ⟨r₁, hrun⟩ := run_first_end (s := ofReader r') hr'
    exact givesWithin_zero (fun b hb => by cases hb) (congrArg Prod.fst (next_of_run (s := ofReader r') rfl rfl hrun))
  · obtain rfl := haccepted.symm.trans hall
    exact hopens.gives hlegible hr' hn

/-- Of a classic capture the header is there, and all but two bytes of the first record. -/
theorem cut_short_anywhere_record :
    41 ≤ nanosecondCapture.encode.length ∧
      GivesWithin (ofReader (Reader.ofBytes (nanosecondCapture.encode.take 41))) shortage 41
        (ofReader (Reader.ofBytes nanosecondCapture.encode)).accepted ∧
      (List.range 3).map (result · (ofReader (Reader.ofBytes (nanosecondCapture.encode.take 41)))) =
        [.ok (some ⟨.bigEndian, (FileHeader.make true 0 1).encode .bigEndian, .fileHeader (FileHeader.make true 0 1)⟩),
          corrupt (.truncated 19 17), .ok none] := by
  have hclean : (ofReader (Reader.ofBytes nanosecondCapture.encode)).run.map (·.1) =
      (ofReader (Reader.ofBytes nanosecondCapture.encode)).accepted.map (fun b => .ok (some b)) ++ [.ok none] := by
    decide +kernel
  exact ⟨by decide, cut_short_anywhere (Reader.ofBytes_delivers _) hclean (by decide) (Reader.ofBytes_delivers _),
    by decide +kernel⟩

end Within

end Stream

end CaptureRing
