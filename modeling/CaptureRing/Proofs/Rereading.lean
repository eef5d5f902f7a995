/-
  CaptureRing.Proofs.Rereading — a stream that was written is read back block by block.

  Reading on depends on what was read: the first bytes choose the format, and every section
  header chooses the byte order of the blocks after it. A list of blocks is a stream if each
  is what its own bytes are read as after the blocks before it (`Legible`); how the bytes
  arrive makes no difference.

  Proved:
  - `run_sections`, `run_classic`: reading a legible stream gives its blocks and then its end;
  - `reading_undoes_writing`: so it does for sections of any order and any blocks, and for
    classic captures, but for obsolete packets, whose bodies have to be such;
  - `obsolete_without_body`: an obsolete packet without a body is not read back.
-/

import CaptureRing.Proofs.Draft

namespace CaptureRing

namespace Stream

/-! ## Steps that succeed -/

section Steps

variable {α β : Type} {s s₁ : Stream}

theorem run_bind_ok {step : Pull α} {next : α → Pull β} {a : α} (h : step.run.run s = (.ok a, s₁)) :
    (step >>= next).run.run s = (next a).run.run s₁ := by
  rw [run_bind, h]

theorem run_lift_bind {r : Result α} {a : α} (h : r = .ok a) (next : α → Pull β) (s : Stream) :
    (ExceptT.mk (pure r) >>= next).run.run s = (next a).run.run s := by
  subst h
  rfl

theorem run_get_bind (next : Stream → Pull β) (s : Stream) : (get >>= next).run.run s = (next s).run.run s := rfl

theorem run_modify_bind (f : Stream → Stream) (next : Unit → Pull β) (s : Stream) :
    (modify f >>= next).run.run s = (next ()).run.run (f s) := rfl

theorem run_map_ok {step : Pull α} {f : α → β} {a : α} (h : step.run.run s = (.ok a, s₁)) :
    (f <$> step).run.run s = (.ok (f a), s₁) := by
  rw [map_eq_pure_bind, run_bind_ok h]
  rfl

theorem run_extend (buf : Bytes) {more rest : Bytes} (hs : s.reader.Delivers (more ++ rest)) {n : Nat}
    (hn : n = more.length) :
    ∃ r, (extend buf n).run.run s = (.ok (buf ++ more), { s with reader := r }) ∧ r.Delivers rest := by
  subst hn
  obtain ⟨r, hfill, hr⟩ := hs.fill more.length
  rw [List.take_left] at hfill
  rw [List.drop_left] at hr
  refine ⟨r, ?_, hr⟩
  unfold extend
  rw [run_bind_ok (run_fill hfill), if_neg (Nat.lt_irrefl _)]
  rfl

theorem run_head {front rest : Bytes} (hs : s.reader.Delivers (front ++ rest)) {n : Nat} (hn : n = front.length)
    (hpos : 0 < n) : ∃ r, (head n).run.run s = (.ok (some front), { s with reader := r }) ∧ r.Delivers rest := by
  subst hn
  obtain ⟨r, hfill, hr⟩ := hs.fill front.length
  rw [List.take_left] at hfill
  rw [List.drop_left] at hr
  refine ⟨r, ?_, hr⟩
  unfold head
  have hne : ¬ front.isEmpty = true := by
    rw [List.isEmpty_iff]
    exact List.ne_nil_of_length_pos hpos
  rw [run_bind_ok (run_fill hfill), if_neg hne, if_neg (Nat.lt_irrefl _)]
  rfl

theorem run_head_end (hs : s.reader.Delivers []) (n : Nat) :
    ∃ r, (head n).run.run s = (.ok none, { s with reader := r }) := by
  obtain ⟨r, hfill, -⟩ := hs.fill n
  rw [List.take_nil] at hfill
  refine ⟨r, ?_⟩
  unfold head
  rw [run_bind_ok (run_fill hfill)]
  rfl

end Steps

/-! ## The next block -/

def orderAfter (order : Option ByteOrder) (b : Block) : Option ByteOrder :=
  match b.content with
  | .sectionHeader _ => some b.order
  | _ => order

theorem exists_front {n : Nat} {bs : Bytes} (h : n ≤ bs.length) :
    ∃ front back, bs = front ++ back ∧ front.length = n ∧ back.length = bs.length - n :=
  ⟨bs.take n, bs.drop n, (List.take_append_drop n bs).symm, by rw [List.length_take]; omega, List.length_drop⟩

theorem frameHeader_of_read {current : Option ByteOrder} {raw : Bytes} {b : Block}
    (h : Block.read current raw = .ok b) (hraw : b.raw = raw) :
    ∃ o, Block.frameHeader current raw = .ok (o, raw.length) := by
  obtain ⟨length, hframe, hle, htake, -⟩ := Block.read_eq_ok h
  have hlen := congrArg List.length (hraw.symm.trans htake)
  rw [List.length_take, Nat.min_eq_left hle] at hlen
  exact ⟨b.order, hlen ▸ hframe⟩

theorem recordLength_of_read {f : PcapFormat} {raw : Bytes} {b : Block} (h : Block.readRecord f raw = .ok b)
    (hraw : b.raw = raw) : Block.recordLength f.order raw = .ok raw.length ∧ Record.headerSize ≤ raw.length := by
  obtain ⟨length, r, hlength, hle, -, rfl⟩ := Block.readRecord_eq_ok h
  have hlen := congrArg List.length hraw
  rw [List.length_take, Nat.min_eq_left hle] at hlen
  rw [← hlen]
  exact ⟨hlength, Block.headerSize_le_of_recordLength hlength⟩

section Next

variable {s : Stream} {buf more rest : Bytes} {b : Block}

theorem run_nextSectioned (hs : s.reader.Delivers (more ++ rest)) (hbuf : buf.length ≤ Block.minSize)
    (hraw : b.raw = buf ++ more) (hread : Block.read s.order b.raw = .ok b) :
    ∃ r, (nextSectioned buf).run.run s = (.ok b, { s with reader := r, order := orderAfter s.order b }) ∧
      r.Delivers rest := by
  obtain ⟨o, hframe⟩ := frameHeader_of_read hread rfl
  have hmin := Block.minSize_le_of_frameHeader hframe
  have hlen : b.raw.length = buf.length + more.length := by rw [hraw, List.length_append]
  -- twelve bytes come first, then the others
  have hle : Block.minSize - buf.length ≤ more.length := by omega
  obtain ⟨front, back, rfl, hfrontlen, -⟩ := exists_front hle
  rw [List.append_assoc] at hs
  obtain ⟨r₁, hrun₁, hr₁⟩ := run_extend buf hs hfrontlen.symm
  have hhead : Block.frameHeader s.order (buf ++ front) = .ok (o, b.raw.length) := by
    rw [← hframe, hraw, ← List.append_assoc]
    refine (Block.frameHeader_append s.order ?_ back).symm
    rw [List.length_append, hfrontlen]
    unfold Block.minSize at *
    omega
  have hback : b.raw.length - (buf ++ front).length = back.length := by
    rw [hlen]
    simp only [List.length_append]
    omega
  obtain ⟨r₂, hrun₂, hr₂⟩ := run_extend (buf ++ front) (s := { s with reader := r₁ }) hr₁ hback
  have hwhole : Block.read s.order (buf ++ front ++ back) = .ok b := by
    rw [List.append_assoc, ← hraw]
    exact hread
  refine ⟨r₂, ?_, hr₂⟩
  unfold nextSectioned
  rw [run_bind_ok hrun₁, run_get_bind]
  dsimp only
  rw [run_lift_bind hhead]
  dsimp only
  rw [run_bind_ok hrun₂, run_lift_bind hwhole]
  unfold orderAfter
  cases b.content <;> rfl

theorem run_nextRecord {f : PcapFormat} (hs : s.reader.Delivers (b.raw ++ rest))
    (hread : Block.readRecord f b.raw = .ok b) :
    ∃ r, (nextRecord f).run.run s = (.ok (some b), { s with reader := r }) ∧ r.Delivers rest := by
  obtain ⟨hlength, hmin⟩ := recordLength_of_read hread rfl
  obtain ⟨front, back, hraw, hfrontlen, hbacklen⟩ := exists_front hmin
  rw [hraw, List.append_assoc] at hs
  obtain ⟨r₁, hrun₁, hr₁⟩ := run_head hs hfrontlen.symm (by decide)
  have hhead : Block.recordLength f.order front = .ok b.raw.length := by
    rw [← hlength, hraw]
    exact (Block.recordLength_append f.order (Nat.le_of_eq hfrontlen.symm) back).symm
  obtain ⟨r₂, hrun₂, hr₂⟩ := run_extend front (s := { s with reader := r₁ }) hr₁ hbacklen.symm
  have hwhole : Block.readRecord f (front ++ back) = .ok b := by
    rw [← hraw]
    exact hread
  refine ⟨r₂, ?_, hr₂⟩
  unfold nextRecord
  rw [run_bind_ok hrun₁]
  dsimp only
  rw [run_lift_bind hhead, run_bind_ok hrun₂, run_lift_bind hwhole]
  rfl

/-- The first four bytes of a section header tell that a stream is sectioned. -/
theorem run_first_sectioned (hs : s.reader.Delivers (b.raw ++ rest)) (hraw : b.raw = buf ++ more)
    (hlen : buf.length = 4) (hformat : formatOf buf = .ok .sectioned) (hread : Block.read s.order b.raw = .ok b) :
    ∃ r, first.run.run s =
      (.ok (some b), { s with reader := r, format := some .sectioned, order := orderAfter s.order b }) ∧
      r.Delivers rest := by
  rw [hraw, List.append_assoc] at hs
  obtain ⟨r₁, hrun₁, hr₁⟩ := run_head hs hlen.symm (by decide)
  obtain ⟨r₂, hrun₂, hr₂⟩ := run_nextSectioned (s := { s with reader := r₁, format := some .sectioned }) hr₁
    (by rw [hlen]; decide) hraw hread
  refine ⟨r₂, ?_, hr₂⟩
  unfold first
  rw [run_bind_ok hrun₁]
  dsimp only
  rw [run_lift_bind hformat, run_modify_bind]
  dsimp only
  rw [run_map_ok hrun₂]

/-- The first four bytes of a classic capture tell how its records are written. -/
theorem run_first_classic {f : PcapFormat} (hs : s.reader.Delivers (b.raw ++ rest)) (hraw : b.raw = buf ++ more)
    (hlen : buf.length = 4) (hsize : b.raw.length = FileHeader.size) (hformat : formatOf buf = .ok (.classic f))
    (hread : Block.readFileHeader b.raw = .ok b) :
    ∃ r, first.run.run s =
      (.ok (some b), { s with reader := r, format := some (.classic f), order := some f.order }) ∧
      r.Delivers rest := by
  have hmore : FileHeader.size - 4 = more.length := by
    rw [← hsize, hraw, List.length_append, hlen]
    omega
  rw [hraw, List.append_assoc] at hs
  obtain ⟨r₁, hrun₁, hr₁⟩ := run_head hs hlen.symm (by decide)
  obtain ⟨r₂, hrun₂, hr₂⟩ := run_extend buf (s := { s with reader := r₁, format := some (.classic f) }) hr₁ hmore
  have hwhole : Block.readFileHeader (buf ++ more) = .ok b := by
    rw [← hraw]
    exact hread
  refine ⟨r₂, ?_, hr₂⟩
  unfold first
  rw [run_bind_ok hrun₁]
  dsimp only
  rw [run_lift_bind hformat, run_modify_bind]
  dsimp only
  rw [run_bind_ok hrun₂, run_lift_bind hwhole, run_modify_bind]
  rfl

theorem run_first_end (hs : s.reader.Delivers []) : ∃ r, first.run.run s = (.ok none, { s with reader := r }) := by
  obtain ⟨r, hhead⟩ := run_head_end hs 4
  refine ⟨r, ?_⟩
  unfold first
  rw [run_bind_ok hhead]
  rfl

end Next

/-! ## A whole stream -/

def Reread (format : StreamFormat) (order : Option ByteOrder) (b : Block) : Prop :=
  match format with
  | .sectioned => Block.read order b.raw = .ok b
  | .classic f => Block.readRecord f b.raw = .ok b

inductive Legible (format : StreamFormat) : Option ByteOrder → List Block → Prop
  | nil {order : Option ByteOrder} : Legible format order []
  | cons {order : Option ByteOrder} {b : Block} {bs : List Block} : Reread format order b →
      Legible format (orderAfter order b) bs → Legible format order (b :: bs)

section Whole

variable {s : Stream} {rest : Bytes} {b : Block} {format : StreamFormat}

theorem orderAfter_record {f : PcapFormat} {raw : Bytes} (h : Block.readRecord f raw = .ok b) (order : Option ByteOrder) :
    orderAfter order b = order := by
  obtain ⟨_, _, -, -, -, rfl⟩ := Block.readRecord_eq_ok h
  rfl

theorem run_pull (hs : s.reader.Delivers (b.raw ++ rest)) (hb : Reread format s.order b) :
    ∃ r, (pull (some format)).run.run s = (.ok (some b), { s with reader := r, order := orderAfter s.order b }) ∧
      r.Delivers rest := by
  cases format with
  | classic f =>
    obtain ⟨r, hrun, hr⟩ := run_nextRecord hs hb
    refine ⟨r, ?_, hr⟩
    rw [orderAfter_record hb]
    exact hrun
  | sectioned =>
    obtain ⟨o, hframe⟩ := frameHeader_of_read hb rfl
    have hmin := Block.minSize_le_of_frameHeader hframe
    obtain ⟨front, back, hraw, hfrontlen, -⟩ := exists_front hmin
    rw [hraw, List.append_assoc] at hs
    obtain ⟨r₁, hrun₁, hr₁⟩ := run_head hs hfrontlen.symm (by decide)
    obtain ⟨r₂, hrun₂, hr₂⟩ := run_nextSectioned (s := { s with reader := r₁ }) hr₁ (Nat.le_of_eq hfrontlen) hraw hb
    refine ⟨r₂, ?_, hr₂⟩
    unfold pull
    rw [run_bind_ok hrun₁]
    dsimp only
    rw [run_map_ok hrun₂]

theorem run_pull_end (hs : s.reader.Delivers []) (format : StreamFormat) :
    ∃ r, (pull (some format)).run.run s = (.ok none, { s with reader := r }) := by
  cases format with
  | classic f =>
    obtain ⟨r, hrun⟩ := run_head_end hs Record.headerSize
    refine ⟨r, ?_⟩
    unfold pull nextRecord
    rw [run_bind_ok hrun]
    rfl
  | sectioned =>
    obtain ⟨r, hrun⟩ := run_head_end hs Block.minSize
    refine ⟨r, ?_⟩
    unfold pull
    rw [run_bind_ok hrun]
    rfl

theorem pulls_of_legible {bs : List Block} {n : Nat} (hn : bs.length < n) (hs : s.reader.Delivers (bs.flatMap (·.raw)))
    (hf : s.finished = false) (hformat : s.format = some format) (h : Legible format s.order bs) :
    (pulls n s).map (·.1) = bs.map (fun b => .ok (some b)) ++ [.ok none] := by
  induction bs generalizing s n with
  | nil =>
    cases n with
    | zero => omega
    | succ n =>
      obtain ⟨r, hrun⟩ := run_pull_end hs format
      have hnext := next_of_run hf hformat hrun
      rw [pulls_of_end (by rw [hnext]; rfl), hnext]
      rfl
  | cons b bs ih =>
    cases n with
    | zero => simp at hn
    | succ n =>
      cases h with
      | cons hb htail =>
        rw [List.flatMap_cons] at hs
        obtain ⟨r, hrun, hr⟩ := run_pull hs hb
        have hnext := next_of_run hf hformat hrun
        have hrest := ih (s := s.next.2) (n := n) (by simpa using hn) (by rw [hnext]; exact hr) (by rw [hnext]; rfl)
          (by rw [hnext]; exact hformat) (by rw [hnext]; exact htail)
        rw [pulls_of_block (by rw [hnext]), List.map_cons, hrest, hnext]
        rfl

theorem Reread.raw_pos {order : Option ByteOrder} (h : Reread format order b) : 0 < b.raw.length := by
  cases format with
  | sectioned =>
    obtain ⟨o, hframe⟩ := frameHeader_of_read h rfl
    have hmin := Block.minSize_le_of_frameHeader hframe
    unfold Block.minSize at hmin
    omega
  | classic f =>
    obtain ⟨-, hmin⟩ := recordLength_of_read h rfl
    unfold Record.headerSize at hmin
    omega

theorem Legible.length_le {order : Option ByteOrder} {bs : List Block} (h : Legible format order bs) :
    bs.length ≤ (bs.flatMap (·.raw)).length := by
  induction h with
  | nil => simp
  | cons hb _ ih =>
    have := hb.raw_pos
    simp only [List.flatMap_cons, List.length_append, List.length_cons]
    omega

/-- A stream whose first block told its format, and that is legible after it. -/
theorem run_of_first {r r' : Reader} {order : Option ByteOrder} {bs : List Block}
    (hr : r.Delivers ((b :: bs).flatMap (·.raw))) (hpos : 0 < b.raw.length)
    (hfirst : first.run.run (ofReader r) = (.ok (some b), ⟨r', some format, order, false⟩))
    (hr' : r'.Delivers (bs.flatMap (·.raw))) (h : Legible format order bs) :
    (ofReader r).run.map (·.1) = (b :: bs).map (fun b => .ok (some b)) ++ [.ok none] := by
  have hlen : bs.length < r.remaining := by
    have := h.length_le
    rw [hr.remaining, List.flatMap_cons, List.length_append]
    omega
  have hnext := next_of_run (s := ofReader r) rfl rfl hfirst
  have hrest := pulls_of_legible (s := (ofReader r).next.2) hlen (by rw [hnext]; exact hr')
    (by rw [hnext]; rfl) (by rw [hnext]) (by rw [hnext]; exact h)
  unfold run
  rw [pulls_of_block (by rw [hnext]), List.map_cons]
  show _ :: (pulls r.remaining (ofReader r).next.2).map (·.1) = _
  rw [hrest, hnext]
  rfl

end Whole

/-! ## Drafts -/

section Drafts

variable {r : Reader}

/-- The blocks of a section are legible in its order, and so is whatever follows them. -/
theorem legible_blocks {o : ByteOrder} {xs : List SectionBlock} (h : ∀ x ∈ xs, x.Fits o) :
    ∃ bs, List.Forall₂ (SectionBlock.ReadAs o) xs bs ∧
      ∀ rest, Legible .sectioned (some o) rest → Legible .sectioned (some o) (bs ++ rest) := by
  induction xs with
  | nil => exact ⟨[], .nil, fun _ hrest => hrest⟩
  | cons x xs ih =>
    obtain ⟨b, hreads, hread, hne⟩ := SectionBlock.exists_read (h x List.mem_cons_self)
    obtain ⟨bs, hbs, hlegible⟩ := ih fun y hy => h y (List.mem_cons_of_mem _ hy)
    have horder : orderAfter (some o) b = some o := by
      unfold orderAfter
      split
      · rename_i s hs
        exact absurd hs (hne s)
      · rfl
    refine ⟨b :: bs, .cons hreads hbs, fun rest hrest => .cons hread ?_⟩
    rw [horder]
    exact hlegible rest hrest

/-- A section is legible after anything, since its header chooses its order. -/
theorem legible_section {d : SectionDraft} (h : d.Fits) :
    ∃ bs, d.ReadAs bs ∧ ∀ order rest, (∀ order, Legible .sectioned order rest) →
      Legible .sectioned order (bs ++ rest) := by
  obtain ⟨bs, hbs, hlegible⟩ := legible_blocks h.blocks
  refine ⟨_, ⟨bs, rfl, hbs⟩, fun order rest hrest => ?_⟩
  have hheader := h.header
  exact .cons (Block.read_sectionHeader h.order hheader.magic hheader.major hheader.options hheader.size)
    (hlegible rest (hrest _))

theorem legible_sections {ds : List SectionDraft} (h : ∀ d ∈ ds, d.Fits) :
    ∃ bss, List.Forall₂ SectionDraft.ReadAs ds bss ∧ ∀ order, Legible .sectioned order bss.flatten := by
  induction ds with
  | nil => exact ⟨[], .nil, fun _ => .nil⟩
  | cons d ds ih =>
    obtain ⟨bs, hreads, hlegible⟩ := legible_section (h d List.mem_cons_self)
    obtain ⟨bss, hbss, hrest⟩ := ih fun e he => h e (List.mem_cons_of_mem _ he)
    exact ⟨bs :: bss, .cons hreads hbss, fun order => hlegible order _ hrest⟩

theorem legible_records {f : PcapFormat} {rs : List Record} (h : ∀ r ∈ rs, r.Fits) (order : Option ByteOrder) :
    ∃ bs, List.Forall₂ (Record.ReadAs f) rs bs ∧ Legible (.classic f) order bs := by
  induction rs with
  | nil => exact ⟨[], .nil, .nil⟩
  | cons r rs ih =>
    have hr := h r List.mem_cons_self
    obtain ⟨bs, hbs, hlegible⟩ := ih fun q hq => h q (List.mem_cons_of_mem _ hq)
    have hread := Block.readRecord_encode (f := f) hr.captured hr.size
    have hparse : Record.parse f.order (r.encode f.order) = .ok r := by
      simpa using Record.parse_encode f.order hr.captured []
    refine ⟨⟨f.order, r.encode f.order, .packet (.record f.nanosecond) (r.toPacket 0 f.nanosecond)⟩ :: bs,
      .cons ⟨rfl, rfl, hparse, rfl⟩ hbs, .cons hread hlegible⟩

/-! ## The bytes of what was read -/

theorem raw_of_readAs {o : ByteOrder} {xs : List SectionBlock} {bs : List Block}
    (h : List.Forall₂ (SectionBlock.ReadAs o) xs bs) : bs.flatMap (·.raw) = xs.flatMap (SectionBlock.encode o) := by
  induction h with
  | nil => rfl
  | cons hx _ ih => rw [List.flatMap_cons, List.flatMap_cons, ih, hx.2.1]

theorem raw_of_section {d : SectionDraft} {bs : List Block} (h : d.ReadAs bs) : bs.flatMap (·.raw) = d.encode := by
  obtain ⟨rest, rfl, hrest⟩ := h
  rw [List.flatMap_cons, raw_of_readAs hrest]
  rfl

theorem raw_of_sections {ds : List SectionDraft} {bss : List (List Block)}
    (h : List.Forall₂ SectionDraft.ReadAs ds bss) :
    bss.flatten.flatMap (·.raw) = ds.flatMap SectionDraft.encode := by
  induction h with
  | nil => rfl
  | cons hd _ ih => rw [List.flatten_cons, List.flatMap_append, List.flatMap_cons, ih, raw_of_section hd]

theorem raw_of_records {f : PcapFormat} {rs : List Record} {bs : List Block}
    (h : List.Forall₂ (Record.ReadAs f) rs bs) : bs.flatMap (·.raw) = rs.flatMap (Record.encode f.order) := by
  induction h with
  | nil => rfl
  | cons hx _ ih => rw [List.flatMap_cons, List.flatMap_cons, ih, hx.2.1]

/-! ## Reading undoes writing -/

theorem formatOf_sectionHeader (o : ByteOrder) :
    formatOf (o.put32 BlockKind.sectionHeader.number) = .ok .sectioned := by
  cases o <;> decide +kernel

theorem formatOf_magic {f : PcapFormat} (h : f.order ≠ .wiresharkDefault) :
    formatOf (f.order.put32 (PcapFormat.magic f.nanosecond)) = .ok (.classic f) := by
  unfold formatOf
  rw [PcapFormat.ofMagic?_put32 _ _ h]

theorem run_of_empty (hr : r.Delivers []) : (ofReader r).run.map (·.1) = [.ok none] := by
  obtain ⟨r', hfirst⟩ := run_first_end (s := ofReader r) hr
  have hnext := next_of_run (s := ofReader r) rfl rfl hfirst
  unfold run
  rw [pulls_of_end (by rw [hnext]; rfl), hnext]
  rfl

theorem run_sections {ds : List SectionDraft} (h : ∀ d ∈ ds, d.Fits) (hr : r.Delivers (ds.flatMap SectionDraft.encode)) :
    ∃ bss, List.Forall₂ SectionDraft.ReadAs ds bss ∧
      (ofReader r).run.map (·.1) = bss.flatten.map (fun b => .ok (some b)) ++ [.ok none] := by
  obtain ⟨bss, hbss, hlegible⟩ := legible_sections h
  rw [← raw_of_sections hbss] at hr
  refine ⟨bss, hbss, ?_⟩
  cases hbss with
  | nil => exact run_of_empty hr
  | @cons d bs ds bss hd hds =>
    obtain ⟨rest, rfl, hrest⟩ := hd
    have hall := hlegible none
    rw [List.flatten_cons, List.cons_append] at hall hr ⊢
    obtain ⟨hread, htail⟩ : Reread .sectioned none _ ∧ Legible .sectioned _ (rest ++ bss.flatten) := by
      cases hall with
      | cons hread htail => exact ⟨hread, htail⟩
    have hpos := hread.raw_pos
    rw [List.flatMap_cons] at hr
    obtain ⟨r', hrun, hr'⟩ := run_first_sectioned (s := ofReader r) hr
      (by unfold SectionHeader.encode frame; simp only [List.append_assoc]; rfl) (d.order.length_put32 _)
      (formatOf_sectionHeader d.order) hread
    exact run_of_first (by rw [List.flatMap_cons]; exact hr) hpos hrun hr' htail

theorem run_classic {d : ClassicDraft} (h : d.Fits) (hr : r.Delivers d.encode) :
    ∃ bs, d.ReadAs bs ∧ (ofReader r).run.map (·.1) = bs.map (fun b => .ok (some b)) ++ [.ok none] := by
  obtain ⟨bs, hbs, hlegible⟩ := legible_records h.records (some d.format.order)
  have hlen := d.header.length_encode d.format.order
  refine ⟨_, ⟨bs, rfl, hbs⟩, ?_⟩
  unfold ClassicDraft.encode at hr
  rw [← raw_of_records hbs] at hr
  obtain ⟨r', hrun, hr'⟩ := run_first_classic (s := ofReader r)
    (b := ⟨d.format.order, d.header.encode d.format.order, .fileHeader d.header⟩) hr
    (by unfold FileHeader.encode; rw [h.magic]; simp only [List.append_assoc]; rfl) (d.format.order.length_put32 _) hlen
    (formatOf_magic h.order) (Block.readFileHeader_encode h.order h.magic)
  exact run_of_first (by rw [List.flatMap_cons]; exact hr) (by rw [hlen]; decide) hrun hr' hlegible

/-- The blocks that were written come back one by one, each in the order of its section, with
    its own bytes and with its fields, and then the end; whatever pieces the bytes arrive in. -/
theorem reading_undoes_writing :
    (∀ (ds : List SectionDraft) (r : Reader), (∀ d ∈ ds, d.Fits) → r.Delivers (ds.flatMap SectionDraft.encode) →
      ∃ bss, List.Forall₂ SectionDraft.ReadAs ds bss ∧
        (ofReader r).run.map (·.1) = bss.flatten.map (fun b => .ok (some b)) ++ [.ok none]) ∧
    (∀ (d : ClassicDraft) (r : Reader), d.Fits → r.Delivers d.encode →
      ∃ bs, d.ReadAs bs ∧ (ofReader r).run.map (·.1) = bs.map (fun b => .ok (some b)) ++ [.ok none]) :=
  ⟨fun _ _ h hr => run_sections h hr, fun _ _ h hr => run_classic h hr⟩

def bothOrders : List SectionDraft := [
  ⟨.bigEndian, SectionHeader.ofOptions [BlockOption.make 4 [0x61]], [
    .interface (Interface.make 1 0 [BlockOption.make 8 [0, 0, 0, 0, 0, 0, 0, 1], BlockOption.terminator]),
    .packet ⟨0, 1, 2, 3, 60, [7, 8, 9], [BlockOption.make 2 [0, 0, 0, 1]]⟩,
    .statistics ⟨0, 1, 2, [BlockOption.make 4 [0, 0, 0, 0, 0, 0, 0, 5]]⟩]⟩,
  ⟨.littleEndian, SectionHeader.ofOptions [], [.other 0x0BAD [1, 2, 3, 4], .other BlockKind.simplePacket.number []]⟩]

def nanosecondCapture : ClassicDraft :=
  ⟨⟨.bigEndian, true⟩, FileHeader.make true 0 1, [Record.ofData 1 2 [3, 4, 5], Record.ofData 6 7 []]⟩

theorem reading_undoes_writing_both :
    (∃ bss, List.Forall₂ SectionDraft.ReadAs bothOrders bss ∧
      (ofReader (Reader.ofBytes (bothOrders.flatMap SectionDraft.encode))).run.map (·.1) =
        bss.flatten.map (fun b => .ok (some b)) ++ [.ok none]) ∧
    ∃ bs, nanosecondCapture.ReadAs bs ∧
      (ofReader (Reader.ofBytes nanosecondCapture.encode)).run.map (·.1) =
        bs.map (fun b => .ok (some b)) ++ [.ok none] := by
  have hproper : ∀ code value, code ≠ 0 → value.length < 2 ^ 16 → (BlockOption.make code value).Proper :=
    fun _ _ => BlockOption.proper_make
  have hsections : ∀ d ∈ bothOrders, d.Fits := by
    unfold bothOrders
    simp only [List.forall_mem_cons, List.not_mem_nil, false_imp_iff, implies_true, and_true]
    refine ⟨⟨by decide, ⟨rfl, rfl, .cons (hproper _ _ (by decide) (by decide)) .nil, by decide⟩, ?_⟩,
      ⟨by decide, ⟨rfl, rfl, .nil, by decide⟩, ?_⟩⟩
    · simp only [List.forall_mem_cons, List.not_mem_nil, false_imp_iff, implies_true, and_true]
      exact ⟨⟨.cons (hproper _ _ (by decide) (by decide)) .terminator, by decide⟩,
        ⟨⟨rfl, .cons (hproper _ _ (by decide) (by decide)) .nil⟩, by decide⟩,
        ⟨.cons (hproper _ _ (by decide) (by decide)) .nil, by decide⟩⟩
    · simp only [List.forall_mem_cons, List.not_mem_nil, false_imp_iff, implies_true, and_true]
      exact ⟨⟨by decide, by decide, by decide, fun h => absurd h (by decide)⟩,
        ⟨by decide, by decide, by decide, fun h => absurd h (by decide)⟩⟩
  have hcapture : nanosecondCapture.Fits := by
    refine ⟨by decide, rfl, ?_⟩
    unfold nanosecondCapture
    simp only [List.forall_mem_cons, List.not_mem_nil, false_imp_iff, implies_true, and_true]
    exact ⟨⟨rfl, by decide⟩, ⟨rfl, by decide⟩⟩
  exact ⟨reading_undoes_writing.1 _ _ hsections (Reader.ofBytes_delivers _),
    reading_undoes_writing.2 _ _ hcapture (Reader.ofBytes_delivers _)⟩

/-- A block of the obsolete packet type that has no body, whole and of the right length: it
    is taken for a packet whose fields are missing, and ends the stream. -/
theorem obsolete_without_body :
    (frame .littleEndian BlockKind.packet.number []).length ≤ Block.maxSize ∧
    (ofReader (Reader.ofBytes ((SectionHeader.ofOptions []).encode .littleEndian
        ++ frame .littleEndian BlockKind.packet.number []))).run.map (·.1) =
      [.ok (some ⟨.littleEndian, (SectionHeader.ofOptions []).encode .littleEndian,
        .sectionHeader (SectionHeader.ofOptions [])⟩),
        corrupt (.packet .packet .runsPast)] := by
  decide +kernel

end Drafts

end Stream

end CaptureRing
