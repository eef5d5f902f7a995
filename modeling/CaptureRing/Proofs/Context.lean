/-
  CaptureRing.Proofs.Context — what a block of a single source needs in front of it.

  A packet means what the section header in front of it and the interface descriptions
  since then make it mean. A new file starts with just these, unless its first block
  starts a section of its own; so a packet finds in its file what it had in the stream.

  Proved, for every world, every rotation, every cap on the files, whatever ends the capture
  and however it goes wrong, is `passthrough_keeps_context`: the header that governs a
  written packet and the interface descriptions behind it are in its file those of the stream.
-/

import CaptureRing.Capture.Schedule
import CaptureRing.Machine
import CaptureRing.Proofs.Cutting
import CaptureRing.Proofs.Filing

namespace CaptureRing

/-! ## The context of a block -/

def Block.isInterface (b : Block) : Bool :=
  match b.content with
  | .interface _ => true
  | _ => false

/-- The header of the section that is open behind these blocks: the last one among them. -/
def governing? (bs : List Block) : Option Block := bs.reverse.find? Block.startsSection

def described (bs : List Block) : List Block :=
  (bs.reverse.takeWhile (!·.startsSection)).reverse.filter Block.isInterface

def contextOf (bs : List Block) : List Block := (governing? bs).toList ++ described bs

theorem governing?_snoc (bs : List Block) (b : Block) :
    governing? (bs ++ [b]) = if b.startsSection then some b else governing? bs := by
  unfold governing?
  rw [List.reverse_append, List.reverse_singleton, List.singleton_append, List.find?_cons]
  cases b.startsSection <;> rfl

theorem described_snoc (bs : List Block) (b : Block) :
    described (bs ++ [b]) = if b.startsSection then [] else described bs ++ if b.isInterface then [b] else [] := by
  unfold described
  rw [List.reverse_append, List.reverse_singleton, List.singleton_append, List.takeWhile_cons]
  cases b.startsSection with
  | true => rfl
  | false =>
    simp only [Bool.not_false, if_true, List.reverse_cons, List.filter_append]
    cases h : b.isInterface <;> simp [h]

theorem startsSection_of_governing? {bs : List Block} {b : Block} (h : governing? bs = some b) :
    b.startsSection = true := List.find?_some h

theorem isInterface_of_mem_described {bs : List Block} {b : Block} (h : b ∈ described bs) : b.isInterface = true :=
  (List.mem_filter.mp h).2

theorem Block.startsSection_of_isInterface {b : Block} (h : b.isInterface = true) : b.startsSection = false := by
  unfold isInterface at h
  unfold startsSection
  split at h
  · rename_i hc; rw [hc]
  · cases h

theorem Block.startsSection_of_isPacket {b : Block} (h : b.isPacket = true) : b.startsSection = false := by
  unfold isPacket at h
  unfold startsSection
  split at h
  · rename_i hc; rw [hc]
  · cases h

/-- A stream that began with a header always has one that governs. -/
theorem governing?_isSome {b : Block} (hb : b.startsSection = true) (bs : List Block) :
    (governing? (b :: bs)).isSome = true := by
  unfold governing?
  rw [List.find?_isSome]
  exact ⟨b, List.mem_reverse.mpr List.mem_cons_self, hb⟩

theorem mem_of_mem_contextOf {bs : List Block} {b : Block} (h : b ∈ contextOf bs) : b ∈ bs := by
  rcases List.mem_append.mp h with h | h
  · exact List.mem_reverse.mp (List.mem_of_find?_eq_some (Option.mem_toList.mp h))
  · have ht := List.mem_reverse.mp (List.mem_filter.mp h).1
    exact List.mem_reverse.mp (List.takeWhile_sublist _ |>.subset ht)

theorem not_isPacket_of_mem_contextOf {bs : List Block} {b : Block} (h : b ∈ contextOf bs) : b.isPacket = false := by
  obtain ⟨byteOrder, raw, content⟩ := b
  rcases List.mem_append.mp h with h | h
  · have hs := startsSection_of_governing? (Option.mem_toList.mp h)
    cases content with
    | packet format p => cases hs
    | _ => rfl
  · have hi := isInterface_of_mem_described h
    cases content with
    | packet format p => cases hi
    | _ => rfl

/-! ## A context replaces what was in front -/

def SameContext (bs cs : List Block) : Prop := governing? bs = governing? cs ∧ described bs = described cs

theorem SameContext.append {bs cs : List Block} (h : SameContext bs cs) (ds : List Block) :
    SameContext (bs ++ ds) (cs ++ ds) := by
  induction ds using List.reverseRecOn with
  | nil => rw [List.append_nil, List.append_nil]; exact h
  | append_singleton ds d ih =>
    obtain ⟨hg, hd⟩ := ih
    rw [← List.append_assoc, ← List.append_assoc]
    unfold SameContext
    rw [governing?_snoc, governing?_snoc, described_snoc, described_snoc, hg, hd]
    exact ⟨rfl, rfl⟩

/-- Interface descriptions behind a header are described behind it, and the header stays. -/
theorem context_of_interfaces (bs : List Block) {is : List Block} (his : ∀ i ∈ is, i.isInterface = true) :
    governing? (bs ++ is) = governing? bs ∧ described (bs ++ is) = described bs ++ is := by
  induction is using List.reverseRecOn with
  | nil => rw [List.append_nil, List.append_nil]; exact ⟨rfl, rfl⟩
  | append_singleton is i ih =>
    obtain ⟨hg, hd⟩ := ih fun j hj => his j (List.mem_append_left _ hj)
    have hi := his i (List.mem_append_right _ (List.mem_singleton_self i))
    rw [← List.append_assoc, governing?_snoc, described_snoc, hg, hd, hi, Block.startsSection_of_isInterface hi,
      List.append_assoc]
    exact ⟨rfl, rfl⟩

theorem sameContext_contextOf (bs : List Block) : SameContext (contextOf bs) bs := by
  obtain ⟨hg, hd⟩ := context_of_interfaces (governing? bs).toList fun i (hi : i ∈ described bs) =>
    isInterface_of_mem_described hi
  unfold SameContext contextOf
  rw [hg, hd]
  cases h : governing? bs with
  | none => exact ⟨rfl, rfl⟩
  | some b =>
    have hb := startsSection_of_governing? h
    have hone : governing? [b] = some b ∧ described [b] = [] := by
      have h₁ := governing?_snoc [] b
      have h₂ := described_snoc [] b
      rw [if_pos hb, List.nil_append] at h₁ h₂
      exact ⟨h₁, h₂⟩
    rw [Option.toList_some, hone.1, hone.2]
    exact ⟨rfl, rfl⟩

/-- What starts a section has no use for what was in front. -/
theorem sameContext_of_startsSection {b : Block} (hb : b.startsSection = true) (bs cs : List Block) :
    SameContext (bs ++ [b]) (cs ++ [b]) := by
  unfold SameContext
  rw [governing?_snoc, governing?_snoc, described_snoc, described_snoc, if_pos hb, if_pos hb, if_pos hb,
    if_pos hb]
  exact ⟨rfl, rfl⟩

/-! ## The merger of a single source -/

/-- What a file starts with when it is opened behind these blocks: their context, unless the
    next block starts a section. -/
def seedBlocks (before : List Block) (next : Option Block) : List Block :=
  if next.any Block.startsSection then [] else contextOf before

theorem mem_contextOf_of_mem_seedBlocks {bs : List Block} {next : Option Block} {b : Block}
    (h : b ∈ seedBlocks bs next) : b ∈ contextOf bs := by
  unfold seedBlocks at h
  split at h
  · cases h
  · exact h

theorem seedBlocks_nil (next : Option Block) : seedBlocks [] next = [] := by
  unfold seedBlocks
  split <;> rfl

namespace Passthrough

structure Follows (bs : List Block) (p : Passthrough) : Prop where
  header : p.header = (governing? bs).map (·.raw)
  interfaces : p.interfaces.toList = (described bs).map (·.raw)

theorem Follows.note {bs : List Block} {p : Passthrough} (h : p.Follows bs) (b : Block) :
    (p.note b).Follows (bs ++ [b]) := by
  obtain ⟨hh, hi⟩ := h
  obtain ⟨byteOrder, raw, content⟩ := b
  -- a block that neither starts a section nor describes an interface changes nothing
  have hplain : (⟨byteOrder, raw, content⟩ : Block).startsSection = false →
      (⟨byteOrder, raw, content⟩ : Block).isInterface = false → p.Follows (bs ++ [⟨byteOrder, raw, content⟩]) := by
    intro hs hd
    constructor
    · rw [governing?_snoc, if_neg (by rw [hs]; exact Bool.false_ne_true)]
      exact hh
    · rw [described_snoc, if_neg (by rw [hs]; exact Bool.false_ne_true),
        if_neg (by rw [hd]; exact Bool.false_ne_true), List.append_nil]
      exact hi
  cases content with
  | sectionHeader header => exact ⟨by rw [governing?_snoc]; rfl, by rw [described_snoc]; rfl⟩
  | fileHeader header => exact ⟨by rw [governing?_snoc]; rfl, by rw [described_snoc]; rfl⟩
  | interface i =>
    refine ⟨by rw [governing?_snoc]; exact hh, ?_⟩
    have hpush : (p.interfaces.push raw).toList = p.interfaces.toList ++ [raw] := Array.toList_push
    rw [described_snoc]
    refine hpush.trans ?_
    rw [hi]
    show _ = (described bs ++ [(⟨byteOrder, raw, .interface i⟩ : Block)]).map (·.raw)
    rw [List.map_append]
    rfl
  | packet format q => exact hplain rfl rfl
  | other kind => exact hplain rfl rfl

theorem Follows.seed {bs : List Block} {p : Passthrough} (h : p.Follows bs) (next : Option Block) :
    p.seed next = (seedBlocks bs next).flatMap (·.raw) := by
  unfold Passthrough.seed seedBlocks
  split
  · rfl
  · rw [h.header, h.interfaces]
    unfold contextOf
    rw [List.flatMap_append, List.flatMap_def, List.flatMap_def]
    cases governing? bs with
    | none => rfl
    | some b => simp

end Passthrough

variable {m : Merger} {order : List (Nat × Block)} {vols : List Volume}

def Merger.PassesOn (m : Merger) : Prop :=
  ∀ order, ∃ p, m.after order = .passthrough p ∧ p.Follows (order.map (·.2))

theorem ofCount_passesOn (host : Host) : (Merger.ofCount host 1).PassesOn := by
  intro order
  induction order using List.reverseRecOn with
  | nil => exact ⟨Passthrough.empty, rfl, rfl, rfl⟩
  | append_singleton order e ih =>
    obtain ⟨p, hp, hf⟩ := ih
    refine ⟨p.note e.2, ?_, ?_⟩
    · rw [Merger.after_snoc, hp]
      rfl
    · rw [List.map_append]
      exact hf.note e.2

/-- Every block is written, as it was read. -/
theorem Merger.PassesOn.gives (hm : m.PassesOn) (order : List (Nat × Block)) (source : Nat) (b : Block) :
    (m.after order).gives source b = some b.raw := by
  obtain ⟨p, hp, -⟩ := hm order
  rw [hp]
  rfl

theorem Merger.PassesOn.given (hm : m.PassesOn) (order : List (Nat × Block)) :
    (given m order).map (·.block) = order.map (·.2) := by
  induction order using List.reverseRecOn with
  | nil => rfl
  | append_singleton order e ih =>
    rw [given_snoc, hm.gives, List.map_append, List.map_append, ih]
    rfl

/-! ## The blocks of a file -/

structure Part where
  seed : List Block
  own : List Block
  deriving DecidableEq, Repr

namespace Part

def blocks (p : Part) : List Block := p.seed ++ p.own

def content (p : Part) : Bytes := p.blocks.flatMap (·.raw)

end Part

def Volume.part (v : Volume) : Part :=
  ⟨seedBlocks (v.before.map (·.2)) v.next, v.entries.map (·.block)⟩

theorem Volume.flatten_part (hm : m.PassesOn) (v : Volume) : (v.writes m).flatten = v.part.content := by
  have hseed : v.seed m = (seedBlocks (v.before.map (·.2)) v.next).flatMap (·.raw) := by
    obtain ⟨p, hp, hf⟩ := hm v.before
    unfold Volume.seed
    rw [hp]
    exact hf.seed v.next
  have hentries : v.entries.flatMap (Written.bytes m) = (v.entries.map (·.block)).flatMap (·.raw) := by
    rw [List.flatMap_map]
    congr 1
    funext e
    unfold Written.bytes
    rw [hm.gives]
    rfl
  rw [flatten_writes, hseed, hentries, ← List.flatMap_append]
  rfl

theorem own_parts (hm : m.PassesOn) (h : Filed m order vols) :
    (vols.map Volume.part).flatMap (·.own) = order.map (·.2) := by
  rw [← hm.given, ← h.flatMap_entries, List.map_flatMap, List.flatMap_map]
  rfl

/-- A file is opened with what the blocks of the files before it leave open. -/
theorem seed_parts (hm : m.PassesOn) (h : Filed m order vols) {earlier later : List Part} {p : Part}
    (hp : vols.map Volume.part = earlier ++ p :: later) :
    p.seed = seedBlocks (earlier.flatMap (·.own)) p.own.head? := by
  obtain ⟨before, rest, rfl, rfl, hrest⟩ := List.map_eq_append_iff.mp hp
  obtain ⟨v, after, rfl, rfl, -⟩ := List.map_eq_cons_iff.mp hrest
  have hbefore : v.before.map (·.2) = (before.map Volume.part).flatMap (·.own) := by
    rw [← hm.given, h.given_opened rfl, List.map_flatMap, List.flatMap_map]
    rfl
  rw [← hbefore]
  rcases h.opened_for (List.mem_append_right _ List.mem_cons_self) with ⟨hb, hn⟩ | ⟨e, rest, he, hn, -⟩
  · -- the first file starts with nothing, whatever comes first
    unfold Volume.part
    rw [hb, hn]
    exact (seedBlocks_nil none).trans (seedBlocks_nil _).symm
  · unfold Volume.part
    rw [he, hn]
    rfl

/-- The files are opened with what those before them leave open. -/
def SeededInTurn (parts : List Part) : Prop :=
  ∀ earlier p later, parts = earlier ++ p :: later → p.seed = seedBlocks (earlier.flatMap (·.own)) p.own.head?

/-- A packet finds in its file the context that it had in the stream. -/
theorem SeededInTurn.sameContext {parts : List Part} (h : SeededInTurn parts) {earlier later : List Part} {p : Part}
    (hp : parts = earlier ++ p :: later) {front back : List Block} {b : Block} (hb : p.own = front ++ b :: back)
    (hpacket : b.isPacket = true) : SameContext (p.seed ++ front) (earlier.flatMap (·.own) ++ front) := by
  have hseed := h earlier p later hp
  unfold seedBlocks at hseed
  split at hseed
  · -- the file began with a section of its own, which a packet does not start
    rename_i hstarts
    rw [hseed, List.nil_append]
    cases front with
    | nil =>
      rw [hb, List.nil_append, List.head?_cons, Option.any_some, Block.startsSection_of_isPacket hpacket] at hstarts
      cases hstarts
    | cons f front =>
      rw [hb, List.cons_append, List.head?_cons, Option.any_some] at hstarts
      have hf := sameContext_of_startsSection hstarts [] (earlier.flatMap (·.own))
      have happ := hf.append front
      rwa [List.append_assoc, List.nil_append, List.append_assoc] at happ
  · rw [hseed]
    exact (sameContext_contextOf _).append front

/-! ## What a single source sends -/

theorem sent_of_filter_idle (s : Nat) (is : List Input) : sent s (is.filter (· ≠ .idle)) = sent s is := by
  unfold sent arrivals
  rw [List.filterMap_filter]
  congr 2
  funext i
  cases i <;> rfl

theorem sent_prefix {is js : List Input} (h : is <+: js) (s : Nat) : sent s is <+: sent s js :=
  (h.filterMap _).filterMap _

/-- A source sends the blocks that are cut from its stream. -/
theorem sent_inputOf (rs : List (Result (Option Block) × Stream)) :
    sent 0 (rs.map fun p => inputOf 0 p.1) = Stream.blocksOf rs := by
  induction rs with
  | nil => rfl
  | cons p rest ih =>
    have hone : sent 0 [inputOf 0 p.1] = (p.1.toOption.join).toList := by
      obtain ⟨r, s⟩ := p
      cases r with
      | error e => rfl
      | ok o =>
        cases o with
        | none => rfl
        | some b => rfl
    have hcons := sent_append 0 [inputOf 0 p.1] (rest.map fun p => inputOf 0 p.1)
    rw [List.singleton_append] at hcons
    unfold Stream.blocksOf at ih ⊢
    rw [List.map_cons, hcons, hone, ih, List.filterMap_cons]
    cases p.1.toOption.join <;> rfl

/-- These are inputs of a single source, with idle intervals anywhere: the beginning, or all, of
    what comes of its stream. -/
theorem within_of_stream {is : List Input} {rs : List (Result (Option Block) × Stream)}
    (h : is.filter (· ≠ .idle) <+: rs.map fun p => inputOf 0 p.1) : Within 1 is := by
  intro i hi s hs
  have hne : i ≠ .idle := by
    intro he
    rw [he] at hs
    cases hs
  have hmem := h.subset (List.mem_filter.mpr ⟨hi, decide_eq_true hne⟩)
  obtain ⟨⟨r, _⟩, -, rfl⟩ := List.mem_map.mp hmem
  have hzero : (inputOf 0 r).source? = some 0 := by
    cases r with
    | error e => rfl
    | ok o => cases o <;> rfl
  rw [hzero] at hs
  cases hs
  exact Nat.zero_lt_one

/-! ## Files that hold a stream -/

/-- The files hold the beginning of the stream one after the other, and each was opened with
    what those before it leave open; behind them stand files that got nothing of the stream. -/
structure Holds (stream : List Block) (parts idle : List Part) : Prop where
  own : parts.flatMap (·.own) <+: stream
  seeded : SeededInTurn parts
  idleOwn : ∀ p ∈ idle, p.own = []
  idleSeed : ∀ p ∈ idle, p.seed = [] ∨ ∃ next, p.seed = seedBlocks (parts.flatMap (·.own)) next

namespace Holds

variable {stream : List Block} {parts idle : List Part}

theorem flatMap_own (h : Holds stream parts idle) : (parts ++ idle).flatMap (·.own) = parts.flatMap (·.own) := by
  rw [List.flatMap_append, List.flatMap_eq_nil_iff.mpr h.idleOwn, List.append_nil]

/-- A seed is made of blocks of the stream, none of them a packet. -/
theorem mem_seed (h : Holds stream parts idle) {p : Part} (hp : p ∈ parts ++ idle) {b : Block} (hb : b ∈ p.seed) :
    b.isPacket = false ∧ b ∈ stream := by
  have hcontext : ∃ before, before <+: parts.flatMap (·.own) ∧ b ∈ contextOf before := by
    rcases List.mem_append.mp hp with hp | hp
    · obtain ⟨earlier, later, hsplit⟩ := List.append_of_mem hp
      rw [h.seeded earlier p later hsplit] at hb
      refine ⟨_, ?_, mem_contextOf_of_mem_seedBlocks hb⟩
      rw [hsplit, List.flatMap_append]
      exact List.prefix_append _ _
    · rcases h.idleSeed p hp with he | ⟨next, he⟩
      · rw [he] at hb; cases hb
      · rw [he] at hb
        exact ⟨_, List.prefix_rfl, mem_contextOf_of_mem_seedBlocks hb⟩
  obtain ⟨before, hbefore, hb⟩ := hcontext
  exact ⟨not_isPacket_of_mem_contextOf hb, (hbefore.trans h.own).subset (mem_of_mem_contextOf hb)⟩

/-- A block of the stream stands in one of the files that hold it. -/
theorem of_own (h : Holds stream parts idle) {earlier later : List Part} {p : Part}
    (hp : parts ++ idle = earlier ++ p :: later) (hown : p.own ≠ []) :
    ∃ later', parts = earlier ++ p :: later' := by
  have hidle : p ∉ idle := fun hm => hown (h.idleOwn p hm)
  rcases List.append_eq_append_iff.mp hp with ⟨front, -, hrest⟩ | ⟨back, hparts, hrest⟩
  · exact absurd (hrest ▸ List.mem_append_right _ List.mem_cons_self) hidle
  · cases back with
    | nil =>
      rw [List.nil_append] at hrest
      exact absurd (hrest ▸ List.mem_cons_self) hidle
    | cons q back =>
      obtain ⟨rfl, -⟩ := List.cons.inj hrest
      exact ⟨back, hparts⟩

/-- If the stream began with a header, a packet has one, and its file has the same context. -/
theorem context_kept (h : Holds stream parts idle)
    (hstarts : ∀ b rest, stream = b :: rest → b.startsSection = true) {earlier later : List Part} {p : Part}
    (hp : parts ++ idle = earlier ++ p :: later) {front back : List Block} {b : Block}
    (hb : p.own = front ++ b :: back) (hpacket : b.isPacket = true) :
    (governing? (earlier.flatMap (·.own) ++ front)).isSome = true ∧
      SameContext (p.seed ++ front) (earlier.flatMap (·.own) ++ front) := by
  have hne : p.own ≠ [] := by
    rw [hb]
    exact List.append_ne_nil_of_right_ne_nil _ (List.cons_ne_nil _ _)
  obtain ⟨later', hparts⟩ := h.of_own hp hne
  refine ⟨?_, h.seeded.sameContext hparts hb hpacket⟩
  have hat : earlier.flatMap (·.own) ++ front ++ [b] <+: stream := by
    refine List.IsPrefix.trans ?_ h.own
    rw [hparts, List.flatMap_append, List.flatMap_cons, hb, List.append_assoc, List.append_assoc]
    exact (List.prefix_append_right_inj _).mpr ((List.prefix_append_right_inj _).mpr
      ⟨back ++ later'.flatMap (·.own), rfl⟩)
  obtain ⟨rest, hrest⟩ := hat
  cases hfront : earlier.flatMap (·.own) ++ front with
  | nil =>
    -- then the packet itself came first
    rw [hfront] at hrest
    have hfirst := hstarts b rest hrest.symm
    rw [Block.startsSection_of_isPacket hpacket] at hfirst
    cases hfirst
  | cons first others =>
    rw [hfront] at hrest
    exact governing?_isSome (hstarts first _ hrest.symm) others

end Holds

/-! ## Whole captures -/

variable {σ : Type}

namespace Writer

theorem Kept.holds {taken : List (Nat × Block)} {vain : List (List Bytes)} {x : Writer} {l : Ledger σ}
    (h : Kept m order x l taken vols vain) (hm : m.PassesOn) {stream : List Block}
    (hstream : order.map (·.2) <+: stream) :
    ∃ idle, l.contents = (vols.map Volume.part ++ idle).map Part.content ∧ (x.outputError = none → idle = []) ∧
      Holds stream (vols.map Volume.part) idle := by
  have hown := own_parts hm h.filed
  have hcontents : ∀ idle : List Part, vain.map List.flatten = idle.map Part.content →
      l.contents = (vols.map Volume.part ++ idle).map Part.content := by
    intro idle hi
    rw [l.contents_eq, h.writes, List.map_append, List.map_append, hi, List.map_map, List.map_map]
    congr 1
    exact List.map_congr_left fun v _ => v.flatten_part hm
  have hholds : ∀ idle : List Part, (∀ p ∈ idle, p.own = []) →
      (∀ p ∈ idle, p.seed = [] ∨ ∃ next, p.seed = seedBlocks (taken.map (·.2)) next) →
      Holds stream (vols.map Volume.part) idle := by
    intro idle ho hse
    refine ⟨?_, fun _ _ _ hp => seed_parts hm h.filed hp, ho, fun p hp => hown ▸ hse p hp⟩
    rw [hown]
    exact (h.behind.map _).trans hstream
  rcases h.inVain with rfl | ⟨he, hv⟩
  · exact ⟨[], hcontents [] rfl, fun _ => rfl, hholds [] (fun p hp => absurd hp List.not_mem_nil)
      fun p hp => absurd hp List.not_mem_nil⟩
  have hnone : x.outputError ≠ none := by
    intro hx
    rw [hx] at he
    cases he
  rcases hv with rfl | ⟨b, rfl⟩
  · refine ⟨[⟨[], []⟩], hcontents _ rfl, fun hx => absurd hx hnone, hholds _ (fun p hp => ?_) fun p hp => ?_⟩
    · rw [List.mem_singleton.mp hp]
    · rw [List.mem_singleton.mp hp]
      exact Or.inl rfl
  · obtain ⟨q, hq, hf⟩ := hm taken
    refine ⟨[⟨seedBlocks (taken.map (·.2)) (some b), []⟩], hcontents _ ?_, fun hx => absurd hx hnone,
      hholds _ (fun p hp => ?_) fun p hp => ?_⟩
    · rw [hq]
      show [[q.seed (some b)].flatten] = [Part.content _]
      rw [hf.seed, List.flatten_singleton]
      unfold Part.content Part.blocks
      rw [List.append_nil]
    · rw [List.mem_singleton.mp hp]
    · rw [List.mem_singleton.mp hp]
      exact Or.inr ⟨some b, rfl⟩

end Writer

variable [World σ]

open Writer

/-- What reaches the output is the beginning of what the source sends. -/
theorem order_prefix_accepted {x : Writer} {l : Ledger σ} {b : Writer × Ledger σ} {is taken rest : List Input}
    {r : Reader} (hp : Passed 1 (x, l) taken order b) (hheld : held 0 x = []) (hsplit : is = taken ++ rest)
    (hi : is.filter (· ≠ .idle) <+: (Stream.ofReader r).run.map fun p => inputOf 0 p.1) :
    order.map (·.2) <+: (Stream.ofReader r).accepted := by
  have hc := hp.conserved 0
  rw [hheld, List.nil_append] at hc
  have htaken : sent 0 taken <+: sent 0 is := sent_prefix ⟨rest, hsplit.symm⟩ 0
  have hsent : sent 0 is <+: (Stream.ofReader r).accepted := by
    have hpre := sent_prefix hi 0
    rw [sent_of_filter_idle, sent_inputOf] at hpre
    exact hpre
  rw [map_snd_of_single hp.within]
  exact (List.IsPrefix.trans ⟨_, hc⟩ htaken).trans hsent

/-- However a capture of a single source goes and ends: what a written packet needs in front of
    it, its file has as the stream had it. -/
theorem passthrough_keeps_context {c : Config} {h : Host} {w : σ} {x : Writer} {l : Ledger σ}
    (hs : startCapture c h (Ledger.blank w) = (.ok x, l)) (hn : c.sources.length = 1) {r : Reader} {bs : Bytes}
    (hr : r.Delivers bs) {is : List Input}
    (hi : is.filter (· ≠ .idle) <+: (Stream.ofReader r).run.map fun p => inputOf 0 p.1) :
    ∃ parts : List Part,
      ((run is x l).1.conclude (run is x l).2).2.contents = parts.map Part.content ∧
        parts.flatMap (·.own) <+: (Stream.ofReader r).accepted ∧
        (∀ p ∈ parts, ∀ b ∈ p.seed, b.isPacket = false ∧ b ∈ (Stream.ofReader r).accepted) ∧
        ∀ earlier p later front b back, parts = earlier ++ p :: later → p.own = front ++ b :: back →
          b.isPacket = true →
            (governing? (earlier.flatMap (·.own) ++ front)).isSome = true ∧
              governing? (p.seed ++ front) = governing? (earlier.flatMap (·.own) ++ front) ∧
              described (p.seed ++ front) = described (earlier.flatMap (·.own) ++ front) := by
  have hst := startCapture_started hs
  have hsized := hst.sized
  have hkept := hst.kept
  rw [hn] at hsized hkept
  obtain ⟨taken, rest, order, hsplit, -, hp⟩ := run_passed l hsized (within_of_stream hi)
  obtain ⟨⟨flushed, hflush⟩, -⟩ := flush_passed (run is x l).2 hp.sized
  have hpf := hp.trans hflush
  rw [List.append_nil] at hpf
  obtain ⟨_, vols, _, hk⟩ := hpf.released.kept hkept
  obtain ⟨idle, hcontents, -, hholds⟩ :=
    hk.holds (ofCount_passesOn h) (order_prefix_accepted hpf (hst.held 0) hsplit hi)
  rw [conclude_contents]
  refine ⟨vols.map Volume.part ++ idle, hcontents, ?_, fun p hp b hb => hholds.mem_seed hp hb, ?_⟩
  · rw [hholds.flatMap_own]
    exact hholds.own
  · intro earlier p later front b back hparts hown hpacket
    exact hholds.context_kept (fun b rest => Stream.startsSection_of_head_accepted hr) hparts hown hpacket

/-! ## A source whose every packet fills a file -/

def loneConfig : Config :=
  { Config.ofOutput "out.pcapng" with sources := [.stdin], rotation := ⟨[.packets 1], none⟩ }

/-- Two packets in a section, and one in another of the other byte order. -/
def loneStream : Bytes :=
  let interface := Interface.make 1 0 []
  (SectionHeader.ofOptions []).encode .bigEndian ++ interface.encode .bigEndian
    ++ (Packet.ofData 0 [1, 2, 3] 0).encode .bigEndian ++ (Packet.ofData 0 [4] 0).encode .bigEndian
    ++ (SectionHeader.ofOptions []).encode .littleEndian ++ interface.encode .littleEndian
    ++ (Packet.ofData 0 [] 0).encode .littleEndian

def loneInputs : List Input :=
  .idle :: (Stream.ofReader (Reader.ofBytes loneStream)).run.map fun p => inputOf 0 p.1

theorem passthrough_keeps_context_lone : ∃ x l,
    startCapture loneConfig ⟨none, none⟩ (Ledger.blank (Machine.ofDisk .empty)) = (.ok x, l) ∧
      ((run loneInputs x l).1.conclude (run loneInputs x l).2).1.packets = 3 ∧
      ∃ parts : List Part,
        ((run loneInputs x l).1.conclude (run loneInputs x l).2).2.contents = parts.map Part.content ∧
          ∀ earlier p later front b back, parts = earlier ++ p :: later → p.own = front ++ b :: back →
            b.isPacket = true → SameContext (p.seed ++ front) (earlier.flatMap (·.own) ++ front) := by
  have hi : loneInputs.filter (· ≠ .idle) <+:
      (Stream.ofReader (Reader.ofBytes loneStream)).run.map fun p => inputOf 0 p.1 := by
    decide +kernel
  obtain ⟨x, l, hs, hpackets⟩ : ∃ x l,
      startCapture loneConfig ⟨none, none⟩ (Ledger.blank (Machine.ofDisk .empty)) = (.ok x, l) ∧
        ((run loneInputs x l).1.conclude (run loneInputs x l).2).1.packets = 3 :=
    ⟨_, _, rfl, by decide +kernel⟩
  obtain ⟨parts, hcontents, -, -, hcontext⟩ :=
    passthrough_keeps_context hs rfl (Reader.ofBytes_delivers loneStream) hi
  refine ⟨x, l, hs, hpackets, parts, hcontents, fun earlier p later front b back hp hown hpacket => ?_⟩
  exact (hcontext earlier p later front b back hp hown hpacket).2

end CaptureRing
