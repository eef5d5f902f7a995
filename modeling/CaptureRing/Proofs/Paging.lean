/-
  CaptureRing.Proofs.Paging — the life of an output file.

  A page is an output file with all that was done while it was the current one. While a page is
  open, blocks are written to it; after a packet, and at the end of an idle poll interval, its
  triggers are looked at, and after no other block. The look that finds one met is the last: from
  then on the page is full, and the next block goes to a new one. `Grown` says so for one page, and
  nothing else is to be known of how files change.

  A trigger that looks at the clock may be met at any look; of the others it is told when.

  Proved, for a ledger over any world:
  - `Page.length_content`: a page is as long as its file;
  - `Output.OnPage.look`, `Output.OnPage.write`: the output keeps up with its page;
  - `Paged.taken`, `Paged.look`: one block more, and one look;
  - `Along.paged`: for as long as nothing fails, every page but the last is full, and all are grown so.
-/

import CaptureRing.Proofs.Balance
import CaptureRing.Proofs.Passage

namespace CaptureRing

/-! ## Pages -/

namespace Deed

def block? : Deed → Option (Bytes × Bool)
  | .wrote data packet _ => some (data, packet)
  | .opened .. | .waited _ => none

end Deed

structure Page where
  path : String
  seed : Bytes
  deeds : List Deed
  deriving DecidableEq, Repr

namespace Page

def add (d : Deed) (p : Page) : Page := { p with deeds := p.deeds ++ [d] }

def blocks (p : Page) : List (Bytes × Bool) := p.deeds.filterMap Deed.block?

def bytes (p : Page) : Nat := p.seed.length + (p.blocks.map (·.1.length)).sum

def packets (p : Page) : Nat := p.blocks.countP (·.2)

def file (p : Page) : LedgerFile := p.blocks.foldl (fun f b => f.note b.1) (.seeded p.path p.seed)

variable (p : Page)

theorem blocks_add (d : Deed) : (p.add d).blocks = p.blocks ++ d.block?.toList := by
  unfold blocks add
  rw [List.filterMap_append]
  cases hd : d.block? <;> simp [hd]

@[simp] theorem bytes_wrote (data : Bytes) (packet met : Bool) :
    (p.add (.wrote data packet met)).bytes = p.bytes + data.length := by
  unfold bytes
  rw [blocks_add]
  simp [Deed.block?, add, Nat.add_assoc]

@[simp] theorem packets_wrote (data : Bytes) (packet met : Bool) :
    (p.add (.wrote data packet met)).packets = p.packets + if packet then 1 else 0 := by
  unfold packets
  rw [blocks_add]
  simp [Deed.block?]

@[simp] theorem bytes_waited (met : Bool) : (p.add (.waited met)).bytes = p.bytes := by
  unfold bytes
  rw [blocks_add]
  simp [Deed.block?, add]

@[simp] theorem packets_waited (met : Bool) : (p.add (.waited met)).packets = p.packets := by
  unfold packets
  rw [blocks_add]
  simp [Deed.block?]

theorem file_wrote (data : Bytes) (packet met : Bool) : (p.add (.wrote data packet met)).file = p.file.note data := by
  unfold file
  rw [blocks_add]
  simp [Deed.block?, add]

theorem file_waited (met : Bool) : (p.add (.waited met)).file = p.file := by
  unfold file
  rw [blocks_add]
  simp [Deed.block?, add]

theorem length_content : p.file.content.length = p.bytes := by
  unfold file bytes
  induction p.blocks using List.reverseRecOn with
  | nil => simp [LedgerFile.content_seeded]
  | append_singleton bs b ih =>
    rw [List.foldl_append]
    simp only [List.foldl_cons, List.foldl_nil, LedgerFile.content_note, List.length_append, List.map_append,
      List.map_cons, List.map_nil, List.sum_append, List.sum_cons, List.sum_nil]
    omega

end Page

namespace Deed

def page (ps : List Page) : Deed → List Page
  | .opened path seed => ps ++ [⟨path, seed, []⟩]
  | d => ps.modifyLast (·.add d)

def pages (log : List Deed) : List Page := log.foldl page []

theorem pages_snoc (log : List Deed) (d : Deed) : pages (log ++ [d]) = d.page (pages log) := by
  unfold pages
  rw [List.foldl_append]
  rfl

theorem files_eq (log : List Deed) : files log = (pages log).map Page.file := by
  induction log using List.reverseRecOn with
  | nil => rfl
  | append_singleton log d ih =>
    rw [files_snoc, pages_snoc, ih]
    cases d with
    | opened path seed =>
      unfold file page
      rw [List.map_append]
      rfl
    | wrote data packet met =>
      show ((pages log).map Page.file).modifyLast (·.note data) = ((pages log).modifyLast _).map Page.file
      rcases List.eq_nil_or_concat (pages log) with he | ⟨ps, p, he⟩
      · rw [he]; rfl
      · rw [he, List.concat_eq_append, List.map_append, List.map_singleton, List.modifyLast_concat,
          List.modifyLast_concat, List.map_append, List.map_singleton, Page.file_wrote]
    | waited met =>
      show (pages log).map Page.file = ((pages log).modifyLast _).map Page.file
      rcases List.eq_nil_or_concat (pages log) with he | ⟨ps, p, he⟩
      · rw [he]; rfl
      · rw [he, List.concat_eq_append, List.modifyLast_concat, List.map_append, List.map_append, List.map_singleton,
          List.map_singleton, Page.file_waited]

end Deed

/-! ## What becomes of a page -/

/-- The page meets a trigger that does not look at the clock. -/
def Trigger.metBy (p : Page) : Trigger → Bool
  | .packets n => n.toNat ≤ p.packets
  | .bytes n => n.toNat ≤ p.bytes
  | .duration _ => false

/-- What a look at the triggers found: if none is met, none of those that count; if one is, it counts
    or has looked at the clock. -/
structure Looked (triggers : List Trigger) (p : Page) (met : Bool) : Prop where
  unmet : met = false → ∀ t ∈ triggers, t.metBy p = false
  found : met = true → ∃ t ∈ triggers, t.metBy p = true ∨ ∃ d, t = .duration d

inductive Grown (triggers : List Trigger) : Page → Bool → Prop
  | opened (path : String) (seed : Bytes) : Grown triggers ⟨path, seed, []⟩ false
  /-- After a block that is no packet, nothing is looked at. -/
  | block {p : Page} (data : Bytes) : Grown triggers p false → Grown triggers (p.add (.wrote data false false)) false
  | packet {p : Page} {met : Bool} (data : Bytes) : Grown triggers p false →
      Looked triggers (p.add (.wrote data true met)) met → Grown triggers (p.add (.wrote data true met)) met
  | tick {p : Page} {met : Bool} : Grown triggers p false → Looked triggers p met →
      Grown triggers (p.add (.waited met)) met
  /-- A full page is not looked at any more. -/
  | rest {p : Page} : Grown triggers p true → Grown triggers (p.add (.waited false)) true

/-! ## The output keeps up with its page -/

namespace Output

structure OnPage (o : Output) (p : Page) (full : Bool) : Prop where
  current : ∃ f, o.current = some f ∧ f.bytes = p.bytes ∧ f.packets = p.packets
  state : o.state = if full then .rotating else .filling

variable {σ : Type} [World σ] {o o' : Output} {p : Page} {full : Bool}

theorem metBy_of_meets {now : Nat} {f : OutputFile} (hb : f.bytes = p.bytes) (hp : f.packets = p.packets)
    {t : Trigger} (h : meets now f t = true) : t.metBy p = true ∨ ∃ d, t = .duration d := by
  cases t with
  | packets n =>
    left
    unfold meets at h
    rwa [hp] at h
  | bytes n =>
    left
    unfold meets at h
    rwa [hb] at h
  | duration d => exact Or.inr ⟨d, rfl⟩

theorem meets_of_metBy {f : OutputFile} (hb : f.bytes = p.bytes) (hp : f.packets = p.packets) {t : Trigger}
    (h : t.metBy p = true) (now : Nat) : meets now f t = true := by
  cases t with
  | packets n =>
    unfold meets
    rwa [hp]
  | bytes n =>
    unfold meets
    rwa [hb]
  | duration d => cases h

theorem OnPage.look (h : o.OnPage p false) (w : σ) :
    Looked o.policy.triggers p (o.checkRotation w).1 ∧ (o.checkRotation w).2.1.OnPage p (o.checkRotation w).1 := by
  obtain ⟨f, hf, hb, hp⟩ := h.current
  generalize hr : o.checkRotation w = r
  cases hr ▸ o.look_cases w with
  | idle hidle => exact absurd hf (hidle f h.state)
  | unmet _ hg hunmet =>
    cases hf.symm.trans hg
    refine ⟨⟨fun _ t ht => ?_, nofun⟩, h⟩
    by_contra hmet
    rw [Bool.not_eq_false] at hmet
    exact Bool.eq_false_iff.mp (hunmet t ht) (meets_of_metBy hb hp hmet _)
  | met _ hg ht hmeets =>
    cases hf.symm.trans hg
    exact ⟨⟨nofun, fun _ => ⟨_, ht, metBy_of_meets hb hp hmeets⟩⟩, ⟨f, hf, hb, hp⟩, rfl⟩

theorem OnPage.waited (h : o.OnPage p full) (met : Bool) : o.OnPage (p.add (.waited met)) full := by
  obtain ⟨⟨f, hf, hb, hp⟩, hs⟩ := h
  exact ⟨⟨f, hf, by rw [hb, p.bytes_waited], by rw [hp, p.packets_waited]⟩, hs⟩

/-- A look at the end of a poll interval, whether the page is full or not. -/
theorem OnPage.wait (h : o.OnPage p full) (hp : Grown o.policy.triggers p full) (w : σ) :
    ∃ full', (o.checkRotation w).2.1.OnPage (p.add (.waited (o.checkRotation w).1)) full' ∧
      Grown o.policy.triggers (p.add (.waited (o.checkRotation w).1)) full' := by
  cases full with
  | false =>
    obtain ⟨hlooked, hon⟩ := h.look w
    exact ⟨_, hon.waited _, hp.tick hlooked⟩
  | true =>
    rcases checkRotation_cases o w with ⟨w', hc, -⟩ | ⟨-, hfilling, -⟩
    · rw [hc]
      exact ⟨true, h.waited false, hp.rest⟩
    · exact absurd (h.state.symm.trans hfilling) nofun

theorem OnPage.counting (h : o.OnPage p full) {f : OutputFile} (hf : o.current = some f) (data : Bytes) (packet met : Bool) :
    (o.counting data packet f).OnPage (p.add (.wrote data packet met)) full := by
  obtain ⟨⟨g, hg, hbytes, hpackets⟩, hs⟩ := h
  cases hf.symm.trans hg
  exact ⟨⟨_, rfl, by rw [hbytes, p.bytes_wrote], by rw [hpackets, p.packets_wrote]⟩, hs⟩

theorem OnPage.write (h : o.OnPage p false) (hp : Grown o.policy.triggers p false) {data : Bytes} {packet met : Bool}
    {w w' : σ} (hw : o.write data packet w = (.ok met, o', w')) :
    o'.OnPage (p.add (.wrote data packet met)) met ∧ Grown o.policy.triggers (p.add (.wrote data packet met)) met := by
  cases write_cases hw with
  | block hblock _ hf _ =>
    subst hblock
    exact ⟨h.counting hf data false false, hp.block data⟩
  | @packet f w₁ _ _ _ hpacket _ hf _ hlook =>
    subst hpacket
    have hlooked := (h.counting hf data true met).look w₁
    rw [hlook] at hlooked
    exact ⟨hlooked.2, hp.packet data hlooked.1⟩

end Output

/-! ## A course keeps up with its pages -/

variable {σ : Type} {triggers : List Trigger} {log : List Deed} {x x' : Writer} {l l' : Ledger σ}

/-- The files are those of the pages, of which all but the last are full; and for as long as nothing
    has stopped the capture, the output is on the last. -/
structure Paged (triggers : List Trigger) (s : Course (Ledger σ)) : Prop where
  files : s.world.files = (Deed.pages s.log).map Page.file
  policy : s.writer.output.policy.triggers = triggers
  pages : ∃ before last full, Deed.pages s.log = before ++ [last] ∧ (∀ p ∈ before, Grown triggers p true) ∧
    Grown triggers last full ∧ (s.writer.isStopped = false → s.writer.output.OnPage last full)

namespace Paged

theorem of_same (h : Paged triggers ⟨log, x, l⟩) (houtput : x'.output = x.output)
    (hstopped : x'.isStopped = false → x.isStopped = false) (hfiles : l'.files = l.files) :
    Paged triggers ⟨log, x', l'⟩ := by
  obtain ⟨files, policy, before, last, full, hpages, hbefore, hlast, hon⟩ := h
  refine ⟨hfiles.trans files, ?_, before, last, full, hpages, hbefore, hlast, fun hup => ?_⟩
  · rw [houtput]
    exact policy
  · rw [houtput]
    exact hon (hstopped hup)

variable [World σ]

theorem put {s : Course (Ledger σ)} (h : Paged triggers s) (hup : s.writer.isStopped = false)
    (hs : s.writer.output.state ≠ .rotating) {data : Bytes} {packet : Bool}
    (he : (s.put data packet).writer.outputError = none) : Paged triggers (s.put data packet) := by
  obtain ⟨log, x, l⟩ := s
  obtain ⟨hfiles, hpolicy, before, last, full, hpages, hbefore, hlast, hon⟩ := h
  have hon := hon hup
  -- a page that is not rotating is not full
  obtain rfl : full = false := by
    cases full with
    | false => rfl
    | true => exact absurd hon.state hs
  dsimp only at hs
  unfold Course.put Writer.put at he ⊢
  dsimp only at he ⊢
  split at he
  · cases he
  · rename_i met output l' hw
    change Paged triggers ⟨log ++ [.wrote data packet (output.state = .rotating)], _, _⟩
    rw [Output.write_met hw hs]
    rw [← hpolicy] at hlast hbefore ⊢
    obtain ⟨hon', hlast'⟩ := hon.write hlast hw
    obtain ⟨hnoted, hshelf, -⟩ := Output.write_ok hw
    refine ⟨?_, congrArg RotationPolicy.triggers hshelf.policy, before, _, met, ?_, hbefore, hlast', fun _ => hon'⟩
    · rw [← Deed.files_eq] at hfiles ⊢
      rw [Deed.files_snoc, ← hfiles]
      exact hnoted
    · rw [Deed.pages_snoc, hpages]
      exact List.modifyLast_concat ..

theorem openNext {s : Course (Ledger σ)} (h : Paged triggers s) (hup : s.writer.isStopped = false)
    (hs : s.writer.output.state = .rotating) {seed : Bytes} (he : (s.openNext seed).writer.outputError = none) :
    (s.openNext seed).writer.output.state = .filling ∧ Paged triggers (s.openNext seed) := by
  obtain ⟨log, x, l⟩ := s
  obtain ⟨hfiles, hpolicy, before, last, full, hpages, hbefore, hlast, hon⟩ := h
  obtain rfl : full = true := by
    cases full with
    | true => rfl
    | false => exact absurd ((hon hup).state.symm.trans hs) nofun
  have hopen := Output.openNext_opening seed x.output l
  unfold Course.openNext Writer.openNext at he ⊢
  dsimp only at he ⊢
  split at he
  · cases he
  · rename_i output l' ho
    rw [ho] at hopen
    obtain ⟨f, hf, hbytes, hpackets⟩ := Output.openNext_counts ho
    cases hopen with
    | opened path ring _ hopened =>
      have hring : output.ring.getLast?.getD "" = path := by
        rw [hopened.ring]
        simp
      dsimp only
      rw [hring]
      refine ⟨hopened.state, ?_, (congrArg _ hopened.policy).trans hpolicy, before ++ [last], _, false, ?_,
        ?_, .opened path seed, fun _ => ⟨⟨f, hf, hbytes, hpackets⟩, hopened.state⟩⟩
      · rw [← Deed.files_eq] at hfiles ⊢
        rw [Deed.files_snoc, ← hfiles]
        exact hopened.files
      · rw [Deed.pages_snoc, hpages]
        rfl
      · intro p hp
        rcases List.mem_append.mp hp with hp | hp
        · exact hbefore p hp
        · rw [List.mem_singleton.mp hp]
          exact hlast

theorem taken {s s' : Course (Ledger σ)} {e : Nat × Block} (h : Paged triggers s) (ht : Course.Taken e s s')
    (he : s'.writer.outputError = none) : Paged triggers s' := by
  have hmerged : Paged triggers (s.merged e) := h.of_same rfl id rfl
  cases ht with
  | ended _ => exact h
  | skipped _ _ _ => exact h.of_same rfl id rfl
  | put hd _ hs => exact hmerged.put (Writer.isStopped_eq_false.mpr (Writer.not_isDone hd).2) hs he
  | turned hd _ hs hopened =>
    have hfired : s.writer.tally.fired = none := (Writer.not_isDone hd).2
    obtain ⟨hfilling, hnext⟩ := hmerged.openNext (Writer.isStopped_eq_false.mpr hfired) hs hopened
    refine hnext.put (Writer.isStopped_eq_false.mpr ?_) ?_ he
    · exact (Writer.fired_openNext ..).trans hfired
    · rw [hfilling]
      exact nofun

theorem look {s : Course (Ledger σ)} (h : Paged triggers s) (he : s.writer.outputError = none) :
    Paged triggers s.look := by
  obtain ⟨log, x, l⟩ := s
  unfold Course.look
  dsimp only at he ⊢
  obtain ⟨hfiles, -, -, -, hshelf, -⟩ := Writer.lookOver_keeps x l
  have hpolicy : (x.lookOver l).1.output.policy.triggers = triggers :=
    (congrArg RotationPolicy.triggers hshelf.policy).trans h.policy
  cases hstopped : x.isStopped with
  | true =>
    have hstill := Writer.isStopped_lookOver hstopped l
    obtain ⟨files, -, before, last, full, hpages, hbefore, hlast, -⟩ := h
    rw [if_pos (Writer.isDone_of_isStopped hstopped), List.append_nil]
    refine ⟨hfiles.trans files, hpolicy, before, last, full, hpages, hbefore, hlast, fun hup => ?_⟩
    rw [hstill] at hup
    cases hup
  | false =>
    have hd : x.isDone = false := Writer.isDone_eq_false he (Writer.isStopped_eq_false.mp hstopped)
    obtain ⟨files, htriggers, before, last, full, hpages, hbefore, hlast, hon⟩ := h
    rw [← htriggers] at hbefore hlast ⊢
    obtain ⟨full', hon', hlast'⟩ := (hon hstopped).wait hlast l
    rw [if_neg (by rw [hd]; exact Bool.false_ne_true)]
    refine ⟨?_, hpolicy.trans htriggers.symm, before, _, full', ?_, hbefore, hlast', fun _ => hon'⟩
    · rw [← Deed.files_eq] at files ⊢
      rw [Deed.files_snoc, ← files]
      exact hfiles
    · rw [Deed.pages_snoc, hpages]
      exact List.modifyLast_concat ..

end Paged

variable [World σ]

/-- A course that has not failed has kept up with its pages all the way. -/
theorem Course.Along.paged {a s : Course (Ledger σ)} {order : List (Nat × Block)} (h : Along a order s)
    (ha : Paged triggers a) (he : s.writer.outputError = none) : Paged triggers s := by
  induction h with
  | start => exact ha
  | block e _ ih => exact (ih (outputError_of_take he)).taken (take_taken he) he
  | clock _ ih => exact (ih he).of_same rfl id rfl
  | aside live preamble sourceErrors _ ih => exact (ih he).of_same rfl id rfl
  | look _ ih => exact (ih he).look he

namespace Writer

variable {c : Config} {h : Host}

theorem startCapture_paged {w : σ} (hs : startCapture c h (Ledger.blank w) = (.ok x, l)) :
    Paged c.rotation.triggers (Course.begin x l) := by
  have hst := startCapture_started hs
  obtain ⟨_, _, hopen⟩ := startCapture_openNext hs
  obtain ⟨f, hf, hbytes, hpackets⟩ := Output.openNext_counts hopen
  obtain ⟨path, ring, l₀, hl₀, -, ho⟩ := hst.opened
  have hpath : x.output.ring.getLast?.getD "" = path := by
    rw [ho.ring]
    simp
  unfold Course.begin
  rw [hpath]
  refine ⟨?_, congrArg RotationPolicy.triggers ho.policy, [], _, false, rfl, nofun, .opened path _,
    fun _ => ⟨⟨f, hf, hbytes, hpackets⟩, ho.state⟩⟩
  rw [← Deed.files_eq]
  show l.files = [] ++ [_]
  rw [ho.files, hl₀]

end Writer

end CaptureRing
