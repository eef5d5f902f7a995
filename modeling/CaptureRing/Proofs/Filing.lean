/-
  CaptureRing.Proofs.Filing — which blocks stand in which file.

  The order in which blocks reach the merger decides what is written for each of them,
  and where the files change decides what each file starts with. `Filed` says how files
  may come about from an order; nothing else is needed to know their bytes.

  Proved, for a ledger over any world:
  - `handle_cases`: everything that one block can do to the writer and to the files;
  - `Released.kept`: as long as nothing ended the writing, the files are filed from the
    whole order; what ended it left them as they were, but for a file opened in vain;
  - `startCapture_started`: the first file holds the seed of a merger that saw nothing;
  - `Released.unstopped`: without conditions, none is met.
-/

import CaptureRing.Capture
import CaptureRing.Proofs.Arrivals
import CaptureRing.Proofs.Ledger
import Mathlib.Data.List.Induction

namespace CaptureRing

/-! ## The merger along an order -/

namespace Merger

def after (m : Merger) (order : List (Nat × Block)) : Merger :=
  order.foldl (fun m e => (m.process e.1 e.2).2) m

def gives (source : Nat) (b : Block) (m : Merger) : Option Bytes := (m.process source b).1.toOption.join

theorem after_snoc (m : Merger) (order : List (Nat × Block)) (source : Nat) (b : Block) :
    m.after (order ++ [(source, b)]) = ((m.after order).process source b).2 := by
  unfold after
  rw [List.foldl_append]
  rfl

end Merger

/-! ## Files, and what stands in them -/

structure Written where
  /-- What had gone through the merger before it. -/
  before : List (Nat × Block)
  source : Nat
  block : Block
  deriving DecidableEq, Repr

structure Volume where
  /-- What had gone through the merger when it was opened. -/
  before : List (Nat × Block)
  /-- The block it was opened for. -/
  next : Option Block
  entries : List Written
  deriving DecidableEq, Repr

/-- What was written for it by a merger that began as `m`. -/
def Written.bytes (m : Merger) (e : Written) : Bytes := ((m.after e.before).gives e.source e.block).getD []

namespace Volume

variable (m : Merger)

def seed (v : Volume) : Bytes := (m.after v.before).seed v.next

/-- The writes of the file: its seed, then one for each block. -/
def writes (v : Volume) : List Bytes :=
  (if (v.seed m).isEmpty then [] else [v.seed m]) ++ v.entries.map (Written.bytes m)

def add (e : Written) (v : Volume) : Volume := { v with entries := v.entries ++ [e] }

def packets (v : Volume) : Nat := v.entries.countP (·.block.isPacket)

theorem writes_add (v : Volume) (e : Written) : (v.add e).writes m = v.writes m ++ [e.bytes m] := by
  unfold writes add
  rw [List.map_append, ← List.append_assoc]
  rfl

theorem packets_add (v : Volume) (e : Written) :
    (v.add e).packets = v.packets + if e.block.isPacket then 1 else 0 := by
  unfold packets add
  rw [List.countP_append, List.countP_singleton]

theorem flatten_writes (v : Volume) : (v.writes m).flatten = v.seed m ++ v.entries.flatMap (Written.bytes m) := by
  unfold writes
  rw [List.flatten_append, List.flatMap_def]
  by_cases h : (v.seed m).isEmpty = true
  · rw [if_pos h, List.isEmpty_iff.mp h]; rfl
  · rw [if_neg h, List.flatten_singleton]

end Volume

inductive Filed (m : Merger) : List (Nat × Block) → List Volume → Prop
  | start : Filed m [] [⟨[], none, []⟩]
  /-- A block for which nothing is written. -/
  | skip {order : List (Nat × Block)} {vols : List Volume} (source : Nat) (b : Block) :
      Filed m order vols → (m.after order).gives source b = none → Filed m (order ++ [(source, b)]) vols
  /-- A block in the current file. -/
  | put {order : List (Nat × Block)} {vols : List Volume} {v : Volume} (source : Nat) (b : Block) {data : Bytes} :
      Filed m order (vols ++ [v]) → (m.after order).gives source b = some data →
        Filed m (order ++ [(source, b)]) (vols ++ [v.add ⟨order, source, b⟩])
  /-- A block in a new file. -/
  | turn {order : List (Nat × Block)} {vols : List Volume} (source : Nat) (b : Block) {data : Bytes} :
      Filed m order vols → (m.after order).gives source b = some data →
        Filed m (order ++ [(source, b)]) (vols ++ [⟨order, some b, [⟨order, source, b⟩]⟩])

theorem Filed.exists_last {m : Merger} {order : List (Nat × Block)} {vols : List Volume} (h : Filed m order vols) :
    ∃ earlier v, vols = earlier ++ [v] := by
  induction h with
  | start => exact ⟨[], _, rfl⟩
  | skip source b _ _ ih => exact ih
  | put source b _ _ _ => exact ⟨_, _, rfl⟩
  | turn source b _ _ _ => exact ⟨_, _, rfl⟩

/-! ## The blocks written, whatever the files -/

/-- The blocks for which something is written, of those that go through the merger after
    `before`. -/
def givenAfter (m : Merger) (before : List (Nat × Block)) : List (Nat × Block) → List Written
  | [] => []
  | (source, b) :: rest =>
    (if ((m.after before).gives source b).isSome then [⟨before, source, b⟩] else [])
      ++ givenAfter m (before ++ [(source, b)]) rest

def given (m : Merger) (order : List (Nat × Block)) : List Written := givenAfter m [] order

@[simp] theorem given_nil (m : Merger) : given m [] = [] := rfl

theorem given_snoc (m : Merger) (order : List (Nat × Block)) (source : Nat) (b : Block) :
    given m (order ++ [(source, b)])
      = given m order ++ if ((m.after order).gives source b).isSome then [⟨order, source, b⟩] else [] := by
  suffices h : ∀ before, givenAfter m before (order ++ [(source, b)]) = givenAfter m before order ++
      if ((m.after (before ++ order)).gives source b).isSome then [⟨before ++ order, source, b⟩] else [] from h []
  induction order with
  | nil =>
    intro before
    simp only [List.nil_append, List.append_nil, givenAfter]
  | cons e rest ih =>
    intro before
    simp only [List.cons_append, givenAfter, ih, List.append_assoc, List.nil_append]

/-- The last element of a list is the one split off, or stands behind it. -/
theorem snoc_eq_append_cons {α : Type} {l a c : List α} {x y : α} (h : l ++ [x] = a ++ y :: c) :
    (c = [] ∧ x = y ∧ l = a) ∨ ∃ c', c = c' ++ [x] ∧ l = a ++ y :: c' := by
  rcases List.eq_nil_or_concat c with rfl | ⟨c', z, rfl⟩
  · obtain ⟨ha, hx⟩ := List.append_inj' h rfl
    exact Or.inl ⟨rfl, List.singleton_inj.mp hx, ha⟩
  · rw [List.concat_eq_append, ← List.cons_append, ← List.append_assoc] at h
    obtain ⟨ha, hx⟩ := List.append_inj' h rfl
    rw [List.concat_eq_append, List.singleton_inj.mp hx]
    exact Or.inr ⟨c', rfl, ha⟩

/-- What was written before a block is what its history gives. -/
theorem given_before {m : Merger} {order : List (Nat × Block)} {before after : List Written} {e : Written}
    (h : given m order = before ++ e :: after) :
    given m e.before = before ∧ e.before ++ [(e.source, e.block)] <+: order ∧
      ((m.after e.before).gives e.source e.block).isSome = true := by
  induction order using List.reverseRecOn generalizing after with
  | nil =>
    rw [given_nil] at h
    exact absurd h.symm (List.append_ne_nil_of_right_ne_nil _ (List.cons_ne_nil _ _))
  | append_singleton order x ih =>
    obtain ⟨source, b⟩ := x
    rw [given_snoc] at h
    split at h
    · rename_i hg
      rcases snoc_eq_append_cons h with ⟨-, rfl, hb⟩ | ⟨after', -, hb⟩
      · exact ⟨hb, List.prefix_rfl, hg⟩
      · obtain ⟨h₁, h₂, h₃⟩ := ih hb
        exact ⟨h₁, h₂.trans (List.prefix_append _ _), h₃⟩
    · rw [List.append_nil] at h
      obtain ⟨h₁, h₂, h₃⟩ := ih h
      exact ⟨h₁, h₂.trans (List.prefix_append _ _), h₃⟩

namespace Filed

variable {m : Merger} {order : List (Nat × Block)} {vols earlier later : List Volume} {v : Volume}

/-- One file after the other, the blocks are those for which something is written. -/
theorem flatMap_entries (h : Filed m order vols) : vols.flatMap (·.entries) = given m order := by
  induction h with
  | start => rfl
  | skip source b _ hg ih =>
    rw [given_snoc, hg, ih]
    exact (List.append_nil _).symm
  | put source b _ hg ih =>
    rw [given_snoc, hg, ← ih, List.flatMap_append, List.flatMap_append, List.append_assoc]
    simp [Volume.add]
  | turn source b _ hg ih =>
    rw [given_snoc, hg, List.flatMap_append, ih]
    rfl

/-- When a file was opened, what had been written stands in the files before it. -/
theorem given_opened (h : Filed m order vols) (hv : vols = earlier ++ v :: later) :
    given m v.before = earlier.flatMap (·.entries) := by
  induction h generalizing v later with
  | start =>
    rcases snoc_eq_append_cons (l := []) hv with ⟨-, rfl, rfl⟩ | ⟨_, -, hn⟩
    · rfl
    · exact absurd hn.symm (List.append_ne_nil_of_right_ne_nil _ (List.cons_ne_nil _ _))
  | skip source b _ _ ih => exact ih hv
  | @put _ _ last source b _ _ _ ih =>
    rcases snoc_eq_append_cons hv with ⟨-, rfl, rfl⟩ | ⟨later', -, rfl⟩
    · exact ih (v := last) rfl
    · exact ih (by rw [List.append_assoc, List.cons_append])
  | turn source b hf _ ih =>
    rcases snoc_eq_append_cons hv with ⟨-, rfl, rfl⟩ | ⟨later', -, rfl⟩
    · exact hf.flatMap_entries.symm
    · exact ih rfl

/-- Nothing is missing in a file between its seed and a block. -/
theorem given_entry (h : Filed m order vols) (hv : v ∈ vols) {before after : List Written} {e : Written}
    (he : v.entries = before ++ e :: after) : given m e.before = given m v.before ++ before := by
  obtain ⟨earlier, later, rfl⟩ := List.append_of_mem hv
  have hall := h.flatMap_entries
  rw [List.flatMap_append, List.flatMap_cons, he, List.append_assoc, List.cons_append, ← List.append_assoc] at hall
  rw [(given_before hall.symm).1, h.given_opened rfl]

/-- A file is the first one, or was opened for its first block. -/
theorem opened_for (h : Filed m order vols) (hv : v ∈ vols) :
    (v.before = [] ∧ v.next = none) ∨
      ∃ e rest, v.entries = e :: rest ∧ v.next = some e.block ∧ e.before = v.before := by
  induction h generalizing v with
  | start =>
    rw [List.mem_singleton.mp hv]
    exact Or.inl ⟨rfl, rfl⟩
  | skip source b _ _ ih => exact ih hv
  | @put order _ last source b _ _ _ ih =>
    rcases List.mem_append.mp hv with hv | hv
    · exact ih (List.mem_append_left _ hv)
    · rw [List.mem_singleton.mp hv]
      rcases ih (List.mem_append_right _ (List.mem_singleton_self _)) with h | ⟨e, rest, he, hn, hb⟩
      · exact Or.inl h
      · refine Or.inr ⟨e, rest ++ [⟨order, source, b⟩], ?_, hn, hb⟩
        unfold Volume.add
        rw [he]
        rfl
  | turn source b _ _ ih =>
    rcases List.mem_append.mp hv with hv | hv
    · exact ih hv
    · rw [List.mem_singleton.mp hv]
      exact Or.inr ⟨_, [], rfl, rfl, rfl⟩

end Filed

namespace Writer

variable {σ : Type}

theorem not_isDone {x : Writer} (h : x.isDone = false) : x.outputError = none ∧ x.tally.fired = none := by
  unfold isDone at h
  rw [Bool.or_eq_false_iff] at h
  exact ⟨Option.isNone_iff_eq_none.mp (Option.isSome_eq_false_iff.mp h.1),
    Option.isNone_iff_eq_none.mp (Option.isSome_eq_false_iff.mp h.2)⟩

theorem isDone_eq_false {x : Writer} (he : x.outputError = none) (hf : x.tally.fired = none) : x.isDone = false := by
  unfold isDone
  rw [he, hf]
  rfl

/-! ## The writer and its files -/

/-- The writer and the files, once the blocks `order` went to the output, of which it took
    those of `taken`; a file opened in vain stands behind the others. -/
structure Kept (m : Merger) (order : List (Nat × Block)) (x : Writer) (l : Ledger σ) (taken : List (Nat × Block))
    (vols : List Volume) (vain : List (List Bytes)) : Prop where
  filed : Filed m taken vols
  behind : taken <+: order
  upToDate : x.isDone = false → taken = order ∧ x.merger = m.after order
  writes : l.writes = vols.map (Volume.writes m) ++ vain
  inVain : vain = [] ∨ x.outputError.isSome = true ∧
    (vain = [[]] ∨ ∃ b, vain = [[(m.after taken).seed (some b)]])
  packets : x.packets = (vols.map Volume.packets).sum

variable {m : Merger} {order taken : List (Nat × Block)} {x : Writer} {l : Ledger σ} {vols : List Volume}
  {vain : List (List Bytes)}

structure Advanced (source : Nat) (b : Block) (written : Nat) (x x' : Writer) : Prop where
  merger : x'.merger = (x.merger.process source b).2
  packets : x'.packets = x.packets + written
  outputError : x'.outputError = none

namespace Kept

theorem noneInVain (h : Kept m order x l taken vols vain) (hx : x.outputError = none) : vain = [] := by
  rcases h.inVain with hv | ⟨he, -⟩
  · exact hv
  · rw [hx] at he; cases he

theorem of_same (h : Kept m order x l taken vols vain) {x' : Writer} {l' : Ledger σ}
    (hm : x'.merger = x.merger) (he : x'.outputError = x.outputError) (hp : x'.packets = x.packets)
    (hd : x.isDone = true → x'.isDone = true) (hl : l'.files = l.files) : Kept m order x' l' taken vols vain where
  filed := h.filed
  behind := h.behind
  upToDate hx' := by
    rw [hm]
    refine h.upToDate (Bool.eq_false_iff.mpr fun hx => ?_)
    rw [hd hx] at hx'
    cases hx'
  writes := (congrArg _ hl).trans h.writes
  inVain := by rw [he]; exact h.inVain
  packets := hp.trans h.packets

theorem skipped (h : Kept m order x l taken vols vain) {source : Nat} {b : Block} (hd : x.isDone = false)
    (hg : x.merger.gives source b = none) {x' : Writer} (ha : Advanced source b 0 x x') :
    Kept m (order ++ [(source, b)]) x' l (order ++ [(source, b)]) vols [] := by
  obtain ⟨rfl, hm⟩ := h.upToDate hd
  rw [hm] at hg
  obtain rfl := h.noneInVain (not_isDone hd).1
  refine ⟨h.filed.skip source b hg, List.prefix_rfl, fun _ => ⟨rfl, ?_⟩, h.writes, Or.inl rfl,
    ha.packets.trans h.packets⟩
  rw [ha.merger, hm, Merger.after_snoc]

theorem put (h : Kept m order x l taken vols vain) {source : Nat} {b : Block} {data : Bytes} (hd : x.isDone = false)
    (hg : x.merger.gives source b = some data) {x' : Writer} {l' : Ledger σ}
    (ha : Advanced source b (if b.isPacket then 1 else 0) x x') (hl : l'.files = l.files.modifyLast (·.note data)) :
    ∃ vols', Kept m (order ++ [(source, b)]) x' l' (order ++ [(source, b)]) vols' [] := by
  obtain ⟨rfl, hm⟩ := h.upToDate hd
  rw [hm] at hg
  obtain rfl := h.noneInVain (not_isDone hd).1
  obtain ⟨earlier, v, rfl⟩ := h.filed.exists_last
  refine ⟨_, h.filed.put source b hg, List.prefix_rfl, fun _ => ⟨rfl, ?_⟩, ?_, Or.inl rfl, ?_⟩
  · rw [ha.merger, hm, Merger.after_snoc]
  · have hw := h.writes
    rw [List.append_nil, List.map_append, List.map_singleton] at hw
    rw [Ledger.writes_note hw hl, List.append_nil, List.map_append, List.map_singleton, Volume.writes_add]
    unfold Written.bytes
    rw [hg]
    rfl
  · rw [ha.packets, h.packets]
    simp only [List.map_append, List.map_singleton, List.sum_append, List.sum_singleton, Volume.packets_add]
    omega

theorem turned (h : Kept m order x l taken vols vain) {source : Nat} {b : Block} {data : Bytes} (hd : x.isDone = false)
    (hg : x.merger.gives source b = some data) {x' : Writer} {l₁ l' : Ledger σ} {path : String}
    (ha : Advanced source b (if b.isPacket then 1 else 0) x x')
    (ho : l₁.files = l.files ++ [.seeded path (x.merger.seed (some b))])
    (hl : l'.files = l₁.files.modifyLast (·.note data)) :
    ∃ vols', Kept m (order ++ [(source, b)]) x' l' (order ++ [(source, b)]) vols' [] := by
  obtain ⟨rfl, hm⟩ := h.upToDate hd
  rw [hm] at hg ho
  obtain rfl := h.noneInVain (not_isDone hd).1
  refine ⟨_, h.filed.turn source b hg, List.prefix_rfl, fun _ => ⟨rfl, ?_⟩, ?_, Or.inl rfl, ?_⟩
  · rw [ha.merger, hm, Merger.after_snoc]
  · have hw := h.writes
    rw [List.append_nil] at hw
    have ho' := congrArg (List.map LedgerFile.writes) ho
    rw [List.map_append, List.map_singleton] at ho'
    rw [Ledger.writes_note (ho'.trans (congrArg (· ++ _) hw)) hl, List.append_nil, List.map_append,
      List.map_singleton]
    unfold Volume.writes
    rw [List.map_singleton]
    unfold Written.bytes
    rw [hg]
    rfl
  · rw [ha.packets, h.packets, List.map_append, List.sum_append]
    unfold Volume.packets
    rw [List.map_singleton, List.sum_singleton, List.countP_singleton]

theorem failed (h : Kept m order x l taken vols vain) {source : Nat} {b : Block} (hd : x.isDone = false)
    {x' : Writer} {l' : Ledger σ} {opened : List LedgerFile} (he : x'.outputError.isSome = true)
    (hp : x'.packets = x.packets) (hl : l'.files = l.files ++ opened)
    (ho : ∀ f ∈ opened, opened = [f] ∧ (f.writes = [] ∨ f.writes = [x.merger.seed (some b)])) :
    Kept m (order ++ [(source, b)]) x' l' order vols (opened.map (·.writes)) := by
  obtain ⟨rfl, hm⟩ := h.upToDate hd
  obtain rfl := h.noneInVain (not_isDone hd).1
  refine ⟨h.filed, List.prefix_append _ _, fun hx => ?_, ?_, ?_, hp.trans h.packets⟩
  · rw [(not_isDone hx).1] at he
    cases he
  · have hw := h.writes
    rw [List.append_nil] at hw
    rw [← hw]
    exact (congrArg _ hl).trans List.map_append
  · cases opened with
    | nil => exact Or.inl rfl
    | cons f rest =>
      obtain ⟨hf, hcontent⟩ := ho f List.mem_cons_self
      rw [hf, List.map_singleton]
      refine Or.inr ⟨he, ?_⟩
      rcases hcontent with hc | hc
      · exact Or.inl (by rw [hc])
      · exact Or.inr ⟨b, by rw [hc, hm]⟩

theorem ended (h : Kept m order x l taken vols vain) (hd : x.isDone = true) (source : Nat) (b : Block) :
    Kept m (order ++ [(source, b)]) x l taken vols vain where
  filed := h.filed
  behind := h.behind.trans (List.prefix_append _ _)
  upToDate hx := by
    rw [hd] at hx
    cases hx
  writes := h.writes
  inVain := h.inVain
  packets := h.packets

end Kept

variable [World σ]

/-! ## One block -/

/-- Opening a file fails, or notes one more file and changes nothing but the counts. -/
theorem openNext_cases (seed : Bytes) (x : Writer) (l : Ledger σ) :
    ((x.openNext seed l).1.outputError.isSome = true ∧ (x.openNext seed l).1.packets = x.packets ∧
        ((x.openNext seed l).2.files = l.files ∨ ∃ path, (x.openNext seed l).2.files = l.files ++ [⟨path, []⟩])) ∨
      ((x.openNext seed l).1.outputError = x.outputError ∧ (x.openNext seed l).1.packets = x.packets ∧
        (x.openNext seed l).1.merger = x.merger ∧
        ∃ path ring, Output.NextPath (σ := Ledger σ) x.output path ring ∧
          Output.Opened seed path ring x.output (x.openNext seed l).1.output l (x.openNext seed l).2) := by
  have h := Output.openNext_opening seed x.output l
  unfold openNext
  split
  · rename_i e output l' heq
    rw [heq] at h
    cases h with
    | failed hf => exact Or.inl ⟨rfl, rfl, hf⟩
  · rename_i output l' heq
    rw [heq] at h
    cases h with
    | opened path ring hn ho => exact Or.inr ⟨rfl, rfl, rfl, path, ring, hn, ho⟩

/-- A write fails, or is noted and changes nothing but the counts. -/
theorem put_cases (data : Bytes) (packet : Bool) (x : Writer) (l : Ledger σ) :
    ((x.put data packet l).1.outputError.isSome = true ∧ (x.put data packet l).1.packets = x.packets ∧
        (x.put data packet l).2.files = l.files) ∨
      ((x.put data packet l).1.outputError = x.outputError ∧
        (x.put data packet l).1.packets = x.packets + (if packet then 1 else 0) ∧
        (x.put data packet l).1.merger = x.merger ∧
        (x.put data packet l).2.files = l.files.modifyLast (·.note data) ∧
        Output.SameShelf x.output (x.put data packet l).1.output) := by
  unfold put
  split
  · rename_i e output l' heq
    exact Or.inl ⟨rfl, rfl, Output.write_error heq⟩
  · rename_i full output l' heq
    obtain ⟨hf, hs, -⟩ := Output.write_ok heq
    refine Or.inr ⟨rfl, ?_, rfl, hf, hs⟩
    show (if packet then x.packets + 1 else x.packets) = _
    split <;> rfl

inductive Handling (source : Nat) (b : Block) (x : Writer) (l : Ledger σ) (r : Writer × Ledger σ) : Prop
  /-- Nothing is written any more. -/
  | ended : x.isDone = true → r = (x, l) → Handling source b x l r
  /-- Nothing is written for the block. -/
  | skipped : x.isDone = false → x.merger.gives source b = none → Advanced source b 0 x r.1 →
      r.1.output = x.output → r.2 = l → Handling source b x l r
  /-- It is written to the current file. -/
  | put {data : Bytes} : x.isDone = false → x.merger.gives source b = some data → x.output.state ≠ .rotating →
      Advanced source b (if b.isPacket then 1 else 0) x r.1 → r.2.files = l.files.modifyLast (·.note data) →
      Output.SameShelf x.output r.1.output → Handling source b x l r
  /-- It is written to a new file. -/
  | turned {data : Bytes} {o : Output} {l₁ : Ledger σ} (path : String) (ring : List String) : x.isDone = false →
      x.merger.gives source b = some data → x.output.state = .rotating →
      Advanced source b (if b.isPacket then 1 else 0) x r.1 → Output.NextPath (σ := Ledger σ) x.output path ring →
      Output.Opened (x.merger.seed (some b)) path ring x.output o l l₁ →
      r.2.files = l₁.files.modifyLast (·.note data) → Output.SameShelf o r.1.output → Handling source b x l r
  /-- It can not be written, and a file may have been opened for it. -/
  | failed (opened : List LedgerFile) : x.isDone = false → r.1.outputError.isSome = true →
      r.1.packets = x.packets → r.2.files = l.files ++ opened →
      (∀ f ∈ opened, opened = [f] ∧ (f.writes = [] ∨ f.writes = [x.merger.seed (some b)])) →
      Handling source b x l r

theorem put_handling {source : Nat} {b : Block} {x : Writer} {l : Ledger σ} {data : Bytes} (hd : x.isDone = false)
    (hg : x.merger.gives source b = some data) (hs : x.output.state ≠ .rotating) :
    Handling source b x l ({ x with merger := (x.merger.process source b).2 }.put data b.isPacket l) := by
  have herr := (not_isDone hd).1
  rcases put_cases data b.isPacket { x with merger := (x.merger.process source b).2 } l with
    ⟨he, hpk, hf⟩ | ⟨he, hpk, hmer, hf, hshelf⟩
  · exact .failed [] hd he hpk (by rw [hf, List.append_nil]) fun f hf => absurd hf List.not_mem_nil
  · exact .put hd hg hs ⟨hmer, hpk, he.trans herr⟩ hf hshelf

theorem turn_handling {source : Nat} {b : Block} {x : Writer} {l : Ledger σ} {data : Bytes} (hd : x.isDone = false)
    (hg : x.merger.gives source b = some data) (hs : x.output.state = .rotating) {r : Writer × Ledger σ}
    (hr : { x with merger := (x.merger.process source b).2 }.openNext (x.merger.seed (some b)) l = r) :
    Handling source b x l (if r.1.outputError.isSome then r else r.1.put data b.isPacket r.2) := by
  have herr := (not_isDone hd).1
  have hopen := openNext_cases (x.merger.seed (some b)) { x with merger := (x.merger.process source b).2 } l
  rw [hr] at hopen
  rcases hopen with ⟨he, hpk, hf⟩ | ⟨he, hpk, hmer, path, ring, hn, ho⟩
  · rw [if_pos he]
    rcases hf with hf | ⟨path, hf⟩
    · exact .failed [] hd he hpk (by rw [hf, List.append_nil]) fun f hf => absurd hf List.not_mem_nil
    · refine .failed [⟨path, []⟩] hd he hpk hf fun f hm => ?_
      rw [List.mem_singleton.mp hm]
      exact ⟨rfl, Or.inl rfl⟩
  · have hne : ¬ r.1.outputError.isSome = true := by
      rw [he]
      show ¬ x.outputError.isSome = true
      rw [herr]
      exact Bool.false_ne_true
    rw [if_neg hne]
    rcases put_cases data b.isPacket r.1 r.2 with ⟨he', hpk', hf'⟩ | ⟨he', hpk', hmer', hf', hs'⟩
    · -- the new file is there, and holds its seed at most
      refine .failed [.seeded path (x.merger.seed (some b))] hd he' (hpk'.trans hpk) (hf'.trans ho.files) fun f hm => ?_
      rw [List.mem_singleton.mp hm]
      refine ⟨rfl, ?_⟩
      unfold LedgerFile.seeded
      split
      · exact Or.inl rfl
      · exact Or.inr rfl
    · exact .turned path ring hd hg hs ⟨hmer'.trans hmer, hpk'.trans (congrArg (· + _) hpk), (he'.trans he).trans herr⟩
        hn ho hf' hs'

theorem handle_cases (source : Nat) (b : Block) (x : Writer) (l : Ledger σ) :
    Handling source b x l (x.handle source b l) := by
  unfold handle
  by_cases hdone : x.isDone = true
  · rw [if_pos hdone]
    exact .ended hdone rfl
  have hd : x.isDone = false := Bool.eq_false_iff.mpr hdone
  have herr : x.outputError = none := (not_isDone hd).1
  rw [if_neg hdone]
  dsimp only
  split
  · rename_i e merger hp
    refine .skipped hd ?_ ⟨by rw [hp], rfl, herr⟩ rfl rfl
    unfold Merger.gives
    rw [hp]
    rfl
  · rename_i merger hp
    refine .skipped hd ?_ ⟨by rw [hp], rfl, herr⟩ rfl rfl
    unfold Merger.gives
    rw [hp]
    rfl
  · rename_i data merger hp
    have hg : x.merger.gives source b = some data := by
      unfold Merger.gives
      rw [hp]
      rfl
    obtain rfl : (x.merger.process source b).2 = merger := by rw [hp]
    by_cases hs : x.output.state = .rotating
    · rw [if_pos hs]
      exact turn_handling hd hg hs rfl
    · rw [if_neg hs]
      exact put_handling hd hg hs

/-- What has stopped the writer stays what has stopped it. -/
theorem fired_lookOver {x : Writer} {c : Condition} (h : x.tally.fired = some c) (w : σ) :
    (x.lookOver w).1.tally.fired = some c := by
  have hkept : (if (x.output.checkRotation w).1 = true then x.tally.addFile else x.tally).fired = some c := by
    split <;> exact h
  unfold lookOver checkTally
  dsimp only
  rw [Tally.check_of_fired _ hkept]
  exact hkept

theorem lookOver_keeps (x : Writer) (l : Ledger σ) :
    (x.lookOver l).2.files = l.files ∧ (x.lookOver l).1.merger = x.merger ∧
      (x.lookOver l).1.outputError = x.outputError ∧ (x.lookOver l).1.packets = x.packets ∧
      Output.SameShelf x.output (x.lookOver l).1.output ∧ (x.isDone = true → (x.lookOver l).1.isDone = true) := by
  refine ⟨Output.checkRotation_files x.output l, rfl, rfl, rfl, Output.checkRotation_shelf x.output l, ?_⟩
  unfold isDone
  rw [Bool.or_eq_true, Bool.or_eq_true]
  rintro (he | hf)
  · exact Or.inl he
  · obtain ⟨c, hc⟩ := Option.isSome_iff_exists.mp hf
    refine Or.inr ?_
    rw [fired_lookOver hc]
    rfl

/-! ## A stretch of a capture -/

theorem Kept.handle (h : Kept m order x l taken vols vain) (source : Nat) (b : Block) :
    ∃ taken' vols' vain', Kept m (order ++ [(source, b)]) (x.handle source b l).1 (x.handle source b l).2
      taken' vols' vain' := by
  cases handle_cases source b x l with
  | ended hd hr =>
    rw [hr]
    exact ⟨_, _, _, h.ended hd source b⟩
  | skipped hd hg ha _ hl =>
    rw [hl]
    exact ⟨_, _, _, h.skipped hd hg ha⟩
  | put hd hg _ ha hl _ =>
    obtain ⟨vols', hk⟩ := h.put hd hg ha hl
    exact ⟨_, vols', _, hk⟩
  | turned path ring hd hg _ ha _ ho hl _ =>
    obtain ⟨vols', hk⟩ := h.turned hd hg ha ho.files hl
    exact ⟨_, vols', _, hk⟩
  | failed opened hd he hp hl ho => exact ⟨_, _, _, h.failed hd he hp hl ho⟩

/-- The files along any stretch of a capture. -/
theorem Released.kept {a b : Writer × Ledger σ} (h : Released a order b)
    (ha : Kept m [] a.1 a.2 [] [⟨[], none, []⟩] []) :
    ∃ taken vols vain, Kept m order b.1 b.2 taken vols vain := by
  induction h with
  | start => exact ⟨_, _, _, ha⟩
  | block source bl _ ih =>
    obtain ⟨_, _, _, hk⟩ := ih
    exact hk.handle source bl
  | clock _ ih =>
    obtain ⟨_, _, _, hk⟩ := ih
    exact ⟨_, _, _, hk.of_same rfl rfl rfl id rfl⟩
  | aside live preamble sourceErrors _ ih =>
    obtain ⟨_, _, _, hk⟩ := ih
    exact ⟨_, _, _, hk.of_same rfl rfl rfl id rfl⟩
  | @look _ x l _ ih =>
    obtain ⟨_, _, _, hk⟩ := ih
    obtain ⟨hl, hm, he, hp, -, hd⟩ := lookOver_keeps x l
    exact ⟨_, _, _, hk.of_same hm he hp hd hl⟩

/-- What has ended the writing has ended it for good. -/
theorem Released.isDone {a b : Writer × Ledger σ} (h : Released a order b) (ha : a.1.isDone = true) :
    b.1.isDone = true := by
  induction h with
  | start => exact ha
  | block source bl _ ih => rw [handle_of_isDone ih]; exact ih
  | clock _ ih => exact ih
  | aside live preamble sourceErrors _ ih => exact ih
  | @look _ x l _ ih => exact (lookOver_keeps x l).2.2.2.2.2 ih

/-! ## The beginning -/

structure Started (c : Config) (h : Host) (x : Writer) (l : Ledger σ) : Prop where
  merger : x.merger = Merger.ofCount h c.sources.length
  live : x.live = List.replicate c.sources.length true
  preamble : ∃ began, x.preamble = match x.merger.mode with
    | .synthesized => some (Preamble.start c.sources.length began)
    | .passthrough => none
  packets : x.packets = 0
  outputError : x.outputError = none
  conditions : x.tally.conditions = c.autostop
  fired : x.tally.fired = none
  opened : ∃ (path : String) (ring : List String) (l₀ : Ledger σ), l₀.files = [] ∧
    Output.NextPath (σ := Ledger σ) (Output.make c.output c.rotation) path ring ∧
    Output.Opened (x.merger.seed none) path ring (Output.make c.output c.rotation) x.output l₀ l

theorem startCapture_started {c : Config} {h : Host} {w : σ} {x : Writer} {l : Ledger σ}
    (hs : startCapture c h (Ledger.blank w) = (.ok x, l)) : Started c h x l := by
  unfold startCapture at hs
  split at hs
  · cases hs
  split at hs
  · cases hs
  split at hs
  · dsimp only at hs
    split at hs
    · cases hs
    · rename_i output l₁ ho
      have hopen := Output.openNext_opening ((Merger.ofCount h c.sources.length).seed none)
        (Output.make c.output c.rotation) (World.now (Ledger.blank w)).2
      rw [ho] at hopen
      cases hopen with
      | opened path ring hn hop =>
        cases hs
        exact ⟨rfl, rfl, ⟨_, rfl⟩, rfl, rfl, rfl, rfl, path, ring, _, rfl, hn,
          ⟨hop.files, hop.template, hop.policy, hop.sequence, hop.ring, hop.state⟩⟩
  · cases hs

theorem Started.sized {c : Config} {h : Host} {x : Writer} {l : Ledger σ} (hs : Started c h x l) :
    Sized c.sources.length x := by
  intro p hp
  obtain ⟨began, hb⟩ := hs.preamble
  rw [hb] at hp
  split at hp
  · cases hp
    exact List.length_replicate
  · cases hp

theorem Started.held {c : Config} {h : Host} {x : Writer} {l : Ledger σ} (hs : Started c h x l) (s : Nat) :
    held s x = [] := by
  obtain ⟨began, hb⟩ := hs.preamble
  unfold Writer.held
  rw [hb]
  split
  · exact Preamble.heldOf_start ..
  · rfl

theorem Started.kept {c : Config} {h : Host} {x : Writer} {l : Ledger σ} (hs : Started c h x l) :
    Kept (Merger.ofCount h c.sources.length) [] x l [] [⟨[], none, []⟩] [] := by
  obtain ⟨path, ring, l₀, hl₀, -, ho⟩ := hs.opened
  refine ⟨.start, List.prefix_rfl, fun _ => ⟨rfl, hs.merger⟩, ?_, Or.inl rfl, hs.packets⟩
  have hseed : Volume.writes (Merger.ofCount h c.sources.length) ⟨[], none, []⟩
      = (LedgerFile.seeded path ((Merger.ofCount h c.sources.length).seed none)).writes := List.append_nil _
  unfold Ledger.writes
  rw [ho.files, hl₀, hs.merger, List.append_nil, List.map_singleton, hseed]
  rfl

/-! ## The end -/

/-- Sealing the output adds nothing to what a last flush left. -/
theorem conclude_files (x : Writer) (l : Ledger σ) : (x.conclude l).2.files = (x.flush l).2.files :=
  Output.close_files ..

theorem conclude_contents (x : Writer) (l : Ledger σ) : (x.conclude l).2.contents = (x.flush l).2.contents :=
  congrArg (List.map LedgerFile.content) (conclude_files x l)

theorem conclude_paths (x : Writer) (l : Ledger σ) : (x.conclude l).2.paths = (x.flush l).2.paths :=
  congrArg (List.map LedgerFile.path) (conclude_files x l)

@[simp] theorem conclude_packets (x : Writer) (l : Ledger σ) : (x.conclude l).1.packets = (x.flush l).1.packets := rfl

theorem conclude_kept (x : Writer) (l : Ledger σ) : (x.conclude l).1.files = (x.flush l).1.output.ring :=
  (Output.close_shelf ..).ring

theorem outputError_of_conclude {x : Writer} {l : Ledger σ} (h : (x.conclude l).1.outputError = none) :
    (x.flush l).1.outputError = none := by
  unfold conclude at h
  dsimp only at h
  split at h
  · cases h
  · exact h

/-! ## Conditions -/

def Unstopped (t : Tally) : Prop := t.conditions = [] ∧ t.fired = none

theorem Unstopped.check {t : Tally} (h : Unstopped t) (now : Nat) : Unstopped (t.check now) := by
  obtain ⟨hc, hf⟩ := h
  unfold Tally.check
  rw [hf, hc]
  exact ⟨rfl, rfl⟩

theorem Unstopped.count {x : Writer} (h : Unstopped x.tally) (size : Nat) (packet full : Bool) :
    Unstopped (count size packet full x).tally := by
  unfold Writer.count
  cases packet <;> cases full <;> exact h

theorem Unstopped.handle {x : Writer} (h : Unstopped x.tally) (source : Nat) (b : Block) (w : σ) :
    Unstopped (x.handle source b w).1.tally := by
  have hput : ∀ (data : Bytes) (packet : Bool) (x : Writer) (w : σ), Unstopped x.tally →
      Unstopped (x.put data packet w).1.tally := by
    intro data packet x w h
    unfold put
    split
    · exact h
    · exact (h.count data.length packet _).check _
  have hopen : ∀ (seed : Bytes) (x : Writer) (w : σ), Unstopped x.tally →
      Unstopped (x.openNext seed w).1.tally := by
    intro seed x w h
    unfold openNext
    split
    · exact h
    · exact h
  unfold Writer.handle
  split
  · exact h
  · dsimp only
    split
    · exact h
    · exact h
    · split
      · exact hput _ _ _ _ h
      · split
        · exact hopen _ _ _ h
        · exact hput _ _ _ _ (hopen _ _ _ h)

theorem Released.unstopped {a b : Writer × σ} (h : Released a order b) (ha : Unstopped a.1.tally) :
    Unstopped b.1.tally := by
  induction h with
  | start => exact ha
  | block source bl _ ih => exact ih.handle source bl _
  | clock _ ih => exact ih
  | aside live preamble sourceErrors _ ih => exact ih
  | @look _ x w _ ih =>
    refine Unstopped.check ?_ _
    show Unstopped (if (x.output.checkRotation w).1 = true then x.tally.addFile else x.tally)
    split
    · exact ih
    · exact ih

end Writer

end CaptureRing
