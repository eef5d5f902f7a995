/-
  CaptureRing.Proofs.Course — a capture told deed by deed.

  What a capture does that can be seen from outside are its deeds: it opens a file with a seed,
  writes a block, or looks the output over at the end of an idle poll interval. A course is a
  writer in its world together with the deeds it has done; it takes the same inputs as the
  writer does, and only tells what happens.

  A step of the writer is some bookkeeping of the preamble, by the clock, then the blocks that
  are let go (`gate`), and at an idle tick a look over. `step_eq` says so, and everything else
  about a step follows from it.

  Proved:
  - `step_eq`: a step takes the blocks of its gate one by one;
  - `course_erased`: a course runs as its writer does;
  - `Course.outputError_of_take`: a block does not mend what has failed.
-/

import CaptureRing.Proofs.Filing

namespace CaptureRing

/-! ## Deeds -/

inductive Deed where
  /-- A file was opened, with this seed. -/
  | opened (path : String) (seed : Bytes)
  /-- A block was written; `met`: the file has met its threshold with it. -/
  | wrote (data : Bytes) (packet met : Bool)
  /-- A poll interval passed, and the output was looked over. -/
  | waited (met : Bool)
  deriving DecidableEq, Repr

structure Totals where
  packets : Nat
  /-- Every byte written, seeds included. -/
  bytes : Nat
  /-- Files that have met their threshold. -/
  files : Nat
  deriving DecidableEq, Repr

namespace Totals

def add (t : Totals) : Deed → Totals
  | .opened _ seed => { t with bytes := t.bytes + seed.length }
  | .wrote data packet met =>
    ⟨t.packets + if packet then 1 else 0, t.bytes + data.length, t.files + if met then 1 else 0⟩
  | .waited met => { t with files := t.files + if met then 1 else 0 }

def of (log : List Deed) : Totals := log.foldl add ⟨0, 0, 0⟩

def meets (t : Totals) : Condition → Bool
  | .packets n => n.toNat ≤ t.packets
  | .bytes n => n.toNat ≤ t.bytes
  | .files n => n.toNat ≤ t.files
  | .duration _ => false

theorem of_snoc (log : List Deed) (d : Deed) : of (log ++ [d]) = (of log).add d := by
  unfold of
  rw [List.foldl_append]
  rfl

end Totals

namespace Deed

def isOpening : Deed → Bool
  | .opened .. => true
  | _ => false

def file (fs : List LedgerFile) : Deed → List LedgerFile
  | .opened path seed => fs ++ [.seeded path seed]
  | .wrote data _ _ => fs.modifyLast (·.note data)
  | .waited _ => fs

def files (log : List Deed) : List LedgerFile := log.foldl file []

def openings (log : List Deed) : Nat := log.countP isOpening

theorem openings_snoc (log : List Deed) (d : Deed) :
    openings (log ++ [d]) = openings log + if d.isOpening then 1 else 0 := by
  unfold openings
  rw [List.countP_append, List.countP_singleton]

theorem files_snoc (log : List Deed) (d : Deed) : files (log ++ [d]) = d.file (files log) := by
  unfold files
  rw [List.foldl_append]
  rfl

theorem length_files (log : List Deed) : (files log).length = openings log := by
  induction log using List.reverseRecOn with
  | nil => rfl
  | append_singleton log d ih =>
    rw [files_snoc, openings_snoc, ← ih]
    cases d with
    | opened path seed => simp [file, isOpening]
    | waited met => simp [file, isOpening]
    | wrote data packet met =>
      rcases List.eq_nil_or_concat (files log) with he | ⟨fs, f, he⟩
      · rw [he]
        rfl
      · rw [he, List.concat_eq_append]
        show (List.modifyLast _ _).length = _
        rw [List.modifyLast_concat]
        simp [isOpening]

end Deed

namespace Writer

variable {σ : Type} [World σ]

/-! ## What a block does -/

/-- What is done for a block: if anything is written, into a new file where the current one is
    rotating. -/
def deeds (source : Nat) (b : Block) (x : Writer) (w : σ) : List Deed :=
  if x.isDone then []
  else match x.merger.gives source b with
    | none => []
    | some data =>
      let after := (x.handle source b w).1.output
      (if x.output.state = .rotating then
        [.opened (after.ring.getLast?.getD "") (x.merger.seed (some b))] else [])
      ++ [.wrote data b.isPacket (after.state = .rotating)]

/-! ## What an input lets go -/

def settle (p : Preamble) (x : Writer) (w : σ) : List (Nat × Block) × Writer × σ :=
  if p.allReady then (p.inOrder, { x with preamble := none }, w) else ([], { x with preamble := some p }, w)

/-- A preamble that was changed: if it is kept, those of its sources that were quiet are ready. -/
def await (p : Preamble) (x : Writer) (w : σ) : List (Nat × Block) × Writer × σ :=
  if p.allReady then (p.inOrder, { x with preamble := none }, w)
  else
    let (m, w) := World.now w
    settle (p.expire m.instant x.poll.nanos) x w

def letGo (x : Writer) (w : σ) : List (Nat × Block) × Writer × σ :=
  match x.preamble with
  | none => ([], x, w)
  | some p => (p.inOrder, { x with preamble := none }, w)

def closeSource (source : Nat) (x : Writer) (w : σ) : List (Nat × Block) × Writer × σ :=
  let x := { x with live := x.live.set source false }
  match x.preamble with
  | none => ([], x, w)
  | some p => await (p.markReady source) x w

/-- The blocks that an input lets go, and the writer before the first of them. -/
def gate (i : Input) (x : Writer) (w : σ) : List (Nat × Block) × Writer × σ :=
  match i with
  | .block source b =>
    match x.preamble with
    | none => ([(source, b)], x, w)
    | some p =>
      let (m, w) := World.now w
      await (p.push source b m.instant) x w
  | .ended source => closeSource source x w
  | .failed source error => closeSource source { x with sourceErrors := x.sourceErrors ++ [(source, error)] } w
  | .idle => letGo x w
  | .disconnected => letGo { x with live := x.live.map fun _ => false } w

/-- Before the first block of a gate, only the bookkeeping of the sources is different, and the
    clock was read. -/
structure Gated (x : Writer) (w : σ) (g : List (Nat × Block) × Writer × σ) : Prop where
  writer : ∃ live preamble sourceErrors, g.2.1 = { x with live, preamble, sourceErrors }
  world : g.2.2 = w ∨ g.2.2 = (World.now w).2 ∨ g.2.2 = (World.now (World.now w).2).2

theorem await_gated (p : Preamble) (x : Writer) (w : σ) :
    (∃ preamble, (await p x w).2.1 = { x with preamble }) ∧
      ((await p x w).2.2 = w ∨ (await p x w).2.2 = (World.now w).2) := by
  unfold await settle
  by_cases h : p.allReady = true
  · rw [if_pos h]
    exact ⟨⟨none, rfl⟩, Or.inl rfl⟩
  · rw [if_neg h]
    dsimp only
    split
    · exact ⟨⟨none, rfl⟩, Or.inr rfl⟩
    · exact ⟨⟨some _, rfl⟩, Or.inr rfl⟩

theorem letGo_gated (x : Writer) (w : σ) : Gated x w (letGo x w) := by
  unfold letGo
  cases h : x.preamble with
  | none => exact ⟨⟨x.live, x.preamble, x.sourceErrors, rfl⟩, Or.inl rfl⟩
  | some p => exact ⟨⟨x.live, none, x.sourceErrors, rfl⟩, Or.inl rfl⟩

theorem closeSource_gated (source : Nat) (x : Writer) (w : σ) : Gated x w (closeSource source x w) := by
  unfold closeSource
  dsimp only
  cases x.preamble with
  | none => exact ⟨⟨x.live.set source false, _, x.sourceErrors, rfl⟩, Or.inl rfl⟩
  | some p =>
    obtain ⟨⟨preamble, hx⟩, hw⟩ := await_gated (p.markReady source) { x with live := x.live.set source false } w
    exact ⟨⟨_, preamble, x.sourceErrors, hx⟩, hw.imp_right Or.inl⟩

theorem gate_gated (i : Input) (x : Writer) (w : σ) : Gated x w (gate i x w) := by
  cases i with
  | block source b =>
    unfold gate
    cases h : x.preamble with
    | none => exact ⟨⟨x.live, x.preamble, x.sourceErrors, rfl⟩, Or.inl rfl⟩
    | some p =>
      obtain ⟨⟨preamble, hx⟩, hw⟩ := await_gated (p.push source b (World.now w).1.instant) x (World.now w).2
      exact ⟨⟨x.live, preamble, x.sourceErrors, hx⟩, Or.inr hw⟩
  | ended source => exact closeSource_gated source x w
  | failed source error =>
    obtain ⟨⟨live, preamble, sourceErrors, hx⟩, hw⟩ :=
      closeSource_gated source { x with sourceErrors := x.sourceErrors ++ [(source, error)] } w
    exact ⟨⟨live, preamble, sourceErrors, hx⟩, hw⟩
  | idle => exact letGo_gated x w
  | disconnected =>
    obtain ⟨⟨live, preamble, sourceErrors, hx⟩, hw⟩ := letGo_gated { x with live := x.live.map fun _ => false } w
    exact ⟨⟨live, preamble, sourceErrors, hx⟩, hw⟩

def takes (order : List (Nat × Block)) (s : Writer × σ) : Writer × σ :=
  order.foldl (fun s e => handle e.1 e.2 s.1 s.2) s

def pass (g : List (Nat × Block) × Writer × σ) : Writer × σ := takes g.1 g.2

theorem flush_eq (x : Writer) (w : σ) : x.flush w = pass (letGo x w) := by
  unfold flush letGo
  cases x.preamble <;> rfl

theorem hold_eq (p : Preamble) (x : Writer) (w : σ) : x.hold p w = pass (settle p x w) := by
  unfold hold settle
  by_cases h : p.allReady = true
  · simp only [h, if_true, flush, pass, takes]
  · simp only [h, pass, takes]
    rfl

theorem expire_of_none {x : Writer} (h : x.preamble = none) (w : σ) : x.expire w = (x, w) := by
  simp [expire, h]

theorem hold_expire (p : Preamble) (x : Writer) (w : σ) :
    (x.hold p w).1.expire (x.hold p w).2 = pass (await p x w) := by
  rw [hold_eq]
  unfold settle await
  by_cases h : p.allReady = true
  · simp only [h, if_true]
    exact expire_of_none (foldl_handle_aside p.inOrder ({ x with preamble := none }, w)).1 _
  · simp only [h]
    show expire { x with preamble := some p } w = _
    simp only [expire, hold_eq]
    rfl

theorem closeSource_expire (source : Nat) (x : Writer) (w : σ) :
    (x.sourceDone source w).1.expire (x.sourceDone source w).2 = pass (closeSource source x w) := by
  unfold sourceDone closeSource
  cases h : x.preamble with
  | none => simp [pass, takes, expire]
  | some p => exact hold_expire _ _ _

/-- A step takes the blocks of its gate, and looks the output over at an idle tick. -/
theorem step_eq (i : Input) (x : Writer) (w : σ) :
    step i x w = if i = .idle then lookOver (pass (gate i x w)).1 (pass (gate i x w)).2 else pass (gate i x w) := by
  cases i with
  | block source b =>
    rw [if_neg nofun]
    unfold step receive gate
    cases h : x.preamble with
    | none => exact expire_of_none ((handle_aside source b x w).1.trans h) _
    | some p => exact hold_expire _ _ _
  | ended source =>
    rw [if_neg nofun]
    exact closeSource_expire source x w
  | failed source error =>
    rw [if_neg nofun]
    exact closeSource_expire source _ w
  | idle =>
    rw [if_pos rfl]
    show x.idle w = _
    unfold idle
    rw [flush_eq]
    rfl
  | disconnected =>
    rw [if_neg nofun]
    exact flush_eq _ w

end Writer

/-! ## Courses -/

structure Course (σ : Type) where
  log : List Deed
  writer : Writer
  world : σ

namespace Course

variable {σ : Type} [World σ]

def begin (x : Writer) (w : σ) : Course σ :=
  ⟨[.opened (x.output.ring.getLast?.getD "") (x.merger.seed none)], x, w⟩

def take (e : Nat × Block) (s : Course σ) : Course σ :=
  ⟨s.log ++ s.writer.deeds e.1 e.2 s.world, (s.writer.handle e.1 e.2 s.world).1, (s.writer.handle e.1 e.2 s.world).2⟩

def takes (order : List (Nat × Block)) (s : Course σ) : Course σ := order.foldl (fun s e => s.take e) s

/-- The end of an idle poll interval; once done, nothing is looked at. -/
def look (s : Course σ) : Course σ :=
  ⟨s.log ++ (if s.writer.isDone then [] else [.waited (s.writer.output.checkRotation s.world).1]),
    (s.writer.lookOver s.world).1, (s.writer.lookOver s.world).2⟩

def pass (g : List (Nat × Block) × Writer × σ) (s : Course σ) : Course σ := takes g.1 ⟨s.log, g.2.1, g.2.2⟩

def step (i : Input) (s : Course σ) : Course σ :=
  let s' := s.pass (s.writer.gate i s.world)
  if i = .idle then s'.look else s'

def advance (i : Input) (s : Course σ) : Course σ := if s.writer.isFinished then s else s.step i

def run (is : List Input) (s : Course σ) : Course σ := is.foldl (fun s i => s.advance i) s

def finish (s : Course σ) : Course σ := s.pass (s.writer.letGo s.world)

/-! ## A course runs as its writer does -/

theorem takes_erased (order : List (Nat × Block)) (s : Course σ) :
    ((s.takes order).writer, (s.takes order).world) = Writer.takes order (s.writer, s.world) := by
  induction order generalizing s with
  | nil => rfl
  | cons e order ih => exact ih (s.take e)

theorem step_erased (i : Input) (s : Course σ) :
    ((s.step i).writer, (s.step i).world) = Writer.step i s.writer s.world := by
  have hpass := takes_erased (s.writer.gate i s.world).1 ⟨s.log, (s.writer.gate i s.world).2.1, (s.writer.gate i s.world).2.2⟩
  rw [Writer.step_eq]
  unfold step Writer.pass
  by_cases h : i = .idle
  · rw [if_pos h, if_pos h, ← hpass]
    rfl
  · rw [if_neg h, if_neg h, ← hpass]
    rfl

theorem run_erased (is : List Input) (s : Course σ) :
    ((s.run is).writer, (s.run is).world) = Writer.run is s.writer s.world := by
  induction is generalizing s with
  | nil => rfl
  | cons i is ih =>
    show (((s.advance i).run is).writer, ((s.advance i).run is).world) = _
    rw [ih]
    unfold advance
    by_cases h : s.writer.isFinished = true
    · rw [if_pos h, Writer.run_of_isFinished h, Writer.run_of_isFinished h]
    · rw [if_neg h, Writer.run_cons (Bool.eq_false_iff.mpr h), ← step_erased]

theorem finish_erased (s : Course σ) :
    (s.finish.writer, s.finish.world) = s.writer.flush s.world := by
  rw [Writer.flush_eq]
  exact takes_erased _ _

/-! ## Nothing comes after a failure -/

theorem outputError_of_take {e : Nat × Block} {s : Course σ} (h : (s.take e).writer.outputError = none) :
    s.writer.outputError = none := by
  by_cases hd : s.writer.isDone = true
  · unfold take at h
    rw [Writer.handle_of_isDone hd] at h
    exact h
  · exact (Writer.not_isDone (Bool.eq_false_iff.mpr hd)).1

end Course

namespace Writer

variable {σ : Type} [World σ]

def course (is : List Input) (x : Writer) (w : σ) : Course σ := ((Course.begin x w).run is).finish

def history (is : List Input) (x : Writer) (w : σ) : List Deed := (course is x w).log

theorem course_erased (is : List Input) (x : Writer) (w : σ) :
    ((course is x w).writer, (course is x w).world) = (run is x w).1.flush (run is x w).2 := by
  have hrun : _ = run is x w := Course.run_erased is (Course.begin x w)
  rw [← hrun]
  exact Course.finish_erased _

theorem course_writer (is : List Input) (x : Writer) (w : σ) :
    (course is x w).writer = ((run is x w).1.flush (run is x w).2).1 :=
  congrArg Prod.fst (course_erased is x w)

theorem course_world (is : List Input) (x : Writer) (w : σ) :
    (course is x w).world = ((run is x w).1.flush (run is x w).2).2 :=
  congrArg Prod.snd (course_erased is x w)

/-- Concluding a capture adds nothing to its files. -/
theorem conclude_course_files (is : List Input) (x : Writer) (l : Ledger σ) :
    ((run is x l).1.conclude (run is x l).2).2.files = (course is x l).world.files := by
  rw [conclude_files, course_world]

theorem outputError_course {is : List Input} {x : Writer} {l : Ledger σ}
    (he : ((run is x l).1.conclude (run is x l).2).1.outputError = none) :
    (course is x l).writer.outputError = none := by
  rw [course_writer]
  exact outputError_of_conclude he

end Writer

end CaptureRing
