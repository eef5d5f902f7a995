/-
  CaptureRing.Proofs.Ledger — a world that keeps a record of the files written in it.

  A ledger answers as the world behind it does, and notes every file that was opened and
  every write that went well. What is proved of a ledger over every world is proved of
  whatever the output does in any of them: the clock, the failures and the file system
  stay those of the world behind.

  Proved, of one call of the output controller:
  - `write_ok`, `write_error`: a write that succeeds is noted at the end of the last file,
    one that fails is not noted.
  - `openNext_opening`: opening notes one more file, which holds the seed and nothing else;
    where it fails it may leave a file that holds nothing.
  - `close_files`, `checkRotation_files`: no other call changes what is noted.
-/

import CaptureRing.Proofs.Calls
import Mathlib.Data.List.ModifyLast

namespace CaptureRing

structure LedgerFile where
  path : String
  /-- What was written to it, write by write. -/
  writes : List Bytes
  deriving DecidableEq, Repr

namespace LedgerFile

def content (f : LedgerFile) : Bytes := f.writes.flatten

def note (bs : Bytes) (f : LedgerFile) : LedgerFile := { f with writes := f.writes ++ [bs] }

/-- A file that was just opened and starts with these bytes; no bytes are no write. -/
def seeded (path : String) (seed : Bytes) : LedgerFile :=
  ⟨path, if seed.isEmpty then [] else [seed]⟩

theorem content_note (f : LedgerFile) (bs : Bytes) : (f.note bs).content = f.content ++ bs := by
  unfold content note
  rw [List.flatten_append, List.flatten_singleton]

theorem content_seeded (path : String) (seed : Bytes) : (seeded path seed).content = seed := by
  unfold content seeded
  cases seed with
  | nil => rfl
  | cons b bs => exact List.flatten_singleton

end LedgerFile

structure Ledger (σ : Type) where
  world : σ
  files : List LedgerFile

variable {σ : Type}

namespace Ledger

def blank (w : σ) : Ledger σ := ⟨w, []⟩

def writes (l : Ledger σ) : List (List Bytes) := l.files.map (·.writes)

def paths (l : Ledger σ) : List String := l.files.map (·.path)

def contents (l : Ledger σ) : List Bytes := l.files.map (·.content)

theorem contents_eq (l : Ledger σ) : l.contents = l.writes.map List.flatten := by
  unfold contents writes
  rw [List.map_map]
  rfl

theorem length_contents (l : Ledger σ) : l.contents.length = l.files.length := List.length_map _

theorem length_paths (l : Ledger σ) : l.paths.length = l.files.length := List.length_map _

theorem writes_note {l l' : Ledger σ} {bs : Bytes} {earlier : List (List Bytes)} {last : List Bytes}
    (hl : l.writes = earlier ++ [last]) (hn : l'.files = l.files.modifyLast (·.note bs)) :
    l'.writes = earlier ++ [last ++ [bs]] := by
  unfold writes at hl ⊢
  obtain ⟨fs, gs, hfiles, hfs, hgs⟩ := List.map_eq_append_iff.mp hl
  obtain ⟨g, rfl, rfl⟩ := List.map_eq_singleton_iff.mp hgs
  rw [hn, hfiles, List.modifyLast_concat, List.map_append, hfs]
  rfl

theorem paths_of_files {l l' : Ledger σ} (h : l'.files = l.files) : l'.paths = l.paths := congrArg (List.map LedgerFile.path) h

theorem paths_note {l l' : Ledger σ} {bs : Bytes} (hn : l'.files = l.files.modifyLast (·.note bs)) :
    l'.paths = l.paths := by
  unfold paths
  rw [hn]
  rcases List.eq_nil_or_concat l.files with he | ⟨fs, f, he⟩
  · rw [he]; rfl
  · rw [he, List.concat_eq_append, List.modifyLast_concat, List.map_append, List.map_append]
    rfl

theorem contents_note {l l' : Ledger σ} {bs : Bytes} (hn : l'.files = l.files.modifyLast (·.note bs)) :
    l'.contents = l.contents.modifyLast (· ++ bs) := by
  unfold contents
  rw [hn]
  rcases List.eq_nil_or_concat l.files with he | ⟨fs, f, he⟩
  · rw [he]
    rfl
  · rw [he, List.concat_eq_append, List.modifyLast_concat, List.map_append, List.map_append, List.map_singleton,
      List.map_singleton, List.modifyLast_concat, LedgerFile.content_note]

variable [World σ]

def now (l : Ledger σ) : Moment × Ledger σ :=
  let (m, w) := World.now l.world
  (m, { l with world := w })

def create (path : String) (l : Ledger σ) : Except IoFault Unit × Ledger σ :=
  match World.create path l.world with
  | (.ok (), w) => (.ok (), ⟨w, l.files ++ [⟨path, []⟩]⟩)
  | (.error e, w) => (.error e, { l with world := w })

def write (bs : Bytes) (l : Ledger σ) : Except IoFault Unit × Ledger σ :=
  match World.write bs l.world with
  | (.ok (), w) => (.ok (), ⟨w, l.files.modifyLast (·.note bs)⟩)
  | (.error e, w) => (.error e, { l with world := w })

def release (l : Ledger σ) : Except IoFault Unit × Ledger σ :=
  let (r, w) := World.release l.world
  (r, { l with world := w })

instance : World (Ledger σ) where
  now := now
  create := create
  write := write
  release := release

@[simp] theorem now_files (l : Ledger σ) : (World.now l).2.files = l.files := rfl

theorem create_ok {path : String} {l l' : Ledger σ} (h : World.create path l = (.ok (), l')) :
    l'.files = l.files ++ [⟨path, []⟩] := by
  change create path l = _ at h
  unfold create at h
  split at h
  · cases h; rfl
  · cases h

theorem create_error {path : String} {e : IoFault} {l l' : Ledger σ}
    (h : World.create path l = (.error e, l')) : l'.files = l.files := by
  change create path l = _ at h
  unfold create at h
  split at h
  · cases h
  · cases h; rfl

theorem write_ok {bs : Bytes} {l l' : Ledger σ} (h : World.write bs l = (.ok (), l')) :
    l'.files = l.files.modifyLast (·.note bs) := by
  change write bs l = _ at h
  unfold write at h
  split at h
  · cases h; rfl
  · cases h

theorem write_error {bs : Bytes} {e : IoFault} {l l' : Ledger σ}
    (h : World.write bs l = (.error e, l')) : l'.files = l.files := by
  change write bs l = _ at h
  unfold write at h
  split at h
  · cases h
  · cases h; rfl

/-- What goes well with a ledger went well in the world behind it. -/
theorem world_of_create {path : String} {l l' : Ledger σ} (h : World.create path l = (.ok (), l')) :
    World.create path l.world = (.ok (), l'.world) := by
  change create path l = _ at h
  unfold create at h
  split at h
  · rename_i hw
    cases h
    exact hw
  · cases h

theorem world_of_write {bs : Bytes} {l l' : Ledger σ} (h : World.write bs l = (.ok (), l')) :
    World.write bs l.world = (.ok (), l'.world) := by
  change write bs l = _ at h
  unfold write at h
  split at h
  · rename_i hw
    cases h
    exact hw
  · cases h

theorem world_of_release {r : Except IoFault Unit} {l l' : Ledger σ} (h : World.release l = (r, l')) :
    World.release l.world = (r, l'.world) := by
  change release l = _ at h
  cases h
  rfl

end Ledger

/-! ## One call of the output controller -/

variable [World σ]

namespace Output

open Ledger

/-- No file was opened in between: the files kept are the same, and only a policy with a
    trigger has set the current one rotating. -/
structure SameShelf (o o' : Output) : Prop where
  template : o'.template = o.template
  policy : o'.policy = o.policy
  sequence : o'.sequence = o.sequence
  ring : o'.ring = o.ring
  rotating : o'.state = .rotating → o.state = .rotating ∨ o.policy.isEnabled = true

theorem SameShelf.refl (o : Output) : SameShelf o o := ⟨rfl, rfl, rfl, rfl, Or.inl⟩

theorem checkRotation_shelf (o : Output) (w : σ) : SameShelf o (o.checkRotation w).2.1 := by
  rcases checkRotation_cases o w with ⟨w', h, -⟩ | ⟨h, -, he⟩
  · rw [h]; exact SameShelf.refl o
  · rw [h]; exact ⟨rfl, rfl, rfl, rfl, fun _ => Or.inr he⟩

theorem checkRotation_files (o : Output) (l : Ledger σ) : (o.checkRotation l).2.2.files = l.files := by
  rcases checkRotation_cases o l with ⟨w', h, rfl | rfl⟩ | ⟨h, -, -⟩ <;> rw [h] <;> rfl

theorem close_shelf (o : Output) (w : σ) : SameShelf o (o.close w).2.1 := by
  generalize hr : o.close w = r
  cases close_cases hr with
  | idle _ => exact ⟨rfl, rfl, rfl, rfl, nofun⟩
  | failed _ _ => exact ⟨rfl, rfl, rfl, rfl, Or.inl⟩
  | sealed _ _ => exact ⟨rfl, rfl, rfl, rfl, nofun⟩

theorem close_files (o : Output) (l : Ledger σ) : (o.close l).2.2.files = l.files := by
  generalize hr : o.close l = r
  cases close_cases hr with
  | idle _ => rfl
  | failed _ hrelease | sealed _ hrelease => exact (congrArg (fun r => r.2.files) hrelease).symm

theorem write_error {data : Bytes} {packet : Bool} {o o' : Output} {l l' : Ledger σ} {e : CaptureError}
    (h : o.write data packet l = (.error e, o', l')) : l'.files = l.files := by
  cases write_cases h with
  | refused _ => rfl
  | failed _ _ hw => exact Ledger.write_error hw

theorem same_of_write_error {data : Bytes} {packet : Bool} {o o' : Output} {l l' : Ledger σ} {e : CaptureError}
    (h : o.write data packet l = (.error e, o', l')) : o' = o := by
  cases write_cases h with
  | refused _ | failed _ _ _ => rfl

theorem write_ok {data : Bytes} {packet met : Bool} {o o' : Output} {l l' : Ledger σ}
    (h : o.write data packet l = (.ok met, o', l')) :
    l'.files = l.files.modifyLast (·.note data) ∧ SameShelf o o' ∧ (packet = false → o'.state = o.state) := by
  cases write_cases h with
  | block _ _ _ hw => exact ⟨Ledger.write_ok hw, ⟨rfl, rfl, rfl, rfl, Or.inl⟩, fun _ => rfl⟩
  | @packet f l₁ _ _ _ hpacket _ _ hw hlook =>
    have hs := checkRotation_shelf (o.counting data packet f) l₁
    have hn := checkRotation_files (o.counting data packet f) l₁
    rw [hlook] at hs hn
    refine ⟨hn.trans (Ledger.write_ok hw), ⟨hs.template, hs.policy, hs.sequence, hs.ring, hs.rotating⟩, ?_⟩
    rw [hpacket]
    exact nofun

inductive NextPath (o : Output) : String → List String → Prop
  /-- The oldest file is written over. -/
  | reuse {oldest : String} {rest : List String} : o.reused? = some (oldest, rest) → NextPath o oldest rest
  | fresh (w : σ) : o.reused? = none →
      NextPath o (({ o with sequence := o.sequence + 1 } : Output).freshPath w).1 o.ring

theorem nextPath_cases (o : Output) (l : Ledger σ) :
    ∃ path ring l', o.nextPath l = (path, { o with sequence := o.sequence + 1, ring }, l') ∧
      NextPath (σ := Ledger σ) o path ring ∧ l'.files = l.files := by
  unfold nextPath
  dsimp only
  have hr : ({ o with sequence := o.sequence + 1 } : Output).reused? = o.reused? := rfl
  rw [hr]
  split
  · rename_i oldest rest h
    exact ⟨_, _, l, rfl, .reuse h, rfl⟩
  · rename_i h
    refine ⟨_, o.ring, _, rfl, .fresh l h, ?_⟩
    unfold freshPath
    dsimp only
    split <;> rfl

/-- Closing the current file changes nothing in where the next one is opened. -/
theorem NextPath.of_shelf {o o' : Output} {path : String} {ring : List String} (hs : SameShelf o o')
    (h : NextPath (σ := σ) o' path ring) : NextPath (σ := σ) o path ring := by
  obtain ⟨ht, hp, hn, hr, -⟩ := hs
  have hreused : o'.reused? = o.reused? := by unfold reused?; rw [hp, hr]
  cases h with
  | reuse h => exact .reuse (hreused ▸ h)
  | fresh w h =>
    have hpath : (({ o' with sequence := o'.sequence + 1 } : Output).freshPath w).1
        = (({ o with sequence := o.sequence + 1 } : Output).freshPath w).1 := by
      unfold freshPath; rw [ht, hp, hn]
    rw [hpath, hr]
    exact .fresh w (hreused ▸ h)

structure Opened (seed : Bytes) (path : String) (ring : List String) (o o' : Output) (l l' : Ledger σ) :
    Prop where
  files : l'.files = l.files ++ [.seeded path seed]
  template : o'.template = o.template
  policy : o'.policy = o.policy
  sequence : o'.sequence = o.sequence + 1
  ring : o'.ring = ring.filter (· ≠ path) ++ [path]
  state : o'.state = .filling

inductive Opening (seed : Bytes) (o : Output) (l : Ledger σ) :
    Except CaptureError Unit × Output × Ledger σ → Prop
  | failed {e : CaptureError} {o' : Output} {l' : Ledger σ} :
      l'.files = l.files ∨ (∃ path, l'.files = l.files ++ [⟨path, []⟩]) → Opening seed o l (.error e, o', l')
  | opened {o' : Output} {l' : Ledger σ} (path : String) (ring : List String) :
      NextPath (σ := Ledger σ) o path ring → Opened seed path ring o o' l l' → Opening seed o l (.ok (), o', l')

theorem opened_of_created {path : String} {o o' : Output} {l l' : Ledger σ} (h : Created o l path o' l') :
    ∃ ring, NextPath (σ := Ledger σ) o path ring ∧ Opened [] path ring o o' l l' := by
  cases h with
  | @intro o₁ o₂ l₁ l₂ l₃ hclose hnext hcreate =>
    have hfiles := close_files o l
    have hshelf := close_shelf o l
    rw [hclose] at hfiles hshelf
    obtain ⟨path', ring, l₂', hp, hpath, hl₂⟩ := nextPath_cases o₁ l₁
    rw [hp] at hnext
    cases hnext
    refine ⟨ring, hpath.of_shelf hshelf, ?_, hshelf.template, hshelf.policy, congrArg (· + 1) hshelf.sequence, rfl, rfl⟩
    rw [Ledger.now_files, Ledger.create_ok hcreate, hl₂, hfiles]
    rfl

theorem openNext_opening (seed : Bytes) (o : Output) (l : Ledger σ) : Opening seed o l (o.openNext seed l) := by
  generalize hr : o.openNext seed l = r
  cases openNext_cases hr with
  | unclosed hclose =>
    have hfiles := close_files o l
    rw [hclose] at hfiles
    exact .failed (Or.inl hfiles)
  | @uncreated e path o₁ o' l₁ l₂ l' hclose hnext hcreate =>
    have hfiles := close_files o l
    rw [hclose] at hfiles
    obtain ⟨path', ring, l₂', hp, -, hl₂⟩ := nextPath_cases o₁ l₁
    rw [hp] at hnext
    cases hnext
    refine .failed (Or.inl ?_)
    rw [Ledger.create_error hcreate, hl₂, hfiles]
  | unseeded hcreated _ hw =>
    obtain ⟨ring, -, hopened⟩ := opened_of_created hcreated
    exact .failed (Or.inr ⟨_, (write_error hw).trans hopened.files⟩)
  | bare hcreated hseed =>
    obtain ⟨ring, hnext, hopened⟩ := opened_of_created hcreated
    exact .opened _ ring hnext (hseed ▸ hopened)
  | seeded hcreated hseed hw =>
    obtain ⟨ring, hnext, hopened⟩ := opened_of_created hcreated
    obtain ⟨hnoted, hs, hkept⟩ := write_ok hw
    refine .opened _ ring hnext ⟨?_, hs.template.trans hopened.template, hs.policy.trans hopened.policy,
      hs.sequence.trans hopened.sequence, hs.ring.trans hopened.ring, (hkept rfl).trans hopened.state⟩
    rw [hnoted, hopened.files, List.modifyLast_concat]
    unfold LedgerFile.seeded LedgerFile.note
    rw [if_neg (mt List.isEmpty_iff.mp hseed)]
    rfl

end Output

end CaptureRing
