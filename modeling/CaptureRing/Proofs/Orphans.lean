/-
  CaptureRing.Proofs.Orphans — the files that the controller forgets.

  With a cap on the files kept, the next file is written over the oldest. Its path leaves the ring
  first, and comes back as the newest once the file was opened. If it cannot be opened, the path does
  not come back: the old file is still there, but no longer among the files kept, and the ring has room
  for a file more than the cap allows. Such a file is an orphan, and it is one for good, since a path
  that is not in the ring is never opened again.

  Proved, for any world, and so for faults of any kind at any time:
  - `Kept.created`, `Kept.uncreated`: what opening the next file does to the files kept;
  - `mem_orphaned`: an orphan was the oldest file when its path could not be opened;
  - `files_kept_or_orphaned`: so the files kept are all that were created, except the orphans, and no
    more than the cap allows besides them;
  - `orphan_exceeds_cap`: a directory that was gone for a while leaves a file too many.
-/

import Mathlib.Data.List.Dedup
import CaptureRing.Proofs.FileNames
import CaptureRing.Proofs.Handles

namespace CaptureRing

variable {σ : Type} [World σ]

/-! ## Orphans -/

def uncreated : Except CaptureError Unit → Bool
  | .error (.rotationFailure ..) => true
  | _ => false

/-- The path that a call forgets: that of the oldest file, if the next one was to be written over it and
    could not be opened. -/
def Call.orphans (o : Output) (w : σ) : Call → List String
  | .openNext seed => if uncreated (o.openNext seed w).1 then (o.reused?.map (·.1)).toList else []
  | .clock .. | .write .. | .check | .close => []

section Forgets

variable {seed : Bytes} {o : Output} {w : σ}

theorem orphans_of_uncreated (h : uncreated (o.openNext seed w).1 = true) :
    (Call.openNext seed).orphans o w = (o.reused?.map (·.1)).toList := if_pos h

theorem orphans_of_not_uncreated (h : uncreated (o.openNext seed w).1 = false) : (Call.openNext seed).orphans o w = [] :=
  if_neg (by rw [h]; exact Bool.false_ne_true)

end Forgets

def orphaned : List Call → Output × σ → List String
  | [], _ => []
  | c :: calls, s => c.orphans s.1 s.2 ++ orphaned calls (c.answer s.1 s.2).2

theorem orphaned_append (calls more : List Call) (s : Output × σ) :
    orphaned (calls ++ more) s = orphaned calls s ++ orphaned more (drive calls s) := by
  induction calls generalizing s with
  | nil => rfl
  | cons c calls ih =>
    show c.orphans s.1 s.2 ++ orphaned (calls ++ more) _ = c.orphans s.1 s.2 ++ orphaned calls _ ++ _
    rw [ih, List.append_assoc]
    rfl

theorem orphaned_snoc (calls : List Call) (c : Call) (s : Output × σ) :
    orphaned (calls ++ [c]) s = orphaned calls s ++ c.orphans (drive calls s).1 (drive calls s).2 := by
  rw [orphaned_append]
  exact congrArg _ (List.append_nil _)

/-- An orphan was the oldest file, and was to be written over, when its path could not be opened. -/
theorem mem_orphaned {calls : List Call} {s : Output × σ} {path : String} (h : path ∈ orphaned calls s) :
    ∃ before seed after, calls = before ++ Call.openNext seed :: after ∧
      uncreated ((drive before s).1.openNext seed (drive before s).2).1 = true ∧
      ∃ rest, (drive before s).1.reused? = some (path, rest) := by
  induction calls using List.reverseRecOn with
  | nil => cases h
  | append_singleton calls c ih =>
    rw [orphaned_snoc] at h
    rcases List.mem_append.mp h with h | h
    · obtain ⟨before, seed, after, rfl, hfailed, holdest⟩ := ih h
      exact ⟨before, seed, after ++ [c], List.append_assoc .., hfailed, holdest⟩
    · cases c with
      | clock _ _ | write _ _ | check | close => cases h
      | openNext seed =>
        unfold Call.orphans at h
        dsimp only at h
        split at h
        · rename_i hfailed
          rw [Option.mem_toList] at h
          obtain ⟨⟨oldest, rest⟩, hreused, rfl⟩ := Option.map_eq_some_iff.mp h
          exact ⟨calls, seed, [], rfl, hfailed, rest, hreused⟩
        · cases h

/-! ## The next path -/

namespace Output

variable {o : Output} {path : String} {ring : List String}

theorem ring_of_reused? {oldest : String} {rest : List String} (h : o.reused? = some (oldest, rest)) :
    o.ring = oldest :: rest ∧ o.policy.isEnabled = true := by
  unfold reused? at h
  split at h
  · rename_i hring
    split at h
    · rename_i hfull
      cases h
      exact ⟨hring, hfull.1⟩
    · cases h
  · cases h

/-- There is room for one more. -/
theorem length_lt_of_reused? (h : o.reused? = none) (he : o.policy.isEnabled = true) {cap : UInt64}
    (hcap : o.policy.ring = some cap) (hpos : 0 < cap) : o.ring.length < cap.toNat := by
  refine Nat.not_le.mp fun hfull => ?_
  unfold reused? at h
  rw [hcap] at h
  cases hring : o.ring with
  | nil =>
    have := UInt64.lt_iff_toNat_lt.mp hpos
    rw [hring, List.length_nil] at hfull
    exact absurd this (Nat.not_lt.mpr hfull)
  | cons oldest rest =>
    rw [hring] at h hfull
    dsimp only at h
    rw [if_pos ⟨he, hpos, hfull⟩] at h
    cases h

/-- The path that is taken from the ring, and no other, is missing in what is left of it. -/
theorem NextPath.ring_eq (h : NextPath (σ := σ) o path ring) :
    (∃ rest, o.reused? = some (path, rest) ∧ o.ring = path :: ring) ∨ (o.reused? = none ∧ o.ring = ring) := by
  cases h with
  | reuse hr => exact .inl ⟨_, hr, (ring_of_reused? hr).1⟩
  | fresh w hr => exact .inr ⟨hr, rfl⟩

end Output

/-! ## The files kept -/

/-- The files kept are different from each other and from the orphans, and together these are all files
    that were created. With rotation all have names of their own numbers, and without it there is no
    orphan. -/
structure Kept (template : String) (policy : RotationPolicy) (paths lost : List String) (o : Output) : Prop where
  sameTemplate : o.template = template
  samePolicy : o.policy = policy
  all : ∀ path, path ∈ paths ↔ path ∈ o.ring ∨ path ∈ lost
  distinct : (o.ring ++ lost).Nodup
  numbered : policy.isEnabled = true → ∀ path ∈ paths, ∃ number date, number ≤ o.sequence ∧
    path = Output.numberedName template number date
  single : policy.isEnabled = false → lost = []
  capped : policy.isEnabled = true → ∀ cap, policy.ring = some cap → 0 < cap → o.ring.length ≤ cap.toNat

namespace Kept

variable {template path : String} {policy : RotationPolicy} {paths lost ring : List String} {o o' : Output}

theorem make (template : String) (policy : RotationPolicy) : Kept template policy [] [] (Output.make template policy) :=
  ⟨rfl, rfl, fun _ => ⟨nofun, fun h => h.elim nofun nofun⟩, List.nodup_nil, nofun, fun _ => rfl, fun _ _ _ _ => Nat.zero_le _⟩

theorem of_sameShelf (h : Kept template policy paths lost o) (hs : Output.SameShelf o o') :
    Kept template policy paths lost o' := by
  refine ⟨hs.template.trans h.sameTemplate, hs.policy.trans h.samePolicy, ?_, ?_, ?_, h.single, ?_⟩
  · rw [hs.ring]
    exact h.all
  · rw [hs.ring]
    exact h.distinct
  · rw [hs.sequence]
    exact h.numbered
  · rw [hs.ring]
    exact h.capped

/-- A new path has a greater number than all before it. -/
theorem not_mem_lost (h : Kept template policy paths lost o) (hn : Output.NextPath (σ := σ) o path ring) : path ∉ lost := by
  cases hn with
  | reuse hr =>
    have hdistinct := h.distinct
    rw [(Output.ring_of_reused? hr).1, List.cons_append] at hdistinct
    exact fun hlost => (List.nodup_cons.mp hdistinct).1 (List.mem_append_right _ hlost)
  | fresh w _ =>
    intro hlost
    cases he : policy.isEnabled with
    | false =>
      rw [h.single he] at hlost
      cases hlost
    | true =>
      obtain ⟨number, date, hle, hname⟩ := h.numbered he _ ((h.all _).mpr (.inr hlost))
      unfold Output.freshPath at hname
      rw [if_pos (by rw [h.samePolicy]; exact he), h.sameTemplate] at hname
      have hsame : o.sequence + 1 = number := numberedName_injective hname
      omega

theorem numbered_succ (h : Kept template policy paths lost o) (he : policy.isEnabled = true) {p : String} (hp : p ∈ paths) :
    ∃ number date, number ≤ o.sequence + 1 ∧ p = Output.numberedName template number date := by
  obtain ⟨number, date, hle, hname⟩ := h.numbered he p hp
  exact ⟨number, date, Nat.le_succ_of_le hle, hname⟩

theorem numbered_next (h : Kept template policy paths lost o) (hn : Output.NextPath (σ := σ) o path ring)
    (he : policy.isEnabled = true) :
    ∃ number date, number ≤ o.sequence + 1 ∧ path = Output.numberedName template number date := by
  cases hn with
  | reuse hr =>
    have hmem : path ∈ o.ring := by
      rw [(Output.ring_of_reused? hr).1]
      exact List.mem_cons_self
    exact h.numbered_succ he ((h.all path).mpr (.inl hmem))
  | fresh w _ =>
    refine ⟨o.sequence + 1, (World.now w).1.calendar, Nat.le_refl _, ?_⟩
    unfold Output.freshPath
    rw [if_pos (by rw [h.samePolicy]; exact he), h.sameTemplate]

theorem created (h : Kept template policy paths lost o) (hn : Output.NextPath (σ := σ) o path ring)
    (htemplate : o'.template = o.template) (hpolicy : o'.policy = o.policy) (hsequence : o'.sequence = o.sequence + 1)
    (hring : o'.ring = ring.filter (· ≠ path) ++ [path]) : Kept template policy (paths ++ [path]) lost o' := by
  have hnew : path ∉ lost := h.not_mem_lost hn
  have hsub : (ring.filter (· ≠ path) ++ lost).Sublist (o.ring ++ lost) := by
    refine List.Sublist.append (List.filter_sublist.trans ?_) (List.Sublist.refl lost)
    rcases hn.ring_eq with ⟨rest, -, heq⟩ | ⟨-, heq⟩
    · rw [heq]
      exact List.sublist_cons_self path ring
    · rw [heq]
  have hmem (p : String) : p ∈ o'.ring ↔ p ∈ o.ring ∨ p = path := by
    rw [hring, List.mem_append, List.mem_filter, List.mem_singleton, decide_eq_true_iff]
    rcases hn.ring_eq with ⟨rest, -, heq⟩ | ⟨-, heq⟩
    · rw [heq, List.mem_cons]
      tauto
    · rw [heq]
      tauto
  refine ⟨htemplate.trans h.sameTemplate, hpolicy.trans h.samePolicy, fun p => ?_, ?_, fun he p hp => ?_, h.single,
    fun he cap hcap hpos => ?_⟩
  · rw [List.mem_append, List.mem_singleton, h.all, hmem]
    tauto
  · rw [hring, List.append_assoc, List.singleton_append]
    refine List.perm_middle.nodup_iff.mpr (List.nodup_cons.mpr ⟨?_, h.distinct.sublist hsub⟩)
    rw [List.mem_append, not_or]
    exact ⟨fun hin => of_decide_eq_true (List.mem_filter.mp hin).2 rfl, hnew⟩
  · rw [hsequence]
    rcases List.mem_append.mp hp with hp | hp
    · exact h.numbered_succ he hp
    · rw [List.mem_singleton.mp hp]
      exact h.numbered_next hn he
  · have hle := h.capped he cap hcap hpos
    have hfiltered := List.length_filter_le (fun p => decide (p ≠ path)) ring
    rw [hring, List.length_append, List.length_singleton]
    rcases hn.ring_eq with ⟨rest, -, heq⟩ | ⟨hr, heq⟩
    · rw [heq, List.length_cons] at hle
      exact Nat.le_trans (Nat.succ_le_succ hfiltered) hle
    · have hlt := Output.length_lt_of_reused? hr (by rw [h.samePolicy]; exact he) (by rw [h.samePolicy]; exact hcap) hpos
      rw [heq] at hlt
      exact Nat.lt_of_le_of_lt hfiltered hlt

/-- If the next file cannot be created, the one it was to be written over is an orphan. -/
theorem uncreated (h : Kept template policy paths lost o) (hn : Output.NextPath (σ := σ) o path ring)
    (htemplate : o'.template = o.template) (hpolicy : o'.policy = o.policy) (hsequence : o'.sequence = o.sequence + 1)
    (hring : o'.ring = ring) : Kept template policy paths (lost ++ (o.reused?.map (·.1)).toList) o' := by
  have hnumbered : policy.isEnabled = true → ∀ p ∈ paths, ∃ number date, number ≤ o'.sequence ∧
      p = Output.numberedName template number date := by
    intro he p hp
    rw [hsequence]
    exact h.numbered_succ he hp
  rcases hn.ring_eq with ⟨rest, hr, heq⟩ | ⟨hr, heq⟩
  · rw [hr]
    refine ⟨htemplate.trans h.sameTemplate, hpolicy.trans h.samePolicy, fun p => ?_, ?_, hnumbered, fun he => ?_,
      fun he cap hcap hpos => ?_⟩
    · rw [h.all, heq, hring, List.mem_cons, List.mem_append]
      simp only [Option.map_some, Option.toList_some, List.mem_singleton]
      tauto
    · have hdistinct := h.distinct
      rw [heq] at hdistinct
      rw [hring]
      simp only [Option.map_some, Option.toList_some]
      rw [← List.append_assoc]
      exact (List.perm_append_singleton path (ring ++ lost)).nodup_iff.mpr hdistinct
    · have := (Output.ring_of_reused? hr).2
      rw [h.samePolicy, he] at this
      cases this
    · have hle := h.capped he cap hcap hpos
      rw [heq, List.length_cons] at hle
      rw [hring]
      exact Nat.le_of_succ_le hle
  · rw [hr, Option.map_none, Option.toList_none, List.append_nil]
    refine ⟨htemplate.trans h.sameTemplate, hpolicy.trans h.samePolicy, ?_, ?_, hnumbered, h.single, ?_⟩
    · rw [hring, ← heq]
      exact h.all
    · rw [hring, ← heq]
      exact h.distinct
    · rw [hring, ← heq]
      exact h.capped

theorem wrote (h : Kept template policy paths lost o) (data : Bytes) (packet : Bool) (l : Ledger σ) (hpaths : l.paths = paths) :
    Kept template policy (o.write data packet l).2.2.paths lost (o.write data packet l).2.1 := by
  rcases hw : o.write data packet l with ⟨r, o', l'⟩
  cases r with
  | error e =>
    rw [Ledger.paths_of_files (Output.write_error hw), hpaths, Output.same_of_write_error hw]
    exact h
  | ok met =>
    obtain ⟨hnoted, hs, -⟩ := Output.write_ok hw
    rw [Ledger.paths_note hnoted, hpaths]
    exact h.of_sameShelf hs

theorem created_of_call (h : Kept template policy paths lost o) {l l' : Ledger σ} (hpaths : l.paths = paths)
    (hc : Output.Created o l path o' l') : Kept template policy l'.paths lost o' := by
  obtain ⟨ring, hnext, hopened⟩ := Output.opened_of_created hc
  have hadded : l'.paths = paths ++ [path] := by
    unfold Ledger.paths at hpaths ⊢
    rw [hopened.files, List.map_append, hpaths]
    rfl
  rw [hadded]
  exact h.created hnext hopened.template hopened.policy hopened.sequence hopened.ring

/-- Opening the next file: it is the newest that is kept, or it could not be created, or it was not tried. -/
theorem openNext (h : Kept template policy paths lost o) (seed : Bytes) {l : Ledger σ} (hpaths : l.paths = paths) :
    Kept template policy (o.openNext seed l).2.2.paths (lost ++ (Call.openNext seed).orphans o l) (o.openNext seed l).2.1 := by
  have hclosed := Output.close_shelf o l
  have hfiles := Output.close_files o l
  rcases hr : o.openNext seed l with ⟨r, o', l'⟩
  dsimp only
  cases Output.openNext_cases hr with
  | unclosed hclose =>
    rw [hclose] at hclosed hfiles
    rw [orphans_of_not_uncreated (by rw [hr]; cases Output.close_cases hclose; rfl), List.append_nil,
      Ledger.paths_of_files hfiles, hpaths]
    exact h.of_sameShelf hclosed
  | @uncreated e path o₁ _ l₁ l₂ _ hclose hnext hcreate =>
    rw [hclose] at hclosed hfiles
    obtain ⟨path', ring, l₂', hp, hn, hl₂⟩ := Output.nextPath_cases o₁ l₁
    rw [hp] at hnext
    cases hnext
    rw [orphans_of_uncreated (by rw [hr]; rfl), Ledger.paths_of_files (Ledger.create_error hcreate),
      Ledger.paths_of_files hl₂, Ledger.paths_of_files hfiles, hpaths]
    exact h.uncreated (hn.of_shelf hclosed) hclosed.template hclosed.policy (congrArg (· + 1) hclosed.sequence) rfl
  | @unseeded _ path o₁ _ l₁ _ hcreated _ hw =>
    rw [orphans_of_not_uncreated (by rw [hr]; cases Output.write_cases hw <;> rfl), List.append_nil]
    have hkept := (h.created_of_call hpaths hcreated).wrote seed false l₁ rfl
    rw [hw] at hkept
    exact hkept
  | bare hcreated _ =>
    rw [orphans_of_not_uncreated (by rw [hr]; rfl), List.append_nil]
    exact h.created_of_call hpaths hcreated
  | @seeded path _ o₁ _ l₁ _ hcreated _ hw =>
    rw [orphans_of_not_uncreated (by rw [hr]; rfl), List.append_nil]
    have hkept := (h.created_of_call hpaths hcreated).wrote seed false l₁ rfl
    rw [hw] at hkept
    exact hkept

theorem answered {l : Ledger σ} (h : Kept template policy l.paths lost o) (c : Call) :
    Kept template policy (c.answer o l).2.2.paths (lost ++ c.orphans o l) (c.answer o l).2.1 := by
  cases c with
  | clock instant calendar =>
    rw [show (Call.clock instant calendar).orphans o l = [] from rfl, List.append_nil]
    exact h
  | openNext seed => exact h.openNext seed rfl
  | write data packet =>
    rw [show (Call.write data packet).orphans o l = [] from rfl, List.append_nil]
    exact h.wrote data packet l rfl
  | check =>
    rw [show Call.check.orphans o l = [] from rfl, List.append_nil]
    show Kept template policy (o.checkRotation l).2.2.paths lost (o.checkRotation l).2.1
    rw [Ledger.paths_of_files (Output.checkRotation_files o l)]
    exact h.of_sameShelf (Output.checkRotation_shelf o l)
  | close =>
    rw [show Call.close.orphans o l = [] from rfl, List.append_nil]
    show Kept template policy (o.close l).2.2.paths lost (o.close l).2.1
    rw [Ledger.paths_of_files (Output.close_files o l)]
    exact h.of_sameShelf (Output.close_shelf o l)

theorem drive (template : String) (policy : RotationPolicy) (w : σ) (calls : List Call) :
    Kept template policy (CaptureRing.drive calls (Output.make template policy, Ledger.blank w)).2.paths
      (orphaned calls (Output.make template policy, Ledger.blank w))
      (CaptureRing.drive calls (Output.make template policy, Ledger.blank w)).1 := by
  induction calls using List.reverseRecOn with
  | nil => exact make template policy
  | append_singleton calls c ih =>
    rw [drive_snoc, orphaned_snoc]
    exact ih.answered c

end Kept

/-- The files kept are those that were created, whatever the controller is asked to do and whatever
    fails, except those that were forgotten: the oldest of its time each, and to be written over, when
    the next file could not be opened. With a cap, no more files are kept than it allows, and no more
    were created than these and the forgotten ones. -/
theorem files_kept_or_orphaned (template : String) (policy : RotationPolicy) (w : σ) (calls : List Call) :
    let start := (Output.make template policy, Ledger.blank w)
    let s := drive calls start
    let lost := orphaned calls start
    (∀ path, path ∈ s.2.paths ↔ path ∈ s.1.files ∨ path ∈ lost) ∧
    (s.1.files ++ lost).Nodup ∧
    (∀ path ∈ lost, ∃ before seed after, calls = before ++ Call.openNext seed :: after ∧
      uncreated ((drive before start).1.openNext seed (drive before start).2).1 = true ∧
      ∃ rest, (drive before start).1.reused? = some (path, rest)) ∧
    (policy.isEnabled = true → ∀ cap, policy.ring = some cap → 0 < cap →
      s.1.files.length ≤ cap.toNat ∧ s.2.paths.dedup.length ≤ cap.toNat + lost.length) := by
  intro start s lost
  have hkept : Kept template policy s.2.paths lost s.1 := Kept.drive template policy w calls
  refine ⟨hkept.all, hkept.distinct, fun path hpath => mem_orphaned hpath, fun he cap hcap hpos => ?_⟩
  have hle := hkept.capped he cap hcap hpos
  refine ⟨hle, ?_⟩
  have hperm : s.2.paths.dedup.Perm (s.1.ring ++ lost) := by
    refine (List.perm_ext_iff_of_nodup (List.nodup_dedup _) hkept.distinct).mpr fun path => ?_
    rw [List.mem_dedup, List.mem_append]
    exact hkept.all path
  rw [hperm.length_eq, List.length_append]
  exact Nat.add_le_add_right hle _

structure Flaky where
  turn : Nat

instance : World Flaky where
  now w := (⟨0, "20240102030405"⟩, w)
  create _ w := (if w.turn % 2 = 0 then .ok () else .error .noSpace, ⟨w.turn + 1⟩)
  write _ w := (.ok (), w)
  release w := (.ok (), w)

/-- One file is to be kept, and the second of three cannot be opened: the first is forgotten. -/
theorem files_kept_or_orphaned_flaky :
    let start := (Output.make "out.pcapng" ⟨[.packets 1], some 1⟩, Ledger.blank (Flaky.mk 0))
    let calls := [Call.openNext [], .openNext [], .openNext []]
    (drive calls start).1.files = ["out_00003_20240102030405.pcapng"] ∧
      orphaned calls start = ["out_00001_20240102030405.pcapng"] ∧ (drive calls start).2.paths.dedup.length ≤ 2 := by
  intro start calls
  have hlost : orphaned calls start = ["out_00001_20240102030405.pcapng"] := by decide +kernel
  refine ⟨by decide +kernel, hlost, ?_⟩
  obtain ⟨-, -, -, hcapped⟩ := files_kept_or_orphaned "out.pcapng" ⟨[.packets 1], some 1⟩ (Flaky.mk 0) calls
  obtain ⟨-, hbound⟩ := hcapped rfl 1 rfl (by decide)
  rw [hlost] at hbound
  exact hbound

/-! ## A file too many -/

def diskWithRoom : Disk := (Disk.empty.makeDirectories "sub").getD Disk.empty

def Machine.onDisk (f : Disk → Disk) (m : Machine) : Machine := { m with disk := f m.disk }

/-- One file is to be kept. The directory that its path goes through is gone for one call, which fails
    and changes nothing on the disk. The file is still there then, and is not kept; and when the
    directory is back the next call makes a second one. -/
theorem orphan_exceeds_cap :
    let s₁ := drive [.openNext [1]] (Output.make "sub/../out.pcapng" ⟨[.packets 1], some 1⟩, Machine.ofDisk diskWithRoom)
    let gone := s₁.2.onDisk fun d => (d.removeDirectory "sub").2
    let s₂ := drive [.openNext [2]] (s₁.1, gone)
    let back := s₂.2.onDisk fun d => (d.makeDirectories "sub").getD d
    let s₃ := drive [.openNext [3], .close] (s₂.1, back)
    s₁.1.files = ["sub/../out_00001_20240102030405.pcapng"] ∧
    (s₁.1.openNext [2] gone).1 =
      .error (.rotationFailure "sub/../out_00001_20240102030405.pcapng" .noSuchFile) ∧
    s₂.1.files = [] ∧ s₂.2.disk.regular? "out_00001_20240102030405.pcapng" = some [1] ∧
    s₃.1.files = ["sub/../out_00003_20240102030405.pcapng"] ∧
      s₃.2.disk.regular? "out_00003_20240102030405.pcapng" = some [3] ∧
      s₃.2.disk.regular? "out_00001_20240102030405.pcapng" = some [1] := by
  decide +kernel

end CaptureRing
