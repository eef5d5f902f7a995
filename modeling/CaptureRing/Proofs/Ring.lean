/-
  CaptureRing.Proofs.Ring — the ring of output files on a disk.

  Whoever drives the output controller opens files, writes to them, looks at the triggers and
  closes them, and meanwhile the clock shows what it likes. With a cap on the files kept, the
  name of the oldest goes to the newest once there are that many; before that, and without a
  cap, each file gets a name of its own number. So the files kept are always the last that
  were opened, and none of them is lost to another.

  Proved:
  - `reused?_cases`, `newest_snoc`: which file a new one is written over, and what is kept then;
  - `Ring.openNext`, `Ring.write`, `Ring.close`, `Ring.checkRotation`: no call of the controller
    loses any of them;
  - `ring_keeps_newest`: so the paths it tells hold the newest files, after any calls.
-/

import CaptureRing.Proofs.Storage

namespace CaptureRing

/-! ## Which files are kept -/

def RotationPolicy.keeps (p : RotationPolicy) (opened : Nat) : Nat :=
  match p.ring with
  | some cap => if 0 < cap then min opened cap.toNat else opened
  | none => opened

def RotationPolicy.Full (p : RotationPolicy) (opened : Nat) : Prop :=
  ∃ cap, p.ring = some cap ∧ 0 < cap ∧ cap.toNat ≤ opened

def newest {α : Type} (policy : RotationPolicy) (files : List α) : List α :=
  files.drop (files.length - policy.keeps files.length)

section Newest

variable {α β : Type} {policy : RotationPolicy} {files : List α}

theorem keeps_le (policy : RotationPolicy) (n : Nat) : policy.keeps n ≤ n := by
  unfold RotationPolicy.keeps
  split
  · split
    · exact Nat.min_le_left _ _
    · exact Nat.le_refl n
  · exact Nat.le_refl n

theorem keeps_of_not_full {n : Nat} (h : ¬policy.Full n) : policy.keeps n = n ∧ policy.keeps (n + 1) = n + 1 := by
  unfold RotationPolicy.keeps
  cases hr : policy.ring with
  | none => exact ⟨rfl, rfl⟩
  | some cap =>
    dsimp only
    split
    · rename_i hcap
      have hlt : n < cap.toNat := Nat.not_le.mp fun hle => h ⟨cap, hr, hcap, hle⟩
      omega
    · exact ⟨rfl, rfl⟩

theorem keeps_of_full {n : Nat} (h : policy.Full n) :
    policy.keeps (n + 1) = policy.keeps n ∧ 0 < policy.keeps n ∧
      ∃ cap, policy.ring = some cap ∧ 0 < cap ∧ policy.keeps n = cap.toNat := by
  obtain ⟨cap, hr, hcap, hle⟩ := h
  have hpos : 0 < cap.toNat := UInt64.lt_iff_toNat_lt.mp hcap
  unfold RotationPolicy.keeps
  rw [hr]
  dsimp only
  rw [if_pos hcap, if_pos hcap]
  exact ⟨by omega, by omega, cap, rfl, hcap, by omega⟩

theorem keeps_of_uncapped (h : policy.ring = none ∨ policy.ring = some 0) (n : Nat) : policy.keeps n = n := by
  rcases h with hr | hr <;> simp [RotationPolicy.keeps, hr]

theorem length_newest (policy : RotationPolicy) (files : List α) : (newest policy files).length = policy.keeps files.length := by
  have := keeps_le policy files.length
  unfold newest
  rw [List.length_drop]
  omega

theorem newest_of_uncapped (h : policy.ring = none ∨ policy.ring = some 0) (files : List α) : newest policy files = files := by
  unfold newest
  rw [keeps_of_uncapped h, Nat.sub_self, List.drop_zero]

theorem newest_map (f : α → β) : newest policy (files.map f) = (newest policy files).map f := by
  unfold newest
  rw [List.length_map, List.map_drop]

theorem newest_of_not_full (h : ¬policy.Full files.length) (x : α) :
    newest policy files = files ∧ newest policy (files ++ [x]) = files ++ [x] := by
  obtain ⟨hkeeps, hnext⟩ := keeps_of_not_full h
  unfold newest
  rw [List.length_append, List.length_singleton, hkeeps, hnext, Nat.sub_self, Nat.sub_self]
  exact ⟨rfl, rfl⟩

/-- One more file, and the oldest is no longer kept. -/
theorem newest_of_full (h : policy.Full files.length) (x : α) : newest policy (files ++ [x]) = (newest policy files).tail ++ [x] := by
  obtain ⟨hkeeps, hpos, -⟩ := keeps_of_full h
  have hle := keeps_le policy files.length
  unfold newest
  rw [List.length_append, List.length_singleton, hkeeps, List.tail_drop, List.drop_append_of_le_length (by omega)]
  congr 2
  omega

/-- What is noted of the last file is noted of the newest that is kept. -/
theorem newest_modifyLast {earlier : List α} {last : α} (h : newest policy files = earlier ++ [last]) (f : α → α) :
    newest policy (files.modifyLast f) = (newest policy files).modifyLast f := by
  have hfiles : files = files.take (files.length - policy.keeps files.length) ++ (earlier ++ [last]) := by
    rw [← h]
    exact (List.take_append_drop _ _).symm
  have hlen := congrArg List.length hfiles
  rw [List.length_append, List.length_append, List.length_singleton, List.length_take] at hlen
  have hmodified : files.modifyLast f =
      files.take (files.length - policy.keeps files.length) ++ (earlier ++ [f last]) := by
    conv_lhs => rw [hfiles]
    rw [← List.append_assoc, List.modifyLast_concat, List.append_assoc]
  have hsame : (files.modifyLast f).length = files.length := by
    rw [hmodified, List.length_append, List.length_append, List.length_singleton, List.length_take]
    omega
  rw [h, List.modifyLast_concat]
  unfold newest
  rw [hsame, hmodified]
  exact List.drop_left' (by rw [List.length_take]; omega)

end Newest

/-! ## The ring of paths -/

structure Rung (template : String) (policy : RotationPolicy) (paths : List String) (o : Output) : Prop where
  sameTemplate : o.template = template
  samePolicy : o.policy = policy
  sequence : o.sequence = paths.length
  ring : o.ring = newest policy paths
  distinct : (newest policy paths).Nodup
  covered : ∀ path ∈ paths, path ∈ newest policy paths
  numbered : ∀ path ∈ paths, ∃ number date, number ≤ paths.length ∧ '/' ∉ date.toList ∧
    path = Output.numberedName template number date

/-- The path of the next file, and what is left of the ring: the oldest path is used again, or there
    is a new one with the next number. -/
inductive NextOf (template : String) (policy : RotationPolicy) (paths : List String) : String → List String → Prop
  | reuse {oldest : String} {rest : List String} : policy.Full paths.length →
      newest policy paths = oldest :: rest → NextOf template policy paths oldest rest
  | fresh {date : String} : ¬policy.Full paths.length → '/' ∉ date.toList →
      NextOf template policy paths (Output.numberedName template (paths.length + 1) date) (newest policy paths)

namespace Rung

variable {template path : String} {policy : RotationPolicy} {paths ring : List String} {o o' : Output}

theorem make (template : String) (policy : RotationPolicy) : Rung template policy [] (Output.make template policy) := by
  have hnone : newest policy ([] : List String) = [] := List.drop_nil
  exact ⟨rfl, rfl, rfl, hnone.symm, by rw [hnone]; exact List.nodup_nil, nofun, nofun⟩

theorem of_sameShelf (h : Rung template policy paths o) (hs : Output.SameShelf o o') : Rung template policy paths o' :=
  ⟨hs.template.trans h.sameTemplate, hs.policy.trans h.samePolicy, hs.sequence.trans h.sequence,
    hs.ring.trans h.ring, h.distinct, h.covered, h.numbered⟩

/-- The oldest path is used again exactly when the ring is full. -/
theorem reused?_cases (h : Rung template policy paths o) (he : policy.isEnabled = true) :
    (∃ oldest rest, o.reused? = some (oldest, rest) ∧ policy.Full paths.length ∧ newest policy paths = oldest :: rest) ∨
      (o.reused? = none ∧ ¬policy.Full paths.length) := by
  have hlen := length_newest policy paths
  unfold Output.reused?
  rw [h.samePolicy, h.ring]
  by_cases hfull : policy.Full paths.length
  · obtain ⟨-, hpos, cap, hcap, hlt, hkeeps⟩ := keeps_of_full hfull
    cases hn : newest policy paths with
    | nil =>
      rw [hn, List.length_nil] at hlen
      omega
    | cons oldest rest =>
      left
      refine ⟨oldest, rest, ?_, hfull, rfl⟩
      rw [hn] at hlen
      rw [hcap]
      dsimp only
      rw [if_pos ⟨he, hlt, by omega⟩]
  · right
    refine ⟨?_, hfull⟩
    split
    · rename_i cap oldest rest hcap hn
      rw [if_neg]
      rintro ⟨-, hlt, hle⟩
      have := keeps_le policy paths.length
      exact hfull ⟨cap, hcap, hlt, by omega⟩
    · rfl

theorem nextPath (h : Rung template policy paths o) (he : policy.isEnabled = true) {σ : Type} [World σ] (w : σ)
    (hdate : '/' ∉ (World.now w).1.calendar.toList) :
    ∃ path ring w', o.nextPath w = (path, { o with sequence := o.sequence + 1, ring }, w') ∧
      NextOf template policy paths path ring ∧ (w' = w ∨ w' = (World.now w).2) := by
  unfold Output.nextPath
  dsimp only
  rw [show ({ o with sequence := o.sequence + 1 } : Output).reused? = o.reused? from rfl]
  rcases h.reused?_cases he with ⟨oldest, rest, hr, hfull, hn⟩ | ⟨hr, hfull⟩
  · rw [hr]
    exact ⟨oldest, rest, w, rfl, .reuse hfull hn, Or.inl rfl⟩
  · rw [hr]
    unfold Output.freshPath
    dsimp only
    rw [h.samePolicy, if_pos he, h.sameTemplate, h.sequence]
    exact ⟨_, o.ring, _, rfl, h.ring ▸ .fresh hfull hdate, Or.inr rfl⟩

theorem numbered_next (h : Rung template policy paths o) (hn : NextOf template policy paths path ring) :
    ∃ number date, number ≤ paths.length + 1 ∧ '/' ∉ date.toList ∧ path = Output.numberedName template number date := by
  cases hn with
  | reuse _ hn =>
    have hmem : path ∈ newest policy paths := hn ▸ List.mem_cons_self
    obtain ⟨number, date, hle, hdate, he⟩ := h.numbered path (List.mem_of_mem_drop hmem)
    exact ⟨number, date, Nat.le_succ_of_le hle, hdate, he⟩
  | fresh _ hdate => exact ⟨_, _, Nat.le_refl _, hdate, rfl⟩

/-- A new number makes a new path. -/
theorem not_mem_of_fresh (h : Rung template policy paths o) (date : String) :
    Output.numberedName template (paths.length + 1) date ∉ paths := by
  intro hm
  obtain ⟨number, date', hle, -, he⟩ := h.numbered _ hm
  have := numberedName_injective he
  omega

/-- The file that is opened comes last, and the one whose path it has is no longer kept. -/
theorem newest_snoc {α : Type} {files : List α} (name : α → String) (h : Rung template policy (files.map name) o)
    {x : α} (hn : NextOf template policy (files.map name) (name x) ring) :
    newest policy (files ++ [x]) = (newest policy files).filter (fun f => name f ≠ name x) ++ [x] := by
  generalize hpath : name x = path at hn ⊢
  cases hn with
  | reuse hfull hn =>
    have hdistinct := h.distinct
    rw [hn] at hdistinct
    rw [newest_map] at hn
    obtain ⟨y, ys, hys, hy, hrest⟩ := List.map_eq_cons_iff.mp hn
    rw [List.length_map] at hfull
    rw [newest_of_full hfull, hys, List.tail_cons, List.filter_cons_of_neg (by simp [hy])]
    have hother : ∀ f ∈ ys, name f ≠ path := by
      intro f hf he
      refine (List.nodup_cons.mp hdistinct).1 ?_
      rw [← he, ← hrest]
      exact List.mem_map_of_mem hf
    rw [List.filter_eq_self.mpr fun f hf => decide_eq_true (hother f hf)]
  | @fresh date hfull hdate =>
    have hnew := h.not_mem_of_fresh date
    rw [List.length_map] at hfull hnew hpath ⊢
    obtain ⟨hsame, hnext⟩ := newest_of_not_full hfull x
    rw [hsame, hnext]
    have hother : ∀ f ∈ files, name f ≠ Output.numberedName template (files.length + 1) date := by
      intro f hf he
      refine hnew ?_
      rw [← he]
      exact List.mem_map_of_mem hf
    rw [List.filter_eq_self.mpr fun f hf => decide_eq_true (hother f hf)]

theorem opened (h : Rung template policy paths o) (hn : NextOf template policy paths path ring)
    (htemplate : o'.template = o.template) (hpolicy : o'.policy = o.policy) (hsequence : o'.sequence = o.sequence + 1)
    (hring : o'.ring = ring.filter (· ≠ path) ++ [path]) : Rung template policy (paths ++ [path]) o' := by
  have hnext : newest policy (paths ++ [path]) = (newest policy paths).filter (· ≠ path) ++ [path] :=
    newest_snoc id (by rw [List.map_id]; exact h) (by rw [List.map_id]; exact hn)
  have hleft : ring.filter (· ≠ path) = (newest policy paths).filter (· ≠ path) := by
    cases hn with
    | reuse _ hn => rw [hn, List.filter_cons_of_neg (by simp)]
    | fresh _ _ => rfl
  refine ⟨htemplate.trans h.sameTemplate, hpolicy.trans h.samePolicy, ?_, ?_, ?_, fun p hp => ?_, fun p hp => ?_⟩
  · rw [hsequence, h.sequence, List.length_append]
    rfl
  · rw [hring, hleft, hnext]
  · rw [hnext]
    have hdistinct : ((newest policy paths).filter (· ≠ path)).Nodup := h.distinct.sublist List.filter_sublist
    refine List.nodup_append.mpr ⟨hdistinct, List.pairwise_singleton _ _, fun p hp q hq => ?_⟩
    rw [List.mem_singleton.mp hq]
    exact of_decide_eq_true (List.mem_filter.mp hp).2
  · rw [hnext]
    by_cases he : p = path
    · exact List.mem_append_right _ (List.mem_singleton.mpr he)
    · rcases List.mem_append.mp hp with hp | hp
      · exact List.mem_append_left _ (List.mem_filter.mpr ⟨h.covered p hp, decide_eq_true he⟩)
      · exact absurd (List.mem_singleton.mp hp) he
  · rw [List.length_append, List.length_singleton]
    rcases List.mem_append.mp hp with hp | hp
    · obtain ⟨number, date, hle, hdate, he⟩ := h.numbered p hp
      exact ⟨number, date, Nat.le_succ_of_le hle, hdate, he⟩
    · rw [List.mem_singleton.mp hp]
      exact h.numbered_next hn

end Rung

/-! ## One call of the controller -/

section Inversion

variable {σ : Type} [World σ] {seed data : Bytes} {packet met : Bool} {o o' : Output} {w w' : σ}

/-- Looking at the triggers closes nothing, and reads the clock at most. -/
theorem Output.checkRotation_world (o : Output) (w : σ) : (o.checkRotation w).2.1.handle = o.handle ∧
    ((o.checkRotation w).2.2 = w ∨ (o.checkRotation w).2.2 = (World.now w).2) := by
  rcases checkRotation_cases o w with ⟨w', h, hw⟩ | ⟨h, -, -⟩
  · rw [h]
    exact ⟨rfl, hw⟩
  · rw [h]
    exact ⟨rfl, Or.inr rfl⟩

/-- A write with success: a file is open and took the bytes, and then the clock was read at most. -/
theorem Output.write_ok_world (h : o.write data packet w = (.ok met, o', w')) :
    o.handle = true ∧ o'.handle = true ∧ ∃ w₁, World.write data w = (.ok (), w₁) ∧ (w' = w₁ ∨ w' = (World.now w₁).2) := by
  cases write_cases h with
  | block _ hopen _ hw => exact ⟨hopen, hopen, _, hw, Or.inl rfl⟩
  | @packet f w₁ _ _ _ _ hopen _ hw hlook =>
    obtain ⟨hkept, hclock⟩ := checkRotation_world (o.counting data packet f) w₁
    rw [hlook] at hkept hclock
    exact ⟨hopen, hkept.trans hopen, w₁, hw, hclock⟩

end Inversion

/-! ## The controller and the disk -/

structure Turning (template : String) (policy : RotationPolicy) (before : Disk) (o : Output) (l : Ledger Machine) : Prop where
  rung : Rung template policy l.paths o
  stands : Stands template before (newest policy l.files) o.handle l.world
  dated : '/' ∉ l.world.calendar.toList

namespace Turning

variable {template : String} {policy : RotationPolicy} {before : Disk} {o o' : Output} {l l' : Ledger Machine}

theorem make (template : String) (policy : RotationPolicy) {m : Machine} (hs : m.disk.Sound)
    (hdate : '/' ∉ m.calendar.toList) : Turning template policy m.disk (Output.make template policy) (Ledger.blank m) := by
  refine ⟨Rung.make template policy, ?_, hdate⟩
  rw [show newest policy (Ledger.blank m).files = [] from List.drop_nil]
  exact .sealed (Stored.nothing hs)

theorem of_clock (h : Turning template policy before o l) (clock : Nat) {calendar : String} (hdate : '/' ∉ calendar.toList) :
    Turning template policy before o ⟨{ l.world with clock, calendar }, l.files⟩ :=
  ⟨h.rung, h.stands.of_clock clock calendar, hdate⟩

theorem now (h : Turning template policy before o l) : Turning template policy before o (World.now l).2 :=
  h.of_clock _ h.dated

theorem of_shelf (h : Turning template policy before o l) (hs : Output.SameShelf o o') (hhandle : o'.handle = o.handle) :
    Turning template policy before o' l :=
  ⟨h.rung.of_sameShelf hs, by rw [hhandle]; exact h.stands, h.dated⟩

theorem checkRotation (h : Turning template policy before o l) :
    Turning template policy before (o.checkRotation l).2.1 (o.checkRotation l).2.2 := by
  obtain ⟨hhandle, hclock⟩ := Output.checkRotation_world o l
  have h' := h.of_shelf (Output.checkRotation_shelf o l) hhandle
  rcases hclock with hw | hw
  · rw [hw]
    exact h'
  · rw [hw]
    exact h'.now

theorem write {data : Bytes} {packet met : Bool} (h : Turning template policy before o l)
    (hw : o.write data packet l = (.ok met, o', l')) : Turning template policy before o' l' := by
  obtain ⟨hfiles, hshelf, -⟩ := Output.write_ok hw
  obtain ⟨hopen, hopen', l₁, hworld, hclock⟩ := Output.write_ok_world hw
  have hnoted : Turning template policy before o l₁ := by
    have hfiles₁ := Ledger.write_ok hworld
    have hmachine : l.world.write data = (.ok (), l₁.world) := Ledger.world_of_write hworld
    have hstands := h.stands
    rw [hopen] at hstands
    obtain ⟨hstands', hcalendar⟩ := hstands.write hmachine
    obtain ⟨earlier, last, hlast⟩ : ∃ earlier last, newest policy l.files = earlier ++ [last] := by
      generalize newest policy l.files = kept at hstands
      cases hstands with
      | filling => exact ⟨_, _, rfl⟩
    refine ⟨?_, ?_, by rw [hcalendar]; exact h.dated⟩
    · rw [Ledger.paths_note hfiles₁]
      exact h.rung
    · rw [hopen, hfiles₁, newest_modifyLast hlast]
      exact hstands'
  have h' := hnoted.of_shelf hshelf (hopen'.trans hopen.symm)
  rcases hclock with rfl | rfl
  · exact h'
  · exact h'.now

theorem close (h : Turning template policy before o l) (hc : o.close l = (.ok (), o', l')) :
    Turning template policy before o' l' ∧ o'.handle = false := by
  have hshelf := Output.close_shelf o l
  have hfiles := Output.close_files o l
  rw [hc] at hshelf hfiles
  cases Output.close_cases hc with
  | idle hclosed => exact ⟨h.of_shelf hshelf rfl, hclosed⟩
  | sealed hopen hr =>
    have hpaths : l'.paths = l.paths := congrArg (List.map LedgerFile.path) hfiles
    have hstands := h.stands
    rw [hopen] at hstands
    obtain ⟨m, hm, hstands', hcalendar⟩ := hstands.release
    have hworld : l'.world = m := congrArg Prod.snd ((Ledger.world_of_release hr).symm.trans hm)
    refine ⟨⟨?_, ?_, by rw [hworld, hcalendar]; exact h.dated⟩, rfl⟩
    · rw [hpaths]
      exact h.rung.of_sameShelf hshelf
    · rw [hworld, show l'.files = l.files from hfiles]
      exact hstands'

theorem create {path : String} {ring : List String} (h : Turning template policy before o l) (hclosed : o.handle = false)
    (hn : NextOf template policy l.paths path ring) (hc : World.create path l = (.ok (), l')) (now : Nat) :
    Turning template policy before (({ o with sequence := o.sequence + 1, ring } : Output).start path now) l' := by
  have hfiles := Ledger.create_ok hc
  have hmachine : l.world.create path = (.ok (), l'.world) := Ledger.world_of_create hc
  have hpaths : l'.paths = l.paths ++ [path] := (congrArg (List.map LedgerFile.path) hfiles).trans List.map_append
  have hnumbered : Numbered template path := by
    obtain ⟨number, date, -, hdate, he⟩ := h.rung.numbered_next hn
    exact ⟨number, date, hdate, he⟩
  have hstands := h.stands
  rw [hclosed] at hstands
  obtain ⟨hstands', hcalendar⟩ := hstands.create hnumbered hmachine
  refine ⟨?_, ?_, by rw [hcalendar]; exact h.dated⟩
  · rw [hpaths]
    exact h.rung.opened hn rfl rfl rfl rfl
  · have hkept := Rung.newest_snoc LedgerFile.path (x := ⟨path, []⟩) h.rung hn
    rw [hfiles, hkept]
    exact hstands'

/-- The next file is created under a path of its own, or under that of the oldest. -/
theorem created {path : String} (h : Turning template policy before o l) (he : policy.isEnabled = true)
    (hc : Output.Created o l path o' l') : Turning template policy before o' l' := by
  cases hc with
  | @intro o₁ o₂ l₁ l₂ l₃ hclose hnext hcreate =>
    obtain ⟨h₁, hclosed⟩ := h.close hclose
    obtain ⟨_, ring, _, hnext', hpath, hclock⟩ := h₁.rung.nextPath he l₁ h₁.dated
    rw [hnext] at hnext'
    cases hnext'
    have h₂ : Turning template policy before o₁ l₂ ∧ l₂.paths = l₁.paths := by
      rcases hclock with rfl | rfl
      · exact ⟨h₁, rfl⟩
      · exact ⟨h₁.now, rfl⟩
    exact (h₂.1.create hclosed (h₂.2 ▸ hpath) hcreate (World.now l₃).1.instant).now

theorem openNext {seed : Bytes} (h : Turning template policy before o l) (he : policy.isEnabled = true)
    (ho : o.openNext seed l = (.ok (), o', l')) : Turning template policy before o' l' := by
  cases Output.openNext_cases ho with
  | bare hcreated _ => exact h.created he hcreated
  | seeded hcreated _ hw => exact (h.created he hcreated).write hw

theorem abandon (h : Turning template policy before o l) :
    Stands template before (newest policy l.files) false (o.abandon l).world := by
  have hstands := h.stands
  unfold Output.abandon
  cases hopen : o.handle with
  | false =>
    rw [hopen] at hstands
    exact hstands
  | true =>
    rw [hopen] at hstands
    obtain ⟨m, hm, hsealed, -⟩ := hstands.release
    have hworld : (World.release l).2.world = m := congrArg Prod.snd hm
    rw [if_pos rfl, hworld]
    exact hsealed

end Turning

/-! ## Calls of the controller -/

inductive Call where
  | clock (instant : Nat) (calendar : String)
  | openNext (seed : Bytes)
  | write (data : Bytes) (packet : Bool)
  | check
  | close
  deriving DecidableEq, Repr

namespace Call

/-- A date names no directory. -/
def Dated : Call → Prop
  | .clock _ calendar => '/' ∉ calendar.toList
  | _ => True

def serve (o : Output) (l : Ledger Machine) : Call → Except CaptureError Unit × Output × Ledger Machine
  | .clock instant calendar => (.ok (), o, ⟨{ l.world with clock := instant, calendar }, l.files⟩)
  | .openNext seed => o.openNext seed l
  | .write data packet =>
    let (r, o, l) := o.write data packet l
    (r.map fun _ => (), o, l)
  | .check =>
    let (_, o, l) := o.checkRotation l
    (.ok (), o, l)
  | .close => o.close l

theorem write_of_serve {data : Bytes} {packet : Bool} {o o' : Output} {l l' : Ledger Machine}
    (h : (Call.write data packet).serve o l = (.ok (), o', l')) : ∃ met, o.write data packet l = (.ok met, o', l') := by
  unfold serve at h
  dsimp only at h
  rcases hw : o.write data packet l with ⟨r, o₁, l₁⟩
  rw [hw] at h
  cases r with
  | error e => cases h
  | ok met =>
    cases h
    exact ⟨met, rfl⟩

/-- The contents of the files opened so far, after one more call. -/
def extend (contents : List Bytes) : Call → List Bytes
  | .openNext seed => contents ++ [seed]
  | .write data _ => contents.modifyLast (· ++ data)
  | _ => contents

end Call

def serveAll : List Call → Output → Ledger Machine → Except CaptureError (Output × Ledger Machine)
  | [], o, l => .ok (o, l)
  | c :: cs, o, l =>
    match c.serve o l with
    | (.ok (), o, l) => serveAll cs o l
    | (.error e, _, _) => .error e

/-- The contents of the files that the calls open, each its seed and what is written until the next
    one is opened. -/
def contentsOf (calls : List Call) : List Bytes := calls.foldl Call.extend []

section Run

variable {template : String} {policy : RotationPolicy} {before : Disk} {o o' : Output} {l l' : Ledger Machine} {c : Call}

theorem Turning.serve (h : Turning template policy before o l) (he : policy.isEnabled = true) (hdated : c.Dated)
    (hc : c.serve o l = (.ok (), o', l')) : Turning template policy before o' l' := by
  cases c with
  | clock instant calendar =>
    cases hc
    exact h.of_clock instant hdated
  | openNext seed => exact h.openNext he hc
  | write data packet =>
    obtain ⟨met, hw⟩ := Call.write_of_serve hc
    exact h.write hw
  | check =>
    cases hc
    exact h.checkRotation
  | close => exact (h.close hc).1

theorem contents_serve (hc : c.serve o l = (.ok (), o', l')) : l'.contents = c.extend l.contents := by
  cases c with
  | clock instant calendar =>
    cases hc
    rfl
  | openNext seed =>
    have hopening := Output.openNext_opening seed o l
    change o.openNext seed l = _ at hc
    rw [hc] at hopening
    cases hopening with
    | opened path ring _ ho =>
      unfold Ledger.contents Call.extend
      rw [ho.files, List.map_append, List.map_singleton, LedgerFile.content_seeded]
  | write data packet =>
    obtain ⟨met, hw⟩ := Call.write_of_serve hc
    exact Ledger.contents_note (Output.write_ok hw).1
  | check =>
    cases hc
    exact congrArg (List.map LedgerFile.content) (Output.checkRotation_files o l)
  | close =>
    have hfiles := Output.close_files o l
    change o.close l = _ at hc
    rw [hc] at hfiles
    exact congrArg (List.map LedgerFile.content) hfiles

theorem Turning.serveAll {calls : List Call} (h : Turning template policy before o l) (he : policy.isEnabled = true)
    (hdated : ∀ c ∈ calls, c.Dated) (hrun : CaptureRing.serveAll calls o l = .ok (o', l')) :
    Turning template policy before o' l' ∧ l'.contents = calls.foldl Call.extend l.contents := by
  induction calls generalizing o l with
  | nil =>
    cases hrun
    exact ⟨h, rfl⟩
  | cons c calls ih =>
    obtain ⟨hc, hcalls⟩ := List.forall_mem_cons.mp hdated
    unfold CaptureRing.serveAll at hrun
    split at hrun
    · rename_i o₁ l₁ hserve
      obtain ⟨hturning, hcontents⟩ := ih (h.serve he hc hserve) hcalls hrun
      exact ⟨hturning, by rw [hcontents, contents_serve hserve, List.foldl_cons]⟩
    · cases hrun

end Run

/-! ## The whole run -/

/-- The ring keeps the newest files, whatever is asked of the controller and whatever the clock shows,
    as long as no call fails: with a cap, as many files as it allows, under paths of their own, and no
    path was opened that is not among them; without one, all of them, none under the path of another.
    The paths are those of the last files opened, and hold what was written to these: a sealed file at
    once, the open one when the controller lets go of it. Nothing else on the disk changes. -/
theorem ring_keeps_newest (template : String) {policy : RotationPolicy} (he : policy.isEnabled = true) {m : Machine}
    (hdisk : m.disk.Sound) (hdate : '/' ∉ m.calendar.toList) {calls : List Call} (hdated : ∀ c ∈ calls, c.Dated)
    {o : Output} {l : Ledger Machine}
    (hrun : serveAll calls (Output.make template policy) (Ledger.blank m) = .ok (o, l)) :
    let contents := contentsOf calls
    (∀ cap, policy.ring = some cap → 0 < cap →
      o.files.length = min contents.length cap.toNat ∧ o.files.Nodup ∧ ∀ path ∈ l.paths, path ∈ o.files) ∧
    (policy.ring = none ∨ policy.ring = some 0 → o.files.length = contents.length ∧ o.files = l.paths ∧ l.paths.Nodup) ∧
    o.files = l.paths.drop (contents.length - o.files.length) ∧
    (∀ j path, o.files[j]? = some path →
      (o.abandon l).world.disk.regular? path = contents[contents.length - o.files.length + j]? ∧
      (j + 1 < o.files.length ∨ o.handle = false →
        l.world.disk.regular? path = contents[contents.length - o.files.length + j]?)) ∧
    (∀ path, (∀ kept ∈ o.files, m.disk.place? kept ≠ m.disk.place? path) →
      (o.abandon l).world.disk.regular? path = m.disk.regular? path) := by
  intro contents
  obtain ⟨hturning, hcontents⟩ := (Turning.make template policy hdisk hdate).serveAll he hdated hrun
  have hall : l.contents = contents := hcontents
  have hpaths : l.paths.length = contents.length := by rw [← hall, Ledger.length_contents, Ledger.length_paths]
  have hlen : l.files.length = contents.length := by rw [← hall, Ledger.length_contents]
  have hring : o.files = newest policy l.paths := hturning.rung.ring
  have hfiles : o.files = (newest policy l.files).map (·.path) := hring.trans (newest_map _)
  have hkept : o.files.length = policy.keeps contents.length := by rw [hring, length_newest, hpaths]
  refine ⟨fun cap hcap hpos => ⟨?_, ?_, ?_⟩, fun hnone => ?_, ?_, fun j path hj => ?_, fun path hpath => ?_⟩
  · rw [hkept]
    unfold RotationPolicy.keeps
    rw [hcap]
    exact if_pos hpos
  · rw [hring]
    exact hturning.rung.distinct
  · rw [hring]
    exact hturning.rung.covered
  · have hnewest := newest_of_uncapped hnone l.paths
    exact ⟨by rw [hkept, keeps_of_uncapped hnone], hring.trans hnewest, hnewest ▸ hturning.rung.distinct⟩
  · rw [hkept, ← hpaths]
    exact hring
  · rw [hfiles, List.getElem?_map] at hj
    obtain ⟨f, hf, rfl⟩ := Option.map_eq_some_iff.mp hj
    have hcontent : contents[contents.length - o.files.length + j]? = some f.content := by
      unfold newest at hf
      rw [List.getElem?_drop, hlen, ← hkept] at hf
      rw [← hall]
      unfold Ledger.contents
      rw [List.getElem?_map, List.length_map, hlen, hf]
      rfl
    rw [hcontent]
    refine ⟨hturning.abandon.regular? hf (Or.inr rfl), fun hsealed => hturning.stands.regular? hf ?_⟩
    rw [hfiles, List.length_map] at hsealed
    exact hsealed
  · refine hturning.abandon.regular?_of_ne fun f hf => hpath f.path ?_
    rw [hfiles]
    exact List.mem_map_of_mem hf

/-- Five files with a cap of two: the last two are kept, the open one holds its block back. -/
theorem ring_keeps_newest_two :
    let policy : RotationPolicy := ⟨[.packets 1], some 2⟩
    let calls := (List.range 5).flatMap fun i => [Call.openNext [], .write [UInt8.ofNat i] true]
    ∃ o l, serveAll calls (Output.make "ring.pcapng" policy) (Ledger.blank (Machine.ofDisk .empty)) = .ok (o, l) ∧
      o.files = ["ring_00002_20240102030405.pcapng", "ring_00001_20240102030405.pcapng"] ∧
      (o.abandon l).world.disk.regular? "ring_00002_20240102030405.pcapng" = some [3] ∧
      (o.abandon l).world.disk.regular? "ring_00001_20240102030405.pcapng" = some [4] := by
  intro policy calls
  have hdated : ∀ c ∈ calls, c.Dated := by
    intro c hc
    obtain ⟨i, -, hc⟩ := List.mem_flatMap.mp hc
    rcases List.mem_cons.mp hc with rfl | hc
    · trivial
    · rw [List.mem_singleton.mp hc]
      trivial
  have hkept : (serveAll calls (Output.make "ring.pcapng" policy) (Ledger.blank (Machine.ofDisk .empty))).toOption.map
      (·.1.files) = some ["ring_00002_20240102030405.pcapng", "ring_00001_20240102030405.pcapng"] := by
    decide +kernel
  obtain ⟨⟨o, l⟩, hok, hfiles⟩ := Option.map_eq_some_iff.mp hkept
  have hrun : serveAll calls (Output.make "ring.pcapng" policy) (Ledger.blank (Machine.ofDisk .empty)) = .ok (o, l) := by
    generalize serveAll calls (Output.make "ring.pcapng" policy) (Ledger.blank (Machine.ofDisk .empty)) = r at hok
    cases r with
    | error e => cases hok
    | ok s => cases hok; rfl
  dsimp only at hfiles
  have hcontents : contentsOf calls = [[0], [1], [2], [3], [4]] := by decide +kernel
  obtain ⟨-, -, -, hheld, -⟩ := ring_keeps_newest "ring.pcapng" (show policy.isEnabled = true from rfl)
    Disk.sound_empty (by decide +kernel) hdated hrun
  rw [hcontents, hfiles] at hheld
  exact ⟨o, l, hrun, hfiles, (hheld 0 _ rfl).1, (hheld 1 _ rfl).1⟩

end CaptureRing
