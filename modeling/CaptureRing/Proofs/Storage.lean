/-
  CaptureRing.Proofs.Storage — the output files on the disk of a machine.

  Most of what is written to the open file is on the disk, and the last of it is held back
  until the file is given up. The other files are on the disk whole. Creating a file puts it
  at the end of those that are kept; if it stands in the place of one of them, that one is
  gone.

  Proved:
  - `Filling.write`, `Filling.release`, `Filling.of_create`: what writing, giving up and
    creating a file do on the disk;
  - `Stands.write`, `Stands.release`, `Stands.create`: so the kept files stay where they are,
    each with all that was written to it, and nothing else on the disk changes.
-/

import CaptureRing.Machine
import CaptureRing.Proofs.Ledger
import CaptureRing.Proofs.Places

namespace CaptureRing

/-! ## The open file -/

namespace Disk

structure Appended (p : Place) (more : Bytes) (d d' : Disk) : Prop where
  tree : SameTree d d'
  sound : d'.Sound
  entry : d'.entry? = d.entry?
  self : d'.at? p = (d.at? p).map (· ++ more)
  others : ∀ q, q ≠ p → d'.at? q = d.at? q

variable {p : Place} {n : Nat} {d d' d'' : Disk}

theorem Appended.refl (hs : d.Sound) : Appended p [] d d :=
  ⟨SameTree.refl d, hs, rfl, by simp, fun _ _ => rfl⟩

theorem Appended.trans {more more' : Bytes} (h : Appended p more d d') (h' : Appended p more' d' d'') :
    Appended p (more ++ more') d d'' := by
  refine ⟨h.tree.trans h'.tree, h'.sound, h'.entry.trans h.entry, ?_, fun q hq => (h'.others q hq).trans (h.others q hq)⟩
  rw [h'.self, h.self, Option.map_map]
  refine congrArg (Option.map · (d.at? p)) (funext fun bs => ?_)
  exact List.append_assoc bs more more'

theorem appended_append (hs : d.Sound) (h : d.entry? p = some (.target (.file n))) (bs : Bytes) :
    Appended p bs d (d.append n bs) := by
  refine ⟨sameTree_append n bs d, hs.append n bs, rfl, ?_, fun q hq => at?_append_of_ne hs h hq bs⟩
  rw [at?_append_self hs h, at?_of_entry h]
  rfl

end Disk

namespace Machine

variable {p : Place} {held : Bytes} {m m' : Machine}

/-- The open file stands at this place, and these bytes are held back for it. -/
structure Filling (p : Place) (held : Bytes) (m : Machine) : Prop where
  sound : m.disk.Sound
  open_ : ∃ n f, m.file = some f ∧ f.target = .file n ∧ m.disk.entry? p = some (.target (.file n)) ∧
    f.bytes = held ∧ f.size = held.length

structure Fed (p : Place) (more held : Bytes) (m m' : Machine) : Prop where
  disk : Disk.Appended p more m.disk m'.disk
  filling : m'.Filling p held
  calendar : m'.calendar = m.calendar

theorem Fed.trans {m'' : Machine} {more more' held' : Bytes} (h : Fed p more held m m') (h' : Fed p more' held' m' m'') :
    Fed p (more ++ more') held' m m'' :=
  ⟨h.disk.trans h'.disk, h'.filling, h'.calendar.trans h.calendar⟩

namespace Filling

theorem flush (h : m.Filling p held) : ∃ m', m.flush = (.ok (), m') ∧ Fed p held [] m m' := by
  obtain ⟨hs, n, f, hfile, htarget, hentry, rfl, -⟩ := h
  refine ⟨{ m with disk := m.disk.append n f.bytes, file := some (.ofTarget f.target) }, ?_, ?_⟩
  · unfold Machine.flush
    simp only [hfile, htarget]
    rfl
  · have happended := Disk.appended_append hs hentry f.bytes
    exact ⟨happended, ⟨happended.sound, n, _, rfl, htarget, hentry, rfl, rfl⟩, rfl⟩

/-- Bytes that are too many to be held back are not taken while others are. -/
theorem accept (h : m.Filling p held) (bs : Bytes) (hroom : held = [] ∨ held.length + bs.length ≤ bufferSize) :
    ∃ m' more held', m.accept bs = (.ok (), m') ∧ Fed p more held' m m' ∧ more ++ held' = held ++ bs := by
  obtain ⟨hs, n, f, hfile, htarget, hentry, rfl, hsize⟩ := h
  unfold Machine.accept
  simp only [hfile]
  by_cases hshort : bs.length < bufferSize
  · rw [if_pos hshort]
    refine ⟨_, [], f.bytes ++ bs, rfl, ⟨Disk.Appended.refl hs, ⟨hs, n, f.hold bs, rfl, htarget, hentry, ?_, ?_⟩, rfl⟩, rfl⟩
    · exact OpenFile.bytes_hold bs f
    · rw [List.length_append, ← hsize]
      rfl
  · rw [if_neg hshort]
    have hnone : f.bytes = [] := by
      rcases hroom with hnone | hroom
      · exact hnone
      · exact List.length_eq_zero_iff.mp (by omega)
    have happended := Disk.appended_append hs hentry bs
    rw [htarget]
    refine ⟨_, bs, [], rfl, ⟨happended, ⟨happended.sound, n, f, rfl, ?_⟩, rfl⟩, ?_⟩
    · exact ⟨htarget, hentry, hnone, by rw [hsize, hnone]⟩
    · rw [hnone, List.append_nil, List.nil_append]

theorem write (h : m.Filling p held) (bs : Bytes) :
    ∃ m' more held', m.write bs = (.ok (), m') ∧ Fed p more held' m m' ∧ more ++ held' = held ++ bs := by
  obtain ⟨n, f, hfile, -, -, hbytes, hsize⟩ := h.open_
  unfold Machine.write
  simp only [hfile]
  by_cases hroom : f.size + bs.length ≤ bufferSize
  · rw [if_pos hroom]
    exact h.accept bs (Or.inr (by rw [← hsize]; exact hroom))
  · rw [if_neg hroom]
    obtain ⟨m₁, hflush, hfed⟩ := h.flush
    obtain ⟨m₂, more, held', haccept, hfed', hbs⟩ := hfed.filling.accept bs (Or.inl rfl)
    simp only [hflush]
    exact ⟨m₂, held ++ more, held', haccept, hfed.trans hfed', by rw [List.append_assoc, hbs, List.nil_append]⟩

theorem release (h : m.Filling p held) :
    ∃ m', m.release = (.ok (), m') ∧ Disk.Appended p held m.disk m'.disk ∧ m'.calendar = m.calendar := by
  obtain ⟨m₁, hflush, hfed⟩ := h.flush
  refine ⟨{ m₁ with file := none }, ?_, hfed.disk, hfed.calendar⟩
  unfold Machine.release
  rw [hflush]

theorem of_create {path : String} (hs : m.disk.Sound) (hp : m.disk.place? path = some p)
    (hdevice : p ∉ Disk.devices.map (·.1)) (h : m.create path = (.ok (), m')) :
    (∃ n, Disk.Emptied p n m.disk m'.disk) ∧ m'.Filling p [] ∧ m'.calendar = m.calendar := by
  unfold Machine.create at h
  split at h
  · rename_i t d hc
    cases h
    obtain ⟨n, rfl, hempty⟩ := Disk.create_emptied hs hc hp hdevice
    exact ⟨⟨n, hempty⟩, ⟨hempty.sound, n, _, rfl, rfl, hempty.entry, rfl, rfl⟩, rfl⟩
  · cases h

end Filling

end Machine

/-! ## The files kept -/

def Numbered (template path : String) : Prop :=
  ∃ number date, '/' ∉ date.toList ∧ path = Output.numberedName template number date

variable {template : String} {before d d' : Disk} {files : List (String × Bytes)} {p : Place} {path : String}

theorem Numbered.eq_of_place? {path' : String} (h : Numbered template path) (h' : Numbered template path')
    (hp : d.place? path = some p) (hp' : d.place? path' = some p) : path = path' := by
  obtain ⟨number, date, hdate, rfl⟩ := h
  obtain ⟨number', date', hdate', rfl⟩ := h'
  exact Disk.numberedName_of_place? hdate hdate' hp hp'

structure Stored (template : String) (before : Disk) (files : List (String × Bytes)) (d : Disk) : Prop where
  tree : Disk.SameTree before d
  sound : d.Sound
  numbered : ∀ f ∈ files, Numbered template f.1
  distinct : (files.map (·.1)).Nodup
  held : ∀ f ∈ files, ∃ p, before.place? f.1 = some p ∧ d.at? p = some f.2
  rest : ∀ p, (∀ f ∈ files, before.place? f.1 ≠ some p) → d.at? p = before.at? p

namespace Stored

theorem nothing (hs : before.Sound) : Stored template before [] before :=
  ⟨Disk.SameTree.refl before, hs, nofun, List.nodup_nil, nofun, fun _ _ => rfl⟩

/-- A file that is created takes the place of the one of its name, if there is one. -/
theorem created {n : Nat} (h : Stored template before files d) (hpath : Numbered template path)
    (hp : before.place? path = some p) (he : Disk.Emptied p n d d') :
    Stored template before (files.filter (·.1 ≠ path) ++ [(path, [])]) d' := by
  have hkept : ∀ f ∈ files.filter (·.1 ≠ path), f ∈ files ∧ f.1 ≠ path := by
    intro f hf
    obtain ⟨hf, hne⟩ := List.mem_filter.mp hf
    exact ⟨hf, of_decide_eq_true hne⟩
  refine ⟨h.tree.trans he.tree, he.sound, fun f hf => ?_, ?_, fun f hf => ?_, fun q hq => ?_⟩
  · rcases List.mem_append.mp hf with hf | hf
    · exact h.numbered f (hkept f hf).1
    · rw [List.mem_singleton.mp hf]
      exact hpath
  · rw [List.map_append, List.map_singleton]
    have hdistinct : ((files.filter (·.1 ≠ path)).map (·.1)).Nodup := h.distinct.sublist (List.filter_sublist.map _)
    refine List.nodup_append.mpr ⟨hdistinct, List.pairwise_singleton _ _, fun x hx y hy => ?_⟩
    obtain ⟨f, hf, rfl⟩ := List.mem_map.mp hx
    rw [List.mem_singleton.mp hy]
    exact (hkept f hf).2
  · rcases List.mem_append.mp hf with hf | hf
    · obtain ⟨hf, hne⟩ := hkept f hf
      obtain ⟨q, hq, hheld⟩ := h.held f hf
      refine ⟨q, hq, (he.others q ?_).trans hheld⟩
      rintro rfl
      exact hne ((h.numbered f hf).eq_of_place? hpath hq hp)
    · rw [List.mem_singleton.mp hf]
      exact ⟨p, hp, he.empty⟩
  · obtain ⟨hfiles, hnew⟩ := List.forall_mem_append.mp hq
    have hne : q ≠ p := by
      rintro rfl
      exact hnew _ (List.mem_singleton_self _) hp
    rw [he.others q hne]
    refine h.rest q fun f hf hplace => ?_
    by_cases hf' : f.1 = path
    · rw [hf', hp] at hplace
      exact hne (Option.some.inj hplace).symm
    · exact hfiles f (List.mem_filter.mpr ⟨hf, decide_eq_true hf'⟩) hplace

theorem appended {bs more : Bytes} (h : Stored template before (files ++ [(path, bs)]) d)
    (hp : before.place? path = some p) (ha : Disk.Appended p more d d') :
    Stored template before (files ++ [(path, bs ++ more)]) d' := by
  have hnames : ∀ bs : Bytes, (files ++ [(path, bs)]).map (·.1) = files.map (·.1) ++ [path] := fun _ => List.map_append
  have hmem : (path, bs) ∈ files ++ [(path, bs)] := List.mem_append_right _ (List.mem_singleton_self _)
  have hpath := h.numbered _ hmem
  have hdistinct := h.distinct
  rw [hnames] at hdistinct
  refine ⟨h.tree.trans ha.tree, ha.sound, fun f hf => ?_, by rw [hnames]; exact hdistinct, fun f hf => ?_, fun q hq => ?_⟩
  · rcases List.mem_append.mp hf with hf | hf
    · exact h.numbered f (List.mem_append_left _ hf)
    · rw [List.mem_singleton.mp hf]
      exact hpath
  · rcases List.mem_append.mp hf with hf | hf
    · obtain ⟨q, hq, hheld⟩ := h.held f (List.mem_append_left _ hf)
      refine ⟨q, hq, (ha.others q ?_).trans hheld⟩
      rintro rfl
      have he := (h.numbered f (List.mem_append_left _ hf)).eq_of_place? hpath hq hp
      exact (List.nodup_append.mp hdistinct).2.2 f.1 (List.mem_map_of_mem hf) path (List.mem_singleton_self _) he
    · rw [List.mem_singleton.mp hf]
      obtain ⟨q, hq, hheld⟩ := h.held _ hmem
      rw [hp] at hq
      cases hq
      exact ⟨p, hp, by rw [ha.self, hheld]; rfl⟩
  · obtain ⟨hfiles, hnew⟩ := List.forall_mem_append.mp hq
    have hne : q ≠ p := fun he => hnew (path, bs ++ more) (List.mem_singleton_self _) (he ▸ hp)
    rw [ha.others q hne]
    refine h.rest q (List.forall_mem_append.mpr ⟨hfiles, fun f hf => ?_⟩)
    rw [List.mem_singleton.mp hf]
    exact hnew (path, bs ++ more) (List.mem_singleton_self _)

/-- A path is read as the file of that name, or as it was before. -/
theorem regular?_of_mem {f : String × Bytes} (h : Stored template before files d) (hf : f ∈ files) :
    d.regular? f.1 = some f.2 := by
  obtain ⟨p, hp, hheld⟩ := h.held f hf
  rw [Disk.regular?_eq, h.tree.place?, hp]
  exact hheld

theorem regular?_of_ne (h : Stored template before files d)
    (hpath : ∀ f ∈ files, before.place? f.1 ≠ before.place? path) : d.regular? path = before.regular? path := by
  rw [Disk.regular?_eq, Disk.regular?_eq, h.tree.place?]
  cases hp : before.place? path with
  | none => rfl
  | some p =>
    refine h.rest p fun f hf => ?_
    rw [← hp]
    exact hpath f hf

end Stored

/-! ## The files kept, and the one that is open -/

namespace LedgerFile

def named (f : LedgerFile) : String × Bytes := (f.path, f.content)

end LedgerFile

inductive Stands (template : String) (before : Disk) : List LedgerFile → Bool → Machine → Prop
  | sealed {kept : List LedgerFile} {m : Machine} :
      Stored template before (kept.map LedgerFile.named) m.disk → Stands template before kept false m
  | filling {earlier : List LedgerFile} {last : LedgerFile} {p : Place} {bs held : Bytes} {m : Machine} :
      last.content = bs ++ held → before.place? last.path = some p → m.Filling p held →
      Stored template before (earlier.map LedgerFile.named ++ [(last.path, bs)]) m.disk →
      Stands template before (earlier ++ [last]) true m

namespace Stands

variable {kept : List LedgerFile} {opened : Bool} {m m' : Machine}

theorem of_clock (h : Stands template before kept opened m) (clock : Nat) (calendar : String) :
    Stands template before kept opened { m with clock, calendar } := by
  cases h with
  | sealed h => exact .sealed h
  | filling hcontent hp hm h => exact .filling hcontent hp ⟨hm.sound, hm.open_⟩ h

theorem write (h : Stands template before kept true m) {bs : Bytes} (hw : m.write bs = (.ok (), m')) :
    Stands template before (kept.modifyLast (·.note bs)) true m' ∧ m'.calendar = m.calendar := by
  cases h with
  | @filling earlier last p front held _ hcontent hp hm h =>
    obtain ⟨m₁, more, held', hok, hfed, hbs⟩ := hm.write bs
    rw [hok] at hw
    cases hw
    rw [List.modifyLast_concat]
    have hcontent' : (last.note bs).content = (front ++ more) ++ held' := by
      rw [LedgerFile.content_note, hcontent, List.append_assoc, List.append_assoc, hbs]
    exact ⟨.filling hcontent' hp hfed.filling (h.appended hp hfed.disk), hfed.calendar⟩

theorem release (h : Stands template before kept true m) :
    ∃ m', m.release = (.ok (), m') ∧ Stands template before kept false m' ∧ m'.calendar = m.calendar := by
  cases h with
  | @filling earlier last p front held _ hcontent hp hm h =>
    obtain ⟨m₁, hok, happended, hcalendar⟩ := hm.release
    refine ⟨m₁, hok, .sealed ?_, hcalendar⟩
    have h' := h.appended hp happended
    rw [← hcontent] at h'
    rw [List.map_append]
    exact h'

theorem create (h : Stands template before kept false m) (hpath : Numbered template path)
    (hc : m.create path = (.ok (), m')) :
    Stands template before (kept.filter (·.path ≠ path) ++ [⟨path, []⟩]) true m' ∧ m'.calendar = m.calendar := by
  cases h with
  | sealed h =>
    have hplace : ∃ p, m.disk.place? path = some p := by
      unfold Machine.create at hc
      split at hc
      · exact Disk.place?_of_create ‹_›
      · cases hc
    obtain ⟨p, hp⟩ := hplace
    obtain ⟨number, date, hdate, rfl⟩ := hpath
    obtain ⟨⟨n, hempty⟩, hfilling, hcalendar⟩ := Machine.Filling.of_create h.sound hp (Disk.not_mem_devices hdate hp) hc
    rw [h.tree.place?] at hp
    have h' := h.created ⟨number, date, hdate, rfl⟩ hp hempty
    rw [List.filter_map] at h'
    have hcontent : (LedgerFile.mk (Output.numberedName template number date) []).content = [] ++ [] := rfl
    exact ⟨.filling hcontent hp hfilling h', hcalendar⟩

/-- The files kept but for the open one are on the disk as they were written. -/
theorem regular? {i : Nat} {f : LedgerFile} (h : Stands template before kept opened m) (hf : kept[i]? = some f)
    (hsealed : i + 1 < kept.length ∨ opened = false) : m.disk.regular? f.path = some f.content := by
  cases h with
  | sealed h => exact h.regular?_of_mem (f := f.named) (List.mem_map_of_mem (List.mem_of_getElem? hf))
  | @filling earlier last _ _ _ _ _ _ _ h =>
    have hi : i < earlier.length := by
      rcases hsealed with hi | hopen
      · rw [List.length_append, List.length_singleton] at hi
        omega
      · cases hopen
    rw [List.getElem?_append_left hi] at hf
    exact h.regular?_of_mem (f := f.named) (List.mem_append_left _ (List.mem_map_of_mem (List.mem_of_getElem? hf)))

theorem regular?_of_ne (h : Stands template before kept opened m)
    (hpath : ∀ f ∈ kept, before.place? f.path ≠ before.place? path) : m.disk.regular? path = before.regular? path := by
  cases h with
  | sealed h =>
    refine h.regular?_of_ne fun x hx => ?_
    obtain ⟨f, hf, rfl⟩ := List.mem_map.mp hx
    exact hpath f hf
  | @filling earlier last _ bs _ _ _ _ _ h =>
    obtain ⟨hearlier, hlast⟩ := List.forall_mem_append.mp hpath
    refine h.regular?_of_ne (List.forall_mem_append.mpr ⟨fun x hx => ?_, fun x hx => ?_⟩)
    · obtain ⟨f, hf, rfl⟩ := List.mem_map.mp hx
      exact hearlier f hf
    · rw [List.mem_singleton.mp hx]
      exact hlast last (List.mem_singleton_self _)

end Stands

end CaptureRing
