/-
  CaptureRing.Proofs.Contents — what the files of a session hold.

  With rotation the controller gives each file a name of its own until the oldest is written over,
  and the disk keeps all of them (`Turning`). Without rotation there is one path, which is emptied
  each time it is opened: what stands there is that of the last file alone. Either way a file that
  is sealed, and whose path was not opened since, holds what was written to it.

  A path may lead to a device. It is opened and written like a file, but nothing that is written
  to it can be found there.

  Proved:
  - `Rests.write`, `Rests.release`, `Rests.of_create`: what becomes of the one file on the disk;
  - `Lone.called`, `Turning.called`: so the files of a session stand where they were written;
  - `counters_tell_content`: the sealed files hold what the controller counted and was given;
  - `device_keeps_nothing`: a device holds none of it.
-/

import CaptureRing.Proofs.Session

namespace CaptureRing

/-! ## A device -/

/-- What a path leads to is what stands at its place. -/
theorem Disk.open?_of_place {path : String} {p : Place} {t : Target} {d : Disk} (hp : d.place? path = some p)
    (ht : d.entry? p = some (.target t)) : d.open? path = .ok (.target t) := by
  unfold place? at hp
  split at hp
  · rename_i directory name hspot
    split at hp
    · cases hp
    · rename_i hlong
      cases hp
      unfold open?
      rw [hspot, ok_bind]
      dsimp only
      rw [if_neg hlong, ht]
      rfl
  · cases hp

namespace Machine

variable {m m' : Machine} {bs : Bytes} {r : Except IoFault Unit}

def ToDevice (m : Machine) : Prop := ∃ f device, m.file = some f ∧ f.target = .device device

theorem put_device {device : Device} {d d' : Disk} (h : d.put (.device device) bs = .ok d') : d' = d := by
  unfold Disk.put at h
  cases device with
  | full =>
    dsimp only at h
    split at h
    · cases h
      rfl
    · cases h
  | zero | null =>
    cases h
    rfl

theorem ToDevice.flush (h : m.ToDevice) (hf : m.flush = (.ok (), m')) : m'.disk = m.disk ∧ m'.ToDevice := by
  obtain ⟨f, device, hfile, htarget⟩ := h
  unfold Machine.flush at hf
  rw [hfile] at hf
  dsimp only at hf
  rw [htarget] at hf
  split at hf
  · rename_i hput
    cases hf
    exact ⟨put_device hput, _, device, rfl, rfl⟩
  · cases hf

theorem ToDevice.accept (h : m.ToDevice) (ha : m.accept bs = (.ok (), m')) : m'.disk = m.disk ∧ m'.ToDevice := by
  obtain ⟨f, device, hfile, htarget⟩ := h
  unfold Machine.accept at ha
  rw [hfile] at ha
  dsimp only at ha
  split at ha
  · cases ha
    exact ⟨rfl, _, device, rfl, htarget⟩
  · rw [htarget] at ha
    split at ha
    · rename_i hput
      cases ha
      exact ⟨put_device hput, f, device, rfl, htarget⟩
    · cases ha

theorem ToDevice.write (h : m.ToDevice) (hw : m.write bs = (.ok (), m')) : m'.disk = m.disk ∧ m'.ToDevice := by
  obtain ⟨f, device, hfile, htarget⟩ := id h
  unfold Machine.write at hw
  rw [hfile] at hw
  dsimp only at hw
  split at hw
  · exact h.accept hw
  · split at hw
    · rename_i m₁ hflush
      obtain ⟨hdisk, h₁⟩ := h.flush hflush
      obtain ⟨hdisk', h₂⟩ := h₁.accept hw
      exact ⟨hdisk'.trans hdisk, h₂⟩
    · rename_i hfailed
      exact absurd hw (hfailed m')

theorem ToDevice.release (h : m.ToDevice) (hr : m.release = (.ok (), m')) : m'.disk = m.disk := by
  unfold Machine.release at hr
  rcases hflush : m.flush with ⟨r, m₁⟩
  rw [hflush] at hr
  cases hr
  exact (h.flush hflush).1

end Machine

/-! ## One file on the disk -/

/-- The file of this path holds all that was written to it, but for what is held back as long as it is
    open; or the path leads to a device. -/
inductive Rests (path : String) (content : Bytes) : Bool → Machine → Prop
  | device {p : Place} {device : Device} {opened : Bool} {m : Machine} : m.disk.Sound →
      m.disk.place? path = some p → m.disk.entry? p = some (.target (.device device)) →
      (opened = true → m.ToDevice) → Rests path content opened m
  | sealed {p : Place} {m : Machine} : m.disk.Sound → m.disk.place? path = some p →
      m.disk.at? p = some content → Rests path content false m
  | filling {p : Place} {bs held : Bytes} {m : Machine} : m.disk.place? path = some p → m.Filling p held →
      m.disk.at? p = some bs → content = bs ++ held → Rests path content true m

namespace Rests

variable {path : String} {content bs : Bytes} {opened : Bool} {m m' : Machine}

theorem sound (h : Rests path content opened m) : m.disk.Sound := by
  cases h with
  | device hs _ _ _ => exact hs
  | sealed hs _ _ => exact hs
  | filling _ hm _ _ => exact hm.sound

theorem of_clock (h : Rests path content opened m) (clock : Nat) (calendar : String) :
    Rests path content opened { m with clock, calendar } := by
  cases h with
  | device hs hp hentry hopen => exact .device hs hp hentry hopen
  | sealed hs hp hat => exact .sealed hs hp hat
  | filling hp hm hat hcontent => exact .filling hp ⟨hm.sound, hm.open_⟩ hat hcontent

theorem write (h : Rests path content true m) (hw : m.write bs = (.ok (), m')) : Rests path (content ++ bs) true m' := by
  cases h with
  | device hs hp hentry hopen =>
    obtain ⟨hdisk, hopen'⟩ := (hopen rfl).write hw
    rw [← hdisk] at hs hp hentry
    exact .device hs hp hentry fun _ => hopen'
  | filling hp hm hat hcontent =>
    obtain ⟨m₁, more, held', hok, hfed, hbs⟩ := hm.write bs
    rw [hok] at hw
    cases hw
    have hp' : m'.disk.place? path = some _ := (hfed.disk.tree.place? path).trans hp
    have hat' := hfed.disk.self
    rw [hat, Option.map_some] at hat'
    refine .filling hp' hfed.filling hat' ?_
    rw [hcontent, List.append_assoc, List.append_assoc, hbs]

theorem release (h : Rests path content true m) (hr : m.release = (.ok (), m')) : Rests path content false m' := by
  cases h with
  | device hs hp hentry hopen =>
    have hdisk := (hopen rfl).release hr
    rw [← hdisk] at hs hp hentry
    exact .device hs hp hentry nofun
  | filling hp hm hat hcontent =>
    obtain ⟨m₁, hok, happended, -⟩ := hm.release
    rw [hok] at hr
    cases hr
    have hp' : m'.disk.place? path = some _ := (happended.tree.place? path).trans hp
    refine .sealed happended.sound hp' ?_
    rw [happended.self, hat, hcontent]
    rfl

theorem of_create (hs : m.disk.Sound) (hc : m.create path = (.ok (), m')) : Rests path [] true m' := by
  unfold Machine.create at hc
  split at hc
  · rename_i t d hcreate
    cases hc
    obtain ⟨p, hp, hfile | ⟨device, rfl, rfl, hentry⟩⟩ := Disk.create_cases hcreate
    · obtain ⟨n, rfl, hempty⟩ := hfile hs
      have hp' : d.place? path = some p := (hempty.tree.place? path).trans hp
      exact .filling hp' ⟨hempty.sound, n, _, rfl, rfl, hempty.entry, rfl, rfl⟩ hempty.empty rfl
    · exact .device hs hp hentry fun _ => ⟨_, device, rfl, rfl⟩
  · cases hc

/-- Once sealed, it is read as it was written, unless it is a device. -/
theorem regular? (h : Rests path content false m) : m.disk.regular? path = some content ∨
    ∃ device, m.disk.open? path = .ok (.target (.device device)) := by
  cases h with
  | device hs hp hentry _ => exact Or.inr ⟨_, Disk.open?_of_place hp hentry⟩
  | sealed hs hp hat =>
    left
    rw [Disk.regular?_eq, hp]
    exact hat

end Rests

/-! ## Without rotation -/

structure Lone (template : String) (o : Output) (l : Ledger Machine) : Prop where
  sameTemplate : o.template = template
  disabled : o.policy.isEnabled = false
  sound : l.world.disk.Sound
  paths : ∀ f ∈ l.files, f.path = template
  rests : l.files = [] ∧ o.handle = false ∨
    ∃ earlier f, l.files = earlier ++ [f] ∧ Rests template f.content o.handle l.world

namespace Lone

variable {template : String} {policy : RotationPolicy} {o o' : Output} {l l' : Ledger Machine}

theorem make (template : String) (he : policy.isEnabled = false) {m : Machine} (hs : m.disk.Sound) :
    Lone template (Output.make template policy) (Ledger.blank m) :=
  ⟨rfl, he, hs, nofun, Or.inl ⟨rfl, rfl⟩⟩

theorem of_clock (h : Lone template o l) (clock : Nat) (calendar : String) :
    Lone template o ⟨{ l.world with clock, calendar }, l.files⟩ := by
  refine ⟨h.sameTemplate, h.disabled, h.sound, h.paths, ?_⟩
  rcases h.rests with hnone | ⟨earlier, f, hfiles, hrests⟩
  · exact Or.inl hnone
  · exact Or.inr ⟨earlier, f, hfiles, hrests.of_clock clock calendar⟩

theorem of_shelf (h : Lone template o l) (hs : Output.SameShelf o o') (hhandle : o'.handle = o.handle) :
    Lone template o' l := by
  refine ⟨hs.template.trans h.sameTemplate, ?_, h.sound, h.paths, ?_⟩
  · rw [hs.policy]
    exact h.disabled
  · rw [hhandle]
    exact h.rests

theorem checkRotation (h : Lone template o l) : Lone template (o.checkRotation l).2.1 (o.checkRotation l).2.2 := by
  obtain ⟨hhandle, hclock⟩ := Output.checkRotation_world o l
  have h' := h.of_shelf (Output.checkRotation_shelf o l) hhandle
  rcases hclock with hw | hw
  · rw [hw]
    exact h'
  · rw [hw]
    exact h'.of_clock _ _

theorem open_ (h : Lone template o l) (hopen : o.handle = true) :
    ∃ earlier f, l.files = earlier ++ [f] ∧ Rests template f.content true l.world := by
  rcases h.rests with ⟨-, hclosed⟩ | ⟨earlier, f, hfiles, hrests⟩
  · rw [hopen] at hclosed
    cases hclosed
  · rw [hopen] at hrests
    exact ⟨earlier, f, hfiles, hrests⟩

theorem write {data : Bytes} {packet met : Bool} (h : Lone template o l)
    (hw : o.write data packet l = (.ok met, o', l')) : Lone template o' l' := by
  obtain ⟨-, hshelf, -⟩ := Output.write_ok hw
  obtain ⟨hopen, hopen', l₁, hworld, hclock⟩ := Output.write_ok_world hw
  have hnoted : Lone template o l₁ := by
    have hfiles₁ := Ledger.write_ok hworld
    obtain ⟨earlier, f, hfiles, hrests⟩ := h.open_ hopen
    have hrests' : Rests template (f.note data).content true l₁.world := by
      rw [LedgerFile.content_note]
      exact hrests.write (Ledger.world_of_write hworld)
    rw [hfiles, List.modifyLast_concat] at hfiles₁
    refine ⟨h.sameTemplate, h.disabled, hrests'.sound, fun g hg => ?_, Or.inr ⟨earlier, _, hfiles₁, hopen ▸ hrests'⟩⟩
    rw [hfiles₁] at hg
    rcases List.mem_append.mp hg with hg | hg
    · exact h.paths g (hfiles ▸ List.mem_append_left _ hg)
    · rw [List.mem_singleton.mp hg]
      exact h.paths f (hfiles ▸ List.mem_append_right _ (List.mem_singleton_self f))
  have h' := hnoted.of_shelf hshelf (hopen'.trans hopen.symm)
  rcases hclock with rfl | rfl
  · exact h'
  · exact h'.of_clock _ _

theorem close (h : Lone template o l) (hc : o.close l = (.ok (), o', l')) :
    Lone template o' l' ∧ o'.handle = false := by
  have hshelf := Output.close_shelf o l
  have hfiles := Output.close_files o l
  rw [hc] at hshelf hfiles
  cases Output.close_cases hc with
  | idle hclosed => exact ⟨h.of_shelf hshelf rfl, hclosed⟩
  | sealed hopen hr =>
    obtain ⟨earlier, f, hlast, hrests⟩ := h.open_ hopen
    have hsealed : Rests template f.content false l'.world := hrests.release (Ledger.world_of_release hr)
    exact ⟨⟨h.sameTemplate, h.disabled, hsealed.sound, hfiles ▸ h.paths,
      Or.inr ⟨earlier, f, hfiles.trans hlast, hsealed⟩⟩, rfl⟩

theorem nextPath (h : Lone template o l) (w : Ledger Machine) :
    o.nextPath w = (template, { o with sequence := o.sequence + 1 }, w) := by
  have hreused : ({ o with sequence := o.sequence + 1 } : Output).reused? = none := by
    unfold Output.reused?
    dsimp only
    rw [h.disabled]
    split
    · exact if_neg fun hfull => absurd hfull.1 nofun
    · rfl
  unfold Output.nextPath Output.freshPath
  dsimp only
  rw [hreused]
  dsimp only
  rw [h.disabled, if_neg Bool.false_ne_true, h.sameTemplate]

theorem created {path : String} (h : Lone template o l) (hc : Output.Created o l path o' l') : Lone template o' l' := by
  cases hc with
  | @intro o₁ o₂ l₁ l₂ l₃ hclose hnext hcreate =>
    obtain ⟨h₁, -⟩ := h.close hclose
    rw [h₁.nextPath l₁] at hnext
    cases hnext
    have hfiles := Ledger.create_ok hcreate
    have hrests : Rests template [] true l₃.world := .of_create h₁.sound (Ledger.world_of_create hcreate)
    refine Lone.of_clock (l := l₃) ?_ _ _
    refine ⟨h₁.sameTemplate, h₁.disabled, hrests.sound, fun g hg => ?_, Or.inr ⟨l₁.files, _, hfiles, hrests⟩⟩
    rw [hfiles] at hg
    rcases List.mem_append.mp hg with hg | hg
    · exact h₁.paths g hg
    · rw [List.mem_singleton.mp hg]

theorem openNext {seed : Bytes} (h : Lone template o l) (ho : o.openNext seed l = (.ok (), o', l')) :
    Lone template o' l' := by
  cases Output.openNext_cases ho with
  | bare hcreated _ => exact h.created hcreated
  | seeded hcreated _ hw => exact (h.created hcreated).write hw

theorem called {s s' : Session} {c : Call} (h : Lone template s.output s.ledger) (hc : Session.Called s c s') :
    Lone template s'.output s'.ledger := by
  cases hc with
  | clock instant calendar => exact h.of_clock instant calendar
  | refused data packet _ => exact h
  | opened hopen => exact h.openNext hopen
  | wrote hw => exact h.write hw
  | @looked met o l hlook =>
    have hlooked := h.checkRotation
    rw [hlook] at hlooked
    exact hlooked
  | closed hclose => exact (h.close hclose).1

/-- The last file is read as it was written, once it is sealed; the others are gone. -/
theorem regular? {before after : List LedgerFile} {f : LedgerFile} (h : Lone template o l)
    (hfiles : l.files = before ++ f :: after) (hlater : ∀ g ∈ after, g.path ≠ f.path)
    (hsealed : after ≠ [] ∨ o.handle = false) : l.world.disk.regular? f.path = some f.content ∨
      ∃ device, l.world.disk.open? f.path = .ok (.target (.device device)) := by
  have hpath : ∀ g ∈ f :: after, g.path = template := fun g hg => h.paths g (hfiles ▸ List.mem_append_right _ hg)
  -- all files have one path, so no other file comes after this one
  obtain rfl : after = [] := by
    cases after with
    | nil => rfl
    | cons g after =>
      refine absurd ?_ (hlater g List.mem_cons_self)
      rw [hpath g (List.mem_cons_of_mem _ List.mem_cons_self), hpath f List.mem_cons_self]
  have hclosed : o.handle = false := hsealed.resolve_left fun hne => hne rfl
  rcases h.rests with ⟨hnone, -⟩ | ⟨earlier, g, hlast, hrests⟩
  · rw [hnone] at hfiles
    exact absurd hfiles.symm (List.append_ne_nil_of_right_ne_nil _ (List.cons_ne_nil _ _))
  · obtain ⟨-, hsame⟩ := List.append_inj' (hfiles.symm.trans hlast) rfl
    obtain rfl := List.singleton_inj.mp hsame
    rw [hclosed] at hrests
    rw [hpath f List.mem_cons_self]
    exact hrests.regular?

end Lone

/-! ## With rotation -/

namespace Turning

variable {template : String} {policy : RotationPolicy} {disk : Disk} {o : Output} {l : Ledger Machine}

theorem called {s s' : Session} {c : Call} (h : Turning template policy disk s.output s.ledger)
    (he : policy.isEnabled = true) (hdated : c.Dated) (hc : Session.Called s c s') :
    Turning template policy disk s'.output s'.ledger := by
  cases hc with
  | clock instant calendar => exact h.of_clock instant hdated
  | refused data packet _ => exact h
  | opened hopen => exact h.openNext he hopen
  | wrote hw => exact h.write hw
  | @looked met o l hlook =>
    have hlooked := h.checkRotation
    rw [hlook] at hlooked
    exact hlooked
  | closed hclose => exact (h.close hclose).1

/-- A file whose path was not opened since is among those that are kept, so it is read as it was
    written once it is sealed. -/
theorem regular? {before after : List LedgerFile} {f : LedgerFile} (h : Turning template policy disk o l)
    (hfiles : l.files = before ++ f :: after) (hlater : ∀ g ∈ after, g.path ≠ f.path)
    (hsealed : after ≠ [] ∨ o.handle = false) : l.world.disk.regular? f.path = some f.content := by
  have hpaths : l.paths = l.files.map (·.path) := rfl
  have hmem : f.path ∈ (newest policy l.files).map (·.path) := by
    rw [← newest_map, ← hpaths]
    refine h.rung.covered f.path ?_
    rw [hpaths, hfiles]
    exact List.mem_map_of_mem (List.mem_append_right _ List.mem_cons_self)
  obtain ⟨g, hg, hsame⟩ := List.mem_map.mp hmem
  obtain ⟨k, hk⟩ : ∃ k, newest policy l.files = l.files.drop k := ⟨_, rfl⟩
  have hkept : k ≤ before.length := by
    by_contra hgone
    -- what is kept came later, and has other paths
    rw [hk, hfiles, List.drop_append, List.drop_eq_nil_of_le (by omega), List.nil_append] at hg
    obtain ⟨j, hj⟩ : ∃ j, k - before.length = j + 1 := ⟨k - before.length - 1, by omega⟩
    rw [hj, List.drop_succ_cons] at hg
    exact hlater g (List.mem_of_mem_drop hg) hsame
  have hnewest : newest policy l.files = before.drop k ++ f :: after := by
    rw [hk, hfiles, List.drop_append_of_le_length hkept]
  refine h.stands.regular? (i := (before.drop k).length) ?_ ?_
  · rw [hnewest, List.getElem?_append_right (Nat.le_refl _), Nat.sub_self]
    rfl
  · refine hsealed.imp_left fun hne => ?_
    rw [hnewest, List.length_append, List.length_cons]
    have hpos := List.length_pos_of_ne_nil hne
    omega

end Turning

/-! ## Any session -/

namespace Page

variable (p : Page)

theorem path_file : p.file.path = p.path := by
  unfold file
  induction p.blocks using List.reverseRecOn with
  | nil => rfl
  | append_singleton bs b ih =>
    rw [List.foldl_append]
    exact ih

theorem content_file : p.file.content = p.seed ++ (p.blocks.map (·.1)).flatten := by
  unfold file
  induction p.blocks using List.reverseRecOn with
  | nil =>
    rw [List.map_nil, List.flatten_nil, List.append_nil]
    exact LedgerFile.content_seeded p.path p.seed
  | append_singleton bs b ih =>
    rw [List.foldl_append, List.map_append, List.flatten_append, ← List.append_assoc, ← ih, List.map_singleton,
      List.flatten_singleton]
    exact LedgerFile.content_note _ _

end Page

namespace Session

variable {s s' : Session} {c : Call}

theorem files_called (h : s.ledger.files = Deed.files s.log) (hc : Called s c s') :
    s'.ledger.files = Deed.files s'.log := by
  cases hc with
  | clock instant calendar => exact h
  | refused data packet _ => exact h
  | @opened seed o l hopen =>
    have hopening := Output.openNext_opening seed s.output s.ledger
    rw [hopen] at hopening
    cases hopening with
    | opened path ring _ ho =>
      have hpath : o.ring.getLast?.getD "" = path := by
        rw [ho.ring]
        simp
      rw [hpath, Deed.files_snoc, ← h]
      exact ho.files
  | wrote hw =>
    rw [Deed.files_snoc, ← h]
    exact (Output.write_ok hw).1
  | @looked met o l hlook =>
    have hfiles := Output.checkRotation_files s.output s.ledger
    rw [hlook] at hfiles
    rw [Deed.files_snoc, ← h]
    exact hfiles
  | @closed o l hclose =>
    have hfiles := Output.close_files s.output s.ledger
    rw [hclose] at hfiles
    exact hfiles.trans h

theorem files_run {template : String} {policy : RotationPolicy} {m : Machine} {calls : List Call}
    (hrun : run calls (start template policy m) = .ok s) : s.ledger.files = (Deed.pages s.log).map Page.file := by
  rw [← Deed.files_eq]
  refine run_induction (P := fun s => s.ledger.files = Deed.files s.log) ?_ (fun _ _ _ _ hc h => files_called h hc) hrun
  rfl

/-- A page whose path was not opened since is read as it was written, once it is sealed. -/
theorem regular?_page {template : String} {policy : RotationPolicy} {m : Machine} {calls : List Call}
    (hdisk : m.disk.Sound) (hdate : '/' ∉ m.calendar.toList) (hdated : ∀ c ∈ calls, c.Dated)
    (hrun : run calls (start template policy m) = .ok s) {before after : List Page} {p : Page}
    (hpages : Deed.pages s.log = before ++ p :: after) (hlater : ∀ q ∈ after, q.path ≠ p.path)
    (hsealed : after ≠ [] ∨ s.output.handle = false) :
    s.ledger.world.disk.regular? p.path = some p.file.content ∨
      (policy.isEnabled = false ∧ ∃ device, s.ledger.world.disk.open? p.path = .ok (.target (.device device))) := by
  have hfiles : s.ledger.files = before.map Page.file ++ p.file :: after.map Page.file := by
    rw [files_run hrun, hpages, List.map_append, List.map_cons]
  have hlater' : ∀ g ∈ after.map Page.file, g.path ≠ p.file.path := by
    intro g hg
    obtain ⟨q, hq, rfl⟩ := List.mem_map.mp hg
    rw [Page.path_file, Page.path_file]
    exact hlater q hq
  have hsealed' : after.map Page.file ≠ [] ∨ s.output.handle = false :=
    hsealed.imp_left fun hne hnone => hne (List.map_eq_nil_iff.mp hnone)
  rw [← Page.path_file]
  cases he : policy.isEnabled with
  | true =>
    have hturning : Turning template policy m.disk s.output s.ledger :=
      run_induction (P := fun s => Turning template policy m.disk s.output s.ledger) (.make template policy hdisk hdate)
        (fun c hc _ _ hcalled h => h.called he (hdated c hc) hcalled) hrun
    exact Or.inl (hturning.regular? hfiles hlater' hsealed')
  | false =>
    have hlone : Lone template s.output s.ledger :=
      run_induction (P := fun s => Lone template s.output s.ledger) (.make template he hdisk)
        (fun _ _ _ _ hcalled h => h.called hcalled) hrun
    exact (hlone.regular? hfiles hlater' hsealed').imp_right fun hdevice => ⟨rfl, hdevice⟩

end Session

/-- What a session writes is what its counters say. A file that is sealed, and whose path was not opened
    since, holds its seed and what was written to it; only without rotation can the path be that of a
    device. The current file is counted as it is. A file is found full at most once, which is when the
    controller goes from filling to rotating. A write without an open file changes nothing. -/
theorem counters_tell_content (template : String) (policy : RotationPolicy) {m : Machine} (hdisk : m.disk.Sound)
    (hdate : '/' ∉ m.calendar.toList) {calls : List Call} (hdated : ∀ c ∈ calls, c.Dated) {s : Session}
    (hrun : Session.run calls (Session.start template policy m) = .ok s) :
    s.ledger.paths = (Deed.pages s.log).map (·.path) ∧
    (∀ before p after, Deed.pages s.log = before ++ p :: after → (∀ q ∈ after, q.path ≠ p.path) →
      (after ≠ [] ∨ s.output.handle = false) →
      s.ledger.world.disk.regular? p.path = some (p.seed ++ (p.blocks.map (·.1)).flatten) ∨
        (policy.isEnabled = false ∧ ∃ device, s.ledger.world.disk.open? p.path = .ok (.target (.device device)))) ∧
    (∀ earlier p, Deed.pages s.log = earlier ++ [p] →
      ∃ f, s.output.current = some f ∧ f.path = p.path ∧
        f.bytes = (p.seed ++ (p.blocks.map (·.1)).flatten).length ∧ f.packets = p.blocks.countP (·.2)) ∧
    (∀ p ∈ Deed.pages s.log, p.deeds.countP Deed.isMet ≤ 1) ∧
    (∀ c s', s.call c = .ok s' → (s.output.state = .filling ∧ s'.output.state = .rotating ↔
      ∃ d, s'.log = s.log ++ [d] ∧ d.isMet = true)) ∧
    (s.output.handle = false → ∀ data packet,
      s.output.write data packet s.ledger = (.error (.outputWrite s.output.template .noFileOpen), s.output, s.ledger)) := by
  have hcounted : Session.Counted s :=
    Session.run_induction (P := Session.Counted) (.start template policy m) (fun _ _ _ _ hc h => h.called hc) hrun
  refine ⟨?paths, fun before p after hpages hlater hsealed => ?content, fun earlier p hpages => ?counted,
    hcounted.once, fun c s' hcall => Session.turns_iff (Session.called_of_call hcall),
    fun hclosed data packet => Output.write_refused hclosed data packet s.ledger⟩
  case paths =>
    have hfiles := Session.files_run hrun
    unfold Ledger.paths
    rw [hfiles, List.map_map]
    exact List.map_congr_left fun p _ => p.path_file
  case content =>
    have hread := Session.regular?_page hdisk hdate hdated hrun hpages hlater hsealed
    rwa [Page.content_file] at hread
  case counted =>
    obtain ⟨f, hf, hpath, hbytes, hpackets⟩ := (hcounted.last earlier p hpages).current
    refine ⟨f, hf, hpath, ?_, hpackets⟩
    rw [hbytes, ← Page.length_content, Page.content_file]

/-- With rotation two files are sealed one after another, and read as they were written. -/
theorem counters_tell_content_two :
    let calls : List Call := [.openNext [7], .write [1] true, .write [2] false, .openNext [8], .write [3] true, .close,
      .write [4] true]
    ∃ s, Session.run calls (Session.start "log.pcapng" ⟨[.packets 1], none⟩ (Machine.ofDisk .empty)) = .ok s ∧
      s.ledger.world.disk.regular? "log_00001_20240102030405.pcapng" = some [7, 1, 2] ∧
      s.ledger.world.disk.regular? "log_00002_20240102030405.pcapng" = some [8, 3] ∧
      ∃ f, s.output.current = some f ∧ f.bytes = 2 ∧ f.packets = 1 := by
  intro calls
  have hdated : ∀ c ∈ calls, c.Dated := by simp [calls, Call.Dated]
  let first : Page := ⟨"log_00001_20240102030405.pcapng", [7], [.wrote [1] true true, .wrote [2] false false]⟩
  let second : Page := ⟨"log_00002_20240102030405.pcapng", [8], [.wrote [3] true true]⟩
  obtain ⟨s, hrun, hclosed, hpages⟩ : ∃ s,
      Session.run calls (Session.start "log.pcapng" ⟨[.packets 1], none⟩ (Machine.ofDisk .empty)) = .ok s ∧
        s.output.handle = false ∧ Deed.pages s.log = [first, second] := ⟨_, rfl, by decide +kernel, by decide +kernel⟩
  obtain ⟨-, hcontent, hcounted, -⟩ := counters_tell_content "log.pcapng" ⟨[.packets 1], none⟩ Disk.sound_empty
    (by decide +kernel) hdated hrun
  have hfirst := (hcontent [] first [second] hpages (by decide) (Or.inr hclosed)).resolve_right nofun
  have hsecond := (hcontent [first] second [] hpages nofun (Or.inr hclosed)).resolve_right nofun
  obtain ⟨f, hf, -, hbytes, hpackets⟩ := hcounted [first] second hpages
  exact ⟨s, hrun, hfirst, hsecond, f, hf, hbytes, hpackets⟩

/-- A device keeps nothing of what is written to it. -/
theorem device_keeps_nothing :
    ∃ s, Session.run [.openNext [115, 101, 101, 100], .close] (Session.start "/dev/null" ⟨[], none⟩ (Machine.ofDisk .empty))
        = .ok s ∧
      Deed.pages s.log = [⟨"/dev/null", [115, 101, 101, 100], []⟩] ∧ s.output.handle = false ∧
      s.ledger.world.disk.regular? "/dev/null" = none ∧ s.ledger.world.disk.bytes? "/dev/null" = some [] :=
  ⟨_, rfl, by decide +kernel, by decide +kernel, by decide +kernel, by decide +kernel⟩

end CaptureRing
