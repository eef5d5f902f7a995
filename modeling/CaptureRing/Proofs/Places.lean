/-
  CaptureRing.Proofs.Places — the files of a disk, told by their places.

  A path leads through directories to a place. What stands there depends on nothing but
  what was done at that place: a file that is created or written changes at its own place
  only, as long as no file has two names.

  The names of rotating files differ in their last part only. So all files of a template
  stand in one directory, and files of different names at different places.

  Proved:
  - `regular?_eq`: a path is read at its place;
  - `create_emptied`, `at?_append_self`, `at?_append_of_ne`: what creating a file and writing
    to it do at its place and at the others;
  - `place?_numberedName`: where the numbered files of a template stand.
-/

import CaptureRing.Disk
import CaptureRing.Proofs.FileNames
import CaptureRing.Proofs.RoundTrip

namespace CaptureRing

namespace Disk

/-! ## Places -/

/-- The place where a path may lead to a file. -/
def place? (path : String) (d : Disk) : Option Place :=
  match d.locate path with
  | .ok ⟨directory, some name, false⟩ => if isTooLong name then none else some (directory ++ [name])
  | _ => none

def at? (p : Place) (d : Disk) : Option Bytes :=
  match d.entry? p with
  | some (.target (.file n)) => some (d.content n)
  | _ => none

theorem at?_of_entry {p : Place} {n : Nat} {d : Disk} (h : d.entry? p = some (.target (.file n))) :
    d.at? p = some (d.content n) := by
  unfold at?
  rw [h]

theorem regular?_eq (path : String) (d : Disk) : d.regular? path = (d.place? path).bind (d.at? ·) := by
  unfold regular? open? place?
  cases d.locate path with
  | error e => rfl
  | ok spot =>
    obtain ⟨directory, name, slash⟩ := spot
    cases name with
    | none => rfl
    | some name =>
      by_cases hlong : isTooLong name = true
      · cases slash <;> simp [hlong]
      · cases slash with
        | true =>
          simp only [ok_bind, if_neg hlong]
          cases he : d.entry? (directory ++ [name]) with
          | none => rfl
          | some entry => cases entry <;> rfl
        | false =>
          simp only [ok_bind, if_neg hlong, Option.bind_some, at?]
          cases he : d.entry? (directory ++ [name]) with
          | none => rfl
          | some entry =>
            cases entry with
            | directory => rfl
            | target t => cases t <;> rfl

structure SameTree (d d' : Disk) : Prop where
  working : d'.working = d.working
  directories : d'.directories = d.directories

namespace SameTree

variable {d d' d'' : Disk}

theorem refl (d : Disk) : SameTree d d := ⟨rfl, rfl⟩

theorem symm (h : SameTree d d') : SameTree d' d := ⟨h.working.symm, h.directories.symm⟩

theorem trans (h : SameTree d d') (h' : SameTree d' d'') : SameTree d d'' :=
  ⟨h'.working.trans h.working, h'.directories.trans h.directories⟩

theorem entry_directory (h : SameTree d d') {p : Place} (hd : d.entry? p = some .directory) :
    d'.entry? p = some .directory := by
  unfold entry? at hd ⊢
  split at hd
  · rename_i hin
    rw [h.directories, if_pos hin]
  · split at hd
    · cases hd
    · obtain ⟨_, -, hx⟩ := Option.map_eq_some_iff.mp hd
      cases hx

theorem enter (h : SameTree d d') {dir there : Place} {part : List Char} (hd : d.enter dir part = .ok there) :
    d'.enter dir part = .ok there := by
  unfold Disk.enter at hd ⊢
  by_cases hvoid : part = [] ∨ part = ['.']
  · rw [if_pos hvoid] at hd ⊢
    exact hd
  · by_cases hup : part = ['.', '.']
    · rw [if_neg hvoid, if_pos hup] at hd ⊢
      exact hd
    · by_cases hlong : isTooLong part = true
      · rw [if_neg hvoid, if_neg hup, if_pos hlong] at hd
        cases hd
      · rw [if_neg hvoid, if_neg hup, if_neg hlong] at hd ⊢
        split at hd
        · rename_i he
          rw [h.entry_directory he]
          exact hd
        · cases hd
        · cases hd

theorem foldlM_enter (h : SameTree d d') {ps : List (List Char)} {dir there : Place}
    (hd : ps.foldlM d.enter dir = .ok there) : ps.foldlM d'.enter dir = .ok there := by
  induction ps generalizing dir with
  | nil => exact hd
  | cons part ps ih =>
    rw [List.foldlM_cons] at hd ⊢
    obtain ⟨next, hnext, hd⟩ := Block.bind_eq_ok hd
    rw [h.enter hnext]
    exact ih hd

theorem locate (h : SameTree d d') {path : String} {spot : Spot} (hd : d.locate path = .ok spot) :
    d'.locate path = .ok spot := by
  unfold Disk.locate at hd ⊢
  dsimp only at hd ⊢
  rw [h.working]
  split at hd
  · cases hd
  · split at hd
    · cases hd
    · split at hd
      · cases hd
      · obtain ⟨directory, hdirectory, hd⟩ := Block.bind_eq_ok hd
        rw [if_neg ‹_›, if_neg ‹_›, if_neg ‹_›, h.foldlM_enter hdirectory, ok_bind]
        split at hd
        · exact hd
        · split at hd
          · obtain ⟨there, hthere, hd⟩ := Block.bind_eq_ok hd
            rw [if_pos ‹_›, h.enter hthere]
            exact hd
          · rw [if_neg ‹_›]
            exact hd

theorem place? (h : SameTree d d') (path : String) : d'.place? path = d.place? path := by
  have hle : ∀ {a b : Disk} {p : Place}, SameTree a b → a.place? path = some p → b.place? path = some p := by
    intro a b p hab hp
    unfold Disk.place? at hp ⊢
    split at hp
    · rename_i hspot
      rw [hab.locate hspot]
      exact hp
    · cases hp
  cases hp : d.place? path with
  | some p => exact hle h hp
  | none =>
    cases hp' : d'.place? path with
    | none => rfl
    | some p => rw [hle h.symm hp'] at hp; cases hp

end SameTree

/-! ## Files -/

structure Sound (d : Disk) : Prop where
  valid : ∀ {p : Place} {n : Nat}, d.entry? p = some (.target (.file n)) → n < d.written.length
  alone : ∀ {p q : Place} {n : Nat}, d.entry? p = some (.target (.file n)) →
    d.entry? q = some (.target (.file n)) → q = p

theorem not_file_of_names_nil {d : Disk} (h : d.names = []) (p : Place) (n : Nat) :
    d.entry? p ≠ some (.target (.file n)) := by
  unfold entry?
  rw [h]
  split
  · nofun
  · intro he
    obtain ⟨x, -, hx⟩ := Option.map_eq_some_iff.mp he
    cases hx

theorem sound_empty : Disk.empty.Sound :=
  ⟨fun h => absurd h (not_file_of_names_nil rfl _ _), fun h => absurd h (not_file_of_names_nil rfl _ _)⟩

variable {d : Disk} {p q : Place} {n : Nat}

theorem at?_congr {d' : Disk} (hentry : d'.entry? q = d.entry? q)
    (hcontent : ∀ m, d.entry? q = some (.target (.file m)) → d'.content m = d.content m) : d'.at? q = d.at? q := by
  unfold at?
  rw [hentry]
  split
  · rename_i m hm
    rw [hcontent m hm]
  · rfl

theorem Sound.append (hs : d.Sound) (n : Nat) (bs : Bytes) : (d.append n bs).Sound := by
  refine ⟨fun h => ?_, fun h h' => hs.alone h h'⟩
  unfold Disk.append
  rw [List.length_modify]
  exact hs.valid h

theorem sameTree_append (n : Nat) (bs : Bytes) (d : Disk) : SameTree d (d.append n bs) := ⟨rfl, rfl⟩

theorem at?_append_self (hs : d.Sound) (h : d.entry? p = some (.target (.file n))) (bs : Bytes) :
    (d.append n bs).at? p = some (d.content n ++ bs) := by
  have h' : Disk.entry? p (d.append n bs) = some (.target (.file n)) := h
  rw [at?_of_entry h', content_append_self (hs.valid h)]

theorem at?_append_of_ne (hs : d.Sound) (h : d.entry? p = some (.target (.file n))) (hq : q ≠ p) (bs : Bytes) :
    (d.append n bs).at? q = d.at? q := by
  refine at?_congr rfl fun m hm => content_append_of_ne ?_ bs d
  rintro rfl
  exact hq (hs.alone h hm)

structure Emptied (p : Place) (n : Nat) (d d' : Disk) : Prop where
  tree : SameTree d d'
  sound : d'.Sound
  entry : d'.entry? p = some (.target (.file n))
  empty : d'.at? p = some []
  others : ∀ q, q ≠ p → d'.at? q = d.at? q

def cut (n : Nat) (d : Disk) : Disk := { d with written := d.written.set n [] }

theorem content_cut_of_ne {m : Nat} (h : m ≠ n) : (d.cut n).content m = d.content m := by
  unfold content cut
  dsimp only
  rw [List.getElem?_set_ne (Ne.symm h)]

theorem content_cut_self (h : n < d.written.length) : (d.cut n).content n = [] := by
  unfold content cut
  dsimp only
  rw [List.getElem?_set_self h]
  rfl

theorem emptied_cut (hs : d.Sound) (h : d.entry? p = some (.target (.file n))) : Emptied p n d (d.cut n) := by
  refine ⟨⟨rfl, rfl⟩, ⟨fun h => ?_, fun h h' => hs.alone h h'⟩, h, ?_, fun q hq => ?_⟩
  · unfold cut
    rw [List.length_set]
    exact hs.valid h
  · have h' : Disk.entry? p (d.cut n) = some (.target (.file n)) := h
    rw [at?_of_entry h', content_cut_self (hs.valid h)]
  · refine at?_congr rfl fun m hm => content_cut_of_ne ?_
    rintro rfl
    exact hq (hs.alone h hm)

def withFile (p : Place) (d : Disk) : Disk :=
  { d with names := d.names ++ [(p, d.written.length)], written := d.written ++ [[]] }

theorem withFile_entry_of_ne (hq : q ≠ p) : Disk.entry? q (d.withFile p) = d.entry? q := by
  unfold entry? withFile
  dsimp only
  have hfind : (d.names ++ [(p, d.written.length)]).find? (·.1 == q) = d.names.find? (·.1 == q) := by
    rw [List.find?_append, List.find?_singleton, if_neg (by simpa using Ne.symm hq), Option.or_none]
  rw [hfind]

theorem withFile_entry_self (h : d.entry? p = none) :
    Disk.entry? p (d.withFile p) = some (.target (.file d.written.length)) := by
  unfold entry? at h
  split at h
  · cases h
  · rename_i hdir
    split at h
    · cases h
    · rename_i hnone
      unfold entry? withFile
      dsimp only
      rw [if_neg hdir, List.find?_append, hnone, List.find?_singleton, if_pos (beq_self_eq_true p)]
      rfl

theorem content_withFile {m : Nat} (h : m < d.written.length) : (d.withFile p).content m = d.content m := by
  unfold content withFile
  dsimp only
  rw [List.getElem?_append_left h]

/-- A file that was not there is made, with a number of its own. -/
theorem emptied_withFile (hs : d.Sound) (h : d.entry? p = none) : Emptied p d.written.length d (d.withFile p) := by
  have hself := withFile_entry_self h
  have hlen : (d.withFile p).written.length = d.written.length + 1 := List.length_append
  -- the numbers given before are less than the new one
  have hold : ∀ {q : Place} {n : Nat}, q ≠ p → Disk.entry? q (d.withFile p) = some (.target (.file n)) →
      d.entry? q = some (.target (.file n)) ∧ n < d.written.length := by
    intro q n hq hn
    rw [withFile_entry_of_ne hq] at hn
    exact ⟨hn, hs.valid hn⟩
  refine ⟨⟨rfl, rfl⟩, ⟨fun {q n} hn => ?_, fun {q r n} hn hn' => ?_⟩, hself, ?_, fun q hq => ?_⟩
  · by_cases hq : q = p
    · rw [hq, hself] at hn
      cases hn
      omega
    · have := (hold hq hn).2
      omega
  · by_cases hq : q = p <;> by_cases hr : r = p
    · rw [hq, hr]
    · have := (hold hr hn').2
      rw [hq, hself] at hn
      cases hn
      omega
    · have := (hold hq hn).2
      rw [hr, hself] at hn'
      cases hn'
      omega
    · exact hs.alone (hold hq hn).1 (hold hr hn').1
  · rw [at?_of_entry hself]
    unfold content withFile
    dsimp only
    rw [List.getElem?_concat_length]
    rfl
  · exact at?_congr (withFile_entry_of_ne hq) fun m hm => content_withFile (hs.valid hm)

/-- A device stands at none but its own place. -/
theorem mem_devices_of_entry {device : Device} (h : d.entry? p = some (.target (.device device))) :
    p ∈ devices.map (·.1) := by
  unfold entry? at h
  split at h
  · cases h
  · split at h
    · cases h
    · obtain ⟨x, hx, -⟩ := Option.map_eq_some_iff.mp h
      have hplace := List.find?_some hx
      exact List.mem_map.mpr ⟨x, List.mem_of_find?_eq_some hx, eq_of_beq hplace⟩

/-- A path that a file was created by leads to a place, with an empty file, or with a device as
    before. -/
theorem create_cases {path : String} {t : Target} {d' : Disk} (h : d.create path = .ok (t, d')) :
    ∃ p, d.place? path = some p ∧ ((d.Sound → ∃ n, t = .file n ∧ Emptied p n d d') ∨
      ∃ device, t = .device device ∧ d' = d ∧ d.entry? p = some (.target (.device device))) := by
  unfold create at h
  obtain ⟨⟨directory, name, slash⟩, hspot, h⟩ := Block.bind_eq_ok h
  dsimp only at h
  split at h
  · cases h
  · rename_i name
    split at h
    · cases h
    · rename_i hslash
      split at h
      · cases h
      · rename_i hlong
        refine ⟨directory ++ [name], ?_, ?_⟩
        · unfold place?
          rw [hspot, Bool.eq_false_iff.mpr hslash]
          dsimp only
          rw [if_neg hlong]
        · split at h
          · cases h
          · rename_i n hentry
            cases h
            exact Or.inl fun hs => ⟨n, rfl, emptied_cut hs hentry⟩
          · rename_i t' hnot hentry
            cases h
            cases t with
            | file n => exact absurd rfl (hnot n)
            | device device => exact Or.inr ⟨device, rfl, rfl, hentry⟩
          · rename_i hentry
            cases h
            exact Or.inl fun hs => ⟨_, rfl, emptied_withFile hs hentry⟩

theorem place?_of_create {path : String} {t : Target} {d' : Disk} (h : d.create path = .ok (t, d')) :
    ∃ p, d.place? path = some p := by
  obtain ⟨p, hp, -⟩ := create_cases h
  exact ⟨p, hp⟩

theorem create_emptied {path : String} {t : Target} {d' : Disk} (hs : d.Sound) (h : d.create path = .ok (t, d'))
    (hp : d.place? path = some p) (hdevice : p ∉ devices.map (·.1)) : ∃ n, t = .file n ∧ Emptied p n d d' := by
  obtain ⟨q, hq, hfile | ⟨device, -, -, hentry⟩⟩ := create_cases h
  · obtain rfl : p = q := Option.some.inj (hp.symm.trans hq)
    exact hfile hs
  · obtain rfl : p = q := Option.some.inj (hp.symm.trans hq)
    exact absurd (mem_devices_of_entry hentry) hdevice

end Disk

/-! ## The last part of a path -/

namespace Text

variable {sep : Char} {cs : List Char}

theorem split_ne_nil (sep : Char) (cs : List Char) : split sep cs ≠ [] := by
  cases cs with
  | nil => exact List.cons_ne_nil _ _
  | cons c cs =>
    unfold split
    split
    · exact List.cons_ne_nil _ _
    · split <;> exact List.cons_ne_nil _ _

theorem split_of_not_mem (h : sep ∉ cs) : split sep cs = [cs] := by
  induction cs with
  | nil => rfl
  | cons c cs ih =>
    rw [List.mem_cons, not_or] at h
    unfold split
    rw [if_neg (Ne.symm h.1), ih h.2]

theorem split_append (sep : Char) (front back : List Char) :
    split sep (front ++ sep :: back) = split sep front ++ split sep back := by
  induction front with
  | nil =>
    show split sep (sep :: back) = [] :: split sep back
    rw [split, if_pos rfl]
  | cons c front ih =>
    rw [List.cons_append, split, split, ih]
    split
    · rfl
    · cases hs : split sep front with
      | nil => exact absurd hs (split_ne_nil sep front)
      | cons part parts => rfl

theorem not_mem_of_mem_split {part : List Char} (h : part ∈ split sep cs) : sep ∉ part := by
  induction cs generalizing part with
  | nil =>
    rw [List.mem_singleton.mp h]
    exact List.not_mem_nil
  | cons c cs ih =>
    unfold split at h
    split at h
    · rcases List.mem_cons.mp h with rfl | h
      · exact List.not_mem_nil
      · exact ih h
    · rename_i hc
      have hhead : ∀ {first : List Char}, sep ∉ first → sep ∉ c :: first := by
        intro first hfirst hm
        rcases List.mem_cons.mp hm with he | hm
        · exact hc he.symm
        · exact hfirst hm
      split at h
      · rw [List.mem_singleton.mp h]
        exact hhead List.not_mem_nil
      · rename_i first parts hs
        rw [hs] at ih
        rcases List.mem_cons.mp h with rfl | h
        · exact hhead (ih List.mem_cons_self)
        · exact ih (List.mem_cons_of_mem _ h)

theorem eq_of_splitOnce? {a b : List Char} (h : splitOnce? sep cs = some (a, b)) : cs = a ++ sep :: b := by
  induction cs generalizing a with
  | nil => cases h
  | cons c cs ih =>
    unfold splitOnce? at h
    split at h
    · rename_i hc
      cases h
      rw [hc, List.nil_append]
    · obtain ⟨⟨a', b'⟩, hs, he⟩ := Option.map_eq_some_iff.mp h
      cases he
      rw [ih hs, List.cons_append]

end Text

namespace Path

variable {path name : List Char}

/-- A directory with a slash behind it, unless there is one or the directory is not named. -/
def withSlash (directory : List Char) : List Char :=
  match directory.getLast? with
  | none => []
  | some c => if c = '/' then directory else directory ++ ['/']

/-- What stands in front of a file name in a path, with the slash between them. -/
def folder (path : List Char) : List Char := withSlash (if (fileName? path).isSome then parent path else path)

theorem push_eq (name directory : List Char) : push name directory = withSlash directory ++ name := by
  unfold push withSlash
  cases directory.getLast? with
  | none => rfl
  | some c =>
    dsimp only
    by_cases hc : c = '/'
    · rw [if_pos hc, if_pos hc]
    · rw [if_neg hc, if_neg hc, List.append_assoc, List.singleton_append]

theorem withFileName_eq (name path : List Char) : withFileName name path = folder path ++ name := push_eq _ _

theorem folder_cases (path : List Char) : folder path = [] ∨ ∃ front, folder path = front ++ ['/'] := by
  unfold folder withSlash
  split
  · exact Or.inl rfl
  · rename_i c hlast
    right
    split
    · rename_i hc
      obtain ⟨front, hfront⟩ := List.getLast?_eq_some_iff.mp hlast
      exact ⟨front, by rw [hfront, hc]⟩
    · exact ⟨_, rfl⟩

theorem parts_folder (path : List Char) (hslash : '/' ∉ name) (hname : name ≠ []) :
    (Text.split '/' (folder path ++ name)).filter (!·.isEmpty) =
      (Text.split '/' (folder path)).filter (!·.isEmpty) ++ [name] := by
  have hkept : [name].filter (!·.isEmpty) = [name] := by
    cases name with
    | nil => exact absurd rfl hname
    | cons c cs => rfl
  rcases folder_cases path with hf | ⟨front, hf⟩
  · rw [hf, List.nil_append, Text.split_of_not_mem hslash, hkept]
    rfl
  · have hempty : (Text.split '/' []).filter (!·.isEmpty) = [] := rfl
    rw [hf, List.append_assoc, List.singleton_append, Text.split_append, Text.split_append, List.filter_append,
      List.filter_append, Text.split_of_not_mem hslash, hkept, hempty, List.append_nil]

theorem head?_folder (path : List Char) (hslash : '/' ∉ name) :
    (folder path ++ name).head? = some '/' ↔ (folder path).head? = some '/' := by
  rcases folder_cases path with hf | ⟨front, hf⟩
  · rw [hf, List.nil_append]
    exact ⟨fun h => absurd (List.mem_of_head? h) hslash, nofun⟩
  · rw [List.head?_append_of_ne_nil]
    rw [hf]
    exact List.append_ne_nil_of_right_ne_nil _ (List.cons_ne_nil _ _)

theorem slash_not_mem_fileName (h : fileName? path = some name) : '/' ∉ name := by
  unfold fileName? at h
  obtain ⟨hlast, -⟩ := Option.filter_eq_some_iff.mp h
  have hmem := List.mem_of_getLast? hlast
  unfold parts at hmem
  split at hmem
  · exact absurd hmem List.not_mem_nil
  · rename_i first rest hs
    have hin : name ∈ Text.split '/' path := by
      rw [hs]
      rcases List.mem_cons.mp hmem with rfl | hmem
      · exact List.mem_cons_self
      · exact List.mem_cons_of_mem _ (List.mem_reverse.mp ((List.dropWhile_sublist _).mem (List.mem_reverse.mp hmem)))
    exact Text.not_mem_of_mem_split hin

theorem append_of_splitName? {front back : List Char} (h : splitName? name = some (front, back)) :
    name = front ++ '.' :: back := by
  unfold splitName? at h
  split at h
  · rename_i extension stem hs
    split at h
    · cases h
    · cases h
      have := congrArg List.reverse (Text.eq_of_splitOnce? hs)
      rw [List.reverse_reverse, List.reverse_append, List.reverse_cons, List.append_assoc, List.singleton_append] at this
      exact this
  · cases h

theorem mem_of_mem_stem {c : Char} (h : c ∈ stem name) : c ∈ name := by
  unfold stem at h
  cases hs : splitName? name with
  | none => rw [hs] at h; exact h
  | some x =>
    obtain ⟨front, back⟩ := x
    rw [hs] at h
    rw [append_of_splitName? hs]
    exact List.mem_append_left _ h

theorem mem_of_mem_extension {c : Char} {extension : List Char} (he : extension? name = some extension)
    (h : c ∈ extension) : c ∈ name := by
  unfold extension? at he
  obtain ⟨⟨front, back⟩, hs, rfl⟩ := Option.map_eq_some_iff.mp he
  rw [append_of_splitName? hs]
  exact List.mem_append_right _ (List.mem_cons_of_mem _ h)

end Path

/-! ## Numbered files -/

def Output.numberedPart (template : String) (number : Nat) (date : String) : List Char :=
  let name := (Path.fileName? template.toList).getD []
  Path.stem name ++ '_' :: Text.zeroFill 5 (Text.decimal number) ++ '_' :: date.toList
    ++ match Path.extension? name with
      | some e => '.' :: e
      | none => []

namespace Output

variable {template date : String} {number : Nat}

theorem numberedName_eq (template : String) (number : Nat) (date : String) : numberedName template number date =
    String.ofList (Path.folder template.toList ++ numberedPart template number date) := by
  rw [← Path.withFileName_eq]
  rfl

theorem slash_not_mem_zeroFill (width n : Nat) : '/' ∉ Text.zeroFill width (Text.decimal n) := by
  intro hm
  rcases List.mem_append.mp hm with hm | hm
  · have hz := List.eq_of_mem_replicate hm
    revert hz
    decide
  · have hdigit := Nat.isDigit_of_mem_toDigits (by decide) (by decide) hm
    revert hdigit
    decide

theorem slash_not_mem_numberedPart (hdate : '/' ∉ date.toList) : '/' ∉ numberedPart template number date := by
  have hname : '/' ∉ (Path.fileName? template.toList).getD [] := by
    cases h : Path.fileName? template.toList with
    | none => exact List.not_mem_nil
    | some name => exact Path.slash_not_mem_fileName h
  unfold numberedPart
  dsimp only
  intro hm
  rcases List.mem_append.mp hm with hm | hm
  · rcases List.mem_append.mp hm with hm | hm
    · rcases List.mem_append.mp hm with hm | hm
      · exact hname (Path.mem_of_mem_stem hm)
      · rcases List.mem_cons.mp hm with he | hm
        · revert he; decide
        · exact slash_not_mem_zeroFill 5 number hm
    · rcases List.mem_cons.mp hm with he | hm
      · revert he; decide
      · exact hdate hm
  · split at hm
    · rename_i extension he
      rcases List.mem_cons.mp hm with hc | hm
      · revert hc; decide
      · exact hname (Path.mem_of_mem_extension he hm)
    · exact List.not_mem_nil hm

theorem underscore_mem_numberedPart (template : String) (number : Nat) (date : String) :
    '_' ∈ numberedPart template number date := by
  unfold numberedPart
  simp

end Output

namespace Disk

variable {template date date' : String} {number number' : Nat} {d : Disk} {p : Place}

def directoryOf (template : String) (d : Disk) : Except IoFault Place :=
  let folder := Path.folder template.toList
  ((Text.split '/' folder).filter (!·.isEmpty)).foldlM d.enter (if folder.head? = some '/' then [] else d.working)

/-- A path that leads to a name leads through the parts in front of it to the directory. -/
theorem locate_eq_ok {path : String} {directory : Place} {name : List Char} {slash : Bool}
    (h : d.locate path = .ok ⟨directory, some name, slash⟩) :
    ∃ front, (Text.split '/' path.toList).filter (!·.isEmpty) = front ++ [name] ∧
      front.foldlM d.enter (if path.toList.head? = some '/' then [] else d.working) = .ok directory := by
  unfold locate at h
  dsimp only at h
  split at h
  · cases h
  · split at h
    · cases h
    · split at h
      · cases h
      · obtain ⟨found, hfound, h⟩ := Block.bind_eq_ok h
        split at h
        · cases h
        · rename_i part hlast
          split at h
          · obtain ⟨_, -, h⟩ := Block.bind_eq_ok h
            cases h
          · have hsame := Except.ok.inj h
            simp only [Spot.mk.injEq, Option.some.injEq] at hsame
            obtain ⟨rfl, rfl, -⟩ := hsame
            obtain ⟨front, hfront⟩ := List.getLast?_eq_some_iff.mp hlast
            rw [hfront, List.dropLast_concat] at hfound
            exact ⟨front, hfront, hfound⟩

/-- A numbered file stands under its name in the directory of all of them. -/
theorem place?_numberedName (hdate : '/' ∉ date.toList)
    (hp : d.place? (Output.numberedName template number date) = some p) :
    ∃ directory, d.directoryOf template = .ok directory ∧
      p = directory ++ [Output.numberedPart template number date] := by
  have hslash : '/' ∉ Output.numberedPart template number date := Output.slash_not_mem_numberedPart hdate
  have hpart := List.ne_nil_of_mem (Output.underscore_mem_numberedPart template number date)
  have hcs := congrArg String.toList (Output.numberedName_eq template number date)
  rw [String.toList_ofList] at hcs
  unfold place? at hp
  split at hp
  · rename_i directory name hspot
    split at hp
    · cases hp
    · obtain rfl := Option.some.inj hp
      obtain ⟨front, hparts, hfound⟩ := locate_eq_ok hspot
      rw [hcs, Path.parts_folder template.toList hslash hpart] at hparts
      obtain ⟨rfl, hname⟩ := List.append_inj' hparts rfl
      simp only [hcs, Path.head?_folder template.toList hslash] at hfound
      exact ⟨directory, hfound, by rw [List.singleton_inj.mp hname]⟩
  · cases hp

/-- Numbered files of different names stand at different places. -/
theorem numberedName_of_place? (hdate : '/' ∉ date.toList) (hdate' : '/' ∉ date'.toList)
    (hp : d.place? (Output.numberedName template number date) = some p)
    (hp' : d.place? (Output.numberedName template number' date') = some p) :
    Output.numberedName template number date = Output.numberedName template number' date' := by
  obtain ⟨directory, -, rfl⟩ := place?_numberedName hdate hp
  obtain ⟨directory', -, he⟩ := place?_numberedName hdate' hp'
  rw [Output.numberedName_eq, Output.numberedName_eq, (List.append_inj' he rfl).2 |> List.singleton_inj.mp]

/-- No numbered file is a device. -/
theorem not_mem_devices (hdate : '/' ∉ date.toList)
    (hp : d.place? (Output.numberedName template number date) = some p) : p ∉ devices.map (·.1) := by
  obtain ⟨directory, -, rfl⟩ := place?_numberedName hdate hp
  intro hm
  have hlast : ∀ q ∈ devices.map (·.1), ∀ part, q.getLast? = some part → '_' ∉ part := by decide
  exact hlast _ hm _ List.getLast?_concat (Output.underscore_mem_numberedPart template number date)

end Disk

end CaptureRing
