/-
  CaptureRing.Proofs.Saving — a configuration that was saved is loaded again unchanged.

  Each encoded part says itself where it ends, so a decoder reads it whatever stands behind
  it (`Reads`), and parts one after the other are read by one decoder after the other. What
  that leaves to show is one fact about each kind of part. A part that is longer than memory
  has no length to write, so lists and texts are taken to fit (`Addressable`).

  Proved:
  - `Saved.reads_nat`, `reads_text`, `reads_duration`: numbers in each of their forms, texts
    and spans of time are read from what was written for them;
  - `Saved.reads_list`, `reads_sources`: so are lists, element by element in their order;
  - `Config.Savable.reads`: so is a whole configuration without readers;
  - `Disk.TakesFile.write`: a path that takes a file can be written, and is then read from its place;
  - `saved_loads_back`: saving and loading give the configuration back, and one with a reader
    is refused without a change of the disk.
-/

import Mathlib.Data.List.Forall2
import CaptureRing.Config.Stored
import CaptureRing.Proofs.Places
import CaptureRing.Proofs.Utf8RoundTrip

namespace CaptureRing

namespace Saved

variable {α β : Type}

/-! ## Decoders one after the other -/

/-- The decoder takes these bytes for the value, and leaves what stands behind them. -/
def Reads (get : Decoder α) (bs : Bytes) (a : α) : Prop := ∀ rest, get (bs ++ rest) = .ok (a, rest)

theorem Reads.pure (a : α) : Reads (Pure.pure a) [] a := fun _ => rfl

theorem Reads.bind {get : Decoder α} {k : α → Decoder β} {front back : Bytes} {a : α} {b : β}
    (h : Reads get front a) (h' : Reads (k a) back b) : Reads (get >>= k) (front ++ back) b := by
  intro rest
  show (get (front ++ back ++ rest) >>= fun x => k x.1 x.2) = _
  rw [List.append_assoc, h, ok_bind, h']

/-- What is made of a value needs no more bytes. -/
theorem Reads.finish {get : Decoder α} {k : α → Decoder β} {bs : Bytes} {a : α} {b : β}
    (h : Reads get bs a) (h' : Reads (k a) [] b) : Reads (get >>= k) bs b := by
  have := h.bind h'
  rwa [List.append_nil] at this

theorem Reads.map {get : Decoder α} {bs : Bytes} {a : α} (h : Reads get bs a) (f : α → β) :
    Reads (get >>= fun a => Pure.pure (f a)) bs (f a) := h.finish (.pure (f a))

/-! ## Numbers -/

theorem reads_byte (b : UInt8) : Reads getByte [b] b := fun _ => rfl

theorem reads_takeBytes {n : Nat} {bs : Bytes} (h : bs.length = n) : Reads (takeBytes n) bs bs := by
  subst h
  intro rest
  rw [takeBytes, split?_append]

theorem reads_digits {width n : Nat} (h : n < 256 ^ width) : Reads (ofDigits <$> takeBytes width) (digits width n) n := by
  have := (reads_takeBytes (length_digits width n)).map ofDigits
  rwa [ofDigits_digits, Nat.mod_eq_of_lt h] at this

/-- Each number is written in the least of its forms that holds it. -/
theorem reads_nat {width n : Nat} (h : n < 2 ^ 32 ∨ width = 8 ∧ n < 2 ^ 64) : Reads (getNat width) (putNat n) n := by
  unfold putNat getNat
  split
  · rename_i hsmall
    have hb : (UInt8.ofNat n).toNat = n := by
      rw [UInt8.toNat_ofNat']
      omega
    refine (reads_byte _).bind ?_
    rw [if_pos (UInt8.lt_iff_toNat_lt.mpr (by rw [hb]; exact hsmall)), hb]
    exact Reads.pure n
  split
  · refine (reads_byte 251).bind ?_
    exact reads_digits (by omega)
  split
  · refine (reads_byte 252).bind ?_
    exact reads_digits (by omega)
  · refine (reads_byte 253).bind ?_
    rw [if_neg (by decide), if_neg (by decide), if_neg (by decide), if_pos ⟨rfl, by omega⟩]
    exact reads_digits (by omega)

theorem reads_64 (n : UInt64) : Reads get64 (put64 n) n := by
  have hnat : Reads (getNat 8) (putNat n.toNat) n.toNat := reads_nat (Or.inr ⟨rfl, n.toNat_lt⟩)
  have h64 := hnat.map UInt64.ofNat
  rwa [UInt64.ofNat_toNat] at h64

theorem reads_length {n : Nat} (h : n < 2 ^ 64) : Reads (getNat 8) (putNat n) n := reads_nat (Or.inr ⟨rfl, h⟩)

theorem reads_index {n : Nat} (h : n < 251) : Reads getIndex (putNat n) n := reads_nat (Or.inl (by omega))

/-! ## Texts, lists and spans of time -/

theorem reads_text {s : String} (h : (Utf8.encode s.toList).length < 2 ^ 63) : Reads getText (putText s) s := by
  have hdecode := Utf8.decode?_encode s.toList
  unfold putText putBytes
  -- of the encoded text nothing counts but its length and that it is decoded
  generalize Utf8.encode s.toList = bs at h hdecode
  refine (reads_length (by omega)).bind ?_
  rw [if_neg (Nat.not_le.mpr h)]
  refine (reads_takeBytes rfl).finish ?_
  rw [hdecode]
  show Reads (pure (String.ofList s.toList)) [] s
  rw [String.ofList_toList]
  exact Reads.pure s

theorem reads_times {get : Decoder α} {bss : List Bytes} {as : List α} (h : List.Forall₂ (Reads get) bss as) :
    Reads (getTimes get as.length) bss.flatten as := by
  induction h with
  | nil => exact Reads.pure []
  | cons ha _ ih => exact ha.bind (ih.map _)

theorem reads_list {get : Decoder α} {put : α → Bytes} {as : List α} (hlength : as.length < 2 ^ 64)
    (h : ∀ a ∈ as, Reads get (put a) a) : Reads (getList get) (putList put as) as := by
  have hall : List.Forall₂ (Reads get) (as.map put) as :=
    List.forall₂_map_left_iff.mpr (List.forall₂_same.mpr h)
  rw [putList, List.flatMap_def]
  exact (reads_length hlength).bind (reads_times hall)

theorem reads_option {get : Decoder α} {put : α → Bytes} (h : ∀ a, Reads get (put a) a) (a? : Option α) :
    Reads (getOption get) (putOption put a?) a? := by
  cases a? with
  | none => exact (reads_byte 0).bind (Reads.pure none)
  | some a => exact (reads_byte 1).bind ((h a).map some)

theorem ofParts?_secs_subsecNanos (d : Duration) : Duration.ofParts? d.secs d.subsecNanos = some d := by
  obtain ⟨nanos, hlt⟩ := d
  have hsum : (UInt64.ofNat (nanos / nanosPerSecond)).toNat * nanosPerSecond
      + (UInt32.ofNat (nanos % nanosPerSecond)).toNat = nanos := by
    rw [UInt64.toNat_ofNat', UInt32.toNat_ofNat']
    unfold nanosPerSecond at hlt ⊢
    omega
  unfold Duration.ofParts? Duration.secs Duration.subsecNanos Duration.ofNanos?
  rw [hsum, dif_pos hlt]

theorem reads_duration (d : Duration) : Reads getDuration (putDuration d) d := by
  have hnanos : d.subsecNanos.toNat < 2 ^ 32 := d.subsecNanos.toNat_lt
  refine (reads_64 d.secs).bind ((reads_nat (Or.inl hnanos)).finish ?_)
  rw [UInt32.ofNat_toNat, ofParts?_secs_subsecNanos]
  exact Reads.pure d

/-! ## Alternatives -/

theorem reads_trigger (t : Trigger) : Reads getTrigger (putTrigger t) t := by
  cases t with
  | packets n => exact (reads_index (by decide)).bind ((reads_64 n).map Trigger.packets)
  | bytes n => exact (reads_index (by decide)).bind ((reads_64 n).map Trigger.bytes)
  | duration d => exact (reads_index (by decide)).bind ((reads_duration d).map Trigger.duration)

theorem reads_condition (c : Condition) : Reads getCondition (putCondition c) c := by
  cases c with
  | packets n => exact (reads_index (by decide)).bind ((reads_64 n).map Condition.packets)
  | bytes n => exact (reads_index (by decide)).bind ((reads_64 n).map Condition.bytes)
  | duration d => exact (reads_index (by decide)).bind ((reads_duration d).map Condition.duration)
  | files n => exact (reads_index (by decide)).bind ((reads_64 n).map Condition.files)

theorem reads_source {s : Source} (hreader : ∀ r, s ≠ .reader r) (hname : (Utf8.encode s.display.toList).length < 2 ^ 63) :
    ∃ bs, putSource s = some bs ∧ Reads getSource bs s := by
  cases s with
  | fifo path => exact ⟨_, rfl, (reads_index (by decide)).bind ((reads_text hname).map Source.fifo)⟩
  | file path => exact ⟨_, rfl, (reads_index (by decide)).bind ((reads_text hname).map Source.file)⟩
  | stdin => exact ⟨_, rfl, (reads_index (by decide)).finish (Reads.pure Source.stdin)⟩
  | interface name => exact ⟨_, rfl, (reads_index (by decide)).bind ((reads_text hname).map Source.interface)⟩
  | reader r => exact absurd rfl (hreader r)

theorem reads_sources {sources : List Source} (hreader : ∀ r, .reader r ∉ sources)
    (hnames : ∀ s ∈ sources, (Utf8.encode s.display.toList).length < 2 ^ 63) :
    ∃ bss, sources.mapM putSource = some bss ∧ List.Forall₂ (Reads getSource) bss sources := by
  induction sources with
  | nil => exact ⟨[], rfl, .nil⟩
  | cons s sources ih =>
    obtain ⟨bs, hput, hbs⟩ := reads_source (fun r he => hreader r (he ▸ List.mem_cons_self)) (hnames s List.mem_cons_self)
    obtain ⟨bss, hputs, hbss⟩ := ih (fun r hr => hreader r (List.mem_cons_of_mem _ hr))
      fun t ht => hnames t (List.mem_cons_of_mem _ ht)
    refine ⟨bs :: bss, ?_, .cons hbs hbss⟩
    rw [List.mapM_cons, hput, hputs]
    rfl

theorem mapM_putSource_of_reader {sources : List Source} {r : Reader} (h : .reader r ∈ sources) :
    sources.mapM putSource = none := by
  induction sources with
  | nil => exact absurd h List.not_mem_nil
  | cons s sources ih =>
    rw [List.mapM_cons]
    rcases List.mem_cons.mp h with rfl | h
    · rfl
    · rw [ih h]
      cases putSource s <;> rfl

end Saved

/-! ## Configurations -/

namespace Config

open Saved

structure Addressable (c : Config) : Prop where
  sources : c.sources.length < 2 ^ 63
  names : ∀ s ∈ c.sources, (Utf8.encode s.display.toList).length < 2 ^ 63
  triggers : c.rotation.triggers.length < 2 ^ 63
  autostop : c.autostop.length < 2 ^ 63
  output : (Utf8.encode c.output.toList).length < 2 ^ 63

structure Savable (c : Config) : Prop where
  readers : ∀ r, .reader r ∉ c.sources
  sources : c.sources.length < 2 ^ 64
  names : ∀ s ∈ c.sources, (Utf8.encode s.display.toList).length < 2 ^ 63
  triggers : c.rotation.triggers.length < 2 ^ 64
  autostop : c.autostop.length < 2 ^ 64
  output : (Utf8.encode c.output.toList).length < 2 ^ 63

variable {c : Config}

theorem Savable.reads (hc : c.Savable) : ∃ bs, c.encode = .ok bs ∧ Reads getConfig bs c := by
  obtain ⟨bss, hput, hbss⟩ := reads_sources hc.readers hc.names
  have hsources : Reads (getList getSource) (putNat bss.length ++ bss.flatten) c.sources := by
    rw [hbss.length_eq]
    exact (reads_length hc.sources).bind (reads_times hbss)
  have htimeout : ofDigits (digits 4 c.timeout.toNat) = c.timeout.toNat := by
    rw [ofDigits_digits]
    exact Nat.mod_eq_of_lt c.timeout.toNat_lt
  refine ⟨_, by unfold encode; rw [hput], ?_⟩
  simp only [putRotation, List.append_assoc]
  -- the count in front and the sources behind it are one list to the decoder
  rw [← List.append_assoc (putNat _)]
  refine hsources.bind ?_
  refine (reads_list hc.triggers fun t _ => reads_trigger t).bind ?_
  refine (reads_option reads_64 c.rotation.ring).bind ?_
  refine (reads_list hc.autostop fun a _ => reads_condition a).bind ?_
  refine (reads_text hc.output).bind ?_
  refine (reads_64 c.snaplen).bind ?_
  refine (reads_takeBytes (length_digits 4 _)).bind ?_
  refine (reads_64 c.capacity).finish ?_
  rw [htimeout, UInt32.ofNat_toNat]
  exact Reads.pure c

theorem reads_encode (hc : c.Addressable) (hreader : ∀ r, .reader r ∉ c.sources) :
    ∃ bs, c.encode = .ok bs ∧ Reads getConfig bs c := by
  obtain ⟨hsources, hnames, htriggers, hautostop, houtput⟩ := hc
  have hc' : c.Savable := ⟨hreader, by omega, hnames, by omega, by omega, houtput⟩
  exact hc'.reads

/-- What stands behind the bytes does not count. -/
theorem decode_of_reads {bs : Bytes} (h : Reads getConfig bs c) (rest : Bytes) : decode (bs ++ rest) = .ok c := by
  unfold decode
  rw [h rest]
  rfl

theorem encode_of_reader {r : Reader} (h : .reader r ∈ c.sources) : c.encode = fail .configWrite := by
  unfold encode
  rw [mapM_putSource_of_reader h]

end Config

/-! ## Files -/

namespace Disk

/-- The path leads to a regular file, or to a name in a directory that is still free. -/
def TakesFile (path : String) (d : Disk) : Prop :=
  ∃ p, d.place? path = some p ∧ ∀ e, d.entry? p = some e → ∃ n, e = .target (.file n)

variable {d : Disk} {path : String}

theorem create_of_place? {p : Place} (hp : d.place? path = some p) : d.create path =
    match d.entry? p with
    | some .directory => .error .isADirectory
    | some (.target (.file n)) => .ok (.file n, d.cut n)
    | some (.target t) => .ok (t, d)
    | none => .ok (.file d.written.length, d.withFile p) := by
  unfold place? at hp
  split at hp
  · rename_i directory name hspot
    split at hp
    · cases hp
    · rename_i hlong
      cases hp
      unfold create
      rw [hspot, ok_bind]
      dsimp only
      rw [if_neg Bool.false_ne_true, if_neg hlong]
      rfl
  · cases hp

theorem TakesFile.create (hs : d.Sound) (h : d.TakesFile path) :
    ∃ p n d', d.place? path = some p ∧ d.create path = .ok (.file n, d') ∧ Emptied p n d d' := by
  obtain ⟨p, hp, hfile⟩ := h
  have hcreate := create_of_place? hp
  cases he : d.entry? p with
  | none =>
    rw [he] at hcreate
    exact ⟨p, _, _, hp, hcreate, emptied_withFile hs he⟩
  | some e =>
    obtain ⟨n, rfl⟩ := hfile e he
    rw [he] at hcreate
    exact ⟨p, n, _, hp, hcreate, emptied_cut hs he⟩

/-- A file is made of these bytes, and no other is touched. -/
theorem TakesFile.write (hs : d.Sound) (h : d.TakesFile path) (bs : Bytes) :
    ∃ p d', d.place? path = some p ∧ d.write path bs = .ok d' ∧ d'.regular? path = some bs ∧
      ∀ q, q ≠ p → d'.at? q = d.at? q := by
  obtain ⟨p, n, d', hp, hcreate, hempty⟩ := h.create hs
  have hcontent : d'.content n = [] := Option.some.inj ((at?_of_entry hempty.entry).symm.trans hempty.empty)
  refine ⟨p, d'.append n bs, hp, ?_, ?_, fun q hq => ?_⟩
  · unfold Disk.write
    rw [hcreate]
    rfl
  · rw [regular?_eq, (hempty.tree.trans (sameTree_append n bs d')).place?, hp, Option.bind_some,
      at?_append_self hempty.sound hempty.entry, hcontent, List.nil_append]
  · rw [at?_append_of_ne hempty.sound hempty.entry hq, hempty.others q hq]

theorem bytes?_of_regular? {bs : Bytes} (h : d.regular? path = some bs) : d.bytes? path = some bs := by
  unfold regular? at h
  unfold bytes?
  split at h
  · rename_i n hn
    rw [hn]
    exact h
  · cases h

end Disk

/-! ## Saving and loading -/

/-- What was saved to a path that takes a file is loaded from it unchanged, and no other file is
    touched. With a reader among the sources nothing is saved, and the disk stays as it was. -/
theorem saved_loads_back (c : Config) (path : String) (d : Disk) :
    (c.Addressable → (∀ r, .reader r ∉ c.sources) → d.Sound → d.TakesFile path →
      ∃ bs p d', c.encode = .ok bs ∧ d.place? path = some p ∧ c.save path d = (.ok (), d') ∧
        d'.regular? path = some bs ∧ (∀ q, q ≠ p → d'.at? q = d.at? q) ∧ Config.load path d' = .ok c) ∧
    ∀ r, .reader r ∈ c.sources → c.save path d = (fail .configWrite, d) := by
  constructor
  · intro hc hreader hs hpath
    obtain ⟨bs, hencode, hreads⟩ := Config.reads_encode hc hreader
    obtain ⟨p, d', hp, hwrite, hregular, hothers⟩ := hpath.write hs bs
    refine ⟨bs, p, d', hencode, hp, ?_, hregular, hothers, ?_⟩
    · unfold Config.save
      rw [hencode]
      dsimp only
      rw [hwrite]
    · have hdecode := Config.decode_of_reads hreads []
      rw [List.append_nil] at hdecode
      unfold Config.load
      rw [Disk.bytes?_of_regular? hregular]
      exact hdecode
  · intro r hr
    unfold Config.save
    rw [Config.encode_of_reader hr]
    rfl

def variedConfig (sources : List Source) : Config :=
  ⟨sources, ⟨[.packets 250, .bytes 251, .duration ⟨1999999999, by decide⟩], some 65536⟩, [.files 4294967296, .packets 1],
    "out/ä.pcapng", 18446744073709551615, 0x7FC00001, 1024⟩

def heldDisk : Disk := (Disk.empty.withFile ["work".toList, "saved".toList]).append 0 [1, 2, 3]

theorem saved_loads_back_varied :
    (∃ bs p d', (variedConfig [.stdin, .fifo "a", .interface "wlan0", .file ""]).encode = .ok bs ∧
      heldDisk.place? "saved" = some p ∧
      (variedConfig [.stdin, .fifo "a", .interface "wlan0", .file ""]).save "saved" heldDisk = (.ok (), d') ∧
      d'.regular? "saved" = some bs ∧ (∀ q, q ≠ p → d'.at? q = heldDisk.at? q) ∧
      Config.load "saved" d' = .ok (variedConfig [.stdin, .fifo "a", .interface "wlan0", .file ""])) ∧
    (variedConfig [.stdin, .reader (Reader.ofBytes [])]).save "saved" heldDisk = (fail .configWrite, heldDisk) := by
  have hempty : Disk.Emptied ["work".toList, "saved".toList] 0 _ _ := Disk.emptied_withFile Disk.sound_empty (by decide)
  refine ⟨(saved_loads_back _ "saved" heldDisk).1 ⟨by decide, by decide, by decide, by decide, by decide⟩ ?_
    (hempty.sound.append 0 [1, 2, 3]) ⟨["work".toList, "saved".toList], by decide, ?_⟩,
    (saved_loads_back _ "saved" heldDisk).2 (Reader.ofBytes []) (List.mem_cons_of_mem _ List.mem_cons_self)⟩
  · intro r hr
    simp [variedConfig] at hr
  · intro e he
    exact ⟨0, Option.some.inj (he.symm.trans hempty.entry)⟩

end CaptureRing
