/-
  CaptureRing.Proofs.Loading — a configuration that was loaded can be saved, and is then loaded again.

  Decoding is lenient: a number may stand in more bytes than it needs, the nanoseconds of a span may
  hold whole seconds, and anything may follow the end. None of this is left in the value. Whatever a
  decoder takes, it takes from the front of its bytes and looks at nothing behind them, and what it
  takes has a written form of its own (`Takes`). Both are shown together along each decoder.

  Proved:
  - `Saved.takes_nat`, `takes_text`, `takes_list`, `takes_source`: for each kind of part, what is
    taken can be written again;
  - `Saved.takes_config`: so can a whole configuration;
  - `loaded_saves_alike`: every configuration that is loaded, from whatever bytes, is saved as the
    same bytes again and again, and what follows the bytes it was loaded from does not count.
-/

import CaptureRing.Proofs.Saving

namespace CaptureRing

namespace Saved

variable {α β : Type}

/-! ## What a decoder takes -/

/-- What the decoder takes is such, and it takes the same from these bytes whatever stands behind
    them. -/
def Takes (get : Decoder α) (P : α → Prop) : Prop :=
  ∀ bs a rest, get bs = .ok (a, rest) → P a ∧ ∃ front, bs = front ++ rest ∧ Reads get front a

namespace Takes

variable {get : Decoder α} {P Q : α → Prop}

theorem pure {a : α} (h : P a) : Takes (Pure.pure a) P := by
  intro bs b rest he
  cases he
  exact ⟨h, [], rfl, Reads.pure a⟩

theorem refuse : Takes (Saved.refuse : Decoder α) P := nofun

theorem throw {e : Failure} : Takes (MonadExcept.throw e : Decoder α) P := nofun

theorem mono (h : Takes get P) (hpq : ∀ a, P a → Q a) : Takes get Q := by
  intro bs a rest he
  obtain ⟨ha, hfront⟩ := h bs a rest he
  exact ⟨hpq a ha, hfront⟩

theorem bind {k : α → Decoder β} {R : β → Prop} (h : Takes get P) (hnext : ∀ a, P a → Takes (k a) R) :
    Takes (get >>= k) R := by
  intro bs b rest he
  obtain ⟨⟨a, behind⟩, hget, hk⟩ := Block.bind_eq_ok he
  obtain ⟨ha, front, rfl, hfront⟩ := h bs a behind hget
  obtain ⟨hb, back, rfl, hback⟩ := hnext a ha behind b rest hk
  exact ⟨hb, front ++ back, (List.append_assoc front back rest).symm, hfront.bind hback⟩

theorem map {R : β → Prop} {f : α → β} (h : Takes get P) (hf : ∀ a, P a → R (f a)) :
    Takes (get >>= fun a => Pure.pure (f a)) R := h.bind fun a ha => pure (hf a ha)

end Takes

/-! ## Numbers and texts -/

theorem takes_byte : Takes getByte fun _ => True := by
  intro bs b rest he
  cases bs with
  | nil => cases he
  | cons b' bs =>
    cases he
    exact ⟨trivial, [b], rfl, reads_byte b⟩

theorem takes_takeBytes (n : Nat) : Takes (takeBytes n) fun bs => bs.length = n := by
  intro bs front rest he
  unfold takeBytes at he
  split at he
  · rename_i r hsplit
    cases he
    obtain ⟨rfl, hlength⟩ := split?_eq_some_iff.mp hsplit
    exact ⟨hlength, front, rfl, reads_takeBytes hlength⟩
  · cases he

theorem takes_digits (n : Nat) : Takes (ofDigits <$> takeBytes n) fun v => v < 256 ^ n := by
  refine (takes_takeBytes n).map fun bs hlength => ?_
  rw [← hlength]
  exact ofDigits_lt bs

/-- Whichever of its forms a number stands in, it fits into the bytes that are asked for. -/
theorem takes_nat (width : Nat) : Takes (getNat width) fun n => n < 2 ^ 32 ∨ width = 8 ∧ n < 2 ^ 64 := by
  refine takes_byte.bind fun b _ => ?_
  have hb := b.toNat_lt
  split
  · exact Takes.pure (Or.inl (by omega))
  split
  · exact (takes_digits 2).mono fun n hn => Or.inl (by omega)
  split
  · exact (takes_digits 4).mono fun n hn => Or.inl (by omega)
  split
  · rename_i hwide
    exact (takes_digits 8).mono fun n hn => Or.inr ⟨hwide.2, by omega⟩
  · exact Takes.refuse

theorem takes_length : Takes (getNat 8) fun n => n < 2 ^ 64 := (takes_nat 8).mono fun n hn => by omega

theorem takes_64 : Takes get64 fun _ => True := takes_length.map fun _ _ => trivial

theorem takes_index : Takes getIndex fun _ => True := (takes_nat 4).mono fun _ _ => trivial

/-- A text is read from the very bytes it is written in, so it is no longer than these. -/
theorem takes_text : Takes getText fun s => (Utf8.encode s.toList).length < 2 ^ 63 := by
  refine takes_length.bind fun n _ => ?_
  split
  · exact Takes.throw
  · rename_i hn
    refine (takes_takeBytes n).bind fun bs hlength => ?_
    split
    · rename_i cs hdecode
      refine Takes.pure ?_
      rw [String.toList_ofList, Utf8.encode_of_decode? hdecode, hlength]
      omega
    · exact Takes.refuse

/-! ## Lists and alternatives -/

theorem takes_times {get : Decoder α} {P : α → Prop} (h : Takes get P) (n : Nat) :
    Takes (getTimes get n) fun as => as.length = n ∧ ∀ a ∈ as, P a := by
  induction n with
  | zero => exact Takes.pure ⟨rfl, nofun⟩
  | succ n ih =>
    refine h.bind fun a ha => ih.map fun as has => ⟨?_, ?_⟩
    · rw [List.length_cons, has.1]
    · exact List.forall_mem_cons.mpr ⟨ha, has.2⟩

theorem takes_list {get : Decoder α} {P : α → Prop} (h : Takes get P) :
    Takes (getList get) fun as => as.length < 2 ^ 64 ∧ ∀ a ∈ as, P a := by
  refine takes_length.bind fun n hn => (takes_times h n).mono ?_
  rintro as ⟨rfl, has⟩
  exact ⟨hn, has⟩

theorem takes_option {get : Decoder α} {P : α → Prop} (h : Takes get P) : Takes (getOption get) fun _ => True := by
  refine takes_byte.bind fun b _ => ?_
  split
  · exact Takes.pure trivial
  split
  · exact h.map fun _ _ => trivial
  · exact Takes.refuse

/-- Whole seconds among the nanoseconds are carried, if the seconds have room for them. -/
theorem takes_duration : Takes getDuration fun _ => True := by
  refine takes_64.bind fun secs _ => (takes_nat 4).bind fun nanos _ => ?_
  split
  · exact Takes.pure trivial
  · exact Takes.refuse

theorem takes_trigger : Takes getTrigger fun _ => True := by
  refine takes_index.bind fun i _ => ?_
  split
  · exact takes_64.map fun _ _ => trivial
  · exact takes_64.map fun _ _ => trivial
  · exact takes_duration.map fun _ _ => trivial
  · exact Takes.refuse

theorem takes_condition : Takes getCondition fun _ => True := by
  refine takes_index.bind fun i _ => ?_
  split
  · exact takes_64.map fun _ _ => trivial
  · exact takes_64.map fun _ _ => trivial
  · exact takes_duration.map fun _ _ => trivial
  · exact takes_64.map fun _ _ => trivial
  · exact Takes.refuse

/-- No index stands for a reader. -/
theorem takes_source :
    Takes getSource fun s => (∀ r, s ≠ .reader r) ∧ (Utf8.encode s.display.toList).length < 2 ^ 63 := by
  refine takes_index.bind fun i _ => ?_
  split
  · exact takes_text.map fun _ hs => ⟨nofun, hs⟩
  · exact takes_text.map fun _ hs => ⟨nofun, hs⟩
  · exact Takes.pure ⟨nofun, by decide⟩
  · exact takes_text.map fun _ hs => ⟨nofun, hs⟩
  · exact Takes.refuse

theorem takes_config : Takes getConfig Config.Savable := by
  refine (takes_list takes_source).bind fun sources hsources => ?_
  refine (takes_list takes_trigger).bind fun triggers htriggers => ?_
  refine (takes_option takes_64).bind fun ring _ => ?_
  refine (takes_list takes_condition).bind fun autostop hautostop => ?_
  refine takes_text.bind fun output houtput => ?_
  refine takes_64.bind fun snaplen _ => ?_
  refine (takes_takeBytes 4).bind fun timeout _ => ?_
  refine takes_64.bind fun capacity _ => Takes.pure ⟨?_, hsources.1, ?_, htriggers.1, hautostop.1, houtput⟩
  · intro r hr
    exact (hsources.2 _ hr).1 r rfl
  · intro s hs
    exact (hsources.2 s hs).2

end Saved

/-! ## Files -/

theorem Disk.TakesFile.written {d d' : Disk} {path : String} {bs : Bytes} (hs : d.Sound) (h : d.TakesFile path)
    (hwrite : d.write path bs = .ok d') : d'.Sound ∧ d'.TakesFile path := by
  obtain ⟨p, n, d₁, hp, hcreate, hempty⟩ := h.create hs
  unfold Disk.write at hwrite
  rw [hcreate] at hwrite
  cases hwrite
  refine ⟨hempty.sound.append n bs, p, ?_, fun e he => ⟨n, Option.some.inj (he.symm.trans hempty.entry)⟩⟩
  rw [(hempty.tree.trans (Disk.sameTree_append n bs d₁)).place?]
  exact hp

namespace Config

variable {c : Config} {d : Disk} {path : String} {bs : Bytes}

theorem decode_of_load (h : Config.load path d = .ok c) : ∃ bs, d.bytes? path = some bs ∧ decode bs = .ok c := by
  unfold load at h
  split at h
  · rename_i bs hbs
    exact ⟨bs, hbs, h⟩
  · cases h

theorem load_of_decode (hbs : d.bytes? path = some bs) (h : decode bs = .ok c) : Config.load path d = .ok c := by
  unfold load
  rw [hbs]
  exact h

theorem taken_of_decode (h : decode bs = .ok c) :
    c.Savable ∧ ∃ front back, bs = front ++ back ∧ Saved.Reads Saved.getConfig front c := by
  obtain ⟨⟨_, back⟩, hget, rfl⟩ := Block.map_eq_ok h
  obtain ⟨hsavable, front, hfront, hreads⟩ := Saved.takes_config bs _ back hget
  exact ⟨hsavable, front, back, hfront, hreads⟩

/-- The bytes of a configuration stand where they are saved, and are loaded from there. -/
theorem save_of_reads (hencode : c.encode = .ok bs) (hreads : Saved.Reads Saved.getConfig bs c) (hs : d.Sound)
    (hpath : d.TakesFile path) :
    ∃ d', c.save path d = (.ok (), d') ∧ d'.regular? path = some bs ∧ Config.load path d' = .ok c ∧ d'.Sound ∧
      d'.TakesFile path := by
  obtain ⟨_, d', -, hwrite, hregular, -⟩ := hpath.write hs bs
  have hdecode := decode_of_reads hreads []
  rw [List.append_nil] at hdecode
  refine ⟨d', ?_, hregular, load_of_decode (Disk.bytes?_of_regular? hregular) hdecode, hpath.written hs hwrite⟩
  unfold save
  rw [hencode]
  dsimp only
  rw [hwrite]

end Config

/-! ## Loading and saving -/

/-- Saved at any path that takes a file, the configuration stands there as these bytes. It is loaded
    from them unchanged, and saved as the same bytes again. -/
def Config.SavedAs (c : Config) (saved : Bytes) : Prop :=
  ∀ path d, d.Sound → d.TakesFile path →
    ∃ d', c.save path d = (.ok (), d') ∧ d'.regular? path = some saved ∧ Config.load path d' = .ok c ∧
      ∃ d'', c.save path d' = (.ok (), d'') ∧ d''.regular? path = some saved

/-- A configuration that is loaded, from whatever bytes, is saved as bytes that do not depend on
    where it came from, and these are loaded and saved unchanged. What follows the bytes it was loaded
    from first does not count. -/
theorem loaded_saves_alike {path : String} {d : Disk} {c : Config} (h : Config.load path d = .ok c) :
    (∃ saved, c.encode = .ok saved ∧ Config.decode saved = .ok c ∧ c.SavedAs saved) ∧
      ∃ bs, d.bytes? path = some bs ∧
        ∀ more path' d', d'.bytes? path' = some (bs ++ more) → Config.load path' d' = .ok c := by
  obtain ⟨bs, hbs, hdecode⟩ := Config.decode_of_load h
  obtain ⟨hsavable, front, back, rfl, hfront⟩ := Config.taken_of_decode hdecode
  obtain ⟨saved, hencode, hreads⟩ := hsavable.reads
  refine ⟨⟨saved, hencode, ?_, fun path d hs hpath => ?_⟩, front ++ back, hbs, fun more path' d' hmore => ?_⟩
  · have hsaved := Config.decode_of_reads hreads []
    rwa [List.append_nil] at hsaved
  · obtain ⟨d', hsave, hregular, hload, hs', hpath'⟩ := Config.save_of_reads hencode hreads hs hpath
    obtain ⟨d'', hagain, hregular', -⟩ := Config.save_of_reads hencode hreads hs' hpath'
    exact ⟨d', hsave, hregular, hload, d'', hagain, hregular'⟩
  · refine Config.load_of_decode hmore ?_
    rw [List.append_assoc]
    exact Config.decode_of_reads hfront (back ++ more)

/-- A count of three bytes and an index of five, a span of one second and 2500000000 nanoseconds, a
    timeout that is no number, and two bytes behind the end. -/
def untidyBytes : Bytes :=
  [251, 1, 0, 252, 2, 0, 0, 0, 1, 2, 253, 1, 0, 0, 0, 0, 0, 0, 0, 252, 0, 249, 2, 149, 1, 251, 3, 0, 0, 251, 1, 0, 97, 5,
    0, 0, 192, 127, 0, 255, 255]

def untidyDisk : Disk := (Disk.empty.withFile ["work".toList, "saved".toList]).append 0 untidyBytes

def tidiedConfig : Config :=
  ⟨[.stdin], ⟨[.duration ⟨3500000000, by decide⟩], some 3⟩, [], "a", 5, 0x7FC00000, 0⟩

theorem loaded_saves_alike_untidy :
    Config.load "saved" untidyDisk = .ok tidiedConfig ∧
      (∃ saved, tidiedConfig.encode = .ok saved ∧ Config.decode saved = .ok tidiedConfig ∧
        tidiedConfig.SavedAs saved) ∧
      ∃ bs, untidyDisk.bytes? "saved" = some bs ∧
        ∀ more path' d', d'.bytes? path' = some (bs ++ more) → Config.load path' d' = .ok tidiedConfig := by
  have hbytes : untidyDisk.bytes? "saved" = some untidyBytes := by decide +kernel
  have hload : Config.load "saved" untidyDisk = .ok tidiedConfig := Config.load_of_decode hbytes (by decide +kernel)
  exact ⟨hload, loaded_saves_alike hload⟩

end CaptureRing
