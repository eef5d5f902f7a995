/-
  CaptureRing.Proofs.Overlength — options whose value is longer than they can tell.

  An option tells the length of its value in 16 bits, and a value may have any length. One of 65536
  bytes or more is written whole, behind its length less a multiple of 65536. A reader takes as many
  bytes as are told for the value, and goes on in the middle of it: what is left of the value is
  read as options of its own.

  Proved:
  - `Options.decode_make`: what is read of one option, whatever the length of its value;
  - `Options.decode_overlong`: what is read of a list up to its first value that is too long;
  - `recovered_iff_measured`: options, a host's section header and a device's interface are found again
    in what is written of them exactly if no value is too long, in any order;
  - `overlong_value_is_lost`: a value of 65536 bytes, of which none is left.
-/

import CaptureRing.Proofs.Readback

namespace CaptureRing

abbrev OptionField := UInt16 × Bytes

namespace Options

def made (fields : List OptionField) : Options := ofList (fields.map fun f => BlockOption.make f.1 f.2)

def fields (xs : Options) : List OptionField := (xs.filter (!·.isTerminator)).map fun x => (x.code, x.value)

def Coded (fields : List OptionField) : Prop := ∀ f ∈ fields, f.1 ≠ 0

/-- Every value has a length that 16 bits can tell. -/
def Measured (fields : List OptionField) : Prop := ∀ f ∈ fields, f.2.length < 2 ^ 16

/-! ## What is written -/

theorem not_terminator_make {f : OptionField} (h : f.1 ≠ 0) : (BlockOption.make f.1 f.2).isTerminator = false :=
  beq_false_of_ne h

theorem made_eq {fs : List OptionField} (hne : fs ≠ []) (h : Coded fs) :
    made fs = fs.map (fun f => BlockOption.make f.1 f.2) ++ [BlockOption.terminator] := by
  unfold made ofList
  cases hlast : (fs.map fun f => BlockOption.make f.1 f.2).getLast? with
  | none => exact absurd (List.map_eq_nil_iff.mp (List.getLast?_eq_none_iff.mp hlast)) hne
  | some x =>
    obtain ⟨f, hf, rfl⟩ := List.mem_map.mp (List.mem_of_getLast? hlast)
    dsimp only
    rw [not_terminator_make (h f hf), if_neg Bool.false_ne_true]

theorem fields_made {fs : List OptionField} (h : Coded fs) : (made fs).fields = fs := by
  by_cases hne : fs = []
  · subst hne
    rfl
  · have hkept : (fs.map fun f => BlockOption.make f.1 f.2).filter (!·.isTerminator) =
        fs.map fun f => BlockOption.make f.1 f.2 := by
      refine List.filter_eq_self.mpr fun x hx => ?_
      obtain ⟨g, hg, rfl⟩ := List.mem_map.mp hx
      rw [not_terminator_make (h g hg)]
      rfl
    have hend : [BlockOption.terminator].filter (!·.isTerminator) = [] := rfl
    unfold fields
    rw [made_eq hne h, List.filter_append, hkept, hend, List.append_nil, List.map_map]
    exact List.map_id _

theorem regular_made {fs : List OptionField} (h : Coded fs) (hmeasured : Measured fs) : (made fs).Regular := by
  by_cases hne : fs = []
  · subst hne
    exact .nil
  · rw [made_eq hne h]
    refine regular_of_proper fun x hx => ?_
    obtain ⟨g, hg, rfl⟩ := List.mem_map.mp hx
    exact BlockOption.proper_make (h g hg) (hmeasured g hg)

/-! ## What is read -/

/-- What is read has the lengths that it tells. -/
theorem Regular.measured {xs : Options} (h : xs.Regular) : Measured xs.fields := by
  intro f hf
  obtain ⟨x, hx, rfl⟩ := List.mem_map.mp hf
  have hlength := h.consistent.lengths x (List.mem_of_mem_filter hx)
  have := x.length.toNat_lt
  dsimp only
  omega

/-- Of an option, as much is read for its value as the 16 bits tell; reading goes on behind that. -/
theorem decode_make (o : ByteOrder) {code : UInt16} (hc : code ≠ 0) (value rest : Bytes) :
    decode o ((BlockOption.make code value).encode o ++ rest) =
      (decode o ((pad value ++ rest).drop (paddedLength (value.length % 2 ^ 16)))).map
        (BlockOption.make code (value.take (value.length % 2 ^ 16)) :: ·) := by
  have hle : value.length % 2 ^ 16 ≤ value.length := Nat.mod_le _ _
  have htold : (UInt16.ofNat value.length).toNat = value.length % 2 ^ 16 := UInt16.toNat_ofNat'
  have hcut : (value.take (value.length % 2 ^ 16)).length = value.length % 2 ^ 16 := by
    rw [List.length_take]
    omega
  have hfront : BlockOption.make code (value.take (value.length % 2 ^ 16)) =
      ⟨code, UInt16.ofNat value.length, value.take (value.length % 2 ^ 16)⟩ := by
    unfold BlockOption.make
    rw [hcut]
    congr 1
    apply UInt16.toNat.inj
    rw [UInt16.toNat_ofNat', UInt16.toNat_ofNat', Nat.mod_mod]
  obtain ⟨c₀, c₁, hcode⟩ := List.length_eq_two.mp (o.length_put16 code)
  obtain ⟨l₀, l₁, hlength⟩ := List.length_eq_two.mp (o.length_put16 (UInt16.ofNat value.length))
  have hbytes : (BlockOption.make code value).encode o ++ rest = c₀ :: c₁ :: l₀ :: l₁ :: (pad value ++ rest) := by
    simp [BlockOption.encode, BlockOption.make, hcode, hlength]
  have hsplit : ∃ tail, split? (value.length % 2 ^ 16) (pad value ++ rest) =
      some (value.take (value.length % 2 ^ 16), tail) := by
    have hroom : value.length % 2 ^ 16 ≤ (pad value ++ rest).length := by
      have := le_paddedLength value.length
      rw [List.length_append, length_pad]
      omega
    obtain ⟨tail, htail⟩ := exists_split hroom
    rw [pad, List.append_assoc, List.take_append_of_le_length hle] at htail
    rw [pad, List.append_assoc]
    exact ⟨tail, htail⟩
  obtain ⟨tail, htail⟩ := hsplit
  rw [hbytes, decode, ← hcode, ← hlength, ByteOrder.get_put16, ByteOrder.get_put16, if_neg hc, htold, htail, hfront]

/-- Up to the first value that is too long, a list is read as it was written; of that value the first bytes are
    read, and its other bytes are read as the options behind it. -/
theorem decode_overlong (o : ByteOrder) {before : List OptionField} (hbefore : Coded before) (hmeasured : Measured before)
    {code : UInt16} (hc : code ≠ 0) (value rest : Bytes) :
    decode o (encode o (before.map fun f => BlockOption.make f.1 f.2) ++ ((BlockOption.make code value).encode o ++ rest)) =
      (decode o ((pad value ++ rest).drop (paddedLength (value.length % 2 ^ 16)))).map
        (before.map (fun f => BlockOption.make f.1 f.2) ++ BlockOption.make code (value.take (value.length % 2 ^ 16)) :: ·) := by
  induction before with
  | nil => exact decode_make o hc value rest
  | cons f before ih =>
    obtain ⟨hf, hbefore⟩ := List.forall_mem_cons.mp hbefore
    obtain ⟨hlen, hmeasured⟩ := List.forall_mem_cons.mp hmeasured
    have hstep := decode_cons o (BlockOption.proper_make hf hlen)
      (encode o (before.map fun f => BlockOption.make f.1 f.2) ++ ((BlockOption.make code value).encode o ++ rest))
    rw [List.map_cons, encode, List.flatMap_cons, List.append_assoc]
    rw [encode] at hstep ih
    rw [hstep, ih hbefore hmeasured]
    cases decode o ((pad value ++ rest).drop (paddedLength (value.length % 2 ^ 16))) <;> rfl

theorem encode_made (o : ByteOrder) {before after : List OptionField} {code : UInt16} {value : Bytes}
    (h : Coded (before ++ (code, value) :: after)) :
    encode o (made (before ++ (code, value) :: after)) =
      encode o (before.map fun f => BlockOption.make f.1 f.2) ++ ((BlockOption.make code value).encode o ++
        encode o (after.map (fun f => BlockOption.make f.1 f.2) ++ [BlockOption.terminator])) := by
  rw [made_eq (List.append_ne_nil_of_right_ne_nil _ (List.cons_ne_nil _ _)) h]
  simp only [encode, List.map_append, List.map_cons, List.flatMap_append, List.flatMap_cons, List.append_assoc]

theorem encode_made_singleton (o : ByteOrder) {code : UInt16} {value : Bytes} (h : Coded [(code, value)]) :
    encode o (made [(code, value)]) = (BlockOption.make code value).encode o ++ encode o [BlockOption.terminator] :=
  @encode_made o [] [] code value h

theorem parse_made_iff (o : ByteOrder) {fs : List OptionField} (h : Coded fs) :
    (∃ xs, parse o (encode o (made fs)) = .ok xs ∧ xs.fields = fs) ↔ Measured fs := by
  constructor
  · rintro ⟨xs, hxs, rfl⟩
    exact (regular_of_decode (corruptAs_iff.mp hxs)).measured
  · intro hmeasured
    exact ⟨_, corruptAs_iff.mpr (decode_encode o (regular_made h hmeasured)), fields_made h⟩

end Options

open Options

/-! ## Blocks -/

theorem SectionHeader.parse_made_iff (o : ByteOrder) {s : SectionHeader} {fs : List OptionField} (h : Coded fs)
    (hs : s.options = made fs) (hmajor : s.major = 1) :
    (∃ s', parse o (s.encode o) = .ok s' ∧ s'.options.fields = fs) ↔ Measured fs := by
  constructor
  · rintro ⟨s', hs', rfl⟩
    exact (regular_of_decode (parse_iff.mp hs').2.1.options).measured
  · intro hmeasured
    refine ⟨s, parse_encode o ?_ hmajor, ?_⟩
    · rw [hs]
      exact regular_made h hmeasured
    · rw [hs]
      exact fields_made h

theorem Interface.parse_made_iff (o : ByteOrder) {i : Interface} {fs : List OptionField} (h : Coded fs)
    (hi : i.options = made fs) : (∃ i', parse o (i.encode o) = .ok i' ∧ i'.options.fields = fs) ↔ Measured fs := by
  constructor
  · rintro ⟨i', hi', rfl⟩
    exact (regular_of_decode (parse_iff.mp hi').2.options).measured
  · intro hmeasured
    refine ⟨i, parse_encode o ?_, ?_⟩
    · rw [hi]
      exact regular_made h hmeasured
    · rw [hi]
      exact fields_made h

def SectionHeader.hostFields (h : Host) (application : String) : List OptionField :=
  let text (code : UInt16) (r : Result String) : List OptionField :=
    r.toOption.toList.map fun s => (code, Utf8.encode s.toList)
  text hardwareCode h.processorModel ++ text systemCode h.systemName ++ [(applicationCode, Utf8.encode application.toList)]

theorem SectionHeader.options_hostFields (h : Host) (application : String) :
    (ofHost h application).options = made (hostFields h application) := by
  unfold ofHost ofOptions made hostFields textOption
  cases h.processorModel <;> cases h.systemName <;> rfl

theorem SectionHeader.coded_hostFields (h : Host) (application : String) : Coded (hostFields h application) := by
  intro f hf
  simp only [hostFields, List.mem_append, List.mem_map, List.mem_singleton] at hf
  rcases hf with (⟨_, -, rfl⟩ | ⟨_, -, rfl⟩) | rfl
  · exact (by decide : hardwareCode ≠ 0)
  · exact (by decide : systemCode ≠ 0)
  · exact (by decide : applicationCode ≠ 0)

namespace Interface

def addressField : DeviceAddress → OptionField
  | .v4 octets network => (v4Code, octets ++ ByteOrder.bigEndian.put 4 (2 ^ 32 - 2 ^ (32 - network)))
  | .v6 octets network => (v6Code, octets ++ [UInt8.ofNat network])

def deviceFields (name description : String) (addresses : List DeviceAddress) (mac : Option Bytes) : List OptionField :=
  [(nameCode, Utf8.encode name.toList)]
    ++ (if description.isEmpty then [] else [(descriptionCode, Utf8.encode description.toList)])
    ++ addresses.map addressField ++ (mac.map fun octets => (macCode, octets)).toList

theorem options_deviceFields (name description : String) (addresses : List DeviceAddress) (mac : Option Bytes)
    (snaplen : UInt32) :
    (ofDevice name description addresses mac snaplen).options = made (deviceFields name description addresses mac) := by
  have haddresses : (addresses.map addressField).map (fun f => BlockOption.make f.1 f.2) = addresses.map addressOption := by
    rw [List.map_map]
    exact List.map_congr_left fun a _ => by cases a <;> rfl
  unfold ofDevice make made deviceFields
  simp only [List.map_append, haddresses]
  cases description.isEmpty <;> cases mac <;> rfl

theorem coded_deviceFields (name description : String) (addresses : List DeviceAddress) (mac : Option Bytes) :
    Coded (deviceFields name description addresses mac) := by
  intro f hf
  simp only [deviceFields, List.mem_append, List.mem_map, List.mem_singleton, Option.mem_toList, Option.map_eq_some_iff] at hf
  rcases hf with ((rfl | hf) | ⟨a, -, rfl⟩) | ⟨_, -, rfl⟩
  · exact (by decide : nameCode ≠ 0)
  · split at hf
    · cases hf
    · rw [List.mem_singleton.mp hf]
      exact (by decide : descriptionCode ≠ 0)
  · cases a with
    | v4 octets network => exact (by decide : v4Code ≠ 0)
    | v6 octets network => exact (by decide : v6Code ≠ 0)
  · exact (by decide : macCode ≠ 0)

end Interface

/-- Whatever the order: options are found again, code by code and value by value, in what is written of them exactly
    if no value is too long to be told, and so are those of a host's section header and of a device's interface.
    Behind the first value that is too long, what was not read of it takes the place of the options that follow. -/
theorem recovered_iff_measured (o : ByteOrder) :
    (∀ fs, Coded fs → ((∃ xs, Options.parse o ((made fs).encode o) = .ok xs ∧ xs.fields = fs) ↔ Measured fs)) ∧
    (∀ host application, (∃ s, SectionHeader.parse o ((SectionHeader.ofHost host application).encode o) = .ok s ∧
      s.options.fields = SectionHeader.hostFields host application) ↔ Measured (SectionHeader.hostFields host application)) ∧
    (∀ name description addresses mac snaplen,
      (∃ i, Interface.parse o ((Interface.ofDevice name description addresses mac snaplen).encode o) = .ok i ∧
        i.options.fields = Interface.deviceFields name description addresses mac) ↔
          Measured (Interface.deviceFields name description addresses mac)) ∧
    ∀ before code value after, Coded (before ++ (code, value) :: after) → Measured before →
      Options.decode o ((made (before ++ (code, value) :: after)).encode o) =
        (Options.decode o ((pad value ++ Options.encode o (after.map (fun f => BlockOption.make f.1 f.2)
            ++ [BlockOption.terminator])).drop (paddedLength (value.length % 2 ^ 16)))).map
          (before.map (fun f => BlockOption.make f.1 f.2) ++
            BlockOption.make code (value.take (value.length % 2 ^ 16)) :: ·) := by
  refine ⟨fun fs h => Options.parse_made_iff o h, fun host application => ?_, fun name description addresses mac snaplen => ?_,
    fun before code value after h hmeasured => ?_⟩
  · exact SectionHeader.parse_made_iff o (SectionHeader.coded_hostFields host application)
      (SectionHeader.options_hostFields host application) rfl
  · exact Interface.parse_made_iff o (Interface.coded_deviceFields name description addresses mac)
      (Interface.options_deviceFields name description addresses mac snaplen)
  · obtain ⟨hbefore, hlater⟩ := List.forall_mem_append.mp h
    have hcode : code ≠ 0 := hlater (code, value) List.mem_cons_self
    rw [Options.encode_made o h]
    exact Options.decode_overlong o hbefore hmeasured hcode value _

def remarks : List OptionField := [(1, [0x68, 0x69]), (1, List.replicate 65536 0)]

theorem coded_remarks : Coded remarks := by
  intro f hf
  simp only [remarks, List.mem_cons, List.not_mem_nil, or_false] at hf
  rcases hf with rfl | rfl <;> exact (by decide : (1 : UInt16) ≠ 0)

theorem recovered_iff_measured_remarks :
    Coded (remarks.take 1) ∧ Measured (remarks.take 1) ∧ Coded remarks ∧
    (∃ xs, Options.parse .bigEndian ((made (remarks.take 1)).encode .bigEndian) = .ok xs ∧ xs.fields = remarks.take 1) ∧
    (¬ ∃ xs, Options.parse .bigEndian ((made remarks).encode .bigEndian) = .ok xs ∧ xs.fields = remarks) ∧
    Options.decode .bigEndian ((made remarks).encode .bigEndian) =
      (Options.decode .bigEndian ((pad (List.replicate 65536 0) ++ Options.encode .bigEndian [BlockOption.terminator]).drop
          (paddedLength ((List.replicate 65536 (0 : UInt8)).length % 2 ^ 16)))).map
        ([BlockOption.make 1 [0x68, 0x69]] ++
          BlockOption.make 1 ((List.replicate 65536 0).take ((List.replicate 65536 (0 : UInt8)).length % 2 ^ 16)) :: ·) := by
  have hfirst : Coded (remarks.take 1) := fun f hf => coded_remarks f (List.mem_of_mem_take hf)
  have hmeasured : Measured (remarks.take 1) := by
    intro f hf
    rw [List.mem_singleton.mp hf]
    exact (by decide : 2 < 2 ^ 16)
  have hlong : ¬ Measured remarks := by
    intro h
    have hlen : (List.replicate 65536 (0 : UInt8)).length < 2 ^ 16 := h _ (List.mem_cons_of_mem _ (List.mem_singleton_self _))
    rw [List.length_replicate] at hlen
    omega
  obtain ⟨hiff, -, -, hbehind⟩ := recovered_iff_measured .bigEndian
  exact ⟨hfirst, hmeasured, coded_remarks, (hiff _ hfirst).mpr hmeasured, fun h => hlong ((hiff _ coded_remarks).mp h),
    hbehind (remarks.take 1) 1 (List.replicate 65536 0) [] coded_remarks hmeasured⟩

/-- A comment of 65536 zeros is read as a comment without a word, and the list ends behind it. -/
theorem overlong_value_is_lost :
    ∃ xs, Options.parse .littleEndian ((made [(1, List.replicate 65536 0)]).encode .littleEndian) = .ok xs ∧
      xs.fields = [(1, [])] := by
  have hcoded : Coded [(1, List.replicate 65536 0)] := fun f hf => coded_remarks f (List.mem_cons_of_mem _ hf)
  have hzeros : List.replicate 65536 (0 : UInt8) = BlockOption.terminator.encode .littleEndian ++ List.replicate 65532 0 := by
    rw [show BlockOption.terminator.encode .littleEndian = List.replicate 4 0 by decide, List.replicate_append_replicate]
  refine ⟨[BlockOption.make 1 [], BlockOption.terminator], corruptAs_iff.mpr ?_, rfl⟩
  rw [Options.encode_made_singleton .littleEndian hcoded, Options.decode_make .littleEndian (by decide),
    List.length_replicate, show 65536 % 2 ^ 16 = 0 by decide, List.take_zero, show paddedLength 0 = 0 by decide,
    List.drop_zero, pad, hzeros, List.append_assoc, List.append_assoc, Options.decode_terminator]
  rfl

end CaptureRing
