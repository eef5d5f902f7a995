/-
  CaptureRing.Proofs.Isolation — what the sources of one merger can tell of each other.

  All sources share one table of interfaces, so whatever one source declares moves the
  numbers of the others. That is all it does: two merges that got the same blocks of a
  source answer them alike, up to the numbers of interfaces, and a number is the same
  interface by another name.

  Proved, for any order of the blocks of any sources:
  - `process_sameBut`: mergers that know the same numbers of a source answer its blocks alike;
  - `Synthesized.Traced.process`: a number leads back to one interface of one section of one source;
  - `numberAt_eq_iff`: two numbers of one merge are equal exactly if they stand for one interface;
  - `merge_isolates_sources`: what the other sources send changes only how interfaces are spelled.

  A number has 32 bits; what it stands for is told as long as that many suffice.
-/

import Mathlib.Data.List.Nodup
import CaptureRing.Proofs.Attribution
import CaptureRing.Proofs.Reseeding
import CaptureRing.Proofs.RoundTrip

namespace CaptureRing

/-! ## Answers -/

def answersTo (source : Nat) (m : Merger) : List (Nat × Block) → List (Result (Option Bytes))
  | [] => []
  | (s, b) :: rest =>
    (if s = source then [(m.process s b).1] else []) ++ answersTo source (m.process s b).2 rest

theorem ofSource_cons (source s : Nat) (b : Block) (rest : List (Nat × Block)) :
    ofSource source ((s, b) :: rest) = (if s = source then [b] else []) ++ ofSource source rest := by
  rw [← ofSource_singleton]
  exact ofSource_append source [(s, b)] rest

/-- The answer to a source's block `n` is the one of the merger that got what came before it. -/
theorem answersTo_getElem? {source n : Nat} {order : List (Nat × Block)} {b : Block}
    (hb : (ofSource source order)[n]? = some b) :
    ∃ before, before ++ [(source, b)] <+: order ∧ ofSource source before = (ofSource source order).take n ∧
      ∀ m, (answersTo source m order)[n]? = some ((m.after before).process source b).1 := by
  induction order generalizing n with
  | nil => simp at hb
  | cons e rest ih =>
    obtain ⟨s, c⟩ := e
    rw [ofSource_cons] at hb ⊢
    by_cases hs : s = source
    · subst hs
      rw [if_pos rfl, List.singleton_append] at hb ⊢
      cases n with
      | zero =>
        cases hb
        exact ⟨[], by simp, rfl, fun m => by simp [answersTo, Merger.after]⟩
      | succ n =>
        obtain ⟨before, hpre, htake, hanswer⟩ := ih hb
        refine ⟨(s, c) :: before, (List.prefix_cons_inj _).mpr hpre, ?_, fun m => ?_⟩
        · rw [ofSource_cons, if_pos rfl, htake]
          rfl
        · rw [answersTo, if_pos rfl]
          exact hanswer _
    · rw [if_neg hs, List.nil_append] at hb ⊢
      obtain ⟨before, hpre, htake, hanswer⟩ := ih hb
      refine ⟨(s, c) :: before, (List.prefix_cons_inj _).mpr hpre, ?_, fun m => ?_⟩
      · rw [ofSource_cons, if_neg hs, htake]
        rfl
      · rw [answersTo, if_neg hs]
        exact hanswer _

/-- The interface number a block refers to, one of its own section. -/
def Block.refers? (b : Block) : Option UInt32 :=
  match b.content with
  | .packet _ p => some p.interface
  | .other kind =>
    if kind = BlockKind.interfaceStatistics.number then
      (Statistics.parse b.order b.raw).toOption.map Statistics.interface
    else none
  | _ => none

def numberOffset : Nat := 8

def number? : Result (Option Bytes) → Option UInt32
  | .ok (some data) => (wordAt outputOrder numberOffset data).toOption
  | _ => none

inductive SameBut (b : Block) : Result (Option Bytes) → Result (Option Bytes) → Prop
  | failed (e : Failure) : SameBut b (.error e) (.error e)
  | suppressed : SameBut b (.ok none) (.ok none)
  /-- An interface is the same to the byte. -/
  | interface (data : Bytes) : b.declares = true → SameBut b (.ok (some data)) (.ok (some data))
  /-- A packet or statistics are the same but for the four bytes of the number. -/
  | numbered (front back : Bytes) (k k' : UInt32) : b.declares = false → front.length = numberOffset →
      SameBut b (.ok (some (front ++ (outputOrder.put32 k ++ back))))
        (.ok (some (front ++ (outputOrder.put32 k' ++ back))))

/-! ## What the table decides in an answer -/

namespace Synthesized

/-- In a block that begins with a number, four bytes depend on it. -/
theorem frame_numbered (o : ByteOrder) (kind : UInt32) (rest : Bytes) :
    ∃ front back : Bytes, front.length = numberOffset ∧
      ∀ k, frame o kind (o.put32 k ++ rest) = front ++ (o.put32 k ++ back) := by
  refine ⟨o.put32 kind ++ o.put32 (UInt32.ofNat (12 + (4 + rest.length))),
    rest ++ o.put32 (UInt32.ofNat (12 + (4 + rest.length))), ?_, fun k => ?_⟩
  · rw [List.length_append, o.length_put32, o.length_put32]
    rfl
  · unfold frame
    simp only [List.length_append, ByteOrder.length_put32, List.append_assoc]

/-- The answer to a block that refers to an interface: where its number is known, four bytes
    of it are the new one. -/
theorem process_refers {b : Block} {l : UInt32} (hl : b.refers? = some l) (source : Nat) :
    ∃ front back : Bytes, front.length = numberOffset ∧ ∀ s : Synthesized, (s.process source b).1
      = .ok ((s.renumber source l).map fun k => front ++ (outputOrder.put32 k ++ back)) := by
  obtain ⟨order, raw, content⟩ := b
  unfold Block.refers? at hl
  unfold process
  cases content with
  | packet format p =>
    cases hl
    obtain ⟨front, back, hfront, hframe⟩ := frame_numbered outputOrder BlockKind.enhancedPacket.number
      (outputOrder.put32 p.tsHigh ++ outputOrder.put32 p.tsLow ++ outputOrder.put32 p.captured
        ++ outputOrder.put32 p.onWire ++ pad p.data
        ++ (packetInOutputOrder order format p).options.encode outputOrder)
    refine ⟨front, back, hfront, fun s => ?_⟩
    dsimp only
    cases s.renumber source p.interface with
    | none => rfl
    | some k =>
      dsimp only [Option.map]
      rw [← hframe k]
      unfold Packet.encode packetInOutputOrder
      cases format <;> cases order.isBig <;> simp [Packet.swapOptions, List.append_assoc]
  | other kind =>
    dsimp only at hl
    split at hl
    · rename_i hkind
      obtain ⟨st, hst, rfl⟩ := Option.map_eq_some_iff.mp hl
      obtain ⟨front, back, hfront, hframe⟩ := frame_numbered outputOrder BlockKind.interfaceStatistics.number
        (outputOrder.put32 st.tsHigh ++ outputOrder.put32 st.tsLow
          ++ (statisticsInOutputOrder order st).options.encode outputOrder)
      refine ⟨front, back, hfront, fun s => ?_⟩
      dsimp only
      rw [if_pos hkind]
      cases hparse : Statistics.parse order raw with
      | error e => rw [hparse] at hst; cases hst
      | ok st' =>
        rw [hparse] at hst
        cases hst
        dsimp only
        cases s.renumber source st.interface with
        | none => rfl
        | some k =>
          dsimp only [Option.map]
          rw [← hframe k]
          unfold Statistics.encode statisticsInOutputOrder
          cases order.isBig <;> simp [Statistics.swapOptions, List.append_assoc]
    · cases hl
  | sectionHeader _ => cases hl
  | fileHeader _ => cases hl
  | interface _ => cases hl

/-- The answer to any other block has nothing to do with the tables. -/
theorem process_fixed {b : Block} (hl : b.refers? = none) (source : Nat) (s s' : Synthesized) :
    (s.process source b).1 = (s'.process source b).1 := by
  obtain ⟨order, raw, content⟩ := b
  unfold Block.refers? at hl
  unfold process
  cases content with
  | sectionHeader _ => rfl
  | fileHeader _ => rfl
  | interface _ => rfl
  | packet format p => cases hl
  | other kind =>
    dsimp only at hl ⊢
    split at hl
    · rename_i hkind
      rw [if_pos hkind, if_pos hkind]
      cases hparse : Statistics.parse order raw with
      | error e => rfl
      | ok st => rw [hparse] at hl; cases hl
    · rename_i hkind
      rw [if_neg hkind, if_neg hkind]

/-- An interface is announced in the same words whatever the tables are. -/
theorem process_declares {b : Block} (hb : b.declares = true) (source : Nat) (s : Synthesized) :
    ∃ data, (s.process source b).1 = .ok (some data) := by
  obtain ⟨order, raw, content⟩ := b
  unfold process
  cases content with
  | fileHeader h => exact ⟨_, rfl⟩
  | interface i => exact ⟨_, rfl⟩
  | sectionHeader _ => cases hb
  | packet _ _ => cases hb
  | other _ => cases hb

theorem declares_of_refers {b : Block} {l : UInt32} (hl : b.refers? = some l) : b.declares = false := by
  obtain ⟨order, raw, content⟩ := b
  cases content with
  | packet _ _ => rfl
  | other _ => rfl
  | sectionHeader _ => cases hl
  | fileHeader _ => cases hl
  | interface _ => cases hl

/-- What neither declares an interface nor refers to one is not written. -/
theorem process_silent {b : Block} (hb : b.declares = false) (hl : b.refers? = none) (source : Nat)
    (s : Synthesized) : (∃ e, (s.process source b).1 = .error e) ∨ (s.process source b).1 = .ok none := by
  obtain ⟨order, raw, content⟩ := b
  unfold Block.refers? at hl
  unfold process
  cases content with
  | sectionHeader _ => exact Or.inr rfl
  | fileHeader _ => cases hb
  | interface _ => cases hb
  | packet _ _ => cases hl
  | other kind =>
    dsimp only at hl ⊢
    split at hl
    · rename_i hkind
      rw [if_pos hkind]
      cases hparse : Statistics.parse order raw with
      | error e => exact Or.inl ⟨e, rfl⟩
      | ok st => rw [hparse] at hl; cases hl
    · rename_i hkind
      rw [if_neg hkind]
      exact Or.inr rfl

/-- Mergers that know the same numbers of a source answer its block alike. -/
theorem process_sameBut {source : Nat} {s s' : Synthesized}
    (h : ∀ l, (s.renumber source l).isSome = (s'.renumber source l).isSome) (b : Block) :
    SameBut b (s.process source b).1 (s'.process source b).1 := by
  cases hl : b.refers? with
  | none =>
    rw [process_fixed hl source s' s]
    cases hb : b.declares with
    | true =>
      obtain ⟨data, hdata⟩ := process_declares hb source s
      rw [hdata]
      exact .interface data hb
    | false =>
      rcases process_silent hb hl source s with ⟨e, he⟩ | hnone
      · rw [he]
        exact .failed e
      · rw [hnone]
        exact .suppressed
  | some l =>
    obtain ⟨front, back, hfront, hanswer⟩ := process_refers hl source
    rw [hanswer s, hanswer s']
    have hknown := h l
    cases hs : s.renumber source l with
    | none =>
      rw [hs, Option.isSome_none] at hknown
      cases hs' : s'.renumber source l with
      | none => exact .suppressed
      | some k' => rw [hs'] at hknown; cases hknown
    | some k =>
      rw [hs, Option.isSome_some] at hknown
      cases hs' : s'.renumber source l with
      | none => rw [hs'] at hknown; cases hknown
      | some k' => exact .numbered front back k k' (declares_of_refers hl) hfront

/-- The number that is written is the one the table leads to. -/
theorem number?_process {b : Block} (hb : b.declares = false) (source : Nat) (s : Synthesized) :
    number? (s.process source b).1 = b.refers?.bind fun l => s.renumber source l := by
  cases hl : b.refers? with
  | none =>
    rcases process_silent hb hl source s with ⟨e, he⟩ | hnone
    · rw [he]; rfl
    · rw [hnone]; rfl
  | some l =>
    obtain ⟨front, back, hfront, hanswer⟩ := process_refers hl source
    rw [hanswer s, Option.bind_some]
    cases s.renumber source l with
    | none => rfl
    | some k =>
      unfold number?
      dsimp only [Option.map]
      rw [wordAt_put32 outputOrder back front hfront k]
      rfl

end Synthesized

/-! ## Where the numbers lead back to -/

structure Origin where
  source : Nat
  /-- How many sections its source had begun by then. -/
  begun : Nat
  /-- Its number in the last of them. -/
  index : Nat
  deriving DecidableEq, Repr

def sectionsBegun (bs : List Block) : Nat := bs.countP Block.startsSection

theorem sectionsBegun_snoc (bs : List Block) (b : Block) :
    sectionsBegun (bs ++ [b]) = sectionsBegun bs + if b.startsSection then 1 else 0 := by
  unfold sectionsBegun
  rw [List.countP_append, List.countP_singleton]

def Origin.next (source : Nat) (sent : List Block) (b : Block) : Origin :=
  ⟨source, sectionsBegun (sent ++ [b]), (if b.startsSection then [] else openSection sent).length⟩

def originsAfter (before : List (Nat × Block)) : List (Nat × Block) → List Origin
  | [] => []
  | (source, b) :: rest =>
    (if b.declares then [Origin.next source (ofSource source before) b] else [])
      ++ originsAfter (before ++ [(source, b)]) rest

def origins (order : List (Nat × Block)) : List Origin := originsAfter [] order

theorem origins_snoc (order : List (Nat × Block)) (source : Nat) (b : Block) :
    origins (order ++ [(source, b)])
      = origins order ++ if b.declares then [Origin.next source (ofSource source order) b] else [] := by
  suffices h : ∀ before, originsAfter before (order ++ [(source, b)]) = originsAfter before order ++
      if b.declares then [Origin.next source (ofSource source (before ++ order)) b] else [] from h []
  induction order with
  | nil =>
    intro before
    simp only [List.nil_append, List.append_nil, originsAfter]
  | cons e rest ih =>
    intro before
    simp only [List.cons_append, originsAfter, ih, List.append_assoc, List.nil_append]

theorem length_origins (order : List (Nat × Block)) : (origins order).length = (announced order).length := by
  induction order using List.reverseRecOn with
  | nil => rfl
  | append_singleton order e ih =>
    obtain ⟨source, b⟩ := e
    rw [origins_snoc, announced_snoc, List.length_append, List.length_append, ih]
    unfold Block.declares
    cases b.declares? <;> rfl

/-- The interface has been declared by now: in an earlier section of its source, or in its last. -/
def Origin.Declared (order : List (Nat × Block)) (o : Origin) : Prop :=
  o.begun < sectionsBegun (ofSource o.source order) ∨
    o.begun = sectionsBegun (ofSource o.source order) ∧ o.index < (openSection (ofSource o.source order)).length

theorem Origin.Declared.snoc {order : List (Nat × Block)} {o : Origin} (h : o.Declared order) (source : Nat)
    (b : Block) : o.Declared (order ++ [(source, b)]) := by
  unfold Origin.Declared at h ⊢
  rw [ofSource_append, ofSource_singleton]
  by_cases hs : source = o.source
  · rw [if_pos hs, sectionsBegun_snoc, openSection_snoc, List.length_append]
    rcases h with h | ⟨hbegun, hindex⟩
    · left; omega
    · cases b.startsSection with
      | true => left; rw [if_pos rfl]; omega
      | false =>
        right
        simp only [Bool.false_eq_true, if_false]
        omega
  · rw [if_neg hs, List.append_nil]
    exact h

theorem Origin.not_declared_next (order : List (Nat × Block)) (source : Nat) (b : Block) :
    ¬ (Origin.next source (ofSource source order) b).Declared order := by
  unfold Origin.Declared Origin.next
  dsimp only
  rw [sectionsBegun_snoc]
  cases b.startsSection with
  | true => rw [if_pos rfl]; omega
  | false => simp

theorem Origin.declared_next {b : Block} (hb : b.declares = true) (order : List (Nat × Block)) (source : Nat) :
    (Origin.next source (ofSource source order) b).Declared (order ++ [(source, b)]) := by
  right
  unfold Origin.next
  dsimp only
  rw [ofSource_append, ofSource_singleton, if_pos rfl, openSection_snoc, List.length_append]
  obtain ⟨i, hi⟩ := Option.isSome_iff_exists.mp hb
  rw [hi]
  exact ⟨rfl, Nat.lt_succ_self _⟩

theorem declared_of_mem_origins {order : List (Nat × Block)} : ∀ o ∈ origins order, o.Declared order := by
  induction order using List.reverseRecOn with
  | nil => intro o ho; cases ho
  | append_singleton order e ih =>
    obtain ⟨source, b⟩ := e
    intro o ho
    rw [origins_snoc] at ho
    rcases List.mem_append.mp ho with ho | ho
    · exact (ih o ho).snoc source b
    · split at ho
      · rename_i hb
        rw [List.mem_singleton.mp ho]
        exact Origin.declared_next hb order source
      · cases ho

theorem origins_nodup (order : List (Nat × Block)) : (origins order).Nodup := by
  induction order using List.reverseRecOn with
  | nil => exact List.nodup_nil
  | append_singleton order e ih =>
    obtain ⟨source, b⟩ := e
    rw [origins_snoc]
    split
    · refine List.nodup_append.mpr ⟨ih, List.nodup_singleton _, fun o ho p hp e => ?_⟩
      rw [List.mem_singleton.mp hp] at e
      exact Origin.not_declared_next order source b (e ▸ declared_of_mem_origins o ho)
    · rw [List.append_nil]
      exact ih

namespace Synthesized

/-- What a block does to the tables: a section clears that of its source, and an interface
    gets the next number of all. -/
theorem table_process (source : Nat) (b : Block) (s : Synthesized) (src : Nat) :
    (s.process source b).2.table src
      = if src = source then
          (if b.startsSection then #[] else s.table source)
            ++ if b.declares then #[UInt32.ofNat s.interfaces.size] else #[]
        else s.table src := by
  cases hc : b.content with
  | sectionHeader h =>
    simp only [process, hc, table_startSection, Block.startsSection, Block.declares, Block.declares?,
      Option.isSome_none, if_true, Bool.false_eq_true, if_false, Array.append_empty]
  | fileHeader h =>
    simp only [process, hc, table_register, table_startSection, Block.startsSection, Block.declares, Block.declares?,
      Option.isSome_some, if_true, Array.push_eq_append]
    split
    · rfl
    · rfl
  | interface i =>
    simp only [process, hc, table_register, Block.startsSection, Block.declares, Block.declares?,
      Option.isSome_some, if_true, Bool.false_eq_true, if_false, Array.push_eq_append]
  | packet _ _ | other _ =>
    have hs : b.startsSection = false := by simp only [Block.startsSection, hc]
    have hd : b.declares? = none := by simp only [Block.declares?, hc]
    rw [process_plain hs hd, hs, Block.declares, hd]
    simp
    rintro rfl
    rfl

/-- What is in a table that may have got one number more was there before, or is that number. -/
theorem getElem?_grown {t : Array UInt32} {grown : Bool} {k id : UInt32} {l : Nat}
    (h : (t ++ if grown then #[k] else #[])[l]? = some id) :
    t[l]? = some id ∨ grown = true ∧ l = t.size ∧ id = k := by
  cases grown with
  | false =>
    simp only [Bool.false_eq_true, if_false, Array.append_empty] at h
    exact Or.inl h
  | true =>
    rw [if_pos rfl, ← Array.push_eq_append, Array.getElem?_push] at h
    split at h
    · rename_i hl
      cases h
      exact Or.inr ⟨rfl, hl, rfl⟩
    · exact Or.inl h

/-- Every number in the tables leads to the interface that stands under it in the sections
    that are open. -/
def Traced (order : List (Nat × Block)) (s : Synthesized) : Prop :=
  ∀ (src l : Nat) (id : UInt32), (s.table src)[l]? = some id →
    (origins order)[id.toNat]? = some ⟨src, sectionsBegun (ofSource src order), l⟩

variable {header : Bytes} {order : List (Nat × Block)} {s : Synthesized}

/-- Whatever comes from whatever source, the numbers lead to the same interfaces. -/
theorem Traced.process (ht : s.Traced order) (hn : s.NumberedAfter header order) (source : Nat) (b : Block)
    (hcount : (announced (order ++ [(source, b)])).length ≤ 2 ^ 32) :
    (s.process source b).2.Traced (order ++ [(source, b)]) := by
  intro src l id hid
  rw [table_process] at hid
  -- what is in a table stays there as long as its section is open
  have hkept : (s.table src)[l]? = some id →
      (origins (order ++ [(source, b)]))[id.toNat]? = some ⟨src, sectionsBegun (ofSource src order), l⟩ := by
    intro hold
    rw [origins_snoc]
    have hplace := ht src l id hold
    rw [List.getElem?_append_left (List.getElem?_eq_some_iff.mp hplace).1]
    exact hplace
  rw [ofSource_append, ofSource_singleton]
  by_cases hsrc : src = source
  · subst hsrc
    rw [if_pos rfl] at hid ⊢
    rw [sectionsBegun_snoc]
    rcases getElem?_grown hid with hold | ⟨hb, hl, hid⟩
    · cases hs : b.startsSection with
      | true => rw [hs] at hold; simp at hold
      | false =>
        rw [hs] at hold
        exact hkept hold
    · -- the number of a new interface is that of all before it
      have hplace : id.toNat = (origins order).length := by
        have hall : (announced order).length < 2 ^ 32 := by
          obtain ⟨i, hi⟩ := Option.isSome_iff_exists.mp hb
          rw [announced_snoc, hi, List.length_append] at hcount
          exact hcount
        rw [hid, UInt32.toNat_ofNat', ← Array.length_toList, hn.interfaces, length_origins]
        exact Nat.mod_eq_of_lt hall
      rw [origins_snoc, if_pos hb, hplace, List.getElem?_concat_length, hl]
      unfold Origin.next
      rw [sectionsBegun_snoc]
      cases b.startsSection with
      | true => rfl
      | false => simp [hn.size]
  · rw [if_neg hsrc] at hid
    rw [if_neg (fun e => hsrc e.symm), List.append_nil]
    exact hkept hid

end Synthesized

/-- Along every order that 32 bits can number, the merger of several sources knows of each number
    where its interface was declared. -/
theorem ofCount_traced {sources : Nat} (hn : 1 < sources) (host : Host) (order : List (Nat × Block))
    (hcount : (announced order).length ≤ 2 ^ 32) :
    ∃ s, (Merger.ofCount host sources).after order = .synthesized s ∧
      s.NumberedAfter (mergedHeader host) order ∧ s.Traced order := by
  induction order using List.reverseRecOn with
  | nil =>
    obtain ⟨s, hs, hnumbered⟩ := ofCount_numbers hn host []
    refine ⟨s, hs, hnumbered, fun src l id hid => ?_⟩
    -- no section has an interface yet
    have hlt := (Array.getElem?_eq_some_iff.mp hid).1
    rw [hnumbered.size] at hlt
    exact absurd hlt (Nat.not_lt_zero l)
  | append_singleton order e ih =>
    obtain ⟨source, b⟩ := e
    have hbefore : (announced order).length ≤ 2 ^ 32 := by
      rw [announced_snoc, List.length_append] at hcount
      omega
    obtain ⟨s, hs, hnumbered, htraced⟩ := ih hbefore
    refine ⟨(s.process source b).2, ?_, hnumbered.process source b, htraced.process hnumbered source b hcount⟩
    rw [Merger.after_snoc, hs]
    rfl

/-! ## The numbers of one merge -/

/-- The interface number in what is written for a source's block `n`; interfaces themselves
    have none. -/
def numberAt (m : Merger) (order : List (Nat × Block)) (source n : Nat) : Option UInt32 :=
  (ofSource source order)[n]?.bind fun b =>
    if b.declares then none else (answersTo source m order)[n]?.bind number?

/-- What a source's block `n` refers to: the interface with this number in the section that
    is open then. -/
def referent? (order : List (Nat × Block)) (source n : Nat) : Option Origin :=
  (ofSource source order)[n]?.bind fun b => b.refers?.map fun l =>
    ⟨source, sectionsBegun ((ofSource source order).take n), l.toNat⟩

variable {sources : Nat} {host : Host} {order : List (Nat × Block)}

theorem referent?_eq_some {source n : Nat} {o : Origin} (h : referent? order source n = some o) :
    o.source = source ∧ o.begun = sectionsBegun ((ofSource source order).take n) := by
  obtain ⟨b, -, h⟩ := Option.bind_eq_some_iff.mp h
  obtain ⟨l, -, rfl⟩ := Option.map_eq_some_iff.mp h
  exact ⟨rfl, rfl⟩

theorem origins_before {before : List (Nat × Block)} (h : before <+: order) : origins before <+: origins order := by
  obtain ⟨rest, rfl⟩ := h
  induction rest using List.reverseRecOn with
  | nil => simp
  | append_singleton rest e ih =>
    obtain ⟨source, b⟩ := e
    rw [← List.append_assoc, origins_snoc]
    exact ih.trans (List.prefix_append _ _)

theorem length_announced_le {before : List (Nat × Block)} (h : before <+: order) :
    (announced before).length ≤ (announced order).length := by
  rw [← length_origins, ← length_origins]
  exact (origins_before h).length_le

theorem numberAt_leads (hn : 1 < sources) (hcount : (announced order).length ≤ 2 ^ 32) {source n : Nat} {k : UInt32}
    (hk : numberAt (Merger.ofCount host sources) order source n = some k) :
    (origins order)[k.toNat]? = referent? order source n ∧ (referent? order source n).isSome = true := by
  unfold numberAt at hk
  obtain ⟨b, hb, hk⟩ := Option.bind_eq_some_iff.mp hk
  split at hk
  · cases hk
  · rename_i hd
    rw [Bool.not_eq_true] at hd
    obtain ⟨before, hpre, htake, hanswer⟩ := answersTo_getElem? hb
    have hbefore : before <+: order := (List.prefix_append _ _).trans hpre
    obtain ⟨s, hs, hnumbered, htraced⟩ :=
      ofCount_traced hn host before (Nat.le_trans (length_announced_le hbefore) hcount)
    have hprocess : (((Merger.ofCount host sources).after before).process source b).1 = (s.process source b).1 := by
      rw [hs]
      rfl
    rw [hanswer, Option.bind_some, hprocess, Synthesized.number?_process hd] at hk
    obtain ⟨l, hl, hk⟩ := Option.bind_eq_some_iff.mp hk
    have hplace := htraced source l.toNat k hk
    unfold referent?
    rw [hb, Option.bind_some, hl, Option.map_some, ← htake]
    obtain ⟨rest, hrest⟩ := origins_before hbefore
    rw [← hrest, List.getElem?_append_left (List.getElem?_eq_some_iff.mp hplace).1]
    exact ⟨hplace, rfl⟩

/-- Two numbers of one merge are equal exactly if they stand for one interface: of the same
    source, of the same of its sections, and there of the same number. -/
theorem numberAt_eq_iff (hn : 1 < sources) (hcount : (announced order).length ≤ 2 ^ 32) {i j n n' : Nat}
    {k k' : UInt32} (hk : numberAt (Merger.ofCount host sources) order i n = some k)
    (hk' : numberAt (Merger.ofCount host sources) order j n' = some k') :
    k = k' ↔ referent? order i n = referent? order j n' := by
  obtain ⟨hlead, hsome⟩ := numberAt_leads hn hcount hk
  obtain ⟨hlead', -⟩ := numberAt_leads hn hcount hk'
  rw [← hlead, ← hlead']
  rw [← hlead] at hsome
  constructor
  · rintro rfl
    rfl
  · intro h
    have hlt : k.toNat < (origins order).length := by
      by_contra hge
      rw [List.getElem?_eq_none (Nat.le_of_not_lt hge)] at hsome
      cases hsome
    exact UInt32.toNat.inj ((List.getElem?_inj hlt (origins_nodup order)).mp h)

/-! ## Two merges -/

theorem SameBut.isSome_number? {b : Block} {r r' : Result (Option Bytes)} (h : SameBut b r r')
    (hb : b.declares = false) : (number? r).isSome = (number? r').isSome := by
  cases h with
  | failed e => rfl
  | suppressed => rfl
  | interface data hd => exact absurd (hb.symm.trans hd) Bool.false_ne_true
  | numbered front back k k' _ hfront =>
    unfold number?
    dsimp only
    rw [wordAt_put32 outputOrder back front hfront k, wordAt_put32 outputOrder back front hfront k']
    rfl

variable {i sources' : Nat} (host host' : Host) {order' : List (Nat × Block)}

theorem answersTo_sameBut (hn : 1 < sources) (hn' : 1 < sources') (hsame : ofSource i order = ofSource i order')
    {n : Nat} {b : Block} (hb : (ofSource i order)[n]? = some b) :
    ∃ r r', (answersTo i (Merger.ofCount host sources) order)[n]? = some r ∧
      (answersTo i (Merger.ofCount host' sources') order')[n]? = some r' ∧ SameBut b r r' := by
  obtain ⟨before, -, htake, hanswer⟩ := answersTo_getElem? hb
  obtain ⟨before', -, htake', hanswer'⟩ := answersTo_getElem? (hsame ▸ hb)
  refine ⟨_, _, hanswer _, hanswer' _, ?_⟩
  obtain ⟨s, hs, hnumbered⟩ := ofCount_numbers hn host before
  obtain ⟨s', hs', hnumbered'⟩ := ofCount_numbers hn' host' before'
  rw [hs, hs']
  -- the section of the source is the same in both, so the same numbers are known
  refine Synthesized.process_sameBut (fun l => ?_) b
  rw [hnumbered.renumber_isSome, hnumbered'.renumber_isSome, htake, htake', hsame]

theorem isSome_numberAt (hn : 1 < sources) (hn' : 1 < sources') (hsame : ofSource i order = ofSource i order')
    (n : Nat) : (numberAt (Merger.ofCount host sources) order i n).isSome
      = (numberAt (Merger.ofCount host' sources') order' i n).isSome := by
  unfold numberAt
  cases hb : (ofSource i order)[n]? with
  | none =>
    rw [hsame] at hb
    rw [hb]
    rfl
  | some b =>
    obtain ⟨r, r', hr, hr', hbut⟩ := answersTo_sameBut host host' hn hn' hsame hb
    rw [hsame] at hb
    simp only [hb, hr, hr', Option.bind_some]
    cases hd : b.declares with
    | true => rfl
    | false => exact hbut.isSome_number? hd

/-- Blocks of a source that have one number in the one merge have one number in the other. -/
theorem sameNumber_of_sameNumber (hn : 1 < sources) (hn' : 1 < sources')
    (hsame : ofSource i order = ofSource i order') (hcount : (announced order).length ≤ 2 ^ 32)
    (hcount' : (announced order').length ≤ 2 ^ 32) {n n' : Nat}
    (h : ∃ k, numberAt (Merger.ofCount host sources) order i n = some k ∧
      numberAt (Merger.ofCount host sources) order i n' = some k) :
    ∃ k, numberAt (Merger.ofCount host' sources') order' i n = some k ∧
      numberAt (Merger.ofCount host' sources') order' i n' = some k := by
  obtain ⟨k, hk, hk'⟩ := h
  have hnumbered : ∀ p k, numberAt (Merger.ofCount host sources) order i p = some k →
      ∃ k', numberAt (Merger.ofCount host' sources') order' i p = some k' := by
    intro p k hp
    have hsome := isSome_numberAt host host' hn hn' hsame p
    rw [hp, Option.isSome_some] at hsome
    exact Option.isSome_iff_exists.mp hsome.symm
  obtain ⟨l, hl⟩ := hnumbered n k hk
  obtain ⟨l', hl'⟩ := hnumbered n' k hk'
  -- what a block refers to is told by the blocks of its source alone
  have hreferent : referent? order' i n = referent? order' i n' := by
    have h := (numberAt_eq_iff hn hcount hk hk').mp rfl
    unfold referent? at h ⊢
    rw [← hsame]
    exact h
  have hll := (numberAt_eq_iff hn' hcount' hl hl').mpr hreferent
  exact ⟨l, hl, hll ▸ hl'⟩

/-- Seen from source `i`, these two merges differ in the spelling of numbers only. -/
structure AlikeFor (i : Nat) (m : Merger) (order : List (Nat × Block)) (m' : Merger) (order' : List (Nat × Block)) :
    Prop where
  /-- Each block of the source has an answer of the same kind in both, to the byte but for a number. -/
  answers : ∀ (n : Nat) (b : Block), (ofSource i order)[n]? = some b → ∃ r r',
    (answersTo i m order)[n]? = some r ∧ (answersTo i m' order')[n]? = some r' ∧ SameBut b r r'
  /-- Two of its blocks have equal numbers in the one exactly if they have in the other. -/
  equal : ∀ n n' : Nat, (∃ k, numberAt m order i n = some k ∧ numberAt m order i n' = some k) ↔
    ∃ k, numberAt m' order' i n = some k ∧ numberAt m' order' i n' = some k

/-- Blocks of different sources have different numbers, and so have blocks of one source in
    different sections of it. -/
def NumbersApart (m : Merger) (order : List (Nat × Block)) : Prop :=
  ∀ (i j n n' : Nat) (k k' : UInt32), numberAt m order i n = some k → numberAt m order j n' = some k' →
    i ≠ j ∨ sectionsBegun ((ofSource i order).take n) ≠ sectionsBegun ((ofSource j order).take n') → k ≠ k'

theorem numbersApart (hn : 1 < sources) (hcount : (announced order).length ≤ 2 ^ 32) :
    NumbersApart (Merger.ofCount host sources) order := by
  intro i j n n' k k' hk hk' hapart hkk
  have hreferent := (numberAt_eq_iff hn hcount hk hk').mp hkk
  obtain ⟨-, hsome⟩ := numberAt_leads hn hcount hk
  obtain ⟨o, ho⟩ := Option.isSome_iff_exists.mp hsome
  obtain ⟨hsource, hbegun⟩ := referent?_eq_some ho
  obtain ⟨hsource', hbegun'⟩ := referent?_eq_some (hreferent ▸ ho)
  rcases hapart with h | h
  · exact h (hsource.symm.trans hsource')
  · exact h (hbegun.symm.trans hbegun')

/-- Whatever the other sources send, however many they are and whatever the host is: to a source
    that sent the same blocks, two merges are alike; and in each the numbers keep the sources and
    their sections apart. -/
theorem merge_isolates_sources (i : Nat) {sources sources' : Nat} (hn : 1 < sources) (hn' : 1 < sources')
    (host host' : Host) {order order' : List (Nat × Block)} (hsame : ofSource i order = ofSource i order')
    (hcount : (announced order).length < 2 ^ 32) (hcount' : (announced order').length < 2 ^ 32) :
    AlikeFor i (Merger.ofCount host sources) order (Merger.ofCount host' sources') order' ∧
      NumbersApart (Merger.ofCount host sources) order ∧ NumbersApart (Merger.ofCount host' sources') order' := by
  have hle := Nat.le_of_lt hcount
  have hle' := Nat.le_of_lt hcount'
  refine ⟨⟨?_, ?_⟩, numbersApart host hn hle, numbersApart host' hn' hle'⟩
  · intro n b hb
    exact answersTo_sameBut host host' hn hn' hsame hb
  · intro n n'
    constructor
    · exact sameNumber_of_sameNumber host host' hn hn' hsame hle hle'
    · exact sameNumber_of_sameNumber host' host hn' hn hsame.symm hle' hle

def twoSections : List Block :=
  let header : Block := ⟨.bigEndian, [], .sectionHeader (SectionHeader.ofOptions [])⟩
  let interface (linktype : UInt16) : Block := ⟨.bigEndian, [], .interface (Interface.make linktype 0 [])⟩
  let packet (index : UInt32) : Block := ⟨.bigEndian, [], .packet .enhanced (Packet.ofData index [7] 0)⟩
  [header, interface 1, packet 0, header, interface 113, packet 0, packet 5]

def crowdedOrder : List (Nat × Block) :=
  let other : List (Nat × Block) := [(4, ⟨.littleEndian, [], .fileHeader (FileHeader.make false 0 101)⟩),
    (4, ⟨.littleEndian, [], .packet (.record false) (Packet.ofData 0 [9] 0)⟩)]
  other ++ (twoSections.take 4).map ((1, ·)) ++ other ++ (twoSections.drop 4).map ((1, ·))

theorem merge_isolates_sources_crowded :
    let m := Merger.ofCount ⟨none, none⟩ 2
    let m' := Merger.ofCount ⟨some "", none⟩ 3
    let order := twoSections.map ((1, ·))
    ([2, 5, 6].map (numberAt m order 1) = [some 0, some 1, none] ∧
      [2, 5, 6].map (numberAt m' crowdedOrder 1) = [some 1, some 3, none]) ∧
    AlikeFor 1 m order m' crowdedOrder ∧ NumbersApart m order ∧ NumbersApart m' crowdedOrder := by
  refine ⟨by decide +kernel, merge_isolates_sources 1 (by decide) (by decide) ⟨none, none⟩ ⟨some "", none⟩ ?_ ?_ ?_⟩
  · decide +kernel
  · decide
  · decide

end CaptureRing
