/-
  CaptureRing.Proofs.Reseeding — a new file starts as if it had been written from the first.

  A merger writes an interface twice: when it is announced, and again at the front of every
  file that is opened afterwards. What stands in front of a new file comes from what was kept,
  not from what was written, so the two have to agree.

  Proved, in `seed_agrees`, for every order of blocks:
  - of several sources, a file starts with what was written for the interfaces so far, behind
    the header of our own; the table only grows at its end;
  - of a single source, a file starts with the header and the interfaces that the next block
    needs, and reads as just these; with nothing, if the next block brings its own header.
-/

import CaptureRing.Proofs.Legibility
import CaptureRing.Proofs.Numbering

namespace CaptureRing

/-- The block declares an interface: it describes one, or is the header of a classic capture. -/
def Block.declares (b : Block) : Bool := b.declares?.isSome

variable {m : Merger} {header : Bytes} {order : List (Nat × Block)}

/-! ## Several sources -/

def announcements (m : Merger) (order : List (Nat × Block)) : List Bytes :=
  ((given m order).filter (·.block.declares)).map (Written.bytes m)

/-- An interface is written when it comes, as it will stand in front of later files. -/
theorem Synthesized.gives_declared {b : Block} {i : Interface} (hb : b.declares? = some i) (source : Nat)
    (s : Synthesized) : (Merger.synthesized s).gives source b = some (i.encode outputOrder) := by
  unfold Block.declares? at hb
  unfold Merger.gives Merger.process Synthesized.process
  split at hb
  · rename_i h hc
    rw [hc]
    exact congrArg (fun i => some (i.encode outputOrder)) (Option.some.inj hb)
  · rename_i j hc
    rw [hc]
    exact congrArg (fun i => some (i.encode outputOrder)) (Option.some.inj hb)
  · cases hb

theorem announcements_eq (hm : m.Numbers header) (order : List (Nat × Block)) :
    announcements m order = (announced order).map (Interface.encode outputOrder) := by
  induction order using List.reverseRecOn with
  | nil => rfl
  | append_singleton order e ih =>
    obtain ⟨source, b⟩ := e
    obtain ⟨s, hs, -⟩ := hm order
    unfold announcements at ih ⊢
    rw [given_snoc, List.filter_append, List.map_append, ih, announced_snoc, List.map_append]
    congr 1
    cases hb : b.declares? with
    | none =>
      have hd : b.declares = false := by unfold Block.declares; rw [hb]; rfl
      split
      · rw [List.filter_cons_of_neg (by simp [hd])]
        rfl
      · rfl
    | some i =>
      have hd : b.declares = true := by unfold Block.declares; rw [hb]; rfl
      have hgives : (m.after order).gives source b = some (i.encode outputOrder) := by
        rw [hs]
        exact Synthesized.gives_declared hb source s
      rw [hgives, if_pos (by rfl), List.filter_cons_of_pos (by simp [hd])]
      show [Written.bytes m ⟨order, source, b⟩] = _
      unfold Written.bytes
      rw [hgives]
      rfl

theorem length_announced (order : List (Nat × Block)) :
    (announced order).length = order.countP (·.2.declares) := by
  unfold announced
  rw [List.length_filterMap_eq_countP]
  rfl

/-! ## A single source -/

namespace Passthrough

/-- The header that is kept stands for an interface exactly if it is that of a classic capture. -/
theorem classic_note {bs : List Block} {p : Passthrough} (h : p.classic = (governing? bs).any Block.declares)
    (b : Block) : (p.note b).classic = (governing? (bs ++ [b])).any Block.declares := by
  rw [governing?_snoc]
  obtain ⟨byteOrder, raw, content⟩ := b
  cases content with
  | sectionHeader _ => rfl
  | fileHeader _ => rfl
  | interface _ => exact h
  | packet _ _ => exact h
  | other _ => exact h

end Passthrough

theorem ofCount_classic (host : Host) (order : List (Nat × Block)) :
    ∃ p, (Merger.ofCount host 1).after order = .passthrough p ∧
      p.classic = (governing? (order.map (·.2))).any Block.declares := by
  induction order using List.reverseRecOn with
  | nil => exact ⟨Passthrough.empty, rfl, rfl⟩
  | append_singleton order e ih =>
    obtain ⟨p, hp, hc⟩ := ih
    refine ⟨p.note e.2, ?_, ?_⟩
    · rw [Merger.after_snoc, hp]
      rfl
    · rw [List.map_append]
      exact Passthrough.classic_note hc e.2

theorem declares_of_isInterface {b : Block} (h : b.isInterface = true) : b.declares = true := by
  unfold Block.isInterface at h
  unfold Block.declares Block.declares?
  split at h
  · rename_i hc
    rw [hc]
    rfl
  · cases h

theorem interfaceCount_contextOf (host : Host) (order : List (Nat × Block)) :
    ((Merger.ofCount host 1).after order).interfaceCount = (contextOf (order.map (·.2))).countP Block.declares := by
  obtain ⟨p, hp, hf⟩ := ofCount_passesOn host order
  obtain ⟨p', hp', hc⟩ := ofCount_classic host order
  rw [hp] at hp'
  cases hp'
  have hdescribed : (described (order.map (·.2))).countP Block.declares = p.interfaces.size := by
    rw [← Array.length_toList, hf.interfaces, List.length_map, List.countP_eq_length]
    exact fun b hb => declares_of_isInterface (isInterface_of_mem_described hb)
  rw [hp]
  unfold Merger.interfaceCount contextOf
  dsimp only
  rw [List.countP_append, hdescribed, hc, Nat.add_comm]
  congr 1
  cases governing? (order.map (·.2)) with
  | none => rfl
  | some b =>
    show _ = [b].countP Block.declares
    rw [List.countP_singleton]
    rfl

/-! ## Both -/

theorem seed_of_numbers (hm : m.Numbers header) (order : List (Nat × Block)) (next : Option Block) :
    (m.after order).seed next = m.seed none ++ (announcements m order).flatten := by
  obtain ⟨s, hs, hnum⟩ := hm order
  obtain ⟨s₀, hs₀, hnum₀⟩ := hm []
  have hstart : m.seed none = header := by
    show (m.after []).seed none = header
    rw [hs₀]
    show s₀.header ++ s₀.interfaces.toList.flatMap _ = header
    rw [hnum₀.header, hnum₀.interfaces]
    exact List.append_nil header
  rw [announcements_eq hm, hstart, hs]
  show s.header ++ s.interfaces.toList.flatMap _ = _
  rw [hnum.header, hnum.interfaces, List.flatMap_def]

theorem interfaceCount_of_numbers (hm : m.Numbers header) (order : List (Nat × Block)) :
    (m.after order).interfaceCount = (announced order).length := by
  obtain ⟨s, hs, hnum⟩ := hm order
  rw [hs, ← hnum.interfaces, Array.length_toList]
  rfl

/-- A place in the table keeps its interface, whatever comes after. -/
theorem interfaces_prefix (hm : m.Numbers header) (order more : List (Nat × Block)) :
    ∃ s s', m.after order = .synthesized s ∧ m.after (order ++ more) = .synthesized s' ∧
      s.interfaces.toList <+: s'.interfaces.toList := by
  obtain ⟨s, hs, hnum⟩ := hm order
  obtain ⟨s', hs', hnum'⟩ := hm (order ++ more)
  refine ⟨s, s', hs, hs', ?_⟩
  rw [hnum.interfaces, hnum'.interfaces]
  unfold announced
  rw [List.filterMap_append]
  exact List.prefix_append _ _

/-- What a new file starts with agrees with what was written before: of several sources, with
    the header and every interface that was written; of a single source, with the header and
    the interfaces that are open, which is what it reads as. -/
theorem seed_agrees (host : Host) (sources : Nat) (order : List (Nat × Block)) :
    let m := Merger.ofCount host sources
    (1 < sources →
      (∀ next, (m.after order).seed next = m.seed none ++ (announcements m order).flatten) ∧
      (m.after order).interfaceCount = order.countP (·.2.declares) ∧
      (announcements m order).length = order.countP (·.2.declares) ∧
      ∀ more, ∃ s s', m.after order = .synthesized s ∧ m.after (order ++ more) = .synthesized s' ∧
        s.interfaces.toList <+: s'.interfaces.toList) ∧
    (sources ≤ 1 → ∀ source : Reader, order.map (·.2) <+: (Stream.ofReader source).accepted →
      (∀ next : Option Block, next.any Block.startsSection = false →
        (m.after order).seed next =
          ((governing? (order.map (·.2))).map (·.raw)).getD [] ++ (described (order.map (·.2))).flatMap (·.raw)) ∧
      (∀ b : Block, b.startsSection = true → (m.after order).seed (some b) = []) ∧
      ∀ r : Reader, r.Delivers ((m.after order).seed none) →
        (Stream.ofReader r).run.map (·.1) =
            (contextOf (order.map (·.2))).map (fun b => .ok (some b)) ++ [.ok none] ∧
          (m.after order).interfaceCount = (Stream.ofReader r).accepted.countP Block.declares) := by
  intro m
  constructor
  · intro hn
    have hm : m.Numbers (mergedHeader host) := ofCount_numbers hn host
    refine ⟨seed_of_numbers hm order, ?_, ?_, interfaces_prefix hm order⟩
    · rw [interfaceCount_of_numbers hm, length_announced]
    · rw [announcements_eq hm, List.length_map, length_announced]
  · intro hn source hcut
    have hone : m = Merger.ofCount host 1 := by
      show (if 1 < sources then _ else _) = _
      rw [if_neg (by omega)]
      rfl
    obtain ⟨p, hp, hf⟩ := ofCount_passesOn host order
    have hseed : ∀ next, (m.after order).seed next = (seedBlocks (order.map (·.2)) next).flatMap (·.raw) := by
      intro next
      rw [hone, hp]
      exact hf.seed next
    refine ⟨fun next hnext => ?_, fun b hb => ?_, fun r hr => ?_⟩
    · rw [hseed]
      unfold seedBlocks contextOf
      rw [if_neg (by rw [hnext]; exact Bool.false_ne_true), List.flatMap_append]
      cases governing? (order.map (·.2)) with
      | none => rfl
      | some b => simp
    · rw [hseed]
      unfold seedBlocks
      rw [if_pos (by rw [Option.any_some]; exact hb)]
      rfl
    · rw [hseed] at hr
      have hrun := Stream.run_contextOf hcut hr
      refine ⟨hrun, ?_⟩
      rw [hone, interfaceCount_contextOf, Stream.accepted_of_run hrun]

def mixedOrder : List (Nat × Block) :=
  let header : Block := ⟨.bigEndian, [], .sectionHeader (SectionHeader.ofOptions [])⟩
  let interface (linktype : UInt16) : Block := ⟨.bigEndian, [], .interface (Interface.make linktype 0 [])⟩
  [(1, header), (1, interface 1), (0, ⟨.littleEndian, [], .fileHeader (FileHeader.make false 0 101)⟩), (1, header),
    (1, interface 113), (0, ⟨.littleEndian, [], .packet (.record false) (Packet.ofData 0 [7] 0)⟩)]

def loneOrder : List (Nat × Block) := ((Stream.ofReader (Reader.ofBytes loneStream)).accepted.take 3).map ((0, ·))

theorem seed_agrees_mixed :
    let several := Merger.ofCount ⟨none, none⟩ 2
    let single := (Merger.ofCount ⟨none, none⟩ 1).after loneOrder
    let reread := Stream.ofReader (Reader.ofBytes (single.seed none))
    ((several.after mixedOrder).seed none = several.seed none ++ (announcements several mixedOrder).flatten ∧
      (announcements several mixedOrder).length = 3) ∧
    reread.run.map (·.1) = (contextOf (loneOrder.map (·.2))).map (fun b => .ok (some b)) ++ [.ok none] ∧
    single.interfaceCount = 1 ∧ single.interfaceCount = reread.accepted.countP Block.declares := by
  have hcut : loneOrder.map (·.2) <+: (Stream.ofReader (Reader.ofBytes loneStream)).accepted := by
    simp only [loneOrder, List.map_map, Function.comp_def, List.map_id']
    exact List.take_prefix 3 _
  have hcount : mixedOrder.countP (·.2.declares) = 3 := by decide
  obtain ⟨hseed, -, hlength, -⟩ := (seed_agrees ⟨none, none⟩ 2 mixedOrder).1 (by decide)
  obtain ⟨-, -, hread⟩ := (seed_agrees ⟨none, none⟩ 1 loneOrder).2 (by decide) _ hcut
  obtain ⟨hrun, hinterfaces⟩ := hread _ (Reader.ofBytes_delivers _)
  exact ⟨⟨hseed none, by rw [hlength, hcount]⟩, hrun, by decide +kernel, hinterfaces⟩

end CaptureRing
