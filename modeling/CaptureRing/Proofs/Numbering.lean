/-
  CaptureRing.Proofs.Numbering — the interfaces of all sources in one section.

  Each source counts the interfaces of its own section from zero, and starts again with
  every section header. The merger counts them all, in the order they were announced,
  and never starts again. Its tables lead from the one count to the other.

  Proved:
  - `Numbered.process`: whatever block comes from whatever source, the tables stay right;
  - `ofCount_numbers`: so they are along every order, from an empty merger on;
  - `Numbered.renumber_isSome`: a number is known exactly if its section has declared it.

  A place is kept in 32 bits; what a place means is told as long as that many suffice.
-/

import CaptureRing.Merge
import CaptureRing.Proofs.Arrivals
import CaptureRing.Proofs.Filing

namespace CaptureRing

/-! ## What the sources announce -/

/-- The interface that a block declares, its numbers in the order they are written again. -/
def Block.declares? (b : Block) : Option Interface :=
  match b.content with
  | .fileHeader h => some h.toInterface
  | .interface i => some (if b.order.isBig then i.swapOptions else i)
  | _ => none

def openSection (bs : List Block) : List Interface :=
  bs.foldl (fun is b => (if b.startsSection then [] else is) ++ b.declares?.toList) []

def announced (order : List (Nat × Block)) : List Interface := order.filterMap (·.2.declares?)

theorem openSection_snoc (bs : List Block) (b : Block) :
    openSection (bs ++ [b]) = (if b.startsSection then [] else openSection bs) ++ b.declares?.toList := by
  unfold openSection
  rw [List.foldl_append]
  rfl

theorem announced_snoc (order : List (Nat × Block)) (source : Nat) (b : Block) :
    announced (order ++ [(source, b)]) = announced order ++ b.declares?.toList := by
  unfold announced
  rw [List.filterMap_append]
  cases h : b.declares? <;> simp [h]

/-- A block changes the section of its source, and no other. -/
theorem openSection_ofSource_snoc (order : List (Nat × Block)) (source : Nat) (b : Block) :
    (fun src => openSection (ofSource src (order ++ [(source, b)])))
      = Function.update (fun src => openSection (ofSource src order)) source
          ((if b.startsSection then [] else openSection (ofSource source order)) ++ b.declares?.toList) := by
  funext src
  rw [Function.update_apply, ofSource_append, ofSource_singleton]
  by_cases h : src = source
  · subst h
    rw [if_pos rfl, if_pos rfl, openSection_snoc]
  · rw [if_neg h, if_neg (fun e => h e.symm), List.append_nil]

namespace Synthesized

/-! ## Tables -/

theorem table_setTable (source : Nat) (t : Array UInt32) (s : Synthesized) (src : Nat) :
    (s.setTable source t).table src = if src = source then t else s.table src := by
  unfold table setTable
  dsimp only
  rw [List.getElem?_set]
  by_cases h : src = source
  · subst h
    have hlt : src < (s.tables ++ List.replicate (src + 1 - s.tables.length) #[]).length := by
      rw [List.length_append, List.length_replicate]; omega
    rw [if_pos rfl, if_pos hlt, if_pos rfl]
    rfl
  · rw [if_neg (fun e => h e.symm), if_neg h]
    by_cases hs : src < s.tables.length
    · rw [List.getElem?_append_left hs]
    · rw [List.getElem?_append_right (by omega), List.getElem?_replicate, List.getElem?_eq_none (by omega)]
      split
      · rfl
      · rfl

theorem table_startSection (source : Nat) (s : Synthesized) (src : Nat) :
    (s.startSection source).table src = if src = source then #[] else s.table src :=
  table_setTable source #[] s src

theorem table_register (source : Nat) (i : Interface) (s : Synthesized) (src : Nat) :
    (s.register source i).2.table src
      = if src = source then (s.table source).push (UInt32.ofNat s.interfaces.size) else s.table src :=
  table_setTable source _ { s with interfaces := s.interfaces.push i } src

/-! ## The tables are right -/

structure Numbered (header : Bytes) (all : List Interface) (sections : Nat → List Interface) (s : Synthesized) :
    Prop where
  header : s.header = header
  interfaces : s.interfaces.toList = all
  size : ∀ src, (s.table src).size = (sections src).length
  place : all.length ≤ 2 ^ 32 → ∀ (src l : Nat) (id : UInt32), (s.table src)[l]? = some id →
    ∃ i, (sections src)[l]? = some i ∧ all[id.toNat]? = some i

variable {header : Bytes} {all : List Interface} {sections : Nat → List Interface} {s : Synthesized}

theorem Numbered.startSection (h : Numbered header all sections s) (source : Nat) :
    Numbered header all (Function.update sections source []) (s.startSection source) := by
  refine ⟨h.header, h.interfaces, fun src => ?_, fun hl src l id hid => ?_⟩
  · rw [table_startSection, Function.update_apply]
    split
    · rfl
    · exact h.size src
  · rw [table_startSection] at hid
    rw [Function.update_apply]
    split at hid
    · simp at hid
    · rename_i he
      rw [if_neg he]
      exact h.place hl src l id hid

theorem Numbered.register (h : Numbered header all sections s) (source : Nat) (i : Interface) :
    Numbered header (all ++ [i]) (Function.update sections source (sections source ++ [i]))
      (s.register source i).2 := by
  have hcount : s.interfaces.size = all.length := by rw [← h.interfaces, Array.length_toList]
  -- what has a place keeps it when a list grows at its end
  have hgrown : ∀ {is : List Interface} {k : Nat} {j : Interface}, is[k]? = some j → (is ++ [i])[k]? = some j := by
    intro is k j hj
    rw [List.getElem?_append_left (List.getElem?_eq_some_iff.mp hj).1]
    exact hj
  refine ⟨h.header, ?_, fun src => ?_, fun hl src l id hid => ?_⟩
  · rw [← h.interfaces]
    exact Array.toList_push
  · rw [table_register, Function.update_apply]
    split
    · rw [Array.size_push, h.size, List.length_append]
      rfl
    · exact h.size src
  · rw [List.length_append, List.length_singleton] at hl
    rw [table_register] at hid
    rw [Function.update_apply]
    split at hid
    · rename_i he
      rw [if_pos he]
      rw [Array.getElem?_push] at hid
      split at hid
      · rename_i hlast
        cases hid
        have hplace : (UInt32.ofNat s.interfaces.size).toNat = all.length := by
          rw [UInt32.toNat_ofNat', hcount]
          exact Nat.mod_eq_of_lt (by omega)
        refine ⟨i, ?_, ?_⟩
        · rw [hlast, h.size, List.getElem?_concat_length]
        · rw [hplace, List.getElem?_concat_length]
      · obtain ⟨j, hj, hp⟩ := h.place (by omega) source l id hid
        exact ⟨j, hgrown hj, hgrown hp⟩
    · rename_i he
      rw [if_neg he]
      obtain ⟨j, hj, hp⟩ := h.place (by omega) src l id hid
      exact ⟨j, hj, hgrown hp⟩

abbrev NumberedAfter (header : Bytes) (order : List (Nat × Block)) (s : Synthesized) : Prop :=
  Numbered header (announced order) (fun src => openSection (ofSource src order)) s

variable {order : List (Nat × Block)}

/-- A block that neither starts a section nor declares an interface leaves the tables alone. -/
theorem process_plain {b : Block} (hs : b.startsSection = false) (hd : b.declares? = none) (source : Nat)
    (s : Synthesized) : (s.process source b).2 = s := by
  obtain ⟨order, raw, content⟩ := b
  unfold process
  cases content with
  | sectionHeader _ => cases hs
  | fileHeader _ => cases hd
  | interface _ => cases hd
  | packet format p =>
    dsimp only
    split <;> rfl
  | other kind =>
    dsimp only
    split
    · split
      · rfl
      · split <;> rfl
    · rfl

/-- Whatever comes from whatever source, the tables stay right. -/
theorem Numbered.process (h : NumberedAfter header order s) (source : Nat) (b : Block) :
    NumberedAfter header (order ++ [(source, b)]) (s.process source b).2 := by
  unfold NumberedAfter
  rw [announced_snoc, openSection_ofSource_snoc]
  by_cases hplain : b.startsSection = false ∧ b.declares? = none
  · obtain ⟨hs, hd⟩ := hplain
    rw [process_plain hs hd, hs, hd]
    simp only [Bool.false_eq_true, if_false, Option.toList_none, List.append_nil]
    rw [Function.update_eq_self source (fun src => openSection (ofSource src order))]
    exact h
  obtain ⟨order', raw, content⟩ := b
  cases content with
  | sectionHeader header' =>
    have hs := h.startSection source
    rw [← List.append_nil (announced order)] at hs
    exact hs
  | fileHeader header' =>
    have hr := (h.startSection source).register source header'.toInterface
    rw [Function.update_idem, Function.update_self] at hr
    exact hr
  | interface i => exact h.register source _
  | packet | other => exact absurd ⟨rfl, rfl⟩ hplain

/-- A number is known exactly if its section has declared that many interfaces. -/
theorem Numbered.renumber_isSome (h : Numbered header all sections s) (source : Nat) (index : UInt32) :
    (s.renumber source index).isSome = decide (index.toNat < (sections source).length) := by
  unfold renumber
  rw [← h.size source]
  by_cases hl : index.toNat < (s.table source).size
  · rw [Array.getElem?_eq_getElem hl, decide_eq_true hl]; rfl
  · rw [Array.getElem?_eq_none (Nat.le_of_not_lt hl), decide_eq_false hl]; rfl

end Synthesized

/-- Whatever goes through it, the merger writes into one section with this header, and its
    tables are right. -/
def Merger.Numbers (header : Bytes) (m : Merger) : Prop :=
  ∀ order, ∃ s, m.after order = .synthesized s ∧ s.NumberedAfter header order

def mergedHeader (host : Host) : Bytes := (SectionHeader.ofHost host applicationName).encode .littleEndian

theorem ofCount_numbers {sources : Nat} (hn : 1 < sources) (host : Host) :
    (Merger.ofCount host sources).Numbers (mergedHeader host) := by
  intro order
  induction order using List.reverseRecOn with
  | nil =>
    unfold Merger.ofCount
    rw [if_pos hn]
    refine ⟨_, rfl, rfl, rfl, fun src => ?_, fun _ src l id hid => ?_⟩
    all_goals
      have hempty : Synthesized.table src ⟨(SectionHeader.ofHost host applicationName).encode outputOrder, #[],
          List.replicate sources #[]⟩ = #[] := by
        unfold Synthesized.table
        rw [List.getElem?_replicate]
        split <;> rfl
    · rw [hempty]; rfl
    · rw [hempty] at hid; simp at hid
  | append_singleton order e ih =>
    obtain ⟨s, hs, hnum⟩ := ih
    refine ⟨(s.process e.1 e.2).2, ?_, hnum.process e.1 e.2⟩
    rw [Merger.after_snoc, hs]
    rfl

end CaptureRing
