/-
  CaptureRing.Proofs.Pieces — it makes no difference in which pieces the bytes of a stream come.

  Two streams are alike when their readers deliver the same bytes and they know the same of what
  came before; the pieces, the most bytes of one read and the interruptions are their own. The
  only step that touches a reader is filling a buffer, and it takes the first bytes from either;
  everything else that is done follows from these. So two alike streams give the same result and
  are alike after it, however often the next block is asked for.

  Proved:
  - `Agrees.pull`: the next block of two alike streams is the same, and so is a failure;
  - `Alike.next`, `Alike.result`: so is every result, also those after the end;
  - `results_independent_of_delivery`: bytes that come in pieces are cut as if they came at once.
-/

import Mathlib.Data.List.Basic
import CaptureRing.Proofs.Cutting

namespace CaptureRing

namespace Stream

/-- What the call of this number gives, counted from zero, when the next block is asked for again
    and again. -/
def result : Nat → Stream → Result (Option Block)
  | 0, s => s.next.1
  | k + 1, s => result k s.next.2

/-! ## Streams that are alike -/

/-- The same bytes are still to come, and the same is known of what came. -/
structure Alike (s t : Stream) : Prop where
  bytes : ∃ bs, s.reader.Delivers bs ∧ t.reader.Delivers bs
  format : s.format = t.format
  order : s.order = t.order
  finished : s.finished = t.finished

/-- From streams that are alike, both steps get the same and leave streams that are alike. -/
def Agrees {α : Type} (p q : Pull α) : Prop :=
  ∀ s t, Alike s t → (p.run.run s).1 = (q.run.run t).1 ∧ Alike (p.run.run s).2 (q.run.run t).2

namespace Agrees

variable {α β : Type}

theorem pure (a : α) : Agrees (pure a) (pure a) := fun _ _ h => ⟨rfl, h⟩

theorem throw (e : Failure) : Agrees (throw e : Pull α) (throw e) := fun _ _ h => ⟨rfl, h⟩

theorem lift (r : Result α) : Agrees (ExceptT.mk (Pure.pure r)) (ExceptT.mk (Pure.pure r)) := fun _ _ h => ⟨rfl, h⟩

theorem modify {f : Stream → Stream} (hf : ∀ s t, Alike s t → Alike (f s) (f t)) :
    Agrees (modify f : Pull Unit) (modify f) := fun s t h => ⟨rfl, hf s t h⟩

theorem bind {p q : Pull α} {f g : α → Pull β} (h : Agrees p q) (hnext : ∀ a, Agrees (f a) (g a)) :
    Agrees (p >>= f) (q >>= g) := by
  intro s t hst
  obtain ⟨hresult, halike⟩ := h s t hst
  rw [run_bind, run_bind]
  rcases hp : p.run.run s with ⟨e | a, s'⟩ <;> rcases hq : q.run.run t with ⟨e' | a', t'⟩ <;>
    rw [hp, hq] at hresult halike <;> cases hresult
  · exact ⟨rfl, halike⟩
  · exact hnext a s' t' halike

theorem map {p q : Pull α} (h : Agrees p q) (f : α → β) : Agrees (f <$> p) (f <$> q) := by
  rw [map_eq_pure_bind, map_eq_pure_bind]
  exact bind h fun a => pure (f a)

/-- What is looked up may differ, but only in the reader. -/
theorem get_bind {f g : Stream → Pull β} (h : ∀ s t, Alike s t → Agrees (f s) (g t)) :
    Agrees (get >>= f) (get >>= g) := fun s t hst => h s t hst s t hst

theorem fill (n : Nat) : Agrees (fill n) (fill n) := by
  rintro s t ⟨⟨bs, hs, ht⟩, hformat, horder, hfinished⟩
  obtain ⟨r, hr, hrest⟩ := hs.fill n
  obtain ⟨r', hr', hrest'⟩ := ht.fill n
  rw [run_fill hr, run_fill hr']
  exact ⟨rfl, ⟨_, hrest, hrest'⟩, hformat, horder, hfinished⟩

theorem extend (buf : Bytes) (n : Nat) : Agrees (extend buf n) (extend buf n) := by
  unfold Stream.extend
  refine bind (fill n) fun got => ?_
  split
  · exact throw _
  · exact pure _

theorem head (n : Nat) : Agrees (head n) (head n) := by
  unfold Stream.head
  refine bind (fill n) fun got => ?_
  split
  · exact pure _
  · split
    · exact throw _
    · exact pure _

/-! ## The next block -/

theorem nextSectioned (buf : Bytes) : Agrees (nextSectioned buf) (nextSectioned buf) := by
  unfold Stream.nextSectioned
  refine bind (extend _ _) fun buf => get_bind fun s t hst => ?_
  rw [hst.order]
  refine bind (lift _) fun frame => bind (extend _ _) fun buf => bind (lift _) fun b => ?_
  split
  · exact bind (modify fun s t h => ⟨h.bytes, h.format, rfl, h.finished⟩) fun _ => pure b
  · exact pure b

theorem nextRecord (f : PcapFormat) : Agrees (nextRecord f) (nextRecord f) := by
  unfold Stream.nextRecord
  refine bind (head _) fun got => ?_
  cases got with
  | none => exact pure none
  | some buf => exact bind (lift _) fun length => bind (extend _ _) fun buf => bind (lift _) fun b => pure (some b)

theorem first : Agrees first first := by
  unfold Stream.first
  refine bind (head 4) fun got => ?_
  cases got with
  | none => exact pure none
  | some magic =>
    refine bind (lift _) fun format => bind (modify fun s t h => ⟨h.bytes, rfl, h.order, h.finished⟩) fun _ => ?_
    cases format with
    | sectioned => exact map (nextSectioned magic) some
    | classic f =>
      exact bind (extend _ _) fun buf => bind (lift _) fun b =>
        bind (modify fun s t h => ⟨h.bytes, h.format, rfl, h.finished⟩) fun _ => pure (some b)

theorem pull (format : Option StreamFormat) : Agrees (pull format) (pull format) := by
  cases format with
  | none => exact first
  | some format =>
    cases format with
    | classic f => exact nextRecord f
    | sectioned =>
      unfold Stream.pull
      refine bind (head _) fun got => ?_
      cases got with
      | none => exact pure none
      | some buf => exact map (nextSectioned buf) some

end Agrees

/-! ## All results -/

variable {s t : Stream}

theorem Alike.next (h : Alike s t) : s.next.1 = t.next.1 ∧ Alike s.next.2 t.next.2 := by
  unfold Stream.next
  by_cases hf : s.finished = true
  · rw [if_pos hf, if_pos (h.finished ▸ hf)]
    exact ⟨rfl, h⟩
  · rw [if_neg hf, if_neg (h.finished ▸ hf), h.format]
    obtain ⟨hresult, halike⟩ := Agrees.pull t.format s t h
    dsimp only
    rw [hresult]
    exact ⟨rfl, halike.bytes, halike.format, halike.order, rfl⟩

theorem Alike.result (h : Alike s t) (k : Nat) : s.result k = t.result k := by
  induction k generalizing s t with
  | zero => exact h.next.1
  | succ k ih => exact ih h.next.2

theorem Alike.pulls (h : Alike s t) (n : Nat) : (pulls n s).map (·.1) = (pulls n t).map (·.1) := by
  induction n generalizing s t with
  | zero => rfl
  | succ n ih =>
    obtain ⟨hresult, halike⟩ := h.next
    unfold Stream.pulls
    dsimp only
    rw [List.map_cons, List.map_cons, hresult]
    cases isBlock t.next.1 with
    | false => rfl
    | true => exact congrArg _ (ih halike)

theorem alike_ofReader {r r' : Reader} {bs : Bytes} (hr : r.Delivers bs) (hr' : r'.Delivers bs) :
    Alike (ofReader r) (ofReader r') := ⟨⟨bs, hr, hr'⟩, rfl, rfl, rfl⟩

/-- However bytes are delivered, in pieces of any sizes, so many at a time and with interruptions
    in between, every call gives what it gives when they are delivered at once; and so does reading
    on up to the first result that is not a block. -/
theorem results_independent_of_delivery {r : Reader} {bs : Bytes} (hr : r.Delivers bs) :
    (∀ k, (ofReader r).result k = (ofReader (Reader.ofBytes bs)).result k) ∧
      (ofReader r).run.map (·.1) = (ofReader (Reader.ofBytes bs)).run.map (·.1) := by
  have halike := alike_ofReader hr (Reader.ofBytes_delivers bs)
  refine ⟨halike.result, ?_⟩
  unfold run ofReader
  dsimp only
  rw [hr.remaining, (Reader.ofBytes_delivers bs).remaining]
  exact halike.pulls _

def brokenOff : Bytes :=
  (SectionHeader.ofOptions []).encode .bigEndian ++ ((Interface.make 1 0 []).encode .bigEndian).take 8

/-- These bytes at most five at a time, cut inside the magic and inside the second block. -/
def halting : Reader :=
  ⟨[.interrupted, .bytes (brokenOff.take 3), .bytes ((brokenOff.drop 3).take 27), .interrupted, .interrupted,
    .bytes (brokenOff.drop 30)], some 5⟩

theorem results_independent_of_delivery_halting :
    halting.Delivers brokenOff ∧
      (∀ k, (ofReader halting).result k = (ofReader (Reader.ofBytes brokenOff)).result k) ∧
      (ofReader halting).run.map (·.1) =
        [.ok (some ⟨.bigEndian, (SectionHeader.ofOptions []).encode .bigEndian,
          .sectionHeader (SectionHeader.ofOptions [])⟩),
          corrupt (.truncated 12 8)] := by
  have hdelivers : halting.Delivers brokenOff := ⟨by decide +kernel, by decide +kernel, nofun⟩
  obtain ⟨hresult, hrun⟩ := results_independent_of_delivery hdelivers
  refine ⟨hdelivers, hresult, hrun.trans ?_⟩
  decide +kernel

end Stream

end CaptureRing
