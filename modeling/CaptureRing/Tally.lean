/-
  CaptureRing.Tally — the running totals of a capture, against the conditions that end it.

  Totals are plain numbers; no capture counts as far as 64 bits go.

  Proved: a condition once met stays the one that is met (`check_of_fired`).
-/

import CaptureRing.Condition

namespace CaptureRing

structure Tally where
  conditions : Autostop
  /-- When the capture began, in nanoseconds. -/
  started : Nat
  packets : Nat
  bytes : Nat
  /-- Output files that have met their threshold. -/
  files : Nat
  /-- The condition that was met. -/
  fired : Option Condition
  deriving DecidableEq, Repr

namespace Tally

def start (conditions : Autostop) (now : Nat) : Tally := ⟨conditions, now, 0, 0, 0, none⟩

def addPacket (size : Nat) (t : Tally) : Tally :=
  { t with packets := t.packets + 1, bytes := t.bytes + size }

def addBytes (size : Nat) (t : Tally) : Tally := { t with bytes := t.bytes + size }

def addFile (t : Tally) : Tally := { t with files := t.files + 1 }

def reaches (now : Nat) (t : Tally) : Condition → Bool
  | .packets n => n.toNat ≤ t.packets
  | .bytes n => n.toNat ≤ t.bytes
  | .duration d => d.nanos ≤ now - t.started
  | .files n => n.toNat ≤ t.files

/-- Looks at the conditions, in order, unless one was met before. -/
def check (now : Nat) (t : Tally) : Tally :=
  match t.fired with
  | some _ => t
  | none => { t with fired := t.conditions.find? (t.reaches now) }

theorem check_of_fired {t : Tally} {c : Condition} (now : Nat) (h : t.fired = some c) :
    t.check now = t := by
  simp [check, h]

end Tally

end CaptureRing
