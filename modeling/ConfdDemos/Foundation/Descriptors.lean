import Mathlib.Data.List.Basic
import Mathlib.Data.Int.Basic

/-!
# Descriptor tables

The descriptors a process has open, each with what it was opened for. A new descriptor is the least
one that is free, so a number that was closed comes back, and closing a number twice may close what
somebody else has opened in between. `owner_socket` and `owner_close_of_ne` say what the two
operations do to the owners.
-/

namespace ConfdDemos

/-- The open descriptors of a process: the owner of each, and nothing where none is open. -/
structure Descriptors (Ω : Type*) where
  slots : List (Option Ω)
  deriving DecidableEq, Repr

namespace Descriptors

variable {Ω : Type*} (t : Descriptors Ω)

/-- What stands at a place of the table. -/
def slot (n : ℕ) : Option Ω := t.slots[n]?.join

/-- What a descriptor was opened for, if it is open. -/
def owner (fd : ℤ) : Option Ω := if 0 ≤ fd then t.slot fd.toNat else none

/-- The least descriptor that is not open. -/
def free : ℕ := t.slots.findIdx Option.isNone

/-- `socket`: open the least free descriptor. -/
def socket (o : Ω) : Descriptors Ω := ⟨(t.slots ++ [none]).set t.free (some o)⟩

/-- `close`; a number that is not open is ignored. -/
def close (fd : ℤ) : Descriptors Ω := if 0 ≤ fd then ⟨t.slots.set fd.toNat none⟩ else t

variable {t}

theorem slot_free : t.slot t.free = none := by
  rw [slot]
  by_cases h : t.free < t.slots.length
  · have hnone : t.slots[t.free].isNone = true := List.findIdx_getElem
    rw [List.getElem?_eq_getElem h, Option.isNone_iff_eq_none.mp hnone]
    rfl
  · rw [List.getElem?_eq_none (not_lt.mp h)]
    rfl

theorem slot_socket (o : Ω) (n : ℕ) :
    (t.socket o).slot n = if n = t.free then some o else t.slot n := by
  have hlen : t.free < (t.slots ++ [none]).length := by
    have hle : t.free ≤ t.slots.length := List.findIdx_le_length
    rw [List.length_append, List.length_singleton]
    omega
  rw [slot, socket]
  by_cases hn : n = t.free
  · rw [hn, if_pos rfl, List.getElem?_set_self hlen]
    rfl
  · rw [if_neg hn, List.getElem?_set_ne (Ne.symm hn), slot]
    rcases lt_trichotomy n t.slots.length with h | h | h
    · rw [List.getElem?_append_left h]
    · rw [h, List.getElem?_concat_length, List.getElem?_eq_none le_rfl]
      rfl
    · have hn' : (t.slots ++ [none]).length ≤ n := by
        rw [List.length_append, List.length_singleton]
        omega
      rw [List.getElem?_eq_none hn', List.getElem?_eq_none (le_of_lt h)]

theorem owner_free : t.owner t.free = none := by
  rw [owner, if_pos (Int.natCast_nonneg _), Int.toNat_natCast, slot_free]

/-- Opening a descriptor changes the owner of this one only. -/
theorem owner_socket (o : Ω) (fd : ℤ) :
    (t.socket o).owner fd = if fd = t.free then some o else t.owner fd := by
  rw [owner, owner]
  by_cases hfd : 0 ≤ fd
  · rw [if_pos hfd, if_pos hfd, slot_socket]
    have hiff : fd.toNat = t.free ↔ fd = t.free := by omega
    simp only [hiff]
  · rw [if_neg hfd, if_neg hfd, if_neg (by omega)]

/-- Closing a descriptor leaves the other ones open. -/
theorem owner_close_of_ne {fd fd' : ℤ} (h : fd ≠ fd') : (t.close fd').owner fd = t.owner fd := by
  rw [close]
  by_cases hfd' : 0 ≤ fd'
  · rw [if_pos hfd', owner, owner]
    by_cases hfd : 0 ≤ fd
    · have hne : fd'.toNat ≠ fd.toNat := by omega
      rw [if_pos hfd, if_pos hfd, slot, slot, List.getElem?_set_ne hne]
    · rw [if_neg hfd, if_neg hfd]
  · rw [if_neg hfd']

end Descriptors

end ConfdDemos
