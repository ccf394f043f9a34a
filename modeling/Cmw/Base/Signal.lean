import Mathlib.Data.List.Basic

/-!
# Signals and slots

base/signal.h.  A slot is known by its address, which is the count of the slots
that the signal has had before; a connection holds it.
-/

namespace Cmw
namespace Base

structure Slot (κ : Type) where
  ptr : Nat
  cb : κ
  connected : Bool := true
  deriving DecidableEq, Repr

structure Signal (κ : Type) where
  slots : List (Slot κ) := []
  count : Nat := 0
  deriving DecidableEq, Repr

abbrev Connection := Nat

namespace Signal

variable {κ : Type}

def clearDisconnectedSlots (s : Signal κ) : Signal κ :=
  { s with slots := s.slots.filter fun slot => slot.connected }

def called (s : Signal κ) : List κ :=
  (s.slots.filter fun slot => slot.connected).map fun slot => slot.cb

def call (s : Signal κ) : List κ × Signal κ := (s.called, s.clearDisconnectedSlots)

def connect (s : Signal κ) (cb : κ) : Connection × Signal κ :=
  (s.count, { slots := s.slots ++ [{ ptr := s.count, cb }], count := s.count + 1 })

def disconnect (s : Signal κ) (conn : Connection) : Signal κ :=
  if s.slots.any fun slot => slot.ptr == conn then
    clearDisconnectedSlots { s with slots := s.slots.map fun slot =>
      if slot.ptr = conn then { slot with connected := false } else slot }
  else s

theorem called_clear (s : Signal κ) : s.clearDisconnectedSlots.called = s.called := by
  simp [called, clearDisconnectedSlots]

theorem called_connect (s : Signal κ) (cb : κ) : (s.connect cb).2.called = s.called ++ [cb] := by
  simp [called, connect]

/-- In a signal without disconnected slots only the slot of the connection goes. -/
theorem slots_disconnect {s : Signal κ} (hs : ∀ slot ∈ s.slots, slot.connected = true)
    (conn : Connection) :
    (s.disconnect conn).slots = s.slots.filter fun slot => slot.ptr != conn := by
  rw [disconnect]
  split
  case isTrue =>
    show (s.slots.map _).filter _ = _
    rw [List.filter_map, List.filter_congr (q := fun slot => slot.ptr != conn)]
    · refine (List.map_congr_left fun slot hslot => ?_).trans (List.map_id _)
      exact if_neg (bne_iff_ne.mp (List.mem_filter.mp hslot).2)
    · intro slot hslot
      rw [Function.comp_apply]
      split
      case isTrue heq => exact (bne_eq_false_iff_eq.mpr heq).symm
      case isFalse hne => rw [hs slot hslot, bne_iff_ne.mpr hne]
  case isFalse hnone =>
    refine (List.filter_eq_self.mpr fun slot hslot => ?_).symm
    rw [bne_iff_ne]
    intro heq
    exact hnone (List.any_eq_true.mpr ⟨slot, hslot, beq_iff_eq.mpr heq⟩)

@[simp] theorem count_disconnect (s : Signal κ) (conn : Connection) :
    (s.disconnect conn).count = s.count := by
  rw [disconnect]
  split <;> rfl

theorem mem_called_disconnect {s : Signal κ} {conn : Connection} {cb : κ}
    (h : cb ∈ (s.disconnect conn).called) : cb ∈ s.called := by
  rw [disconnect] at h
  split at h
  case isFalse => exact h
  case isTrue =>
    rw [called_clear] at h
    obtain ⟨slot, hslot, rfl⟩ := List.mem_map.mp h
    obtain ⟨hslot, hconnected⟩ := List.mem_filter.mp hslot
    obtain ⟨old, hold, rfl⟩ := List.mem_map.mp hslot
    split at hconnected
    case isTrue => cases hconnected
    case isFalse hne =>
      rw [if_neg hne]
      exact List.mem_map_of_mem (List.mem_filter.mpr ⟨hold, hconnected⟩)

end Signal

end Base
end Cmw
