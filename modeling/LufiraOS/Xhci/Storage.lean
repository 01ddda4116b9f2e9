import LufiraOS.Lib.Run
import Mathlib.Logic.Function.Basic
import Mathlib.Tactic.Common

/-!
# Mass-storage devices on the bus

The tables of slots and of storage devices in `xhci.c`, under attaches and detaches.  The index of
a device is the number under which it is mounted, so the table is not closed up when a device
goes, and no index is given out twice.
-/

namespace Storage

/-- `XHCI_MAX_SLOTS_SUPPORTED`. -/
def maxSlots : Nat := 8

/-- `XHCI_MAX_MSD_DEVICES`. -/
def maxDevices : Nat := 4

/-- A slot in use; `device` is `msd_device_idx`, `none` for -1. -/
structure Slot where
  port : Nat
  device : Option Nat

/-- `xhci_msd_device_t`. -/
structure Device where
  inUse : Bool
  slotId : Nat
  maxLba : UInt32
  blockSize : UInt32

/-- `count` is `xhci_msd_device_count_var`. -/
structure State where
  slots : Nat → Option Slot
  devices : Nat → Device
  count : Nat

/-- A storage device comes to a port, with the slot the controller enables for it and what it
answers to READ CAPACITY; or the port becomes empty. -/
inductive Event
  | attach (port slotId : Nat) (capacity : Option (UInt32 × UInt32))
  | detach (port : Nat)

namespace State

variable (s : State)

/-- The slot in use for the port. -/
def slotOf (port : Nat) : Option Nat :=
  (List.range maxSlots).find? fun i => (s.slots i).any fun x => x.port = port

/-- `xhci_msd_init`, after `xhci_enumerate_device` has set the slot up. -/
def msdInit (port slotId : Nat) (capacity : Option (UInt32 × UInt32)) : State :=
  match capacity with
  | none => s
  | some (maxLba, blockSize) =>
    if s.count ≥ maxDevices then s
    else ⟨Function.update s.slots (slotId - 1) (some ⟨port, some s.count⟩),
      Function.update s.devices s.count ⟨true, slotId, maxLba, blockSize⟩, s.count + 1⟩

/-- `xhci_teardown_slot`. -/
def teardownSlot (i : Nat) : State :=
  let gone : Option Nat := (s.slots i).bind Slot.device
  { s with
    devices := fun k => if gone = some k ∧ k < s.count then { s.devices k with inUse := false }
      else s.devices k
    slots := Function.update s.slots i none }

/-- `xhci_poll_hotplug` for the port.  A port with a slot in use only bounces. -/
def step : Event → State
  | .attach port slotId capacity =>
    if s.slotOf port ≠ none ∨ slotId = 0 ∨ slotId > maxSlots then s
    else msdInit { s with slots := Function.update s.slots (slotId - 1) (some ⟨port, none⟩) } port
      slotId capacity
  | .detach port => match s.slotOf port with
    | none => s
    | some i => s.teardownSlot i

/-- `xhci_msd_get_info`. -/
def msdGetInfo (index : Nat) : Option (UInt32 × UInt32) :=
  if index ≥ s.count ∨ (s.devices index).inUse = false then none
  else some ((s.devices index).maxLba, (s.devices index).blockSize)

/-- Before the first device. -/
def boot : State := ⟨fun _ => none, fun _ => ⟨false, 0, 0, 0⟩, 0⟩

/-- How many devices are attached. -/
def attached : Nat := (List.range maxSlots).countP fun i => (s.slots i).isSome

/-- A new device comes that answers. -/
def Answers : Event → Prop
  | .attach port slotId capacity =>
    s.slotOf port = none ∧ 0 < slotId ∧ slotId ≤ maxSlots ∧ capacity.isSome
  | .detach _ => False

instance (e : Event) : Decidable (s.Answers e) := by
  cases e <;> unfold Answers <;> infer_instance

/-- How many such devices come along the events. -/
def answered : State → List Event → Nat
  | _, [] => 0
  | s, e :: es => (if s.Answers e then 1 else 0) + answered (s.step e) es

/-- The device in the slot has an index, under which its size is found. -/
def Registered (slotId : Nat) (capacity : UInt32 × UInt32) : Prop :=
  ((s.slots (slotId - 1)).bind Slot.device).bind s.msdGetInfo = some capacity

instance (slotId : Nat) (capacity : UInt32 × UInt32) : Decidable (s.Registered slotId capacity) :=
  inferInstanceAs (Decidable (_ = _))

variable {s}

theorem count_step (e : Event) :
    (s.step e).count = if s.Answers e ∧ s.count < maxDevices then s.count + 1 else s.count := by
  cases e with
  | attach port slotId capacity => cases capacity <;> grind [step, Answers, msdInit]
  | detach port => grind [step, Answers, teardownSlot]

theorem count_run (hs : s.count ≤ maxDevices) (es : List Event) :
    (Run.run step s es).count = min maxDevices (s.count + s.answered es) := by
  induction es generalizing s with
  | nil => exact (Nat.min_eq_right hs).symm
  | cons e es ih =>
    have hstep := count_step (s := s) e
    rw [Run.run_cons, ih (by grind), hstep, answered]
    grind

/-- **Registration.**  A new device that answers is registered exactly when fewer than
`XHCI_MAX_MSD_DEVICES` such devices have come before it, gone or not. -/
theorem registered_iff (es : List Event) {port slotId : Nat} {capacity : UInt32 × UInt32}
    (hnew : (Run.run step boot es).Answers (.attach port slotId (some capacity))) :
    ((Run.run step boot es).step (.attach port slotId (some capacity))).Registered slotId capacity ↔
      boot.answered es < maxDevices := by
  have hcount := count_run (s := boot) (Nat.zero_le _) es
  generalize Run.run step boot es = s at hnew hcount ⊢
  obtain ⟨hport, hpos, hle, -⟩ := hnew
  have hstep : s.step (.attach port slotId (some capacity)) = msdInit { s with
      slots := Function.update s.slots (slotId - 1) (some ⟨port, none⟩) } port slotId capacity :=
    if_neg (by simp [hport]; omega)
  have hboot : boot.count = 0 := rfl
  rw [hstep]
  by_cases hfull : s.count ≥ maxDevices
  · refine iff_of_false ?_ (by omega)
    simp [Registered, msdInit, hfull]
  · refine iff_of_true ?_ (by omega)
    simp [Registered, msdInit, hfull, msdGetInfo]

/-- Two devices come, and the first of them goes again. -/
def twoCome : List Event := [.attach 1 1 (some (7, 512)), .attach 2 2 (some (9, 512)), .detach 1]

/-- The next device at the first port is registered. -/
theorem registered_iff_third :
    ((Run.run step boot twoCome).step (.attach 1 1 (some (8, 512)))).Registered 1 (8, 512) :=
  (registered_iff twoCome (by decide)).2 (by decide)

/-- Four devices come and go. -/
def fourGone : List Event :=
  (List.replicate 4 [Event.attach 1 1 (some (7, 512)), .detach 1]).flatten

/-- None is attached any more, and the next is not registered. -/
theorem not_registered_fourGone :
    let s := Run.run step boot fourGone
    s.attached < maxDevices ∧ s.Answers (.attach 1 1 (some (7, 512))) ∧
      ¬ (s.step (.attach 1 1 (some (7, 512)))).Registered 1 (7, 512) := by decide

end State

end Storage
