import LufiraOS.Lib.Run
import LufiraOS.Mmap.Core

/-!
# Regions and free ranges stay apart

Whatever a process asks for, its regions and the ranges it gave back are pairwise
disjoint and lie below the pointer, as long as no call makes the pointer leave the
user half.  The code does not check that: a length is only rounded up, and the
pointer moves by it before the first page is mapped.
-/

namespace Mmap

open List

open Extents

open Paging (pageSize)

/-- The first address above the canonical user half. -/
def userEnd : Nat := 140737488355328

/-- The addresses of a region. -/
def Region.extent (r : Region) : Extent := ⟨r.addr, r.length⟩

/-- The addresses of a range that was given back. -/
def FreeRange.extent (r : FreeRange) : Extent := ⟨r.addr, r.length⟩

/-! ## The two tables -/

/-- A range is cut from the front of a row. -/
theorem takeFirst_some {len base : Nat} {rs rs' : List FreeRange}
    (h : takeFirst len rs = some (base, rs')) :
    ∃ size start rest, len ≤ size ∧ (len < size → start = u64 (base + len)) ∧
      (rs.map FreeRange.extent).Perm (⟨base, size⟩ :: rest) ∧
      (rs'.map FreeRange.extent).Perm (⟨start, size - len⟩ :: rest) := by
  induction rs generalizing rs' with
  | nil => cases h
  | cons r rs ih =>
    rw [takeFirst] at h
    split at h
    · next hr =>
      cases h
      by_cases hlen : r.length = len
      · refine ⟨r.length, 0, rs.map FreeRange.extent, hr.1, by omega, .refl _, ?_⟩
        rw [if_pos hlen, hlen, Nat.sub_self]
        exact .refl _
      refine ⟨r.length, u64 (r.addr + len), rs.map FreeRange.extent, hr.1, fun _ => rfl,
        .refl _, ?_⟩
      rw [if_neg hlen]
      exact .refl _
    cases hrest : takeFirst len rs with
    | none => simp [hrest] at h
    | some found =>
      rw [hrest] at h
      cases h
      obtain ⟨size, start, rest, hle, hstart, hbefore, hafter⟩ := ih hrest
      refine ⟨size, start, r.extent :: rest, hle, hstart, ?_, ?_⟩
      · exact (hbefore.cons _).trans (.swap ..)
      · exact (hafter.cons _).trans (.swap ..)

theorem not_long_of_takeFirst {len : Nat} {rs : List FreeRange} (h : takeFirst len rs = none)
    {r : FreeRange} (hr : r ∈ rs) : ¬ (len ≤ r.length ∧ 0 < r.length) := by
  induction rs with
  | nil => cases hr
  | cons t rs ih =>
    rw [takeFirst] at h
    split at h
    · cases h
    · next ht =>
      cases hrest : takeFirst len rs with
      | some found => simp [hrest] at h
      | none =>
        rcases mem_cons.1 hr with rfl | hr
        · exact ht
        · exact ih hrest hr

/-- What is given back is written over an unused row, or forgotten. -/
theorem giveBack_eq_set (addr len : Nat) (rs : List FreeRange) :
    ∃ i, giveBack addr len rs = rs.set i ⟨addr, len⟩ := by
  induction rs with
  | nil => exact ⟨0, rfl⟩
  | cons r rs ih =>
    rw [giveBack]
    split
    · exact ⟨0, rfl⟩
    · obtain ⟨i, hi⟩ := ih
      exact ⟨i + 1, by rw [hi, set_cons_succ]⟩

/-- A region that is unmapped leaves its row. -/
theorem dropRegion_some {addr len : Nat} {rs rs' : List Region}
    (h : dropRegion addr len rs = some rs') :
    ∃ rest, (rs.map Region.extent).Perm (⟨addr, len⟩ :: rest) ∧
      (rs'.map Region.extent).Perm (⟨0, 0⟩ :: rest) := by
  induction rs generalizing rs' with
  | nil => cases h
  | cons r rs ih =>
    rw [dropRegion] at h
    split at h
    · next hr =>
      obtain ⟨-, rfl, rfl⟩ := hr
      cases h
      exact ⟨rs.map Region.extent, .refl _, .refl _⟩
    obtain ⟨rs'', hrest, rfl⟩ := Option.map_eq_some_iff.1 h
    obtain ⟨rest, hbefore, hafter⟩ := ih hrest
    exact ⟨r.extent :: rest, (hbefore.cons _).trans (.swap ..), (hafter.cons _).trans (.swap ..)⟩

/-! ## Sound address spaces -/

namespace Space

/-- The rows of both tables, as ranges of addresses. -/
def extents (p : Space) : List Extent :=
  p.mmapRegions.map Region.extent ++ p.mmapFreeRanges.map FreeRange.extent

/-- The regions and free ranges are pairwise disjoint, lie in the mmap area below
the pointer, and the pointer is in the user half. -/
structure Sound (p : Space) : Prop where
  packed : Packed mmapAreaStart p.nextMmapAddr p.extents
  above : mmapAreaStart ≤ p.nextMmapAddr
  canonical : p.nextMmapAddr ≤ userEnd

/-- A call holds the range it has taken and not yet recorded. -/
structure Reserved (p : Space) (base len : Nat) : Prop extends Sound p where
  held : Packed mmapAreaStart p.nextMmapAddr (⟨base, len⟩ :: p.extents)

/-- There is room for `len` bytes: in a range that was given back, or between the
pointer and the end of the user half. -/
def Fits (p : Space) (len : Nat) : Prop :=
  (∃ r ∈ p.mmapFreeRanges, len ≤ r.length ∧ 0 < r.length) ∨ p.nextMmapAddr + len ≤ userEnd

instance (p : Space) (len : Nat) : Decidable (p.Fits len) :=
  inferInstanceAs (Decidable (_ ∨ _))

theorem Sound.fresh : Space.fresh.Sound := ⟨Packed.of_empty (by decide), Nat.le_refl _, by decide⟩

variable {p p' : Space} {base len : Nat}

theorem Reserved.of_held (rs : List Extent) (hheld : Packed mmapAreaStart p.nextMmapAddr rs)
    (hperm : rs.Perm (⟨base, len⟩ :: p.extents)) (habove : mmapAreaStart ≤ p.nextMmapAddr)
    (hcanonical : p.nextMmapAddr ≤ userEnd) : p.Reserved base len :=
  ⟨⟨(hheld.perm hperm).tail, habove, hcanonical⟩, hheld.perm hperm⟩

/-- `mmap_alloc_va` takes a range that nothing else uses. -/
theorem Sound.mmapAllocVa (hp : p.Sound) (hfits : p.Fits len)
    (h : mmapAllocVa p len = (base, p')) : p'.Reserved base len := by
  unfold Mmap.mmapAllocVa at h
  split at h
  · next base' rs htake =>
    obtain ⟨rfl, rfl⟩ := Prod.mk.inj h
    obtain ⟨size, start, rest, hle, hstart, hbefore, hafter⟩ := takeFirst_some htake
    have hrows : Packed mmapAreaStart p.nextMmapAddr
        (⟨base', len + (size - len)⟩ :: (p.mmapRegions.map Region.extent ++ rest)) := by
      rw [Nat.add_sub_cancel' hle]
      exact hp.packed.perm ((hbefore.append_left _).trans perm_middle)
    have hcut : Packed mmapAreaStart p.nextMmapAddr
        (⟨base', len⟩ :: ⟨start, size - len⟩ :: (p.mmapRegions.map Region.extent ++ rest)) := by
      by_cases hlt : len < size
      · have hin := (hrows.within _ mem_cons_self (by dsimp only; omega)).2
        have hend := hp.canonical
        simp only [userEnd] at hin hend
        have hexact : start = base' + len := by
          rw [hstart hlt]
          exact Nat.mod_eq_of_lt (by omega)
        rw [hexact]
        exact hrows.split
      have hnone : size - len = 0 := by omega
      rw [hnone, Nat.add_zero] at hrows
      rw [hnone]
      exact (hrows.cons_empty start).perm (.swap ..)
    refine .of_held _ hcut (.cons _ ?_) hp.above hp.canonical
    exact perm_middle.symm.trans (hafter.symm.append_left _)
  · next htake =>
    cases h
    have hroom : p.nextMmapAddr + len ≤ userEnd := by
      rcases hfits with ⟨r, hr, hlong⟩ | hroom
      · exact absurd hlong (not_long_of_takeFirst htake hr)
      · exact hroom
    have hnext : u64 (p.nextMmapAddr + len) = p.nextMmapAddr + len :=
      Nat.mod_eq_of_lt (by simp only [userEnd] at hroom; omega)
    have hbump := hp.packed.bump hp.above len
    rw [← hnext] at hbump
    exact .of_held _ hbump (.refl _) (by dsimp only; rw [hnext]; have := hp.above; omega)
      (by dsimp only; omega)

/-- `mmap_free_va` keeps a range that was taken, or forgets it. -/
theorem Reserved.mmapFreeVa (hp : p.Reserved base len) : (mmapFreeVa p base len).Sound := by
  refine ⟨?_, hp.above, hp.canonical⟩
  obtain ⟨i, hi⟩ := giveBack_eq_set base len p.mmapFreeRanges
  have hset : (Mmap.mmapFreeVa p base len).extents =
      p.mmapRegions.map Region.extent ++ (p.mmapFreeRanges.map FreeRange.extent).set i
        ⟨base, len⟩ := by
    rw [extents, Mmap.mmapFreeVa, hi, map_set]
    rfl
  have hheld : Packed mmapAreaStart p.nextMmapAddr
      (p.extents.set ((p.mmapRegions.map Region.extent).length + i) ⟨base, len⟩) := hp.held.set _
  rw [extents, set_append_right _ _ (Nat.le_add_right ..), Nat.add_sub_cancel_left] at hheld
  rw [hset]
  exact hheld

/-- A range that was taken is recorded as a region. -/
theorem Reserved.record (hp : p.Reserved base len) (slot : Nat) (sharedId : Int) :
    (p.record slot base len sharedId).Sound := by
  refine ⟨?_, hp.above, hp.canonical⟩
  have hset : (p.record slot base len sharedId).extents =
      (p.mmapRegions.map Region.extent).set slot ⟨base, len⟩ ++
        p.mmapFreeRanges.map FreeRange.extent := by
    rw [extents, Space.record, map_set]
    rfl
  rw [hset]
  by_cases hslot : slot < (p.mmapRegions.map Region.extent).length
  · rw [← set_append_left _ _ hslot]
    exact hp.held.set slot
  · rw [set_eq_of_length_le (by omega)]
    exact hp.packed

/-- `sys_munmap` moves a region to the free ranges. -/
theorem Sound.sysMunmap (hp : p.Sound) (addr length : Nat) : (sysMunmap p addr length).2.Sound := by
  unfold Mmap.sysMunmap
  split
  · exact hp
  split
  · exact hp
  · next rs hdrop =>
    obtain ⟨rest, hbefore, hafter⟩ := dropRegion_some hdrop
    refine Reserved.mmapFreeVa (.of_held (⟨addr, alignedLen length⟩ ::
      ⟨0, 0⟩ :: (rest ++ p.mmapFreeRanges.map FreeRange.extent)) ?_ ?_ hp.above hp.canonical)
    · exact ((hp.packed.perm (hbefore.append_right _)).cons_empty 0).perm (.swap ..)
    · exact .cons _ (hafter.symm.append_right _)

end Space

/-! ## Runs -/

/-- What can happen to the address space of a process.  A child of `process_fork`
starts with a copy of its parent's. -/
inductive Call
  | mmap (length flags : Nat) (kmallocOk : Bool) (mapped : Nat) (shmId : Int)
  | munmap (addr length : Nat)
  | mmapMmio (physAddr length : Nat) (allowed : Bool) (mapped : Nat)
  | dmaAlloc (numPages : Nat) (permitted : Bool) (physBase mapped : Nat)
  | shmCreate (numPages : Nat) (permitted kmallocOk : Bool) (mapped : Nat) (shmId : Int)
  | shmAttach (shmId : Int) (numPages : Nat) (kmallocOk : Bool) (mapped : Nat)
  | exec

namespace Space

/-- One call. -/
def exec (p : Space) : Call → Space
  | .mmap length flags kmallocOk mapped shmId => (sysMmap p length flags kmallocOk mapped shmId).2
  | .munmap addr length => (Mmap.sysMunmap p addr length).2
  | .mmapMmio physAddr length allowed mapped => (sysMmapMmio p physAddr length allowed mapped).2
  | .dmaAlloc numPages permitted physBase mapped =>
    (sysDmaAlloc p numPages permitted physBase mapped).2
  | .shmCreate numPages permitted kmallocOk mapped shmId =>
    (sysShmCreate p numPages permitted kmallocOk mapped shmId).2
  | .shmAttach shmId numPages kmallocOk mapped =>
    (sysShmAttach p shmId numPages kmallocOk mapped).2
  | .exec => fresh

/-- The checks of a call that takes addresses: the row and the length. -/
def checks (p : Space) : Call → Except Nat (Nat × Nat)
  | .mmap length flags _ _ _ => mmapChecks p length flags
  | .mmapMmio physAddr length allowed _ => mmapMmioChecks p physAddr length allowed
  | .dmaAlloc numPages permitted physBase _ => dmaAllocChecks p numPages permitted physBase
  | .shmCreate numPages permitted kmallocOk _ _ => shmCreateChecks p numPages permitted kmallocOk
  | .shmAttach _ numPages kmallocOk _ => shmAttachChecks p numPages kmallocOk
  | .munmap .. => .error 0
  | .exec => .error 0

/-- A call that comes as far as taking addresses finds room for them. -/
def HasRoom (p : Space) (c : Call) : Prop :=
  match p.checks c with
  | .error _ => True
  | .ok (_, len) => p.Fits len

instance (p : Space) (c : Call) : Decidable (p.HasRoom c) := by
  unfold HasRoom
  split <;> infer_instance

variable {p : Space}

/-- **One call.**  A call that has room keeps the address space sound, whether it
succeeds or fails. -/
theorem Sound.exec (hp : p.Sound) {c : Call} (hroom : p.HasRoom c) : (p.exec c).Sound := by
  cases c with
  | munmap addr length => exact hp.sysMunmap addr length
  | exec => exact .fresh
  -- the others end with the range kept, given back or recorded
  | _ =>
    simp only [Space.exec, sysMmap, sysMmapMmio, sysDmaAlloc, sysShmCreate, sysShmAttach]
    split
    · exact hp
    · next hchecks =>
      simp only [HasRoom, checks, hchecks] at hroom
      have hres := hp.mmapAllocVa hroom rfl
      split_ifs
      all_goals first | exact hres.toSound | exact hres.mmapFreeVa | exact hres.record ..

/-- **Regions stay apart.**  In every run of calls that find room, succeeding or
failing, the address space is sound. -/
theorem sound_of_run {calls : List Call} (hcalls : Run.Meets exec HasRoom fresh calls) :
    (Run.run exec fresh calls).Sound :=
  hcalls.invariant (fun _ _ hp hroom => hp.exec hroom) .fresh

/-- Two regions, the first of which goes and comes back. -/
theorem sound_of_run_twoRegions :
    Run.Meets exec HasRoom fresh
        [.mmap 5000 0x20 true 2 (-1), .shmCreate 3 true true 3 0, .munmap 0x600000000000 8192,
          .dmaAlloc 1 true 0x200000 1] ∧
      (Run.run exec fresh
        [.mmap 5000 0x20 true 2 (-1), .shmCreate 3 true true 3 0, .munmap 0x600000000000 8192,
          .dmaAlloc 1 true 0x200000 1]).Sound :=
  ⟨by decide, sound_of_run (by decide)⟩

/-- `sys_mmap` of 64 TiB fails when the memory runs out, but has already moved the
pointer out of the user half. -/
theorem not_sound_hugeMmap :
    ¬ (Run.run exec fresh [.mmap 0x400000000000 0x20 true 30000 (-1)]).Sound := by
  intro h
  have hnext : (Run.run exec fresh [.mmap 0x400000000000 0x20 true 30000 (-1)]).nextMmapAddr =
      0xa00000000000 := by decide
  have hle := h.canonical
  rw [hnext] at hle
  exact absurd hle (by decide)

end Space

end Mmap
