import LufiraOS.Pages.Core

/-!
# The map of the memory at boot

The legacy loader turns the entries of the BIOS into descriptors (`convert_e820`), the UEFI
loader hands its descriptors over as they are, and `pmm_init` clears the bit of every page
that a usable descriptor covers after its start was rounded down.  It never looks at
the other descriptors, and the ranges it takes back are rounded by their size only.
-/

namespace Pmm

open List

open ByteStore

/-- `E820Entry`, the fields that are read. -/
structure E820 where
  base : Nat
  length : Nat
  type : Nat
  deriving DecidableEq, Repr

/-- One turn of `convert_e820`. -/
def E820.descriptor (e : E820) : Option Descriptor :=
  if e.length = 0 then none
  else if e.length / 4096 = 0 then none
  else some ⟨if e.type = 1 then efiConventionalMemory else 0, e.base, e.length / 4096⟩

/-- `convert_e820`: at most 256 descriptors. -/
def convertE820 (src : List E820) : List Descriptor := (src.filterMap E820.descriptor).take 256

/-- What the firmware says about a range of bytes. -/
structure Region where
  usable : Bool
  base : Nat
  length : Nat
  deriving DecidableEq, Repr

/-- The byte `a` belongs to the region. -/
def Region.Has (r : Region) (a : Nat) : Prop := r.base ≤ a ∧ a < r.base + r.length

/-- The two ways to boot. -/
inductive Source where
  | e820 (entries : List E820)
  | uefi (map : List Descriptor)

namespace Source

/-- The map that `pmm_init` gets. -/
def map : Source → List Descriptor
  | .e820 entries => convertE820 entries
  | .uefi map => map

/-- The map as the firmware gave it. -/
def regions : Source → List Region
  | .e820 entries => entries.map fun e => ⟨e.type = 1, e.base, e.length⟩
  | .uefi map =>
    map.map fun d => ⟨d.type = efiConventionalMemory, d.physicalStart, d.numberOfPages * 4096⟩

end Source

/-- The arguments of `pmm_init`. -/
structure Boot where
  source : Source
  kernelBase : Nat
  kernelSize : Nat
  reservedBase : Nat
  reservedSize : Nat

namespace Boot

variable (b : Boot)

/-- The usable descriptors. -/
def usable : List Descriptor :=
  b.source.map.filter fun d => d.type = efiConventionalMemory

/-- `total_pages`. -/
def totalPages : Nat := pagesOf b.usable

/-- `bitmap_size`. -/
def bitmapSize : Nat := (b.totalPages + 7) / 8

/-- Where the bitmap goes. -/
def place : Option (Nat × Nat) :=
  bitmapPlace b.usable b.bitmapSize b.kernelBase
    ((b.kernelBase + b.kernelSize) % 18446744073709551616)

/-- `bitmap_phys`, or `0` if `pmm_init` halts. -/
def bitmapPhys : Nat := (b.place.map Prod.snd).getD 0

/-- The pages taken for the kernel. -/
def kernelPages : Nat := (b.kernelSize + 4095) % 18446744073709551616 / 4096

/-- The pages taken for the bitmap. -/
def bitmapPages : Nat := (b.bitmapSize + 4095) / 4096

/-- The pages taken for the reserved range. -/
def reservedPages : Nat :=
  if b.reservedBase ≠ 0 ∧ b.reservedSize ≠ 0 then
    (b.reservedSize + 4095) % 18446744073709551616 / 4096
  else 0

/-- The page is one of the `pages` pages from that of `base` on. -/
def InPages (base pages p : Nat) : Prop := base / 4096 ≤ p ∧ p < base / 4096 + pages

/-- The page is taken back after the usable descriptors gave it away. -/
def Held (p : Nat) : Prop :=
  p < 512 ∨ InPages b.bitmapPhys b.bitmapPages p ∨ InPages b.kernelBase b.kernelPages p ∨
    InPages b.reservedBase b.reservedPages p

/-- A usable descriptor, rounded down, has the page, and nothing takes it back. -/
def Offered (p : Nat) : Prop :=
  p < b.totalPages ∧ ¬ b.Held p ∧
    ∃ d ∈ b.usable, InPages d.physicalStart d.numberOfPages p

/-- The byte `a` lies in the page. -/
def InPage (p a : Nat) : Prop := p * 4096 ≤ a ∧ a < (p + 1) * 4096

/-- Every byte of the page is in a usable region. -/
def Covered (p : Nat) : Prop :=
  ∀ a, InPage p a → ∃ r ∈ b.source.regions, r.usable = true ∧ r.Has a

/-- **A map is respected**: every page whose bit is clear is page 512 or above, lies in
usable memory and shares no byte with the kernel, the bitmap or another region. -/
def Respected (s : State) : Prop :=
  ∀ p < s.totalPages, s.test p = false →
    512 ≤ p ∧ b.Covered p ∧ ∀ a, InPage p a →
      ¬ (b.kernelBase ≤ a ∧ a < b.kernelBase + b.kernelSize) ∧
      ¬ (b.bitmapPhys ≤ a ∧ a < b.bitmapPhys + b.bitmapSize) ∧
      ∀ r ∈ b.source.regions, r.usable = false → ¬ r.Has a

/-- The page begins behind the pages taken for a range and before the end of the range. -/
def Spills (base size pages p : Nat) : Prop :=
  base / 4096 + pages ≤ p ∧ p * 4096 < base + size ∧ 0 < size

/-- **The condition on the map**: no page is given away that begins before an unaligned
usable descriptor, that an unaligned kernel or bitmap spills into, or that an unusable
region reaches into. -/
structure Tidy (b : Boot) : Prop where
  start : ∀ d ∈ b.usable, d.physicalStart % 4096 ≠ 0 → b.Offered (d.physicalStart / 4096) →
    b.Covered (d.physicalStart / 4096)
  kernel : ∀ p, Spills b.kernelBase b.kernelSize b.kernelPages p → ¬ b.Offered p
  bitmap : ∀ p, Spills b.bitmapPhys b.bitmapSize b.bitmapPages p → ¬ b.Offered p
  apart : ∀ r ∈ b.source.regions, r.usable = false → ∀ p a, InPage p a → r.Has a → ¬ b.Offered p

/-- `pmm_init` on the map of the firmware, on memory with the bytes `m`. -/
def init (m : Bytes) : Option State :=
  pmmInit b.source.map b.kernelBase b.kernelSize b.reservedBase b.reservedSize m

/-! ## The bits after `pmm_init` -/

theorem bitAt_clearAll (ds : List Descriptor) (m : Bytes) (p : Nat) :
    bitAt (ds.foldl (fun m d => setRange false (d.physicalStart / 4096) d.numberOfPages m) m) 0 p =
        true ↔
      bitAt m 0 p = true ∧ ¬ ∃ d ∈ ds, InPages d.physicalStart d.numberOfPages p := by
  induction ds generalizing m with
  | nil => simp
  | cons d ds ih =>
    rw [foldl_cons, ih, bitAt_setRange]
    by_cases hd : d.physicalStart / 4096 ≤ p ∧ p < d.physicalStart / 4096 + d.numberOfPages
    · simp [hd, InPages]
    rw [if_neg hd]
    simp only [mem_cons, exists_eq_or_imp]
    exact and_congr_right fun _ => not_congr ⟨.inr, fun h => h.resolve_left hd⟩

theorem bitAt_takeBack (page n : Nat) (m : Bytes) (p : Nat) :
    bitAt (setRange true page n m) 0 p = true ↔ (page ≤ p ∧ p < page + n) ∨ bitAt m 0 p = true := by
  rw [bitAt_setRange]
  split
  · next h => simp [h]
  · next h => simp [h]

/-- The reserved range is taken back if there is one. -/
theorem bitAt_reserve (m : Bytes) (p : Nat) :
    bitAt (if b.reservedBase ≠ 0 ∧ b.reservedSize ≠ 0 then
        setRange true (b.reservedBase / 4096)
          ((b.reservedSize + 4095) % 18446744073709551616 / 4096) m
      else m) 0 p = true ↔
      InPages b.reservedBase b.reservedPages p ∨ bitAt m 0 p = true := by
  unfold reservedPages
  split
  · rw [bitAt_takeBack]
    rfl
  refine ⟨.inr, fun h => h.resolve_left fun hin => ?_⟩
  have hlt := hin.2
  have hle := hin.1
  omega

/-- **The bits that are clear** are those of the pages offered. -/
theorem test_init {b : Boot} {m : Bytes} {s : State} (h : b.init m = some s) :
    s.totalPages = b.totalPages ∧ ∀ p < b.totalPages, (s.test p = false ↔ b.Offered p) := by
  unfold Boot.init pmmInit at h
  dsimp only at h
  split at h
  · cases h
  · next start phys hplace =>
    have hphys : b.bitmapPhys = phys := by rw [bitmapPhys, show b.place = _ from hplace]; rfl
    cases h
    refine ⟨rfl, fun p hp => ?_⟩
    rw [← not_iff_not, Bool.not_eq_false]
    have hp' : p < pagesOf (b.source.map.filter fun d => d.type = efiConventionalMemory) := hp
    simp only [State.test, bitAt_reserve, bitAt_takeBack, bitAt_clearAll, Nat.zero_le, Nat.zero_add,
      hp', true_and, true_or]
    unfold Offered Held
    rw [hphys]
    simp only [InPages, bitmapPages, bitmapSize, totalPages, usable, kernelPages, hp', true_and]
    by_cases hd : ∃ d ∈ b.source.map.filter (fun d => d.type = efiConventionalMemory),
        d.physicalStart / 4096 ≤ p ∧ p < d.physicalStart / 4096 + d.numberOfPages
    · simp only [hd, not_true_eq_false, or_false, and_true, not_not]
      omega
    · simp only [hd, not_false_eq_true, or_true, and_false]

/-! ## When the map is respected -/

/-- A usable descriptor stands for a usable region that is at least as long. -/
theorem exists_region {b : Boot} {d : Descriptor} (hd : d ∈ b.usable) :
    ∃ r ∈ b.source.regions, r.usable = true ∧ r.base = d.physicalStart ∧
      d.numberOfPages * 4096 ≤ r.length := by
  obtain ⟨hmem, htype⟩ := mem_filter.1 hd
  rw [decide_eq_true_eq] at htype
  cases hs : b.source with
  | uefi map =>
    rw [hs] at hmem
    exact ⟨_, mem_map.2 ⟨d, hmem, rfl⟩, decide_eq_true htype, rfl, Nat.le_refl _⟩
  | e820 entries =>
    rw [hs] at hmem
    obtain ⟨e, he, hdesc⟩ := mem_filterMap.1 (mem_of_mem_take hmem)
    refine ⟨_, mem_map.2 ⟨e, he, rfl⟩, ?_⟩
    unfold E820.descriptor at hdesc
    split at hdesc
    · cases hdesc
    split at hdesc
    · cases hdesc
    cases hdesc
    refine ⟨decide_eq_true ?_, rfl, Nat.div_mul_le_self ..⟩
    by_contra hne
    simp only [if_neg hne] at htype
    exact absurd htype (by decide)

/-- Only the first page of a descriptor can reach out of its region. -/
theorem covered_of_inPages {b : Boot} {d : Descriptor} {p : Nat} (hd : d ∈ b.usable)
    (hp : InPages d.physicalStart d.numberOfPages p)
    (hin : d.physicalStart % 4096 = 0 ∨ p ≠ d.physicalStart / 4096) : b.Covered p := by
  obtain ⟨r, hr, husable, hbase, hlength⟩ := exists_region hd
  intro a ha
  refine ⟨r, hr, husable, ?_⟩
  simp only [InPages, InPage, Region.Has] at *
  omega

/-- A page outside of the pages taken that shares a byte with the range. -/
theorem spills_of_shared {base size pages p a : Nat} (hp : ¬ InPages base pages p) (ha : InPage p a)
    (hlo : base ≤ a) (hhi : a < base + size) : Spills base size pages p := by
  simp only [InPages, InPage, Spills] at *
  omega

/-- A page that a range spills into shares a byte with the range. -/
theorem shared_of_spills {base size pages p : Nat} (h : Spills base size pages p) :
    ∃ a, InPage p a ∧ base ≤ a ∧ a < base + size := by
  simp only [InPage, Spills] at *
  by_cases hle : base ≤ p * 4096
  · exact ⟨p * 4096, by omega, hle, h.2.1⟩
  · exact ⟨base, by omega, Nat.le_refl _, by omega⟩

/-- **The map is respected exactly when it is tidy.** -/
theorem respected_iff_tidy {b : Boot} {m : Bytes} {s : State} (h : b.init m = some s) :
    b.Respected s ↔ b.Tidy := by
  obtain ⟨htotal, hclear⟩ := test_init h
  have hoffered : ∀ {p}, b.Offered p → p < s.totalPages ∧ s.test p = false :=
    fun hp => ⟨htotal ▸ hp.1, (hclear _ hp.1).2 hp⟩
  constructor
  · intro hr
    refine ⟨fun d hd _ hp => ?_, fun p hspill hp => ?_, fun p hspill hp => ?_,
      fun r hmem hu p a ha hhas hp => ?_⟩
    · exact (hr _ (hoffered hp).1 (hoffered hp).2).2.1
    · obtain ⟨a, ha, hin⟩ := shared_of_spills hspill
      exact ((hr p (hoffered hp).1 (hoffered hp).2).2.2 a ha).1 hin
    · obtain ⟨a, ha, hin⟩ := shared_of_spills hspill
      exact ((hr p (hoffered hp).1 (hoffered hp).2).2.2 a ha).2.1 hin
    · exact ((hr p (hoffered hp).1 (hoffered hp).2).2.2 a ha).2.2 r hmem hu hhas
  intro ht p hp htest
  have hoff : b.Offered p := (hclear p (htotal ▸ hp)).1 htest
  have hheld := hoff.2.1
  simp only [Held, not_or] at hheld
  obtain ⟨d, hd, hin⟩ := hoff.2.2
  refine ⟨by omega, ?_, fun a ha => ⟨fun hk => ?_, fun hb => ?_, fun r hmem hu hhas => ?_⟩⟩
  · by_cases hfirst : d.physicalStart % 4096 = 0 ∨ p ≠ d.physicalStart / 4096
    · exact covered_of_inPages hd hin hfirst
    obtain ⟨hne, heq⟩ := not_or.1 hfirst
    rw [not_not] at heq
    rw [heq] at hoff ⊢
    exact ht.start d hd hne hoff
  · exact ht.kernel p (spills_of_shared hheld.2.2.1 ha hk.1 hk.2) hoff
  · exact ht.bitmap p (spills_of_shared hheld.2.1 ha hb.1 hb.2) hoff
  · exact ht.apart r hmem hu p a ha hhas hoff

/-- Two usable ranges, the kernel below 2 MiB between them. -/
def plainMap : Boot :=
  ⟨.e820 [⟨0, 0x80000, 1⟩, ⟨0x100000, 0x10000, 2⟩, ⟨0x200000, 0x4000, 1⟩], 0x100000, 0x8000, 0, 0⟩

/-- The same with a reserved page in the middle of the upper range. -/
def overlappedMap : Boot :=
  { plainMap with source := .e820 [⟨0, 0x80000, 1⟩, ⟨0x200000, 0x4000, 1⟩, ⟨0x201000, 0x1000, 2⟩] }

theorem init_isSome {b : Boot} {m : Bytes} (h : b.place.isSome = true) :
    (b.init m).isSome = true := by
  unfold Boot.init pmmInit
  dsimp only
  split
  · next hnone =>
    rw [show b.place = _ from hnone] at h
    exact h
  · rfl

theorem tidy_plainMap : plainMap.Tidy where
  start d hd hne _ := by
    have husable : plainMap.usable = [⟨7, 0, 128⟩, ⟨7, 0x200000, 4⟩] := rfl
    rw [husable] at hd
    simp only [mem_cons, not_mem_nil, or_false] at hd
    rcases hd with rfl | rfl <;> exact absurd rfl hne
  kernel p hspill := by
    change Spills 0x100000 0x8000 8 p at hspill
    unfold Spills at hspill
    omega
  bitmap p hspill := by
    change Spills 0 65 1 p at hspill
    unfold Spills at hspill
    omega
  apart r hr hu p a ha hhas hp := by
    have hregions : plainMap.source.regions =
        [⟨true, 0, 0x80000⟩, ⟨false, 0x100000, 0x10000⟩, ⟨true, 0x200000, 0x4000⟩] := rfl
    rw [hregions] at hr
    simp only [mem_cons, not_mem_nil, or_false] at hr
    have hheld := hp.2.1
    simp only [Held, not_or, Nat.not_lt] at hheld
    rcases hr with rfl | rfl | rfl
    · cases hu
    · simp only [InPage, Region.Has] at ha hhas
      omega
    · cases hu

/-- The first map is respected. -/
theorem respected_plainMap : ∃ s, plainMap.init zeros = some s ∧ plainMap.Respected s := by
  obtain ⟨s, hs⟩ := Option.isSome_iff_exists.1 (init_isSome (b := plainMap) (m := zeros) rfl)
  exact ⟨s, hs, (respected_iff_tidy hs).2 tidy_plainMap⟩

/-- **A reserved entry inside a usable one is given away**: page 513 is free. -/
theorem not_respected_overlappedMap :
    ∃ s, overlappedMap.init zeros = some s ∧ s.test 513 = false ∧ ¬ overlappedMap.Respected s := by
  obtain ⟨s, hs⟩ := Option.isSome_iff_exists.1 (init_isSome (b := overlappedMap) (m := zeros) rfl)
  obtain ⟨htotal, hclear⟩ := test_init hs
  have hpages : overlappedMap.totalPages = 516 := rfl
  have hoffered : overlappedMap.Offered 513 := by
    refine ⟨by rw [hpages]; decide, ?_, ⟨7, 0x200000, 4⟩, ?_, by decide, by decide⟩
    · change ¬ (513 < 512 ∨ InPages 0 1 513 ∨ InPages 0x100000 8 513 ∨ InPages 0 0 513)
      unfold InPages
      omega
    · have husable : overlappedMap.usable = [⟨7, 0, 128⟩, ⟨7, 0x200000, 4⟩] := rfl
      simp [husable]
  have htest := (hclear 513 (by rw [hpages]; decide)).2 hoffered
  refine ⟨s, hs, htest, fun hr => ?_⟩
  have hapart := ((hr 513 (by rw [htotal, hpages]; decide) htest).2.2 0x201000
      (by unfold InPage; decide)).2.2
    ⟨false, 0x201000, 0x1000⟩ (by decide) rfl
  exact hapart ⟨by decide, by decide⟩

end Boot

end Pmm
