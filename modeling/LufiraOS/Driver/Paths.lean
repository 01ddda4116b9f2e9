import LufiraOS.Driver.Names

/-!
# Operations on paths

The path-level operations of `kernel/fs/lufirafs/lufirafs_vfs.c`.  A path is
resolved from the inode of a base directory; the operation is then carried out
in the parent directory, and the metadata is written back when it succeeds.
Resolving a path changes nothing but the environment.
-/

namespace LufiraFs

open ByteStore

namespace Mount

/-! ## The operations -/

/-- The common part of `vfs_lufirafs_create_at` and `vfs_lufirafs_mkdir_at`. -/
def makeAt (fs : Mount) (base : Nat) (path : CStr) (mode uid gid perm : UInt32) : Int × Mount :=
  match fs.resolveParent base path with
  | (none, fs) => (-1, fs)
  | (some (parent, name), fs) =>
    match fs.create parent name mode uid gid perm with
    | (.error code, fs) => (code, fs)
    | (.ok _, fs) => (0, fs.sync)

/-- `vfs_lufirafs_create_at`, for a process with the given owner ids. -/
def createAt (fs : Mount) (base : Nat) (path : CStr) (uid gid : UInt32) : Int × Mount :=
  if path = [] then (-1, fs)
  else fs.makeAt base path modeFile uid gid defaultFilePerm

/-- `vfs_lufirafs_mkdir_at`. -/
def mkdirAt (fs : Mount) (base : Nat) (path : CStr) (uid gid : UInt32) : Int × Mount :=
  if path = [] then (-1, fs)
  else if path = [slash] then (-2, fs)
  else fs.makeAt base path modeDir uid gid defaultDirPerm

/-- `vfs_lufirafs_unlink_at`. -/
def unlinkAt (fs : Mount) (base : Nat) (path : CStr) : Int × Mount :=
  if path = [] then (-1, fs)
  else if path = [slash] then (-2, fs)
  else
    match fs.resolveParent base path with
    | (none, fs) => (-1, fs)
    | (some (parent, name), fs) =>
      match fs.unlink parent name with
      | (res, fs) => (res, if res = 0 then fs.sync else fs)

/-! ## Resolving -/

section

variable {fs : Mount}

theorem lookupComponents_uses (fs : Mount) (names : List CStr) (cur : Nat) :
    Uses fs (lookupComponents names cur fs).2 := by
  induction names generalizing cur fs with
  | nil => exact .refl fs
  | cons name rest ih =>
    have hlook := fs.lookupInDir_uses cur name
    unfold lookupComponents
    split
    · next heq => exact hlook.ofEq heq
    · next heq => exact (hlook.ofEq heq).trans (ih _ _)

theorem lookup_uses (fs : Mount) (start : Nat) (path : CStr) :
    Uses fs (fs.lookup start path).2 := by
  unfold lookup
  split <;> exact lookupComponents_uses _ _ _

theorem lookupComponents_allOk (h : fs.Ready) (henv : fs.env = Env.allOk) (names : List CStr)
    (cur : Nat) : (lookupComponents names cur fs).1 = fs.vol.walk names cur := by
  induction names generalizing cur with
  | nil => rfl
  | cons name rest ih =>
    obtain ⟨res, e, hlook, hleads, hres⟩ := lookupInDir_eq h cur name
    rw [withEnv_of_allOk henv hleads] at hlook
    rw [lookupComponents, hlook, Vol.walk, ← hres henv]
    cases res with
    | none => rfl
    | some next => exact ih next

/-- `lufirafs_lookup`. -/
theorem lookup_eq (h : fs.Ready) (start : Nat) (path : CStr) :
    ∃ res e, fs.lookup start path = (res, fs.withEnv e) ∧ fs.env.Leads e ∧
      (fs.env = Env.allOk → res = fs.vol.lookup start path) := by
  obtain ⟨res, e, hlook, hleads⟩ := (fs.lookup_uses start path).pair
  refine ⟨res, e, hlook, hleads, fun henv => ?_⟩
  rw [show res = (fs.lookup start path).1 by rw [hlook]]
  unfold lookup Vol.lookup
  split <;> exact lookupComponents_allOk h henv _ _

/-- `lufirafs_resolve_parent`; the name it delivers fits into an entry. -/
theorem resolveParent_eq (h : fs.Ready) (start : Nat) (path : CStr) :
    ∃ res e, fs.resolveParent start path = (res, fs.withEnv e) ∧ fs.env.Leads e ∧
      ∀ parent name, res = some (parent, name) → name.length ≤ 59 := by
  unfold resolveParent
  have hfail : ∃ res e, ((none : Option (Nat × CStr)), fs) = (res, fs.withEnv e) ∧
      fs.env.Leads e ∧ ∀ parent name, res = some (parent, name) → name.length ≤ 59 :=
    ⟨none, fs.env, rfl, .refl _, by simp⟩
  by_cases hempty : path = []
  · simpa only [hempty, if_true] using hfail
  simp only [hempty, if_false]
  generalize trimSlashes path = p
  by_cases hplain : (lastComponent p).length = p.length
  · by_cases hlong : 59 < p.length
    · simpa only [hplain, hlong, if_true] using hfail
    refine ⟨_, fs.env, by simp only [hplain, hlong, if_true, if_false]; rfl, .refl _, ?_⟩
    rintro parent name ⟨rfl, rfl⟩
    omega
  by_cases hname : (lastComponent p).length = 0 ∨ 59 < (lastComponent p).length
  · simpa only [hplain, hname, if_true, if_false] using hfail
  have hfits : (lastComponent p).length ≤ 59 := by omega
  simp only [hplain, hname, if_false]
  split
  · refine ⟨_, fs.env, rfl, .refl _, ?_⟩
    rintro parent name ⟨rfl, rfl⟩
    exact hfits
  split
  · exact hfail
  obtain ⟨res, e, hlook, hleads, _⟩ := lookup_eq h start
    (p.take (p.length - (lastComponent p).length - 1))
  simp only [hlook]
  cases res with
  | none => exact ⟨none, e, rfl, hleads, by simp⟩
  | some parent =>
    refine ⟨_, e, rfl, hleads, ?_⟩
    rintro parent' name ⟨rfl, rfl⟩
    exact hfits

/-! ## Memory -/

/-- Every coming `kmalloc` succeeds. -/
def HeapOk (fs : Mount) : Prop := ∀ n, fs.env.heap n = true

theorem HeapOk.kmalloc (h : fs.HeapOk) : fs.kmalloc = (true, fs) := by
  have henv : { fs.env with heap := fun n => fs.env.heap (n + 1) } = fs.env := by
    have hheap : (fun n => fs.env.heap (n + 1)) = fs.env.heap := by
      funext n
      rw [h, h]
    rw [hheap]
  rw [Mount.kmalloc, h 0, henv]

theorem HeapOk.uses {fs' : Mount} (h : fs.HeapOk) (huses : Uses fs fs') : fs'.HeapOk := by
  obtain ⟨e, rfl, a, b, c, rfl⟩ := huses
  exact fun n => h (n + a)

/-- Looking up a path takes memory, and gives it back. -/
theorem HeapOk.lookup (h : fs.HeapOk) (start : Nat) (path : CStr) :
    (fs.lookup start path).2.HeapOk :=
  h.uses (fs.lookup_uses start path)

/-! ## Write-back -/

theorem syncLoop_becomes (h : fs.Ready) (b n : Nat) (hn : b + n ≤ fs.dataStart) :
    Becomes fs (syncLoop b n fs) fs.sb fs.vol := by
  induction n generalizing b fs with
  | zero => exact .refl h
  | succ n ih =>
    rw [syncLoop]
    split
    · have hroom := h.laid.room
      have hfits := h.fits
      have hlba : fs.lbaOf b = fs.lbaOffset.toNat + b * 16 :=
        lba_eq hfits (show b < fs.sb.totalBlocks.toNat by unfold dataStart at hn; omega)
      have hused : fs.env.Leads { fs.env with wr := fun n => fs.env.wr (n + 1) } := ⟨0, 0, 1, rfl⟩
      have hwrite : fs.diskWriteSectors (fs.lbaOf b) 16 (window fs.image (b * 8192) 8192) =
          (true, { fs with
            disk := copyIn fs.disk (fs.lbaOf b * 512) (16 * 512) (window fs.image (b * 8192) 8192)
            env := { fs.env with wr := fun n => fs.env.wr (n + 1) } }) := by
        rw [diskWriteSectors, h.io.wr 0]
        rfl
      simp only [hwrite, if_true]
      -- the block lies in front of the data area
      have hvol : volOf fs.sb fs.image (copyIn fs.disk (fs.lbaOf b * 512) (16 * 512)
          (window fs.image (b * 8192) 8192)) fs.lbaOffset.toNat = fs.vol := by
        apply volOf_disk_congr hfits
        intro a hlo _
        apply copyIn_outside
        rw [hlba]
        unfold dataStart at hn
        omega
      have hone : Becomes fs { fs with
          disk := copyIn fs.disk (fs.lbaOf b * 512) (16 * 512) (window fs.image (b * 8192) 8192)
          env := { fs.env with wr := fun n => fs.env.wr (n + 1) }
          dirty := Function.update fs.dirty b false } fs.sb fs.vol :=
        ⟨⟨h.1, h.2, h.3, h.4, hused.ioOk h.io⟩, hused, rfl, hvol⟩
      have hrest := hone.trans (ih hone.ready (b + 1) (by
        show b + 1 + n ≤ fs.dataStart
        omega))
      rw [hone.vol] at hrest
      exact hrest
    · exact ih h (b + 1) (by omega)

/-- **`lufirafs_sync`** does not change the volume. -/
theorem sync_becomes (h : fs.Ready) : Becomes fs fs.sync fs.sb fs.vol :=
  syncLoop_becomes h 0 _ (by omega)

end

end Mount

end LufiraFs
