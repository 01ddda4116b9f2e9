import LufiraOS.Lib.Run
import Mathlib

/-!
# Descriptors on a FAT file

Every descriptor that `vfs_fat_open` of `fat_mount.c` makes has its own copy of the whole
file.  A write changes the copy and puts the copy on the volume as a unit.  The
abstract model is one array that all descriptors share; the code refines it as
long as no descriptor is used after its copy went out of date.
-/

namespace FatMount

open List

/-- The open flags that `vfs_fat_open` tests. -/
structure OpenFlags where
  creat : Bool
  trunc : Bool
  append : Bool
  deriving DecidableEq, Repr

/-- `whence` of a seek. -/
inductive Whence where
  | set
  | cur
  | fromEnd
  deriving DecidableEq, Repr

/-- The calls on one path; `fresh` holds what `kmalloc` leaves in a new block. -/
inductive Call where
  | openFd (fd : Nat) (flags : OpenFlags)
  | read (fd count : Nat)
  | write (fd : Nat) (data : List UInt8) (fresh : Nat → UInt8)
  | seek (fd offset : Nat) (whence : Whence)
  | close (fd : Nat)

/-- `file_t` with its `fat_file_private_t`; the capacity is the length of `buf`. -/
structure Desc where
  buf : List UInt8
  size : Nat
  offset : Nat
  append : Bool
  deriving DecidableEq, Repr

/-- The file on the volume, the open descriptors and what the reads returned. -/
structure Mount where
  file : Option (List UInt8)
  descs : Nat → Option Desc
  log : List (List UInt8)

/-- `memcpy` into a block; what goes past its end is lost for the block. -/
def overlay (block : List UInt8) (off : Nat) (data : List UInt8) : List UInt8 :=
  (block.take off ++ data ++ block.drop (off + data.length)).take block.length

/-- The 32-bit sum of `fat_mount.c`. -/
def add32 (a b : Nat) : Nat := (a + b) % 2 ^ 32

namespace Desc

/-- The bytes of the file as the descriptor knows them. -/
def copy (d : Desc) : List UInt8 := d.buf.take d.size

/-- Where a write goes. -/
def writeOffset (d : Desc) : Nat := if d.append then d.size else d.offset

/-- The block after it had to grow to `cap`. -/
def grow (d : Desc) (cap : Nat) (fresh : Nat → UInt8) : List UInt8 :=
  if cap > d.buf.length then overlay ((List.range cap).map fresh) 0 d.copy else d.buf

/-- The copy after `fat_vfs_file_write`. -/
def written (d : Desc) (data : List UInt8) (fresh : Nat → UInt8) : Desc :=
  let stop := add32 d.writeOffset data.length
  { d with
    buf := overlay (d.grow stop fresh) d.writeOffset data
    size := max d.size stop
    offset := stop }

/-- `fat_vfs_file_seek`. -/
def sought (d : Desc) (offset : Nat) : Whence → Desc
  | .set => { d with offset := offset % 2 ^ 32 }
  | .cur => { d with offset := add32 d.offset offset }
  | .fromEnd => { d with offset := add32 d.size offset }

/-- The descriptor that `vfs_fat_open` makes for a file with the bytes `content`. -/
def opened (content : List UInt8) (flags : OpenFlags) : Desc :=
  if flags.trunc then ⟨[], 0, 0, flags.append⟩
  else ⟨content, content.length, if flags.append then content.length else 0, flags.append⟩

end Desc

namespace Mount

/-- A descriptor is set or cleared. -/
def put (m : Mount) (fd : Nat) (d : Option Desc) : Mount :=
  { m with descs := fun i => if i = fd then d else m.descs i }

/-- `vfs_fat_open`. -/
def vfsFatOpen (m : Mount) (fd : Nat) (flags : OpenFlags) : Mount :=
  match m.descs fd, m.file with
  | some _, _ => m
  | none, some content => m.put fd (some (Desc.opened content flags))
  | none, none =>
    if flags.creat then { m with file := some [] }.put fd (some (Desc.opened [] flags)) else m

/-- `fat_vfs_file_read`. -/
def read (m : Mount) (fd count : Nat) : Mount :=
  match m.descs fd with
  | none => m
  | some d =>
    let bytes := (d.copy.drop d.offset).take count
    { m.put fd (some { d with offset := d.offset + bytes.length }) with log := m.log ++ [bytes] }

/-- `fat_vfs_file_write`; `fat_write_file` refuses a null buffer. -/
def write (m : Mount) (fd : Nat) (data : List UInt8) (fresh : Nat → UInt8) : Mount :=
  match m.descs fd with
  | none => m
  | some d =>
    let d' := d.written data fresh
    { m.put fd (some d') with file := if d'.buf = [] then m.file else some d'.copy }

/-- One call. -/
def step (m : Mount) : Call → Mount
  | .openFd fd flags => m.vfsFatOpen fd flags
  | .read fd count => m.read fd count
  | .write fd data fresh => m.write fd data fresh
  | .seek fd offset whence =>
    match m.descs fd with
    | none => m
    | some d => m.put fd (some (d.sought offset whence))
  | .close fd => m.put fd none

end Mount

/-! ## The shared array -/

/-- A descriptor without a copy. -/
structure Cursor where
  pos : Nat
  append : Bool
  deriving DecidableEq, Repr

/-- The array, the cursors and what the reads return. -/
structure Shared where
  file : Option (List UInt8)
  cursors : Nat → Option Cursor
  log : List (List UInt8)

/-- A write at `off`, with zeros in the gap. -/
def writeAt (a : List UInt8) (off : Nat) (data : List UInt8) : List UInt8 :=
  if data = [] then a
  else a.take off ++ List.replicate (off - a.length) 0 ++ data ++ a.drop (off + data.length)

namespace Shared

/-- The bytes of the array. -/
def array (s : Shared) : List UInt8 := s.file.getD []

/-- A cursor is set or cleared. -/
def put (s : Shared) (fd : Nat) (c : Option Cursor) : Shared :=
  { s with cursors := fun i => if i = fd then c else s.cursors i }

/-- The file is opened: a truncation empties the array. -/
def openFd (s : Shared) (fd : Nat) (flags : OpenFlags) : Shared :=
  if (s.cursors fd).isSome || (s.file.isNone && !flags.creat) then s
  else
    let a := if flags.trunc then [] else s.array
    { s with file := some a }.put fd (some ⟨if flags.append then a.length else 0, flags.append⟩)

/-- One call on the shared array. -/
def step (s : Shared) : Call → Shared
  | .openFd fd flags => s.openFd fd flags
  | .read fd count =>
    match s.cursors fd with
    | none => s
    | some c =>
      let bytes := (s.array.drop c.pos).take count
      { s.put fd (some { c with pos := c.pos + bytes.length }) with log := s.log ++ [bytes] }
  | .write fd data _ =>
    match s.cursors fd with
    | none => s
    | some c =>
      let off := if c.append then s.array.length else c.pos
      { s.put fd (some { c with pos := off + data.length }) with
        file := s.file.map fun a => writeAt a off data }
  | .seek fd offset whence =>
    match s.cursors fd with
    | none => s
    | some c =>
      match whence with
      | .set => s.put fd (some { c with pos := offset % 2 ^ 32 })
      | .cur => s.put fd (some { c with pos := add32 c.pos offset })
      | .fromEnd => s.put fd (some { c with pos := add32 s.array.length offset })
  | .close fd => s.put fd none

end Shared

/-! ## Both together -/

/-- The code beside the shared array; `pending` says that no write followed the
last truncation of a file with bytes. -/
structure Both where
  mount : Mount
  shared : Shared
  pending : Bool

namespace Both

/-- A mounted volume on which the path holds `file`, with no descriptor on it. -/
def init (file : Option (List UInt8)) : Both :=
  ⟨⟨file, fun _ => none, []⟩, ⟨file, fun _ => none, []⟩, false⟩

/-- Whether a truncation is pending after a call. -/
def pendingAfter (b : Both) : Call → Bool
  | .openFd fd flags =>
    if (b.mount.descs fd).isNone && flags.trunc && b.mount.file.any (· ≠ []) then true
    else b.pending
  | .write fd data _ => if (b.mount.descs fd).isSome && data ≠ [] then false else b.pending
  | _ => b.pending

/-- One call on both. -/
def step (b : Both) (c : Call) : Both :=
  ⟨b.mount.step c, b.shared.step c, b.pendingAfter c⟩

/-- The copy of the descriptor is the array. -/
def UpToDate (b : Both) (fd : Nat) : Prop :=
  ∀ d, b.mount.descs fd = some d → d.copy = b.shared.array

/-- The bytes below the write are those of the copy, or zeros, and the end is a 32-bit
number. -/
def Joined (b : Both) (fd : Nat) (data : List UInt8) (fresh : Nat → UInt8) : Prop :=
  ∀ d, b.mount.descs fd = some d → d.writeOffset + data.length < 2 ^ 32 ∧
    (d.size < d.writeOffset → data ≠ [] ∧ ∀ i, d.size ≤ i → i < d.writeOffset → fresh i = 0)

/-- No descriptor is open but this one. -/
def Last (b : Both) (fd : Nat) : Prop := ∀ i, i ≠ fd → b.mount.descs i = none

/-- **The condition on a call.** -/
def Fits (b : Both) : Call → Prop
  | .openFd _ flags => flags.append = true → flags.trunc = true ∨ b.pending = false
  | .read fd _ => UpToDate b fd
  | .write fd data fresh => UpToDate b fd ∧ Joined b fd data fresh
  | .seek fd _ whence => whence = .fromEnd → UpToDate b fd
  | .close fd => Last b fd → b.pending = false

/-! ## One call keeps both together -/

/-- What ties the code to the shared array. -/
structure Sound (b : Both) : Prop where
  present : b.mount.file.isSome = b.shared.file.isSome
  same : b.pending = false → b.mount.file = b.shared.file
  whole : ∀ fd d, b.mount.descs fd = some d → d.buf.length = d.size
  cursor : ∀ fd, b.shared.cursors fd = (b.mount.descs fd).map fun d => ⟨d.offset, d.append⟩
  log : b.mount.log = b.shared.log
  closed : (∀ fd, b.mount.descs fd = none) → b.pending = false
  held : ∀ fd d, b.mount.descs fd = some d → b.mount.file.isSome = true

end Both

theorem Desc.copy_eq {d : Desc} (h : d.buf.length = d.size) : d.copy = d.buf := by
  rw [Desc.copy, ← h, take_length]

/-- The bytes of a new block below the old size are those of the old block. -/
theorem Desc.grow_eq {d : Desc} {cap : Nat} (fresh : Nat → UInt8) (h : d.buf.length = d.size)
    (hcap : d.size < cap) :
    d.grow cap fresh = d.buf ++ ((List.range cap).map fresh).drop d.size := by
  rw [Desc.grow, if_pos (by omega), overlay, Desc.copy_eq h, take_zero, nil_append, Nat.zero_add, h]
  exact take_of_length_le (by simp [h]; omega)

/-- **A write on the copy** is a write on the array, with the zeros of the new block in
the gap. -/
theorem Desc.written_spec {d : Desc} {data : List UInt8} {fresh : Nat → UInt8}
    (h : d.buf.length = d.size) (hlt : d.writeOffset + data.length < 2 ^ 32)
    (hgap : d.size < d.writeOffset →
      data ≠ [] ∧ ∀ i, d.size ≤ i → i < d.writeOffset → fresh i = 0) :
    (d.written data fresh).buf = writeAt d.buf d.writeOffset data ∧
      (d.written data fresh).buf.length = (d.written data fresh).size ∧
      (d.written data fresh).offset = d.writeOffset + data.length := by
  have hend : add32 d.writeOffset data.length = d.writeOffset + data.length := Nat.mod_eq_of_lt hlt
  simp only [Desc.written, hend]
  generalize hoff : d.writeOffset = off at *
  by_cases hfit : off + data.length ≤ d.size
  · have hgrow : d.grow (off + data.length) fresh = d.buf := if_neg (by omega)
    have hzeros : off - d.buf.length = 0 := by omega
    have hbuf : overlay d.buf off data = writeAt d.buf off data := by
      unfold overlay writeAt
      split
      · next hnil => simp [hnil]
      · rw [hzeros, replicate_zero, append_nil]
        exact take_of_length_le (by simp; omega)
    rw [hgrow, hbuf]
    refine ⟨rfl, ?_, trivial⟩
    rw [← hbuf, overlay]
    simp
    omega
  have hnil : data ≠ [] := by
    rintro rfl
    rcases Nat.lt_or_ge d.size off with hlt | hge
    · exact (hgap hlt).1 rfl
    · simp at hfit
      omega
  have hgrow := Desc.grow_eq fresh h (Nat.lt_of_not_le hfit)
  have hlength : (d.grow (off + data.length) fresh).length = off + data.length := by
    rw [hgrow]
    simp
    omega
  have htake : (d.grow (off + data.length) fresh).take off =
      d.buf.take off ++ List.replicate (off - d.buf.length) 0 := by
    rw [hgrow, take_append]
    congr 1
    apply ext_getElem
    · simp
      omega
    intro i hi hi'
    simp only [length_take, length_drop, length_map, length_range] at hi
    simp only [getElem_take, getElem_drop, getElem_map, getElem_range, getElem_replicate]
    exact (hgap (by omega)).2 _ (by omega) (by omega)
  have hbuf : overlay (d.grow (off + data.length) fresh) off data = writeAt d.buf off data := by
    rw [overlay, htake, writeAt, if_neg hnil, hlength, drop_of_length_le (by omega),
      drop_of_length_le (by omega), append_nil]
    exact take_of_length_le (by simp; omega)
  refine ⟨hbuf, ?_, trivial⟩
  rw [overlay, length_take, hlength]
  simp [hlength]
  omega

namespace Both

variable {b : Both} {fd : Nat} {flags : OpenFlags} {d : Desc}

theorem sound_init (file : Option (List UInt8)) : Sound (init file) where
  present := rfl
  same _ := rfl
  whole _ _ h := nomatch h
  cursor _ := rfl
  log := rfl
  closed _ := rfl
  held _ _ h := nomatch h

section

variable (h : Sound b)

include h

/-- A call that changes nothing. -/
theorem Sound.idle {c : Call} (hc : b.step c = b) : Sound (b.step c) := by rwa [hc]

theorem Sound.cursor_none (hfd : b.mount.descs fd = none) :
    b.shared.cursors fd = none := by rw [h.cursor, hfd]; rfl

theorem Sound.cursor_some (hfd : b.mount.descs fd = some d) :
    b.shared.cursors fd = some ⟨d.offset, d.append⟩ := by rw [h.cursor, hfd]; rfl

/-- A descriptor is set. -/
theorem Sound.put_whole {o : Option Desc} (ho : ∀ d, o = some d → d.buf.length = d.size) (i : Nat)
    (d : Desc) (hd : (b.mount.put fd o).descs i = some d) : d.buf.length = d.size := by
  by_cases hi : i = fd
  · simp only [Mount.put, if_pos hi] at hd
    exact ho d hd
  · simp only [Mount.put, if_neg hi] at hd
    exact h.whole i d hd

theorem Sound.put_cursor {o : Option Desc} {c : Option Cursor}
    (hc : c = o.map fun d => ⟨d.offset, d.append⟩) (i : Nat) : (b.shared.put fd c).cursors i =
      ((b.mount.put fd o).descs i).map fun d => ⟨d.offset, d.append⟩ := by
  by_cases hi : i = fd
  · simp only [Mount.put, Shared.put, if_pos hi, hc]
  · simp only [Mount.put, Shared.put, if_neg hi]
    exact h.cursor i

/-- A call that leaves the file alone and moves one descriptor. -/
theorem Sound.move (hfd : b.mount.descs fd = some d) (d' : Desc)
    (bytes : List (List UInt8)) (hwhole : d'.buf.length = d'.size) :
    Sound ⟨{ b.mount.put fd (some d') with log := b.mount.log ++ bytes },
      { b.shared.put fd (some ⟨d'.offset, d'.append⟩) with log := b.shared.log ++ bytes },
      b.pending⟩ where
  present := h.present
  same := h.same
  whole := h.put_whole fun _ hx => by cases hx; exact hwhole
  cursor := h.put_cursor rfl
  log := congrArg (· ++ bytes) h.log
  closed hall := by simpa [Mount.put] using hall fd
  held i x _ := h.held fd d hfd

/-- The two files after an open that makes a descriptor. -/
theorem Sound.opened (hfits : Fits b (.openFd fd flags)) (content a : List UInt8)
    {file file' : Option (List UInt8)} {p : Bool}
    (hmount : file = some content) (hshared : file' = some (if flags.trunc then [] else a))
    (hsame : b.pending = false → content = a) (hp : p = false → b.pending = false ∧
      (flags.trunc = true → content = [])) :
    Sound ⟨{ b.mount with file := file }.put fd (some (Desc.opened content flags)),
      { b.shared with file := file' }.put fd
        (some ⟨if flags.append then (if flags.trunc then [] else a).length else 0, flags.append⟩),
      p⟩ where
  present := by
    subst hmount hshared
    rfl
  same hpend := by
    obtain ⟨hpending, htrunc⟩ := hp hpend
    subst hmount hshared
    cases ht : flags.trunc with
    | true => rw [htrunc ht]; rfl
    | false => rw [hsame hpending]; rfl
  whole := h.put_whole fun _ hx => by
    cases hx
    unfold Desc.opened
    split <;> rfl
  cursor := h.put_cursor (by
    simp only [Option.map_some, Desc.opened]
    cases ht : flags.trunc with
    | true => simp
    | false =>
      cases ha : flags.append with
      | true =>
        have hpending := (hfits ha).resolve_left (by simp [ht])
        simp [hsame hpending]
      | false => simp)
  log := h.log
  closed hall := by simpa [Mount.put] using hall fd
  held i x _ := by
    subst hmount
    rfl

theorem Sound.openFd (hfits : Fits b (.openFd fd flags)) : Sound (b.step (.openFd fd flags)) := by
  cases hfd : b.mount.descs fd with
  | some d =>
    exact h.idle (by
      simp [Both.step, Mount.step, Mount.vfsFatOpen, Shared.step, Shared.openFd, pendingAfter, hfd,
        h.cursor_some hfd])
  | none =>
    have hcursor := h.cursor_none hfd
    cases hfile : b.mount.file with
    | none =>
      have hshared : b.shared.file = none := by
        have hpresent := h.present
        rw [hfile] at hpresent
        simpa using hpresent.symm
      have hpending : b.pendingAfter (.openFd fd flags) = b.pending := by
        simp [pendingAfter, hfile]
      cases hc : flags.creat with
      | false =>
        exact h.idle (by
          simp [Both.step, Mount.step, Mount.vfsFatOpen, Shared.step, Shared.openFd, hfd, hfile,
            hshared, hc, hpending])
      | true =>
        have hstep := h.opened hfits [] [] (p := b.pending) rfl rfl
          (fun _ => rfl) fun hp => ⟨hp, fun _ => rfl⟩
        simpa [Both.step, Mount.step, Mount.vfsFatOpen, Shared.step, Shared.openFd, Shared.array,
          hfd, hfile, hshared, hc, hcursor, hpending] using hstep
    | some content =>
      obtain ⟨a, hshared⟩ := Option.isSome_iff_exists.1 (h.present.symm.trans (by rw [hfile]; rfl))
      have hsame : b.pending = false → content = a := by
        intro hp
        have hfiles := h.same hp
        rw [hfile, hshared] at hfiles
        exact Option.some.inj hfiles
      have hp : b.pendingAfter (.openFd fd flags) = false →
          b.pending = false ∧ (flags.trunc = true → content = []) := by
        simp only [pendingAfter, hfd, hfile]
        cases flags.trunc <;> by_cases hc : content = [] <;> simp [hc]
      have hstep := h.opened hfits content a rfl rfl hsame hp
      have hmount : { b.mount with file := some content } = b.mount := by rw [← hfile]
      rw [hmount] at hstep
      simpa [Both.step, Mount.step, Mount.vfsFatOpen, Shared.step, Shared.openFd, Shared.array,
        hfd, hfile, hshared, hcursor] using hstep

theorem Sound.read {count : Nat} (hfits : UpToDate b fd) : Sound (b.step (.read fd count)) := by
  cases hfd : b.mount.descs fd with
  | none =>
    exact h.idle (by
      simp [Both.step, Mount.step, Mount.read, Shared.step, pendingAfter, hfd, h.cursor_none hfd])
  | some d =>
    have hmove := h.move hfd
      { d with offset := d.offset + ((d.copy.drop d.offset).take count).length }
      [(d.copy.drop d.offset).take count] (h.whole fd d hfd)
    simpa only [Both.step, Mount.step, Mount.read, Shared.step, pendingAfter, hfd,
      h.cursor_some hfd, hfits d hfd] using hmove

theorem Sound.seek {offset : Nat} {whence : Whence}
    (hfits : whence = .fromEnd → UpToDate b fd) : Sound (b.step (.seek fd offset whence)) := by
  cases hfd : b.mount.descs fd with
  | none =>
    exact h.idle (by
      simp [Both.step, Mount.step, Shared.step, pendingAfter, hfd, h.cursor_none hfd])
  | some d =>
    have hwhole := h.whole fd d hfd
    have hmove := h.move hfd (d.sought offset whence) [] (by cases whence <;> exact hwhole)
    rw [append_nil, append_nil] at hmove
    cases whence with
    | set | cur =>
      simp only [Both.step, Mount.step, Shared.step, pendingAfter, hfd, h.cursor_some hfd]
      exact hmove
    | fromEnd =>
      have hsize : b.shared.array.length = d.size := by
        rw [← hfits rfl d hfd, Desc.copy_eq hwhole, hwhole]
      simp only [Both.step, Mount.step, Shared.step, pendingAfter, hfd, h.cursor_some hfd, hsize]
      exact hmove

theorem Sound.close (hfits : Last b fd → b.pending = false) : Sound (b.step (.close fd)) where
  present := h.present
  same := h.same
  whole := h.put_whole (o := none) nofun
  cursor := h.put_cursor (o := none) rfl
  log := h.log
  closed hall := hfits fun i hi => by
    have hnone := hall i
    simpa only [Both.step, Mount.step, Mount.put, if_neg hi] using hnone
  held i x hx := by
    by_cases hi : i = fd
    · simp [Both.step, Mount.step, Mount.put, hi] at hx
    · simp only [Both.step, Mount.step, Mount.put, if_neg hi] at hx
      exact h.held i x hx

theorem Sound.write {data : List UInt8} {fresh : Nat → UInt8}
    (hdate : UpToDate b fd) (hjoined : Joined b fd data fresh) :
    Sound (b.step (.write fd data fresh)) := by
  cases hfd : b.mount.descs fd with
  | none =>
    exact h.idle (by
      simp [Both.step, Mount.step, Mount.write, Shared.step, pendingAfter, hfd, h.cursor_none hfd])
  | some d =>
    have hwhole := h.whole fd d hfd
    obtain ⟨hlt, hgap⟩ := hjoined d hfd
    obtain ⟨hbuf, hsize, hoffset⟩ := Desc.written_spec hwhole hlt hgap
    have hcopy : d.buf = b.shared.array := by rw [← hdate d hfd, Desc.copy_eq hwhole]
    obtain ⟨content, hfile⟩ := Option.isSome_iff_exists.1 (h.held fd d hfd)
    obtain ⟨a, hshared⟩ := Option.isSome_iff_exists.1 (h.present.symm.trans (h.held fd d hfd))
    have harray : d.buf = a := by rw [hcopy, Shared.array, hshared]; rfl
    have hoff : (if d.append then b.shared.array.length else d.offset) = d.writeOffset := by
      rw [← hcopy, hwhole]
      rfl
    -- moving the descriptor first, then replacing the two files
    have hmove := h.move hfd (d.written data fresh) [] hsize
    rw [append_nil, append_nil, hoffset] at hmove
    have hmounted : (b.step (.write fd data fresh)).mount =
        { b.mount.put fd (some (d.written data fresh)) with
          file := if (d.written data fresh).buf = [] then some content
            else some (writeAt a d.writeOffset data) } := by
      simp only [Both.step, Mount.step, Mount.write, hfd, hfile, Desc.copy_eq hsize]
      rw [hbuf, harray]
    have harrayed : (b.step (.write fd data fresh)).shared =
        { b.shared.put fd (some ⟨d.writeOffset + data.length, d.append⟩) with
          file := some (writeAt a d.writeOffset data) } := by
      simp only [Both.step, Shared.step, h.cursor_some hfd, hshared, hoff, Option.map_some]
    refine ⟨?_, fun hpend => ?_, ?_, ?_, ?_, fun hall => ?_, fun i x _ => ?_⟩
    · rw [hmounted, harrayed]
      split <;> rfl
    · rw [hmounted, harrayed]
      split
      · next hempty =>
        rw [hbuf] at hempty
        have hnil : data = [] := by
          by_contra hne
          simp [writeAt, hne] at hempty
        have hpending : b.pending = false := by
          simpa [Both.step, pendingAfter, hfd, hnil] using hpend
        have hfiles := h.same hpending
        rw [hfile, hshared] at hfiles
        rw [hfiles, hnil, writeAt, if_pos rfl]
      · rfl
    · rw [hmounted]
      exact hmove.whole
    · rw [hmounted, harrayed]
      exact hmove.cursor
    · rw [hmounted, harrayed]
      exact h.log
    · rw [hmounted] at hall
      simpa [Mount.put] using hall fd
    · rw [hmounted]
      split <;> rfl

/-- **A call that fits** keeps the code and the shared array together. -/
theorem Sound.step {c : Call} (hfits : Fits b c) : Sound (b.step c) := by
  cases c with
  | openFd fd flags => exact h.openFd hfits
  | read fd count => exact h.read hfits
  | write fd data fresh => exact h.write hfits.1 hfits.2
  | seek fd offset whence => exact h.seek hfits
  | close fd => exact h.close hfits

end

/-! ## Whole histories -/

/-- The reads returned bytes of the shared array, and with no descriptor open the file on
the volume is the array. -/
def Refines (b : Both) : Prop :=
  b.mount.log = b.shared.log ∧
    ((∀ fd, b.mount.descs fd = none) → b.mount.file = b.shared.file)

/-- A file is made, written, closed and read again. -/
def writeThenRead : List Call :=
  [.openFd 3 ⟨true, false, false⟩, .write 3 [1, 2] (fun _ => 7), .close 3,
    .openFd 3 ⟨false, false, false⟩, .read 3 8, .close 3]

end Both

end FatMount
