import LufiraOS.Mkfs.Commands
import LufiraOS.Mkfs.Mounted
import LufiraOS.Driver.Reading

/-!
# The host tool and the kernel agree

Files put into a formatted region are found and read by the kernel that mounts
it, and printed by the tool itself.  The record of a run says for every
destination which `put` wrote its file last and that the file holds its bytes;
one more `put` extends the tree and rewrites one file, so the record stays true.
-/

namespace LufiraFs

open List

open ByteStore

namespace Mkfs

/-- The arguments of a `put` command. -/
structure Put where
  data : Bytes
  len : UInt32
  path : CStr
  perm : UInt32

namespace Put

/-- Run the command; one that gives up does not write the region back. -/
def exec (image : Bytes) (p : Put) : Bytes :=
  match put image p.data p.len p.path p.perm with
  | .ok image' => image'
  | .error _ => image

/-- A successful command whose destination ends in a component that fits, leads
through directories only, and is not a directory. -/
structure Proper (image : Bytes) (p : Put) : Prop where
  succeeds : ∃ image', put image p.data p.len p.path p.perm = .ok image'
  named : lastComponent p.path ≠ []
  short : (lastComponent p.path).length ≤ 59
  dirs : Region.OnDirs (components (dirPart p.path).tail) (Region.load image).vol.rootInode
    (Region.load image)
  target : (Region.load image).FileTarget p.path

end Put

/-- The last of the commands whose destination names the same file as `path`. -/
def lastPut (V : Vol) (puts : List Put) (path : CStr) : Option Put :=
  (puts.filter fun p => V.lookup V.rootInode p.path = V.lookup V.rootInode path).getLast?

/-- A destination that the tool accepts. -/
structure Accepted (path : CStr) : Prop where
  absolute : path.head? = some slash
  named : lastComponent path ≠ []
  short : (lastComponent path).length ≤ 59
  dirLength : (dirPart path).length < 512

theorem Accepted.lookup_eq {path : CStr} (h : Accepted path) (V : Vol) (start : Nat) :
    V.lookup start path = (V.walk (components (dirPart path).tail) V.rootInode).bind fun parent =>
      V.lookupIn parent (lastComponent path) := by
  rw [Vol.lookup, if_pos h.absolute, components_path h.absolute h.named h.short, Vol.walk_append]
  congr 1
  funext parent
  rw [Vol.walk]
  cases V.lookupIn parent (lastComponent path) <;> rfl

/-- The file at `path` is not a directory and holds the bytes of `p`. -/
structure Written (V : Vol) (path : CStr) (p : Put) (i : Nat) : Prop where
  found : V.lookup V.rootInode path = some i
  live : V.Live i
  file : ¬ V.IsDir i
  holds : V.Holds i p.data p.len

namespace Region

section

variable {g g' : Region} {p : Put}

/-- **One `put`** into a tidy region. -/
theorem cmdPut_tidy (h : Tidy g) (hnamed : lastComponent p.path ≠ [])
    (hshort : (lastComponent p.path).length ≤ 59)
    (hdirs : OnDirs (components (dirPart p.path).tail) g.vol.rootInode g)
    (htarget : g.FileTarget p.path)
    (hcall : g.cmdPut p.data p.len p.path p.perm = .ok g') :
    ∃ i, Tidy g' ∧ Extends {i} g.vol g'.vol ∧ Accepted p.path ∧ Written g'.vol p.path p i := by
  obtain ⟨parent, name, g₁, ino, g₂, r, g₃, hsplit, hput, hloop, rfl⟩ := cmdPut_parts hcall
  obtain ⟨h₁, hext₁, hp, hhead, hwalk⟩ := splitPath_tidy h hdirs hsplit
  obtain ⟨_, hlen, rfl, _⟩ := splitPath_cases hsplit
  rw [take_of_length_le hshort] at hput hsplit
  have haccepted : Accepted p.path := ⟨hhead, hnamed, hshort, hlen⟩
  have hlive := h₁.orderly.tree.dirLive hp
  obtain ⟨h₂, hext₂, hlook, hi, hfile⟩ : Tidy g₂ ∧ Extends ∅ g₁.vol g₂.vol ∧
      g₂.vol.lookupIn parent (lastComponent p.path) = some ino ∧ g₂.vol.Live ino ∧
      ¬ g₂.vol.IsDir ino := by
    rcases putTarget_cases h₁.firm h₁.orderly.sane hlive hshort hput with
      ⟨rfl, hlook⟩ | ⟨hmiss, hstep, hmakes, hmode⟩
    · have hfound := lookupInDir_ok h₁.firm hp.1 hlook
      have hsplit' : g.splitPath p.path = .ok (parent, lastComponent p.path, g₂) := hsplit
      exact ⟨h₁, Extends.refl _ _, hfound, h₁.orderly.sane.lookupIn hfound,
        htarget.not_isDir hsplit' hlook⟩
    · obtain ⟨htidy, hext, hfound⟩ := h₁.makes hp hshort hmiss hstep hmakes
      exact ⟨htidy, hext, hfound, hmakes.live_new,
        fun hd => absurd (hmode.symm.trans hd.2) (by decide)⟩
  have h0 := dataStart_pos h₂.firm.laid
  obtain ⟨hstep, hmode, hholds⟩ := putFile_holds h₂.firm hi.1 hfile hloop
  generalize g₃.writeInode ino (r.setSize p.len) = g₄ at hstep hmode hholds ⊢
  have hvol := writeSuperblock_vol hstep.firm.laid
  have hext₃ := hstep.evolves.extends h0 hmode hfile
  have horderly : Orderly g₄.vol := by
    refine h₂.orderly.keep h0 hstep.evolves (fun _ hj => hj ▸ hmode) fun hd hj => ?_
    exact absurd hd (hj ▸ hfile)
  have htidy : Tidy g₄.writeSuperblock := Tidy.congr ⟨hstep.firm, horderly⟩ hstep.firm.laid hvol
  have hext : Extends {ino} g.vol g₄.vol :=
    ((hext₁.trans hext₂).mono (Set.empty_subset _)).trans hext₃
  refine ⟨ino, htidy, ?_, haccepted, ?_⟩
  · rw [hvol]
    exact hext
  rw [hvol]
  obtain ⟨hd, n, hn⟩ := Vol.lookupIn_some hlook
  have hwalk' : g₄.vol.walk (components (dirPart p.path).tail) g₄.vol.rootInode =
      some parent := by
    have hkept := hext₃.walk horderly (hext₂.walk h₂.orderly hwalk)
    rwa [← hext₂.geo.rootInode, ← hext₃.geo.rootInode] at hkept
  refine ⟨?_, (hstep.evolves.live_iff fun hj => hj ▸ hmode).2 hi,
    fun hd' => hfile ⟨hi.1, hmode.symm.trans hd'.2⟩, hholds⟩
  rw [haccepted.lookup_eq, hwalk']
  exact horderly.lookupIn_eq (hext₃.dir hd) (hext₃.entry hd hn)

end

end Region

/-! ## The record of a run -/

/-- Every destination names a file that holds the bytes that were put last. -/
def Recorded (V : Vol) (puts : List Put) : Prop :=
  ∀ path ∈ puts.map Put.path, Accepted path ∧ ∃ p i, lastPut V puts path = some p ∧
    Written V path p i

section

variable {V V' : Vol} {puts : List Put} {q : Put} {i : Nat} {path : CStr}

theorem lastPut_append_same (h : V.lookup V.rootInode q.path = V.lookup V.rootInode path) :
    lastPut V (puts ++ [q]) path = some q := by
  simp [lastPut, filter_append, h]

theorem lastPut_append_other (h : V.lookup V.rootInode q.path ≠ V.lookup V.rootInode path) :
    lastPut V (puts ++ [q]) path = lastPut V puts path := by
  simp [lastPut, filter_append, h]

/-- Absolute paths that led somewhere still lead there. -/
theorem Accepted.lookup_kept (hpath : Accepted path) {X : Set Nat}
    (h : Extends X V V') (hV' : Orderly V') {j : Nat} (hj : V.lookup V.rootInode path = some j) :
    V'.lookup V'.rootInode path = some j := by
  unfold Vol.lookup at hj ⊢
  rw [if_pos hpath.absolute] at hj ⊢
  rw [h.geo.rootInode]
  exact h.walk hV' hj

theorem lastPut_congr (h : ∀ p ∈ puts, V'.lookup V'.rootInode p.path = V.lookup V.rootInode p.path)
    (hpath : V'.lookup V'.rootInode path = V.lookup V.rootInode path) :
    lastPut V' puts path = lastPut V puts path := by
  unfold lastPut
  congr 1
  apply filter_congr
  intro p hp
  rw [h p hp, hpath]

/-- **The record after one more `put`.** -/
theorem Recorded.append (h : Recorded V puts) (hV' : Orderly V') (hext : Extends {i} V V')
    (hq : Accepted q.path) (hwritten : Written V' q.path q i) : Recorded V' (puts ++ [q]) := by
  have hkept : ∀ {path}, path ∈ puts.map Put.path →
      V'.lookup V'.rootInode path = V.lookup V.rootInode path := by
    intro path hpath
    obtain ⟨haccepted, _, _, _, hold⟩ := h path hpath
    rw [hold.found]
    exact haccepted.lookup_kept hext hV' hold.found
  intro path hpath
  rw [map_append, mem_append] at hpath
  rcases hpath with hpath | hpath
  · obtain ⟨haccepted, p, j, hlast, hold⟩ := h path hpath
    refine ⟨haccepted, ?_⟩
    by_cases hji : j = i
    · -- the new command has written to the same file
      subst hji
      have hsame : V'.lookup V'.rootInode path = some j := (hkept hpath).trans hold.found
      exact ⟨q, j, lastPut_append_same (hwritten.found.trans hsame.symm), hsame, hwritten.live,
        hwritten.file, hwritten.holds⟩
    have hfound : V'.lookup V'.rootInode path = some j := (hkept hpath).trans hold.found
    obtain ⟨hrec, hfetch⟩ := hext.file hold.live hold.file hji
    refine ⟨p, j, ?_, hfound, ⟨hext.geo.isIno.2 hold.live.1, ?_⟩, fun hd => ?_,
      hold.holds.congr hrec hfetch⟩
    · rw [lastPut_append_other, lastPut_congr (fun p' hp' => hkept (mem_map_of_mem hp'))
        (hkept hpath), hlast]
      rw [hwritten.found, hfound]
      exact fun heq => hji (Option.some.inj heq).symm
    · rw [hrec]
      exact hold.live.2
    · exact hold.file ⟨hold.live.1, by rw [← hrec]; exact hd.2⟩
  · obtain rfl : path = q.path := by simpa using hpath
    exact ⟨hq, q, i, lastPut_append_same rfl, hwritten⟩

end

/-- One proper command on the image. -/
theorem Put.Proper.exec {image : Bytes} {p : Put} (h : Region.Tidy (Region.load image))
    (hp : p.Proper image) :
    ∃ i, Region.Tidy (Region.load (p.exec image)) ∧
      Extends {i} (Region.load image).vol (Region.load (p.exec image)).vol ∧ Accepted p.path ∧
      Written (Region.load (p.exec image)).vol p.path p i := by
  obtain ⟨image', hput⟩ := hp.succeeds
  have hexec : p.exec image = image' := by rw [Put.exec, hput]
  obtain ⟨g, hcmd, hcall⟩ := bind_ok hput
  obtain rfl : g.image = image' := Except.ok.inj hcall
  obtain ⟨i, htidy, hext, haccepted, hwritten⟩ :=
    Region.cmdPut_tidy h hp.named hp.short hp.dirs hp.target hcmd
  obtain ⟨_, _, _, _, _, _, g₃, _, _, _, rfl⟩ := Region.cmdPut_parts hcmd
  rw [hexec, Region.load_image]
  exact ⟨i, htidy, hext, haccepted, hwritten⟩

/-- **A run of proper commands** keeps the record. -/
theorem recorded_of_run {image : Bytes} {done puts : List Put}
    (h : Region.Tidy (Region.load image)) (hdone : Recorded (Region.load image).vol done)
    (hputs : Run.Meets Put.exec Put.Proper image puts) :
    Region.Tidy (Region.load (Run.run Put.exec image puts)) ∧
      Recorded (Region.load (Run.run Put.exec image puts)).vol (done ++ puts) ∧
      (Region.load image).vol.SameGeo (Region.load (Run.run Put.exec image puts)).vol := by
  induction puts generalizing image done with
  | nil =>
    rw [append_nil]
    exact ⟨h, hdone, Vol.SameGeo.refl _⟩
  | cons p rest ih =>
    obtain ⟨hp, hrest⟩ := hputs
    obtain ⟨i, htidy, hext, haccepted, hwritten⟩ := hp.exec h
    have hnext := hdone.append htidy.orderly hext haccepted hwritten
    obtain ⟨htidy', hrec, hgeo⟩ := ih htidy hnext hrest
    rw [append_assoc] at hrec
    exact ⟨htidy', hrec, hext.geo.trans hgeo⟩

/-! ## Reading with the tool -/

/-- A block that can be fetched is one that a record can address. -/
theorem lt_of_fetch {V : Vol} {r : Inode} {b : Nat} (h0 : 0 < V.dataStart)
    (h : V.fetch r b ≠ none) : b < 2060 := by
  by_contra hbig
  obtain ⟨⟨bn, blk⟩, hfetch⟩ := Option.ne_none_iff_exists'.1 h
  obtain ⟨hin, hbn, _⟩ := Vol.fetch_some hfetch
  have hlo := hin.1
  obtain ⟨s, hs, _⟩ := exists_slot_of_blockOf (show blockOf V.block r b ≠ 0 by omega)
  rw [slotOf_none (by omega) (by omega)] at hs
  cases hs

namespace Region

section

variable {g : Region} {ino d : Nat} {name path : CStr} {data : Bytes} {len : UInt32}

/-- Without `create`, `inode_get_block` gives up only on numbers that are too large. -/
theorem inodeGetBlock_total (g : Region) (r : Inode) {b : Nat} (hb : b < 2060) :
    ∃ bn, g.inodeGetBlock r b false = .ok (bn, r, g) := by
  unfold inodeGetBlock
  split
  · exact ⟨_, by rw [if_neg (by simp)]⟩
  rw [if_neg (by omega)]
  split
  · exact ⟨_, by rw [if_neg (by simp)]⟩
  · unfold entryGetBlock
    exact ⟨_, by rw [if_neg (by simp)]⟩

theorem lookupBlocks_total (g : Region) (r : Inode) (name : CStr) {b n : Nat}
    (hn : b + n ≤ 2060) : ∃ res, g.lookupBlocks r name b n = .ok res := by
  induction n generalizing b with
  | zero => exact ⟨none, rfl⟩
  | succ n ih =>
    obtain ⟨bn, hget⟩ := inodeGetBlock_total g r (show b < 2060 by omega)
    rw [lookupBlocks, hget]
    dsimp only
    split
    · exact ih (by omega)
    split
    · exact ⟨_, rfl⟩
    · exact ih (by omega)

/-- A file without holes has no more blocks than a record can address. -/
theorem Firm.blocksOf_le (h : Firm g) (hd : g.vol.IsIno d) :
    blocksOf (g.vol.inode d).size.toNat ≤ 2060 := by
  by_contra hbig
  have hlt := lt_of_fetch (dataStart_pos h.laid) (h.filled hd 2060 (by omega))
  omega

/-- **`lookup_in_dir`** of the tool finds what the volume has. -/
theorem lookupInDir_eq (h : Firm g) (hd : g.vol.IsIno d) (name : CStr) :
    g.lookupInDir d name = .ok (g.vol.lookupIn d name) := by
  obtain ⟨res, hcall⟩ : ∃ res, g.lookupInDir d name = .ok res := by
    unfold lookupInDir
    rw [← vol_inode hd]
    dsimp only
    split
    · exact ⟨none, rfl⟩
    · exact lookupBlocks_total g _ name (by rw [Nat.zero_add]; exact h.blocksOf_le hd)
  rw [hcall, lookupInDir_ok h hd hcall]

/-- Directories that are there are not made again. -/
theorem ensureDirs_found (h : Firm g) {names : List CStr}
    (hwalk : g.vol.walk names d = some ino) : ensureDirs names d g = .ok (ino, g) := by
  induction names generalizing d with
  | nil =>
    cases hwalk
    rfl
  | cons name rest ih =>
    obtain ⟨next, hlook, hrest⟩ := g.vol.walk_cons_some hwalk
    obtain ⟨hd, _⟩ := Vol.lookupIn_some hlook
    rw [ensureDirs, enterDir, lookupInDir_eq h hd.1, hlook]
    exact ih hrest

theorem splitPath_found (h : Firm g) (hpath : Accepted path)
    (hwalk : g.vol.walk (components (dirPart path).tail) g.vol.rootInode = some d) :
    g.splitPath path = .ok (d, lastComponent path, g) := by
  have hmem : slash ∈ path := mem_of_mem_head? hpath.absolute
  have hsplit := dirPart_append hmem
  have hlen : path.length - (lastComponent path).length - 1 = (dirPart path).length := by
    have hlength := congrArg List.length hsplit
    rw [length_append, length_cons] at hlength
    omega
  unfold splitPath
  rw [if_neg (not_not.2 hmem)]
  dsimp only
  rw [take_of_length_le hpath.short]
  rw [show path.take (path.length - (lastComponent path).length - 1) = dirPart path from rfl, hlen]
  split
  · next hzero =>
    rw [length_eq_zero_iff.1 hzero] at hwalk
    cases hwalk
    rfl
  · next hne =>
    have hshort : ¬ 512 ≤ (dirPart path).length := Nat.not_le.2 hpath.dirLength
    have hhead : (dirPart path).head? = some slash := by
      have habs := hpath.absolute
      rw [← hsplit] at habs
      cases hdir : dirPart path with
      | nil => exact absurd (by rw [hdir]; rfl) hne
      | cons c q =>
        rw [hdir] at habs
        exact habs
    have hensure : g.ensureDirPath (dirPart path) = .ok (d, g) := by
      unfold ensureDirPath
      rw [if_pos hhead]
      exact ensureDirs_found h hwalk
    rw [if_neg hshort, hensure]

/-- **The loop of `cmd_cat`** prints what is left of the file. -/
theorem catLoop_holds (h : Firm g) (hi : g.vol.IsIno ino) (hholds : g.vol.Holds ino data len)
    {b n : Nat} (hn : n = blocksOf len.toNat - b) :
    g.catLoop (g.vol.inode ino) b n (len.toNat - b * 8192) =
      .ok (bytesFrom data (b * 8192) (len.toNat - b * 8192)) := by
  have hsmall := hholds.small (dataStart_pos h.laid)
  have hblocks : blocksOf len.toNat = (len.toNat + 8191) / 8192 := by
    unfold blocksOf
    rw [Nat.mod_eq_of_lt (by omega)]
  induction n generalizing b with
  | zero =>
    have hz : len.toNat - b * 8192 = 0 := by omega
    rw [hz]
    rfl
  | succ n ih =>
    obtain ⟨bn, hget⟩ := inodeGetBlock_total g (g.vol.inode ino) (show b < 2060 by omega)
    have hbn := inodeGetBlock_blockOf h hi hget
    rw [catLoop, hget]
    generalize hchunk : (if len.toNat - b * 8192 < 8192 then len.toNat - b * 8192 else 8192) = chunk
    have hle : chunk ≤ 8192 ∧ chunk ≤ len.toNat - b * 8192 ∧
        len.toNat - b * 8192 - chunk = len.toNat - (b + 1) * 8192 := by
      split at hchunk <;> omega
    have hdiv : b * 8192 / 8192 = b := Nat.mul_div_cancel b (by omega)
    have hmod : b * 8192 % 8192 = 0 := Nat.mul_mod_left b 8192
    obtain ⟨bn', blk, hfetch, hbytes⟩ := hholds.chunk
      (show b * 8192 < len.toNat by omega) (show b * 8192 % 8192 + chunk ≤ 8192 by omega) (by omega)
    rw [hdiv] at hfetch
    obtain ⟨hin, hbn', hblk⟩ := Vol.fetch_some hfetch
    have hsame : bn = bn' := hbn.trans hbn'.symm
    have hne : bn ≠ 0 := hsame ▸ vol_pos h.laid hin
    have hblock : ∀ j, (if bn = 0 then 0 else g.block bn j) = blk (b * 8192 % 8192 + j) := by
      intro j
      rw [if_neg hne, hmod, Nat.zero_add, hblk, vol_block h.laid hin, hsame]
    simp only [hblock]
    rw [hbytes, hle.2.2, ih (by omega)]
    -- either the chunk is a whole block, or nothing is left behind it
    have hrest : bytesFrom data ((b + 1) * 8192) (len.toNat - (b + 1) * 8192) =
        bytesFrom data (b * 8192 + chunk) (len.toNat - b * 8192 - chunk) := by
      rw [hle.2.2]
      by_cases hfull : chunk = 8192
      · rw [hfull, Nat.add_mul, Nat.one_mul]
      have hall : chunk = len.toNat - b * 8192 := by
        split at hchunk
        · exact hchunk.symm
        · exact absurd hchunk.symm hfull
      rw [← hle.2.2, ← hall, Nat.sub_self, bytesFrom_zero, bytesFrom_zero]
    dsimp only
    rw [hrest, ← bytesFrom_add, Nat.add_sub_cancel' hle.2.1]

/-- **`cmd_cat`** prints the file at a path. -/
theorem cmdCat_holds (h : Firm g) (hpath : Accepted path) (hi : g.vol.IsIno ino)
    (hfound : g.vol.lookup g.vol.rootInode path = some ino)
    (hholds : g.vol.Holds ino data len) :
    g.cmdCat path = .ok (bytesFrom data 0 len.toNat) := by
  rw [hpath.lookup_eq] at hfound
  obtain ⟨parent, hwalk, hlook⟩ := Option.bind_eq_some_iff.1 hfound
  obtain ⟨hd, _⟩ := Vol.lookupIn_some hlook
  have hloop := catLoop_holds h hi hholds (b := 0) rfl
  rw [Nat.zero_mul, Nat.sub_zero, Nat.sub_zero] at hloop
  unfold cmdCat
  rw [splitPath_found h hpath hwalk]
  show (g.lookupInDir parent (lastComponent path) >>= _) = _
  rw [lookupInDir_eq h hd.1, hlook]
  show g.catLoop (g.readInode ino) 0 (blocksOf (g.readInode ino).size.toNat)
    (g.readInode ino).size.toNat = _
  rw [← vol_inode hi, hholds.size]
  exact hloop

end

end Region

end Mkfs

/-- **The host tool and the kernel agree.**  After a format and any proper `put`
commands, for every destination: the kernel that mounts the region finds the
file, reads the bytes that were put last and nothing else, the size of the inode
is their number, and the tool prints them. -/
theorem put_readBack {size : UInt32} {image image' : Bytes} {puts : List Mkfs.Put}
    (hformat : Mkfs.format size = .ok image)
    (hputs : Run.Meets Mkfs.Put.exec Mkfs.Put.Proper image puts)
    (himage : image' = Run.run Mkfs.Put.exec image puts) {disk : Bytes} {lba : UInt32} {fs : Mount}
    (hstored : Mkfs.Stored disk lba size image') (hinit : initMount disk lba Env.allOk = some fs)
    {path : CStr} (hpath : path ∈ puts.map Mkfs.Put.path) :
    ∃ p ino r, Mkfs.lastPut fs.vol puts path = some p ∧
      (∀ start, fs.lookup start path = (some ino, fs)) ∧
      fs.readInode ino = some r ∧ r.size = p.len ∧
      fs.read ino 0 p.len.toNat = ((p.len.toNat : Int), bytesFrom p.data 0 p.len.toNat, fs) ∧
      Mkfs.cat image' path = .ok (bytesFrom p.data 0 p.len.toNat) := by
  obtain ⟨htidy, htotal, _⟩ := Mkfs.format_ok hformat
  have hnone : Mkfs.Recorded (Mkfs.Region.load image).vol [] := fun _ hpath => by simp at hpath
  obtain ⟨htidy', hrecorded, hgeo⟩ := Mkfs.recorded_of_run htidy hnone hputs
  rw [← himage] at htidy' hrecorded hgeo
  rw [nil_append] at hrecorded
  have hsize : (Mkfs.Region.load image').sb.totalBlocks.toNat * 8192 ≤ size.toNat := by
    have hsame : (Mkfs.Region.load image').sb.totalBlocks.toNat =
        (Mkfs.Region.load image).sb.totalBlocks.toNat := hgeo.totalBlocks
    rw [hsame, htotal, UInt32.toNat_div]
    exact Nat.div_mul_le_self _ _
  obtain ⟨hready, hleads, _, hvol⟩ := hstored.mounted htidy'.firm.laid hsize Env.allOk_ioOk hinit
  have henv := hleads.allOk
  obtain ⟨haccepted, p, ino, hlast, hwritten⟩ := hrecorded path hpath
  have hcat := Mkfs.Region.cmdCat_holds htidy'.firm haccepted hwritten.live.1 hwritten.found
    hwritten.holds
  rw [← hvol] at hlast hwritten
  refine ⟨p, ino, fs.vol.inode ino, hlast, fun start => ?_, Mount.readInode_some hwritten.live.1,
    hwritten.holds.size, Mount.read_holds hready henv hwritten.live.1 hwritten.holds, hcat⟩
  obtain ⟨res, e, hlook, hleads', hres⟩ := Mount.lookup_eq hready start path
  rw [hlook, Mount.withEnv_of_allOk henv hleads', hres henv, haccepted.lookup_eq,
    ← haccepted.lookup_eq fs.vol fs.vol.rootInode, hwritten.found]

/-- Two files of three and five bytes, the second over the first. -/
def smallPuts : List Mkfs.Put :=
  [⟨fun i => UInt8.ofNat i, 3, dirPath ++ dirPath, 420⟩,
    ⟨fun i => UInt8.ofNat (i + 1), 5, dirPath ++ dirPath, 420⟩]

theorem smallPuts_proper : Run.Meets Mkfs.Put.exec Mkfs.Put.Proper smallImage smallPuts := by
  have hok : ∀ {image : Bytes} {p : Mkfs.Put},
      (match Mkfs.put image p.data p.len p.path p.perm with
        | .ok _ => true
        | .error _ => false) = true →
      ∃ image', Mkfs.put image p.data p.len p.path p.perm = .ok image' := by
    intro image p h
    split at h
    · next image' hput => exact ⟨image', hput⟩
    · cases h
  refine ⟨⟨hok ?_, ?_, ?_, ?_, ?_⟩, ⟨hok ?_, ?_, ?_, ?_, ?_⟩, trivial⟩ <;> decide +kernel

theorem put_readBack_small : ∃ image fs, image = Run.run Mkfs.Put.exec smallImage smallPuts ∧
    initMount image 0 Env.allOk = some fs ∧
    ∃ p ino r, Mkfs.lastPut fs.vol smallPuts (dirPath ++ dirPath) = some p ∧
      (∀ start, fs.lookup start (dirPath ++ dirPath) = (some ino, fs)) ∧
      fs.readInode ino = some r ∧ r.size = p.len ∧
      fs.read ino 0 p.len.toNat = ((p.len.toNat : Int), bytesFrom p.data 0 p.len.toNat, fs) ∧
      Mkfs.cat image (dirPath ++ dirPath) = .ok (bytesFrom p.data 0 p.len.toNat) := by
  obtain ⟨image, himage⟩ : ∃ image, image = Run.run Mkfs.Put.exec smallImage smallPuts := ⟨_, rfl⟩
  have hsome : (initMount (Run.run Mkfs.Put.exec smallImage smallPuts) 0 Env.allOk).isSome := by
    decide +kernel
  rw [← himage] at hsome
  obtain ⟨fs, hfs⟩ := Option.isSome_iff_exists.1 hsome
  have hstored : Mkfs.Stored image 0 131072 image :=
    ⟨by decide, fun a _ => congrArg image (Nat.zero_add a)⟩
  have hpath : dirPath ++ dirPath ∈ smallPuts.map Mkfs.Put.path := by simp [smallPuts]
  exact ⟨image, fs, himage, hfs,
    put_readBack smallImage_eq smallPuts_proper himage hstored hfs hpath⟩

end LufiraFs
