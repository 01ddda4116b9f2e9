import Mathlib

/-!
# A mounted FAT volume

The allocation table and the root directory that `fat.c` keeps in memory.  The fixed root
of FAT12 and FAT16 is one array of entries; the root of FAT32 is the chain of clusters
that `load_fat32_root_chain` read, each an array of entries of its own.
-/

namespace Fat

/-- `fat_type`. -/
inductive Width where
  | fat12
  | fat16
  | fat32
  deriving DecidableEq, Repr

/-- `fat_dir_entry_t`; `first` is `name[0]`, `rest` the other ten bytes of the name and
`times` the bytes that the driver only clears. -/
structure DirEntry where
  first : UInt8
  rest : List UInt8
  attr : UInt8
  times : List UInt8
  clusterHigh : Nat
  clusterLow : Nat
  size : Nat
  deriving DecidableEq, Repr

/-- The stores into the metadata in memory, one after the other: an entry of the table, an
entry of the fixed root, and the end of the directory behind a new entry. -/
inductive Store where
  | fat (cluster value : Nat)
  | entry (index : Nat) (e : DirEntry)
  | endMark (index : Nat)

/-- The part of `fat_fs_t` that the operations on the root use, and the stores so far. -/
structure Fs where
  width : Width
  maxCluster : Nat
  clusterSize : Nat
  fat : Nat → Nat
  root : List (List DirEntry)
  rootChain : List Nat
  log : List Store

/-! ## The allocation table -/

namespace Fs

/-- A cluster that has an entry in the table. -/
def InRange (fs : Fs) (cluster : Nat) : Prop := 2 ≤ cluster ∧ cluster < fs.maxCluster

instance (fs : Fs) (cluster : Nat) : Decidable (fs.InRange cluster) :=
  inferInstanceAs (Decidable (2 ≤ cluster ∧ cluster < fs.maxCluster))

/-- `get_fat_entry`. -/
def getFatEntry (fs : Fs) (cluster : Nat) : Nat :=
  if fs.InRange cluster then
    match fs.width with
    | .fat12 => if fs.fat cluster ≥ 0xFF8 then fs.fat cluster + 0xFFFFF000 else fs.fat cluster
    | .fat16 => fs.fat cluster
    | .fat32 => fs.fat cluster % 2 ^ 28
  else 0x0FFFFFFF

/-- `is_eoc`. -/
def isEoc (fs : Fs) (cluster : Nat) : Bool :=
  match fs.width with
  | .fat12 => cluster ≥ 0xFF8
  | .fat16 => cluster ≥ 0xFFF8
  | .fat32 => cluster ≥ 0x0FFFFFF8

/-- What the bits of an entry keep of a value. -/
def stored (w : Width) (value : Nat) : Nat :=
  match w with
  | .fat12 => value % 2 ^ 12
  | .fat16 => value % 2 ^ 16
  | .fat32 => value % 2 ^ 32

/-- `set_fat_entry`. -/
def setFatEntry (fs : Fs) (cluster value : Nat) : Fs :=
  if fs.InRange cluster then
    { fs with
      fat := Function.update fs.fat cluster (stored fs.width value)
      log := fs.log ++ [.fat cluster value] }
  else fs

/-- The end-of-chain mark that the driver writes. -/
def eocMark : Width → Nat
  | .fat12 => 0xFFF
  | .fat16 => 0xFFFF
  | .fat32 => 0x0FFFFFFF

/-- `find_free_cluster`. -/
def findFreeCluster (fs : Fs) : Option Nat :=
  ((List.range fs.maxCluster).drop 2).find? fun i => fs.getFatEntry i = 0

end Fs

/-! ## The root directory -/

namespace DirEntry

/-- The slot may be taken: the end of the directory or a deleted entry. -/
def isFree (e : DirEntry) : Bool := e.first = 0x00 || e.first = 0xE5

/-- An entry that a search compares: neither deleted nor part of a long name. -/
def isShown (e : DirEntry) : Bool := !(e.first = 0xE5 || e.attr = 0x0F)

/-- The eleven bytes of the name. -/
def name (e : DirEntry) : UInt8 × List UInt8 := (e.first, e.rest)

/-- The fields have the widths of those of `fat_dir_entry_t`. -/
structure Fits (e : DirEntry) : Prop where
  rest : e.rest.length = 10
  clusterHigh : e.clusterHigh < 2 ^ 16
  clusterLow : e.clusterLow < 2 ^ 16
  size : e.size < 2 ^ 32

/-- The first cluster as the driver reads it. -/
def cluster (w : Width) (e : DirEntry) : Nat :=
  match w with
  | .fat32 => e.clusterHigh * 65536 + e.clusterLow
  | _ => e.clusterLow

end DirEntry

/-- One array of entries is searched up to its first 0x00. -/
def scan (name : UInt8 × List UInt8) : List DirEntry → Option DirEntry
  | [] => none
  | e :: es =>
    if e.first = 0x00 then none
    else if e.isShown && e.name = name then some e
    else scan name es

/-- `find_entry_in_dir` on the root: a 0x00 ends the search of its own cluster only. -/
def findEntryInDir (root : List (List DirEntry)) (name : UInt8 × List UInt8) : Option DirEntry :=
  root.findSome? (scan name)

/-- `name[0] = 0x00` for the entry behind the slot. -/
def endMark : List DirEntry → List DirEntry
  | [] => []
  | e :: es => { e with first := 0x00 } :: es

/-- The first entry of the next cluster gets the mark. -/
def markHead : List (List DirEntry) → List (List DirEntry)
  | [] => []
  | es :: rest => endMark es :: rest

/-- The entries before the first free slot. -/
def beforeSlot (es : List DirEntry) : List DirEntry := es.takeWhile fun e => !e.isFree

/-- The first free slot and what follows it. -/
def fromSlot (es : List DirEntry) : List DirEntry := es.dropWhile fun e => !e.isFree

/-- The slot is taken by `new` and the entry behind it becomes the end of the directory. -/
def fill (new : DirEntry) (es : List DirEntry) : List DirEntry :=
  beforeSlot es ++ new :: endMark (fromSlot es).tail

/-- `find_free_dir_entry` in one cluster; the value says whether the entry behind the slot is
in the next cluster.  A 0x00 in the very last slot is passed over. -/
def clusterSlot (next : Bool) (es : List DirEntry) : Option Bool :=
  match fromSlot es with
  | [] => none
  | [e] => if next then some true else if e.first = 0x00 then none else some false
  | _ :: _ :: _ => some false

/-- A new entry in the root of FAT32; `more` says that the chain goes on behind the clusters
in memory. -/
def chainInsert (new : DirEntry) (more : Bool) : List (List DirEntry) →
    Option (List (List DirEntry))
  | [] => none
  | es :: rest =>
    match clusterSlot (!rest.isEmpty || more) es with
    | none => (chainInsert new more rest).map (es :: ·)
    | some mark => some (fill new es :: if mark then markHead rest else rest)

/-- A new entry in the fixed root. -/
def fixedInsert (new : DirEntry) (es : List DirEntry) : Option (List DirEntry) :=
  if fromSlot es = [] then none else some (fill new es)

namespace Fs

/-- The chain of the root goes on behind the clusters in memory. -/
def chainGoesOn (fs : Fs) : Bool :=
  match fs.rootChain.getLast? with
  | none => false
  | some c => fs.getFatEntry c ≥ 2 && !fs.isEoc (fs.getFatEntry c)

/-- The root with `new` in the slot that `find_free_dir_entry` gives. -/
def insertRoot (fs : Fs) (new : DirEntry) : Option (List (List DirEntry)) :=
  match fs.width with
  | .fat32 => chainInsert new fs.chainGoesOn fs.root
  | _ =>
    match fs.root with
    | [] => none
    | es :: rest => (fixedInsert new es).map (· :: rest)

/-- The stores into the fixed root for a new entry. -/
def insertStores (fs : Fs) (new : DirEntry) : List Store :=
  match fs.width with
  | .fat32 => []
  | _ =>
    let es := fs.root.headD []
    let slot := (beforeSlot es).length
    match (fromSlot es).tail with
    | [] => [.entry slot new]
    | next :: _ => if next.first ≠ 0x00 then [.entry slot new, .endMark (slot + 1)]
      else [.entry slot new]

end Fs

/-! ## Short names -/

/-- `c -= 32` for a lower-case letter. -/
def upper (c : UInt8) : UInt8 := if 97 ≤ c ∧ c ≤ 122 then c - 32 else c

/-- `n` bytes of a name, filled up with blanks. -/
def padded (n : Nat) (s : List UInt8) : List UInt8 :=
  (s.take n).map upper ++ List.replicate (n - s.length) 32

/-- `to_short_name`: at most eight bytes before the first dot, at most three behind it. -/
def toShortName (filename : List UInt8) : UInt8 × List UInt8 :=
  let base := filename.takeWhile (· ≠ 46)
  let ext := (filename.dropWhile (· ≠ 46)).tail
  let out := padded 8 base ++ padded 3 ext
  (out.headD 32, out.tail)

/-! ## Making entries -/

/-- The entry that `memset` and the stores behind it leave. -/
def newEntry (sname : UInt8 × List UInt8) (attr : UInt8) (cluster : Nat) (w : Width) :
    DirEntry where
  first := sname.1
  rest := sname.2
  attr := attr
  times := List.replicate 12 0
  clusterHigh := if w = .fat32 then cluster / 65536 % 65536 else 0
  clusterLow := cluster % 65536
  size := 0

namespace Fs

/-- `fat_create_file` on the root: the return value and the volume. -/
def fatCreateFile (fs : Fs) (name : List UInt8) : Int × Fs :=
  if name = [] then (-1, fs)
  else if (findEntryInDir fs.root (toShortName name)).isSome then (-2, fs)
  else
    let new := newEntry (toShortName name) 0x20 0 fs.width
    match fs.insertRoot new with
    | none => (-3, fs)
    | some root => (0, { fs with root := root, log := fs.log ++ fs.insertStores new })

/-- `fat_mkdir` on the root; `ok` says whether the device takes the new cluster. -/
def fatMkdir (fs : Fs) (name : List UInt8) (ok : Bool) : Int × Fs :=
  if name = [] || name.head? = some 46 then (-1, fs)
  else if (findEntryInDir fs.root (toShortName name)).isSome then (-2, fs)
  else
    let cluster := fs.findFreeCluster
    let new := newEntry (toShortName name) 0x10 (cluster.getD 0) fs.width
    -- the slot is looked for before the table changes
    match fs.insertRoot new, cluster with
    | none, _ => (-3, fs)
    | some _, none => (-4, fs)
    | some root, some c =>
      let fs' := fs.setFatEntry c (eocMark fs.width)
      if ok then (0, { fs' with root := root, log := fs'.log ++ fs.insertStores new })
      else (-5, fs'.setFatEntry c 0)

end Fs

/-! ## Chains of clusters -/

namespace Fs

/-- The loop of `free_cluster_chain`; a cluster that is met again is free and ends it. -/
def freeLoop : Nat → Fs → Nat → Fs
  | 0, fs, _ => fs
  | n + 1, fs, start =>
    if start < 2 then fs
    else
      let next := fs.getFatEntry start
      let fs := fs.setFatEntry start 0
      if fs.isEoc next then fs else freeLoop n fs next

/-- `free_cluster_chain`. -/
def freeClusterChain (fs : Fs) (start : Nat) : Fs := freeLoop (fs.maxCluster + 1) fs start

/-- `prev` is linked to a cluster, if there is one. -/
def link (fs : Fs) (prev value : Nat) : Fs := if 2 ≤ prev then fs.setFatEntry prev value else fs

/-- `fat_alloc_cluster`; `ok` says whether the device takes the zeros. -/
def fatAllocCluster (fs : Fs) (prev : Nat) (ok : Bool) : Option Nat × Fs :=
  match fs.findFreeCluster with
  | none => (none, fs)
  | some c =>
    let fs := (fs.setFatEntry c (eocMark fs.width)).link prev c
    if ok then (some c, fs) else (none, (fs.setFatEntry c 0).link prev 0)

/-- `bytes_per_cluster`. -/
def bytesPerCluster (fs : Fs) : Nat := fs.clusterSize * 512

end Fs

/-! ## Entries that exist -/

/-- The entry that `scan` returns is changed. -/
def modifyScan (name : UInt8 × List UInt8) (f : DirEntry → DirEntry) :
    List DirEntry → Option (List DirEntry)
  | [] => none
  | e :: es =>
    if e.first = 0x00 then none
    else if e.isShown && e.name = name then some (f e :: es)
    else (modifyScan name f es).map (e :: ·)

/-- The entry that `find_entry_in_dir` returns is changed. -/
def modifyFound (name : UInt8 × List UInt8) (f : DirEntry → DirEntry) :
    List (List DirEntry) → List (List DirEntry)
  | [] => []
  | es :: rest =>
    match modifyScan name f es with
    | some es => es :: rest
    | none => es :: modifyFound name f rest

namespace DirEntry

/-- The first cluster and the size are stored. -/
def setFile (w : Width) (cluster size : Nat) (e : DirEntry) : DirEntry :=
  { e with
    clusterLow := cluster % 65536
    clusterHigh := if w = .fat32 then cluster / 65536 % 65536 else e.clusterHigh
    size := size % 2 ^ 32 }

/-- The size is stored. -/
def setSize (size : Nat) (e : DirEntry) : DirEntry := { e with size := size }

/-- The entry is marked as deleted. -/
def delete (e : DirEntry) : DirEntry := { e with first := 0xE5 }

end DirEntry

namespace Fs

/-- The stores into the fixed root when the entry of a name is changed. -/
def modifyStores (fs : Fs) (sname : UInt8 × List UInt8) (f : DirEntry → DirEntry) : List Store :=
  match fs.width, findEntryInDir fs.root sname with
  | .fat32, _ => []
  | _, none => []
  | _, some e => [.entry ((fs.root.headD []).findIdx fun x => x.isShown && x.name = sname) (f e)]

/-- The entry of a name in the root is changed. -/
def modifyEntry (fs : Fs) (sname : UInt8 × List UInt8) (f : DirEntry → DirEntry) : Fs :=
  { fs with root := modifyFound sname f fs.root, log := fs.log ++ fs.modifyStores sname f }

/-- `fat_rm` on the root; `empty` is what the check of a directory finds. -/
def fatRm (fs : Fs) (name : List UInt8) (empty : Bool) : Int × Fs :=
  if name = [] then (-1, fs)
  else if name = [46] || name = [46, 46] then (-3, fs)
  else
    match findEntryInDir fs.root (toShortName name) with
    | none => (-2, fs)
    | some e =>
      if e.attr &&& 0x10 ≠ 0 && !empty then (-4, fs)
      else
        let fs := if 2 ≤ e.cluster fs.width then fs.freeClusterChain (e.cluster fs.width) else fs
        (0, fs.modifyEntry (toShortName name) DirEntry.delete)

/-- The loop of `fat_write_file` that allocates `n` clusters behind `prev`; `i` is the number
of the next write to the device. -/
def allocLoop (ok : Nat → Bool) : Nat → Fs → Nat → Nat → Bool × Fs
  | 0, fs, _, _ => (true, fs)
  | n + 1, fs, prev, i =>
    match fs.fatAllocCluster prev (ok i) with
    | (none, fs) => (false, fs)
    | (some c, fs) => allocLoop ok n fs c (i + 1)

/-- `needed_clusters` of `fat_write_file`. -/
def neededClusters (fs : Fs) (size : Nat) : Nat :=
  (size + fs.bytesPerCluster - 1) % 2 ^ 32 / fs.bytesPerCluster

/-- `fat_write_file`; `ok i` is the answer of the device to the zeros of cluster `i`. -/
def fatWriteFile (fs : Fs) (name : List UInt8) (size : Nat) (ok : Nat → Bool) : Int × Fs :=
  match findEntryInDir fs.root (toShortName name) with
  | none => (-1, fs)
  | some e =>
    let old := e.cluster fs.width
    let fs := if 2 ≤ old then fs.freeClusterChain old else fs
    if size = 0 then (0, fs.modifyEntry (toShortName name) (DirEntry.setFile fs.width 0 0))
    else
      match fs.fatAllocCluster 0 (ok 0) with
      | (none, fs) => (-1, fs)
      | (some first, fs) =>
        match allocLoop ok (fs.neededClusters size - 1) fs first 1 with
        | (false, fs) => (-1, fs.freeClusterChain first)
        | (true, fs) =>
          (0, fs.modifyEntry (toShortName name) (DirEntry.setFile fs.width first size))

/-- The last cluster of a chain as `fat_append_file` looks for it. -/
def lastLoop (fs : Fs) : Nat → Nat → Nat
  | 0, last => last
  | n + 1, last =>
    if fs.isEoc (fs.getFatEntry last) then last
    else if fs.getFatEntry last < 2 then fs.getFatEntry last
    else lastLoop fs n (fs.getFatEntry last)

/-- The loop of `fat_append_file` from `done` bytes on, with at most `n` turns: whether all
bytes are written, how many are, and the volume. -/
def appendLoop (sname : UInt8 × List UInt8) (size : Nat) (ok : Nat → Bool) :
    Nat → Fs → Nat → Nat → Nat → Bool × Nat × Fs
  | 0, fs, _, done, _ => (true, done, fs)
  | n + 1, fs, last, done, i =>
    if size ≤ done then (true, done, fs)
    else
      match fs.fatAllocCluster (if 2 ≤ last then last else 0) (ok i) with
      | (none, fs) => (false, done, fs)
      | (some c, fs) =>
        let fs :=
          if last < 2 then
            fs.modifyEntry sname fun e => DirEntry.setFile fs.width c e.size e
          else fs
        appendLoop sname size ok n fs c (done + min (size - done) fs.bytesPerCluster) (i + 1)

/-- `fat_append_file`; `ok i` is the answer of the device to the zeros of cluster `i`. -/
def fatAppendFile (fs : Fs) (name : List UInt8) (size : Nat) (ok : Nat → Bool) : Int × Fs :=
  if size = 0 then (-1, fs)
  else
    match findEntryInDir fs.root (toShortName name) with
    | none => (-1, fs)
    | some e =>
      let cluster := e.cluster fs.width
      if 0 < e.size && cluster < 2 then (-1, fs)
      else
        let last := if 2 ≤ cluster then lastLoop fs (fs.maxCluster + 1) cluster else cluster
        let offset := e.size % fs.bytesPerCluster
        let free := if 0 < offset then fs.bytesPerCluster - offset else 0
        let done := if 0 < free && 2 ≤ last then min size free else 0
        match appendLoop (toShortName name) size ok size fs last done 0 with
        | (false, done, fs) =>
          (-1, fs.modifyEntry (toShortName name) (DirEntry.setSize ((e.size + done) % 2 ^ 32)))
        | (true, _, fs) =>
          (0, fs.modifyEntry (toShortName name) (DirEntry.setSize ((e.size + size) % 2 ^ 32)))

end Fs

end Fat
