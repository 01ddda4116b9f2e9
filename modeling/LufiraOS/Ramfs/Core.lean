import LufiraOS.Fat.Mount

/-!
# RAMFS

The tree of nodes of one RAMFS mount, on the kernel heap, and the descriptors on it.  A node
of a file has a buffer with a size and a capacity; a write that does not fit moves the file
to a new block.  A descriptor points at the node itself, and `vfs_ramfs_unlink` frees the node.

Beside each file stands the array it is meant to be, and beside each descriptor the position
in that array; a read records what the code and what the array return.
-/

namespace Ramfs

open FatMount (OpenFlags Whence add32 writeAt)

/-- `file_type_t`, as far as RAMFS has it. -/
inductive FileType where
  | regular
  | directory
  deriving DecidableEq

/-- `ramfs_node_t`.  The list of children is kept in the node; `file` numbers the nodes by their
creation, for the arrays. -/
structure Node where
  name : List UInt8
  type : FileType
  data : Nat → UInt8
  size : Nat
  cap : Nat
  children : List Nat
  file : Nat

/-- `file_t`; `dir` says that it has no operations.  `file` and `pos` are the array the descriptor
was opened on and the place in it. -/
structure Desc where
  node : Nat
  offset : Nat
  append : Bool
  dir : Bool
  file : Nat
  pos : Nat

/-- What a read returned, and what it should have. -/
structure Answer where
  got : List UInt8
  want : List UInt8
  deriving DecidableEq

/-- A mount.  `live` are the nodes that are allocated; `overrun` says that a `memcpy` went past the
end of its block. -/
structure Mount where
  nodes : Nat → Node
  live : List Nat
  root : Nat
  descs : Nat → Option Desc
  overrun : Bool
  files : Nat → List UInt8
  count : Nat
  log : List Answer

/-- `node_alloc`. -/
def nodeAlloc (name : List UInt8) (type : FileType) (file : Nat) : Node where
  name := name.take 63
  type := type
  data := fun _ => 0
  size := 0
  cap := 0
  children := []
  file := file

/-- `ramfs_mount`, with the address of the new root. -/
def ramfsMount (root : Nat) : Mount where
  nodes := fun _ => nodeAlloc [] .directory 0
  live := [root]
  root := root
  descs := fun _ => none
  overrun := false
  files := fun _ => []
  count := 1
  log := []

/-- The bytes that `ramfs_file_read` copies. -/
def Node.read (n : Node) (offset count : Nat) : List UInt8 :=
  if offset ≥ n.size then []
  else (List.range (min count (n.size - offset))).map fun i => n.data (offset + i)

/-- Where `ramfs_file_write` writes. -/
def Node.writeOffset (n : Node) (d : Desc) : Nat := if d.append then n.size else d.offset

/-- The node after `ramfs_file_write`. -/
def Node.write (n : Node) (offset : Nat) (buf : List UInt8) (fresh : Nat → UInt8) : Node :=
  let stop := add32 offset buf.length
  let data := if stop > n.cap then fun i => if i < n.size then n.data i else fresh i else n.data
  { n with
    data := fun i =>
      if offset ≤ i ∧ i < offset + buf.length then buf.getD (i - offset) 0 else data i
    cap := if stop > n.cap then stop else n.cap
    size := if stop > n.size then stop else n.size }

namespace Mount

variable (m : Mount)

def setNode (a : Nat) (n : Node) : Mount :=
  { m with nodes := Function.update m.nodes a n }

def setDesc (fd : Nat) (d : Option Desc) : Mount :=
  { m with descs := Function.update m.descs fd d }

/-! ### Paths -/

/-- What `next_component` answers, call after call. -/
def components (rel : List UInt8) : List (List UInt8) := (rel.splitOn 47).filter (· ≠ [])

/-- `find_child`. -/
def findChild (dir : Nat) (name : List UInt8) : Option Nat :=
  (m.nodes dir).children.find? fun c => (m.nodes c).name = name

/-- `resolve`. -/
def resolve (m : Mount) (cur : Nat) : List (List UInt8) → Option Nat
  | [] => some cur
  | comp :: rest =>
    if (m.nodes cur).type = .directory then
      match m.findChild cur comp with
      | none => none
      | some child => m.resolve child rest
    else none

/-- `resolve_parent`: the directory and the last component, cut to the size of a name. -/
def resolveParent (m : Mount) (cur : Nat) : List (List UInt8) → Option (Nat × List UInt8)
  | [] => none
  | [leaf] => if (m.nodes cur).type = .directory then some (cur, leaf.take 63) else none
  | comp :: rest =>
    if (m.nodes cur).type = .directory then
      match m.findChild cur comp with
      | none => none
      | some child =>
        if (m.nodes child).type = .directory then m.resolveParent child rest else none
    else none

/-- The components of what `find_mount_for_path` leaves of a path; its buffer has 256 bytes. -/
def relComponents (rel : List UInt8) : List (List UInt8) := components (rel.take 255)

/-! ### Nodes -/

/-- A node is allocated and becomes the first child of its parent. -/
def insert (parent : Nat) (leaf : List UInt8) (type : FileType) (addr : Nat) : Mount :=
  let m := { m with
    nodes := Function.update m.nodes addr (nodeAlloc leaf type m.count)
    live := addr :: m.live
    files := Function.update m.files m.count []
    count := m.count + 1 }
  m.setNode parent { m.nodes parent with children := addr :: (m.nodes parent).children }

/-- The last part of `vfs_ramfs_open`: a descriptor on the node. -/
def openNode (node : Nat) (flags : OpenFlags) (fd : Nat) : Mount :=
  let n := m.nodes node
  if n.type = .directory then m.setDesc fd (some ⟨node, 0, flags.append, true, n.file, 0⟩)
  else
    let m := if flags.trunc then
        { m.setNode node { n with size := 0 } with files := Function.update m.files n.file [] }
      else m
    m.setDesc fd (some ⟨node, if flags.append then (m.nodes node).size else 0, flags.append, false,
      n.file, if flags.append then (m.files n.file).length else 0⟩)

/-- `vfs_ramfs_open`, with the free descriptor and the address that the allocators answer. -/
def vfsRamfsOpen (rel : List UInt8) (flags : OpenFlags) (fd addr : Nat) : Mount :=
  if (m.descs fd).isSome ∨ addr ∈ m.live then m
  else
    match m.resolve m.root (relComponents rel) with
    | some node => m.openNode node flags fd
    | none =>
      if flags.creat then
        match m.resolveParent m.root (relComponents rel) with
        | none => m
        | some (parent, leaf) =>
          match m.findChild parent leaf with
          | some _ => m
          | none => (m.insert parent leaf .regular addr).openNode addr flags fd
      else m

/-- `vfs_ramfs_mkdir`. -/
def vfsRamfsMkdir (rel : List UInt8) (addr : Nat) : Mount :=
  if addr ∈ m.live then m
  else
    match m.resolveParent m.root (relComponents rel) with
    | none => m
    | some (parent, leaf) =>
      match m.findChild parent leaf with
      | some _ => m
      | none => m.insert parent leaf .directory addr

/-- The node that `vfs_ramfs_unlink` takes out, with its parent. -/
def unlinkTarget (rel : List UInt8) : Option (Nat × Nat) :=
  match m.resolveParent m.root (relComponents rel) with
  | none => none
  | some (parent, leaf) =>
    match m.findChild parent leaf with
    | none => none
    | some target =>
      if (m.nodes target).type = .directory ∧ (m.nodes target).children ≠ [] then none
      else some (parent, target)

/-- `vfs_ramfs_unlink`.  `kfree` leaves the bytes of the node. -/
def vfsRamfsUnlink (rel : List UInt8) : Mount :=
  match m.unlinkTarget rel with
  | none => m
  | some (parent, target) =>
    { m.setNode parent
        { m.nodes parent with children := (m.nodes parent).children.erase target } with
      live := m.live.erase target }

/-! ### Bytes -/

/-- `ramfs_file_read` through `vfs_read`. -/
def read (fd count : Nat) : Mount :=
  match m.descs fd with
  | none => m
  | some d =>
    if d.dir then m
    else
      let got := (m.nodes d.node).read d.offset count
      let want := ((m.files d.file).drop d.pos).take count
      { m.setDesc fd (some { d with
          offset := add32 d.offset got.length
          pos := d.pos + want.length }) with
        log := m.log ++ [⟨got, want⟩] }

/-- `ramfs_file_write` through `vfs_write`; `fresh` is what `kmalloc` leaves in a new block. -/
def write (fd : Nat) (buf : List UInt8) (fresh : Nat → UInt8) : Mount :=
  match m.descs fd with
  | none => m
  | some d =>
    if d.dir then m
    else
      let n := m.nodes d.node
      let offset := n.writeOffset d
      let n' := n.write offset buf fresh
      let array := m.files d.file
      let pos := if d.append then array.length else d.pos
      { (m.setNode d.node n').setDesc fd (some { d with
          offset := add32 offset buf.length
          pos := pos + buf.length }) with
        overrun := m.overrun || decide (n'.cap < offset + buf.length)
        files := Function.update m.files d.file (writeAt array pos buf) }

/-- `ramfs_file_seek` through `vfs_seek`; the offset is an `off_t`. -/
def seek (fd : Nat) (offset : Int) (whence : Whence) : Mount :=
  match m.descs fd with
  | none => m
  | some d =>
    if d.dir then m
    else
      let off := (offset % 2 ^ 32).toNat
      match whence with
      | .set => m.setDesc fd (some { d with offset := off, pos := off })
      | .cur => m.setDesc fd (some { d with offset := add32 d.offset off, pos := add32 d.pos off })
      | .fromEnd => m.setDesc fd (some { d with
          offset := add32 (m.nodes d.node).size off
          pos := add32 (m.files d.file).length off })

end Mount

/-- The calls on the mount. -/
inductive Call where
  | openFd (rel : List UInt8) (flags : OpenFlags) (fd addr : Nat)
  | mkdir (rel : List UInt8) (addr : Nat)
  | unlink (rel : List UInt8)
  | read (fd count : Nat)
  | write (fd : Nat) (buf : List UInt8) (fresh : Nat → UInt8)
  | seek (fd : Nat) (offset : Int) (whence : Whence)
  | close (fd : Nat)

def Mount.step (m : Mount) : Call → Mount
  | .openFd rel flags fd addr => m.vfsRamfsOpen rel flags fd addr
  | .mkdir rel addr => m.vfsRamfsMkdir rel addr
  | .unlink rel => m.vfsRamfsUnlink rel
  | .read fd count => m.read fd count
  | .write fd buf fresh => m.write fd buf fresh
  | .seek fd offset whence => m.seek fd offset whence
  | .close fd => m.setDesc fd none

/-- Every read returned the bytes of the array, and no store left its block. -/
def Mount.Agrees (m : Mount) : Prop := (∀ r ∈ m.log, r.got = r.want) ∧ m.overrun = false

instance (m : Mount) : Decidable m.Agrees := by
  unfold Mount.Agrees
  infer_instance

/-- **The condition on a call.**  A write starts at most at the end of the file and ends below
4 GB, and a node is unlinked when no descriptor is on it. -/
def Mount.Fits (m : Mount) : Call → Prop
  | .write fd buf _ => ∀ d, m.descs fd = some d → d.dir = false →
      (m.nodes d.node).writeOffset d ≤ (m.nodes d.node).size ∧
        (m.nodes d.node).writeOffset d + buf.length < 2 ^ 32
  | .unlink rel => ∀ parent target, m.unlinkTarget rel = some (parent, target) →
      ∀ fd d, m.descs fd = some d → d.node ≠ target
  | _ => True

/-- A byte is written past the end of a new file, and the file is read from its start. -/
def gapCalls : List Call :=
  [.openFd [97] ⟨true, false, false⟩ 3 1, .seek 3 4 .set, .write 3 [1] (fun _ => 170),
    .seek 3 0 .set, .read 3 5]

/-- The gap reads as what the heap had there. -/
theorem gap_not_zero : ¬ (Run.run Mount.step (ramfsMount 0) gapCalls).Agrees := by
  decide

end Ramfs
