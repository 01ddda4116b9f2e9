import LufiraOS.Ramfs.Core

/-!
# RAMFS against its arrays

The nodes that are allocated form a tree below the root: each is in the list of children
of one directory at most, and a path leads to nodes of the tree only.  A node that
is unlinked with no descriptor on it is out of reach.  So each descriptor stays on the node it was
opened on, and the buffer of that node holds the array up to the size of the file.
-/

namespace Ramfs

open Function List Mount

open FatMount (OpenFlags Whence add32 writeAt)

variable {n : Node} {offset : Nat} {buf : List UInt8}

/-! ### One node -/

/-- The bytes of a file. -/
def Node.bytes (n : Node) : List UInt8 := (List.range n.size).map n.data

/-- A node has as many bytes as its size says. -/
@[simp] theorem length_bytes (n : Node) : n.bytes.length = n.size := by simp [Node.bytes]

/-- They are those of its buffer. -/
theorem getElem_bytes (n : Node) {i : Nat} (h : i < n.bytes.length) : n.bytes[i] = n.data i := by
  simp [Node.bytes]

/-- **A read returns the bytes** from the offset on. -/
theorem read_eq (n : Node) (offset count : Nat) :
    n.read offset count = (n.bytes.drop offset).take count := by
  unfold Node.read
  split
  · rw [drop_of_length_le (by rw [length_bytes]; assumption), take_nil]
  apply ext_getElem
  · simp
  · intro i hi hi'
    simp [Node.bytes]

/-- A write that starts in the file or at its end is a write to the array. -/
theorem bytes_write (fresh : Nat → UInt8)
    (hcap : n.size ≤ n.cap) (hoffset : offset ≤ n.size) (hend : offset + buf.length < 2 ^ 32) :
    (n.write offset buf fresh).bytes = writeAt n.bytes offset buf := by
  have hstop : add32 offset buf.length = offset + buf.length := Nat.mod_eq_of_lt hend
  by_cases hnil : buf = []
  · subst hnil
    have hstop' : add32 offset 0 = offset := hstop
    have hno : ¬ offset > n.cap := by omega
    have hno' : ¬ offset > n.size := by omega
    simp only [Node.write, Node.bytes, writeAt, length_nil, Nat.add_zero, hstop', if_neg hno,
      if_neg hno', if_pos]
    apply map_congr_left
    intro i _
    exact if_neg (by omega)
  have hzeros : offset - n.bytes.length = 0 := by rw [length_bytes]; omega
  unfold writeAt
  rw [if_neg hnil, hzeros, replicate_zero, append_nil]
  have hsize : (n.write offset buf fresh).size = max n.size (offset + buf.length) := by
    simp only [Node.write, hstop]
    split <;> omega
  apply ext_getElem
  · rw [length_bytes, hsize]
    simp only [length_append, length_take, length_drop, length_bytes]
    omega
  intro i hi hi'
  rw [length_bytes, hsize] at hi
  rw [getElem_bytes]
  have hdata : (n.write offset buf fresh).data i =
      if offset ≤ i ∧ i < offset + buf.length then buf.getD (i - offset) 0 else n.data i := by
    simp only [Node.write, hstop]
    split
    · rfl
    rename_i hout
    split
    · exact if_pos (by omega)
    · rfl
  rw [hdata]
  simp only [getElem_append, getElem_take, getElem_drop, length_append,
    length_take, length_bytes, getElem_bytes]
  split
  · rename_i hin
    rw [dif_pos (by omega), dif_neg (by omega), getD_eq_getElem _ _ (by omega)]
    congr 1
    omega
  rename_i hout
  split
  · rw [dif_pos (by omega)]
  · congr 1
    omega

/-- After a write the buffer holds what was written. -/
theorem write_cap (fresh : Nat → UInt8)
    (hcap : n.size ≤ n.cap) (hend : offset + buf.length < 2 ^ 32) :
    (n.write offset buf fresh).size ≤ (n.write offset buf fresh).cap ∧
      offset + buf.length ≤ (n.write offset buf fresh).cap := by
  have hstop : add32 offset buf.length = offset + buf.length := Nat.mod_eq_of_lt hend
  simp only [Node.write, hstop]
  split <;> split <;> omega

/-- The size stays within 32 bits. -/
theorem write_size_lt {fresh : Nat → UInt8}
    (hsize : n.size < 2 ^ 32) : (n.write offset buf fresh).size < 2 ^ 32 := by
  have hstop : add32 offset buf.length < 2 ^ 32 := Nat.mod_lt _ (by decide)
  simp only [Node.write]
  split <;> omega

/-! ### The invariant -/

/-- The allocated nodes form a forest of which the root is no child. -/
structure Mount.Tree (m : Mount) : Prop where
  root : m.root ∈ m.live
  nodup : m.live.Nodup
  child : ∀ a ∈ m.live, ∀ c ∈ (m.nodes a).children, c ∈ m.live ∧ c ≠ m.root
  once : ∀ a ∈ m.live, (m.nodes a).children.Nodup
  parent : ∀ a ∈ m.live, ∀ b ∈ m.live, ∀ c, c ∈ (m.nodes a).children → c ∈ (m.nodes b).children →
    a = b

/-- The invariant: a well-formed tree, buffers as large as the sizes say, contents as written,
descriptors on nodes of the tree, and reads that have agreed so far. -/
structure Mount.Sound (m : Mount) : Prop where
  tree : m.Tree
  file_lt : ∀ a ∈ m.live, (m.nodes a).file < m.count
  file_inj : ∀ a ∈ m.live, ∀ b ∈ m.live, (m.nodes a).file = (m.nodes b).file → a = b
  cap : ∀ a ∈ m.live, (m.nodes a).size ≤ (m.nodes a).cap ∧ (m.nodes a).size < 2 ^ 32
  bytes : ∀ a ∈ m.live, m.files (m.nodes a).file = (m.nodes a).bytes
  desc : ∀ fd d, m.descs fd = some d →
    d.node ∈ m.live ∧ (m.nodes d.node).file = d.file ∧ d.pos = d.offset ∧ d.offset < 2 ^ 32
  agrees : m.Agrees

/-- A new mount has an empty root. -/
theorem sound_mount (root : Nat) : (ramfsMount root).Sound where
  tree := {
    root := mem_singleton.2 rfl
    nodup := nodup_singleton _
    child := fun a _ c hc => by cases hc
    once := fun a _ => nodup_nil
    parent := fun a _ b _ c hc => by cases hc }
  file_lt a _ := Nat.one_pos
  file_inj a ha b hb _ := by
    rw [mem_singleton.1 ha, mem_singleton.1 hb]
  cap a _ := ⟨Nat.le_refl _, Nat.two_pow_pos 32⟩
  bytes a _ := rfl
  desc fd d h := by cases h
  agrees := ⟨(fun r hr => by cases hr), rfl⟩

/-! ### Paths lead to allocated nodes -/

section

variable {m : Mount}

/-- A child that is found is one. -/
theorem findChild_mem {dir c : Nat} {name : List UInt8} (h : m.findChild dir name = some c) :
    c ∈ (m.nodes dir).children :=
  mem_of_find?_eq_some h

/-- A path leads to nodes of the tree. -/
theorem resolve_live (hm : m.Tree) {comps : List (List UInt8)} {cur a : Nat} (hcur : cur ∈ m.live)
    (h : m.resolve cur comps = some a) : a ∈ m.live := by
  induction comps generalizing cur with
  | nil =>
    cases h
    exact hcur
  | cons comp rest ih =>
    unfold resolve at h
    split at h
    · cases hchild : m.findChild cur comp with
      | none =>
        rw [hchild] at h
        cases h
      | some child =>
        rw [hchild] at h
        exact ih (hm.child cur hcur child (findChild_mem hchild)).1 h
    · cases h

/-- So does the path to a parent. -/
theorem resolveParent_live (hm : m.Tree) {comps : List (List UInt8)} {cur p : Nat}
    {leaf : List UInt8} (hcur : cur ∈ m.live) (h : m.resolveParent cur comps = some (p, leaf)) :
    p ∈ m.live := by
  induction comps generalizing cur with
  | nil => cases h
  | cons comp rest ih =>
    cases rest with
    | nil =>
      unfold resolveParent at h
      split at h
      · cases h
        exact hcur
      · cases h
    | cons comp' rest' =>
      unfold resolveParent at h
      split at h
      · cases hchild : m.findChild cur comp with
        | none =>
          rw [hchild] at h
          cases h
        | some child =>
          rw [hchild] at h
          dsimp only at h
          split at h
          · exact ih (hm.child cur hcur child (findChild_mem hchild)).1 h
          · cases h
      · cases h

/-! ### Nodes are added and taken out -/

section

section

variable {parent addr : Nat} {leaf : List UInt8} {type : FileType}

/-- The new node is empty. -/
theorem insert_new (hne : parent ≠ addr) :
    (m.insert parent leaf type addr).nodes addr = nodeAlloc leaf type m.count := by
  simp [Mount.insert, Mount.setNode, update_of_ne hne.symm]

/-- Its parent has one child more, and the other nodes are as before. -/
theorem insert_old (hne : parent ≠ addr) {a : Nat} (ha : a ≠ addr) :
    (m.insert parent leaf type addr).nodes a = { m.nodes a with
      children := if a = parent then addr :: (m.nodes a).children else (m.nodes a).children } := by
  by_cases ha' : a = parent
  · subst ha'
    simp [Mount.insert, Mount.setNode, update_of_ne hne]
  · simp [Mount.insert, Mount.setNode, update_of_ne ha, ha']

theorem mem_children_insert (hne : parent ≠ addr) {a c : Nat} (ha : a ≠ addr)
    (hc : c ∈ ((m.insert parent leaf type addr).nodes a).children) :
    a = parent ∧ c = addr ∨ c ∈ (m.nodes a).children := by
  rw [insert_old hne ha] at hc
  split at hc
  · rename_i heq
    rcases mem_cons.1 hc with rfl | hc
    · exact .inl ⟨heq, rfl⟩
    · exact .inr hc
  · exact .inr hc

/-- **A new leaf** of the tree. -/
theorem Mount.Tree.insert (h : m.Tree) (hparent : parent ∈ m.live) (haddr : addr ∉ m.live) :
    (m.insert parent leaf type addr).Tree := by
  have hne : parent ≠ addr := fun h => haddr (h ▸ hparent)
  have hold : ∀ {a}, a ∈ m.live → a ≠ addr := fun ha h => haddr (h ▸ ha)
  have hempty : ∀ c, c ∉ ((m.insert parent leaf type addr).nodes addr).children := by
    intro c hc
    rw [insert_new hne] at hc
    cases hc
  have hfresh : ∀ a ∈ m.live, addr ∉ (m.nodes a).children :=
    fun a ha hc => haddr (h.child a ha addr hc).1
  refine ⟨mem_cons_of_mem _ h.root, nodup_cons.2 ⟨haddr, h.nodup⟩, ?_, ?_, ?_⟩
  · intro a ha c hc
    rcases mem_cons.1 ha with rfl | ha
    · exact absurd hc (hempty c)
    rcases mem_children_insert hne (hold ha) hc with ⟨-, rfl⟩ | hc
    · exact ⟨mem_cons_self, fun heq => haddr (heq ▸ h.root)⟩
    · obtain ⟨hc1, hc2⟩ := h.child a ha c hc
      exact ⟨mem_cons_of_mem _ hc1, hc2⟩
  · intro a ha
    rcases mem_cons.1 ha with rfl | ha
    · rw [insert_new hne]
      exact nodup_nil
    rw [insert_old hne (hold ha)]
    split
    · exact nodup_cons.2 ⟨hfresh a ha, h.once a ha⟩
    · exact h.once a ha
  · intro a ha b hb c hca hcb
    rcases mem_cons.1 ha with rfl | hla
    · exact absurd hca (hempty c)
    rcases mem_cons.1 hb with rfl | hlb
    · exact absurd hcb (hempty c)
    rcases mem_children_insert hne (hold hla) hca with ⟨hap, hcaddr⟩ | hca'
    · rcases mem_children_insert hne (hold hlb) hcb with ⟨hbp, -⟩ | hcb'
      · exact hap.trans hbp.symm
      · exact absurd (hcaddr ▸ hcb') (hfresh b hlb)
    rcases mem_children_insert hne (hold hlb) hcb with ⟨-, hcaddr⟩ | hcb'
    · exact absurd (hcaddr ▸ hca') (hfresh a hla)
    · exact h.parent a hla b hlb c hca' hcb'

end

variable (hm : m.Sound)

include hm

/-- **A new node** keeps the invariant. -/
theorem sound_insert {parent addr : Nat} (leaf : List UInt8) (type : FileType)
    (hparent : parent ∈ m.live) (haddr : addr ∉ m.live) :
    (m.insert parent leaf type addr).Sound := by
  have hne : parent ≠ addr := fun h => haddr (h ▸ hparent)
  have hnew : (m.insert parent leaf type addr).nodes addr = _ := insert_new hne
  have hold : ∀ a ∈ m.live, (m.insert parent leaf type addr).nodes a = _ :=
    fun a ha => insert_old hne fun h => haddr (h ▸ ha)
  refine ⟨hm.tree.insert hparent haddr, ?_, ?_, ?_, ?_, ?_, hm.agrees⟩
  · intro a ha
    rcases mem_cons.1 ha with rfl | ha
    · rw [hnew]
      exact Nat.lt_succ_self _
    · rw [hold a ha]
      exact Nat.lt_succ_of_lt (hm.file_lt a ha)
  · intro a ha b hb heq
    rcases mem_cons.1 ha with ha' | hla
    · rcases mem_cons.1 hb with hb' | hlb
      · exact ha'.trans hb'.symm
      · rw [ha', hnew, hold b hlb] at heq
        exact absurd heq.symm (Nat.ne_of_lt (hm.file_lt b hlb))
    rcases mem_cons.1 hb with hb' | hlb
    · rw [hb', hnew, hold a hla] at heq
      exact absurd heq (Nat.ne_of_lt (hm.file_lt a hla))
    · rw [hold a hla, hold b hlb] at heq
      exact hm.file_inj a hla b hlb heq
  · intro a ha
    rcases mem_cons.1 ha with rfl | ha
    · rw [hnew]
      exact ⟨Nat.le_refl _, Nat.two_pow_pos 32⟩
    · rw [hold a ha]
      exact hm.cap a ha
  · intro a ha
    rcases mem_cons.1 ha with rfl | ha
    · rw [hnew]
      exact update_self _ _ _
    rw [hold a ha]
    refine (update_of_ne ?_ _ _).trans (hm.bytes a ha)
    exact Nat.ne_of_lt (hm.file_lt a ha)
  · intro fd d hd
    obtain ⟨hlive, hfile, hpos⟩ := hm.desc fd d hd
    refine ⟨mem_cons_of_mem _ hlive, ?_, hpos⟩
    rw [hold _ hlive]
    exact hfile

/-- **A node that no descriptor holds** is taken out. -/
theorem sound_unlink {rel : List UInt8} (hfits : m.Fits (.unlink rel)) :
    (m.vfsRamfsUnlink rel).Sound := by
  unfold vfsRamfsUnlink
  cases htarget : m.unlinkTarget rel with
  | none => exact hm
  | some found =>
    obtain ⟨parent, target⟩ := found
    have hheld := hfits parent target htarget
    have hplace : parent ∈ m.live ∧ target ∈ (m.nodes parent).children := by
      unfold unlinkTarget at htarget
      split at htarget
      · cases htarget
      next p leaf hparent =>
      split at htarget
      · cases htarget
      next c hchild =>
      split at htarget
      · cases htarget
      cases htarget
      exact ⟨resolveParent_live hm.tree hm.tree.root hparent, findChild_mem hchild⟩
    obtain ⟨hparent, hchild⟩ := hplace
    have hroot := (hm.tree.child parent hparent target hchild).2
    dsimp only
    set m' : Mount := { m.setNode parent
        { m.nodes parent with children := (m.nodes parent).children.erase target } with
      live := m.live.erase target } with hm'
    -- only the children of the parent change, and the target leaves the allocated nodes
    have hnodes : ∀ a, m'.nodes a = { m.nodes a with children :=
        if a = parent then (m.nodes a).children.erase target else (m.nodes a).children } := by
      intro a
      by_cases ha : a = parent
      · subst ha
        simp [hm', setNode]
      · simp [hm', setNode, ha]
    have hlive : ∀ {a}, a ∈ m'.live ↔ a ≠ target ∧ a ∈ m.live := hm.tree.nodup.mem_erase_iff
    have hold : ∀ {a}, a ∈ m'.live → a ∈ m.live := fun ha => (hlive.1 ha).2
    have hmem : ∀ {a c}, a ∈ m'.live → c ∈ (m'.nodes a).children →
        c ∈ (m.nodes a).children ∧ c ≠ target := by
      intro a c ha hc
      rw [hnodes a] at hc
      split at hc
      · obtain ⟨hne, hc⟩ := ((hm.tree.once a (hold ha)).mem_erase_iff).1 hc
        exact ⟨hc, hne⟩
      rename_i hne
      refine ⟨hc, fun h => hne ?_⟩
      subst h
      exact hm.tree.parent a (hold ha) parent hparent c hc hchild
    refine ⟨⟨hlive.2 ⟨hroot.symm, hm.tree.root⟩, hm.tree.nodup.erase target, ?_, ?_, ?_⟩, ?_, ?_,
      ?_, ?_, ?_, hm.agrees⟩
    · intro a ha c hc
      obtain ⟨hc', hne⟩ := hmem ha hc
      obtain ⟨hclive, hcroot⟩ := hm.tree.child a (hold ha) c hc'
      exact ⟨hlive.2 ⟨hne, hclive⟩, hcroot⟩
    · intro a ha
      rw [hnodes a]
      split
      · exact (hm.tree.once a (hold ha)).erase target
      · exact hm.tree.once a (hold ha)
    · intro a ha b hb c hca hcb
      exact hm.tree.parent a (hold ha) b (hold hb) c (hmem ha hca).1 (hmem hb hcb).1
    · intro a ha
      rw [hnodes a]
      exact hm.file_lt a (hold ha)
    · intro a ha b hb heq
      rw [hnodes a, hnodes b] at heq
      exact hm.file_inj a (hold ha) b (hold hb) heq
    · intro a ha
      rw [hnodes a]
      exact hm.cap a (hold ha)
    · intro a ha
      rw [hnodes a]
      exact hm.bytes a (hold ha)
    · intro fd d hd
      obtain ⟨hdlive, hfile, hpos⟩ := hm.desc fd d hd
      rw [hnodes d.node]
      exact ⟨hlive.2 ⟨hheld fd d hd, hdlive⟩, hfile, hpos⟩

/-! ### Descriptors and bytes -/

/-- A descriptor on an allocated node is set. -/
theorem sound_setDesc (fd : Nat) (d : Option Desc) (hd : ∀ d', d = some d' →
      d'.node ∈ m.live ∧ (m.nodes d'.node).file = d'.file ∧ d'.pos = d'.offset ∧
        d'.offset < 2 ^ 32) :
    (m.setDesc fd d).Sound := by
  refine { hm with tree := { hm.tree with }, desc := fun i x hx => ?_ }
  by_cases hi : i = fd
  · subst hi
    have hself : (m.setDesc i d).descs i = d := update_self _ _ _
    exact hd x (hself.symm.trans hx)
  · have hother : (m.setDesc fd d).descs i = m.descs i := update_of_ne hi _ _
    exact hm.desc i x (hother.symm.trans hx)

/-- The bytes of an allocated node and its array change together. -/
theorem sound_setBytes {a : Nat} {array : List UInt8} (ha : a ∈ m.live)
    (hchildren : n.children = (m.nodes a).children) (hfile : n.file = (m.nodes a).file)
    (hcap : n.size ≤ n.cap ∧ n.size < 2 ^ 32) (hbytes : array = n.bytes) :
    ({ m.setNode a n with files := Function.update m.files n.file array } : Mount).Sound := by
  have hself : (m.setNode a n).nodes a = n := update_self _ _ _
  have hother : ∀ {b}, b ≠ a → (m.setNode a n).nodes b = m.nodes b := fun h => update_of_ne h _ _
  have hfiles : ∀ b, ((m.setNode a n).nodes b).file = (m.nodes b).file ∧
      ((m.setNode a n).nodes b).children = (m.nodes b).children := by
    intro b
    by_cases hb : b = a
    · subst hb
      rw [hself]
      exact ⟨hfile, hchildren⟩
    · rw [hother hb]
      exact ⟨rfl, rfl⟩
  refine ⟨⟨hm.tree.root, hm.tree.nodup, ?_, ?_, ?_⟩, ?_, ?_, ?_, ?_, ?_, hm.agrees⟩
  · simp only [hfiles]
    exact hm.tree.child
  · simp only [hfiles]
    exact hm.tree.once
  · simp only [hfiles]
    exact hm.tree.parent
  · simp only [hfiles]
    exact hm.file_lt
  · simp only [hfiles]
    exact hm.file_inj
  · intro b hb
    by_cases heq : b = a
    · subst heq
      rw [hself]
      exact hcap
    · rw [hother heq]
      exact hm.cap b hb
  · intro b hb
    dsimp only
    by_cases heq : b = a
    · subst heq
      rw [hself, update_self]
      exact hbytes
    have hne : (m.nodes b).file ≠ n.file := by
      rw [hfile]
      exact fun h => heq (hm.file_inj b hb a ha h)
    rw [hother heq, update_of_ne hne]
    exact hm.bytes b hb
  · simp only [hfiles]
    exact hm.desc

/-- A node of the tree is opened. -/
theorem sound_openNode {node fd : Nat} (flags : OpenFlags) (hnode : node ∈ m.live) :
    (m.openNode node flags fd).Sound := by
  unfold openNode
  dsimp only
  split
  · refine sound_setDesc hm fd _ fun d hd => ?_
    cases hd
    exact ⟨hnode, rfl, rfl, Nat.two_pow_pos 32⟩
  -- the descriptor starts at the end of the array or at 0
  generalize hm' : (if flags.trunc = true then
      ({ m.setNode node { m.nodes node with size := 0 } with
        files := Function.update m.files (m.nodes node).file [] } : Mount)
    else m) = m'
  have hsound : m'.Sound ∧ node ∈ m'.live ∧ (m'.nodes node).file = (m.nodes node).file := by
    subst hm'
    split
    · refine ⟨sound_setBytes hm hnode rfl rfl ⟨Nat.zero_le _, Nat.two_pow_pos 32⟩ rfl, hnode, ?_⟩
      simp [setNode]
    · exact ⟨hm, hnode, rfl⟩
  obtain ⟨hsound, hnode', hfile⟩ := hsound
  refine sound_setDesc hsound fd _ fun d hd => ?_
  cases hd
  have hbytes := hsound.bytes node hnode'
  have hsize := (hsound.cap node hnode').2
  rw [hfile] at hbytes
  dsimp only
  rw [hbytes, length_bytes]
  refine ⟨hnode', hfile, rfl, ?_⟩
  split <;> omega

/-- `vfs_ramfs_open`. -/
theorem sound_open (rel : List UInt8) (flags : OpenFlags) (fd addr : Nat) :
    (m.vfsRamfsOpen rel flags fd addr).Sound := by
  unfold vfsRamfsOpen
  split
  · exact hm
  rename_i hfree
  have haddr : addr ∉ m.live := fun h => hfree (.inr h)
  cases hresolve : m.resolve m.root (relComponents rel) with
  | some node => exact sound_openNode hm flags (resolve_live hm.tree hm.tree.root hresolve)
  | none =>
    dsimp only
    split
    · cases hparent : m.resolveParent m.root (relComponents rel) with
      | none => exact hm
      | some found =>
        obtain ⟨parent, leaf⟩ := found
        dsimp only
        cases hchild : m.findChild parent leaf with
        | some c => exact hm
        | none =>
          have hinsert := sound_insert hm leaf .regular
            (resolveParent_live hm.tree hm.tree.root hparent) haddr
          exact sound_openNode hinsert flags mem_cons_self
    · exact hm

/-- `vfs_ramfs_mkdir`. -/
theorem sound_mkdir (rel : List UInt8) (addr : Nat) : (m.vfsRamfsMkdir rel addr).Sound := by
  unfold vfsRamfsMkdir
  split
  · exact hm
  rename_i haddr
  cases hparent : m.resolveParent m.root (relComponents rel) with
  | none => exact hm
  | some found =>
    obtain ⟨parent, leaf⟩ := found
    dsimp only
    cases hchild : m.findChild parent leaf with
    | some c => exact hm
    | none =>
      exact sound_insert hm leaf .directory (resolveParent_live hm.tree hm.tree.root hparent) haddr

/-- A read that returned the bytes of the array is recorded. -/
theorem sound_log {bytes : List UInt8} :
    ({ m with log := m.log ++ [⟨bytes, bytes⟩] } : Mount).Sound := by
  refine { hm with tree := { hm.tree with }, agrees := ⟨fun r hr => ?_, hm.agrees.2⟩ }
  rcases mem_append.1 hr with hr | hr
  · exact hm.agrees.1 r hr
  · rw [mem_singleton.1 hr]

/-- A read agrees with the content kept beside the mount. -/
theorem sound_read (fd count : Nat) : (m.read fd count).Sound := by
  unfold Mount.read
  cases hfd : m.descs fd with
  | none => exact hm
  | some d =>
    dsimp only
    split
    · exact hm
    obtain ⟨hlive, hfile, hpos, hoffset⟩ := hm.desc fd d hfd
    have hbytes := hm.bytes d.node hlive
    rw [hfile] at hbytes
    have hgot : (m.nodes d.node).read d.offset count =
        ((m.files d.file).drop d.pos).take count := by
      rw [read_eq, hbytes, hpos]
    rw [hgot]
    -- what was read lies below the size, so the offset does not wrap
    have hsum : d.offset + (((m.files d.file).drop d.pos).take count).length < 2 ^ 32 := by
      have hsize := (hm.cap d.node hlive).2
      rw [hbytes, hpos, length_take, length_drop, length_bytes]
      omega
    have hadd : add32 d.offset (((m.files d.file).drop d.pos).take count).length =
        d.offset + (((m.files d.file).drop d.pos).take count).length := Nat.mod_eq_of_lt hsum
    refine sound_log (sound_setDesc hm fd _ fun d' hd' => ?_)
    cases hd'
    refine ⟨hlive, hfile, ?_, ?_⟩
    · rw [hadd, hpos]
    rw [hadd]
    exact hsum

/-- A write changes the node and the content kept beside it alike. -/
theorem sound_write {fd : Nat} {fresh : Nat → UInt8}
    (hfits : m.Fits (.write fd buf fresh)) : (m.write fd buf fresh).Sound := by
  unfold write
  cases hfd : m.descs fd with
  | none => exact hm
  | some d =>
    dsimp only
    split
    · exact hm
    rename_i hdir
    obtain ⟨hoffset, hend⟩ := hfits d hfd (Bool.eq_false_iff.2 hdir)
    obtain ⟨hlive, hfile, hpos, -⟩ := hm.desc fd d hfd
    have hbytes := hm.bytes d.node hlive
    rw [hfile] at hbytes
    have hcap := hm.cap d.node hlive
    have hat : (if d.append = true then (m.files d.file).length else d.pos) =
        (m.nodes d.node).writeOffset d := by
      rw [hbytes, length_bytes, hpos]
      rfl
    rw [hat]
    generalize (m.nodes d.node).writeOffset d = offset at hoffset hend
    have hwrite := bytes_write fresh hcap.1 hoffset hend
    obtain ⟨hcap', hroom⟩ := write_cap fresh hcap.1 hend
    have hno : (m.overrun || decide (((m.nodes d.node).write offset buf fresh).cap <
        offset + buf.length)) = m.overrun := by
      rw [decide_eq_false (by omega), Bool.or_false]
    rw [hno, hbytes, ← hfile]
    have hnode := sound_setBytes (n := (m.nodes d.node).write offset buf fresh) hm hlive rfl rfl
      ⟨hcap', write_size_lt hcap.2⟩ hwrite.symm
    have hadd : add32 offset buf.length = offset + buf.length := Nat.mod_eq_of_lt hend
    refine sound_setDesc hnode fd (some { d with
      file := (m.nodes d.node).file, offset := add32 offset buf.length
      pos := offset + buf.length }) fun d' hd' => ?_
    cases hd'
    refine ⟨hlive, ?_, hadd.symm, hadd ▸ hend⟩
    have hself : (m.setNode d.node ((m.nodes d.node).write offset buf fresh)).nodes d.node =
      (m.nodes d.node).write offset buf fresh := update_self _ _ _
    rw [hself]
    rfl

/-- A seek moves the offset only. -/
theorem sound_seek (fd : Nat) (offset : Int) (whence : Whence) :
    (m.seek fd offset whence).Sound := by
  unfold seek
  cases hfd : m.descs fd with
  | none => exact hm
  | some d =>
    dsimp only
    split
    · exact hm
    obtain ⟨hlive, hfile, hpos, -⟩ := hm.desc fd d hfd
    have hbytes := hm.bytes d.node hlive
    rw [hfile] at hbytes
    have hadd : ∀ a b, add32 a b < 2 ^ 32 := fun a b => Nat.mod_lt _ (Nat.two_pow_pos 32)
    cases whence
    all_goals
      refine sound_setDesc hm fd _ fun d' hd' => ?_
      cases hd'
    case set.refl =>
      refine ⟨hlive, hfile, rfl, ?_⟩
      dsimp only
      omega
    case cur.refl =>
      refine ⟨hlive, hfile, ?_, hadd _ _⟩
      rw [hpos]
    case fromEnd.refl =>
      refine ⟨hlive, hfile, ?_, hadd _ _⟩
      rw [hbytes, length_bytes]

end

end

/-! ### Whole runs -/

/-- **Every call that fits** keeps the invariant. -/
theorem sound_step {m : Mount} {c : Call} (hm : m.Sound) (hfits : m.Fits c) : (m.step c).Sound := by
  cases c with
  | openFd rel flags fd addr => exact sound_open hm rel flags fd addr
  | mkdir rel addr => exact sound_mkdir hm rel addr
  | unlink rel => exact sound_unlink hm hfits
  | read fd count => exact sound_read hm fd count
  | write fd buf fresh => exact sound_write hm hfits
  | seek fd offset whence => exact sound_seek hm fd offset whence
  | close fd => exact sound_setDesc hm fd none fun _ h => by cases h

/-- **Reads return the bytes of the arrays.**  In every run whose writes leave no gap and stay below
4 GB, and that unlinks only nodes without descriptors, every read has returned what the array of
its file holds. -/
theorem reads_agree (root : Nat) (calls : List Call)
    (hcalls : Run.Meets Mount.step Mount.Fits (ramfsMount root) calls) :
    (Run.run Mount.step (ramfsMount root) calls).Agrees :=
  (hcalls.invariant (fun _ _ hm hfits => sound_step hm hfits) (sound_mount root)).agrees

/-- Two descriptors on one file: the second reads what the first has written. -/
def sharedCalls : List Call :=
  [.openFd [97] ⟨true, false, false⟩ 3 1, .write 3 [1, 2] (fun _ => 170),
    .openFd [97] ⟨false, false, true⟩ 4 2, .write 4 [3] (fun _ => 170), .seek 3 0 .set, .read 3 5]

/-- Two descriptors of one file: what is written through the first is read through the second. -/
theorem reads_agree_shared :
    (Run.run Mount.step (ramfsMount 0) sharedCalls).log = [⟨[1, 2, 3], [1, 2, 3]⟩] ∧
      (Run.run Mount.step (ramfsMount 0) sharedCalls).Agrees := by
  refine ⟨by decide, reads_agree 0 sharedCalls
    ⟨trivial, ?_, trivial, ?_, trivial, trivial, trivial⟩⟩
  · intro d hd _
    cases hd
    decide
  intro d hd _
  cases hd
  decide

end Ramfs
