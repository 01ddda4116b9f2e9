import LufiraOS.Lib.Holding
import LufiraOS.Vfs.Process

/-!
# References to open files

The `ref_count` of an open file is the number of descriptors that point to it,
and the `readers` and `writers` of a pipe are the numbers of descriptors that
hold its ends.  `Referenced` states that for a system; `RefsOk` is the invariant
behind it, which allows for ends of a pipe that are counted already and not
installed yet.  Opening, duplicating and closing one descriptor keep it.
-/

namespace Vfs

open LufiraFs ByteStore Holding Function

/-- The file is the `ops` end of the pipe `p`. -/
def File.isEnd (f : File) (ops : Ops) (p : Nat) : Bool :=
  f.ops = some ops ∧ f.inode.map VInode.privateData = some (.pipe p)

namespace Sys

/-- The descriptor tables, as one table. -/
def fdAt (s : Sys) (k : Nat × Nat) : Option Nat := s.tables k.1 k.2

/-- The descriptor slots of the processes whose resources are not freed. -/
def fdSlots (s : Sys) : Finset (Nat × Nat) :=
  ((Finset.range s.nextPid).filter fun pid => s.live pid) ×ˢ Finset.range maxFdPerProcess

/-- The number of descriptors that point to a slot of `file_table`. -/
def refsTo (s : Sys) (slot : Nat) : Nat := holders s.fdSlots s.fdAt fun x => x = slot

/-- The slot of `file_table` holds the `ops` end of the pipe `p`. -/
def endAt (s : Sys) (ops : Ops) (p slot : Nat) : Bool := (s.files slot).any fun f => f.isEnd ops p

/-- The number of descriptors that hold the `ops` end of the pipe `p`. -/
def endsOf (s : Sys) (ops : Ops) (p : Nat) : Nat := holders s.fdSlots s.fdAt (s.endAt ops p)

/-- **References are counted.**  Reference counts are numbers of descriptors, what
has a descriptor is alive, what has none is freed, and nothing that has been
freed is used again. -/
structure Referenced (s : Sys) : Prop where
  count : ∀ slot f, s.files slot = some f →
    ∃ inode, f.inode = some inode ∧ inode.refCount = s.refsTo slot
  points : ∀ pid fd slot, s.tables pid fd = some slot → ∃ f, s.files slot = some f
  ends : ∀ p pipe, s.pipes p = some pipe →
    pipe.readers = s.endsOf .pipeRead p ∧ pipe.writers = s.endsOf .pipeWrite p
  fileFreed : ∀ slot, s.files slot = none ↔ s.refsTo slot = 0
  pipeFreed : ∀ p < s.nextPipe,
    s.pipes p = none ↔ s.endsOf .pipeRead p = 0 ∧ s.endsOf .pipeWrite p = 0
  noFault : s.fault = false

/-- The invariant.  `owed ops p` is the number of `ops` ends of the pipe `p` that
the pipe counts already and that have no descriptor yet. -/
structure RefsOk (s : Sys) (owed : Ops → Nat → Nat) : Prop where
  pids : ∀ pid, s.live pid = true → pid < s.nextPid
  owned : ∀ pid fd slot, s.tables pid fd = some slot → s.live pid = true ∧ fd < maxFdPerProcess
  points : ∀ pid fd slot, s.tables pid fd = some slot → s.files slot ≠ none
  count : ∀ slot f, s.files slot = some f →
    ∃ inode, f.inode = some inode ∧ inode.refCount = s.refsTo slot ∧ 0 < s.refsTo slot
  pipeFile : ∀ slot f inode p, s.files slot = some f → f.inode = some inode →
    inode.privateData = .pipe p →
    inode.type = .pipe ∧ (f.ops = some .pipeRead ∨ f.ops = some .pipeWrite) ∧ s.pipes p ≠ none
  ends : ∀ p pipe, s.pipes p = some pipe →
    pipe.readers = s.endsOf .pipeRead p + owed .pipeRead p ∧
      pipe.writers = s.endsOf .pipeWrite p + owed .pipeWrite p ∧ 0 < pipe.readers + pipe.writers
  fresh : ∀ p, s.nextPipe ≤ p → s.pipes p = none
  noFault : s.fault = false

/-- Nothing is owed. -/
def square : Ops → Nat → Nat := fun _ _ => 0

section

variable {s : Sys} {owed : Ops → Nat → Nat} {pid fd slot : Nat}
  {p : Nat} {f : File} {inode : VInode}

theorem RefsOk.mem_fdSlots (h : RefsOk s owed) (hlive : s.live pid = true)
    (hfd : fd < maxFdPerProcess) : (pid, fd) ∈ s.fdSlots := by
  simp only [fdSlots, Finset.mem_product, Finset.mem_filter, Finset.mem_range]
  exact ⟨⟨h.pids pid hlive, hlive⟩, hfd⟩

/-- A free slot of `file_table` has no descriptors. -/
theorem RefsOk.not_held (h : RefsOk s owed) (hfree : s.files slot = none) {k : Nat × Nat} {x : Nat}
    (hk : s.fdAt k = some x) : x ≠ slot := by
  rintro rfl
  exact h.points k.1 k.2 x hk hfree

theorem RefsOk.refsTo_eq_zero (h : RefsOk s owed) (hfree : s.files slot = none) :
    s.refsTo slot = 0 := by
  by_contra hne
  obtain ⟨k, _, x, hx, heq⟩ := holders_pos.1 (Nat.pos_of_ne_zero hne)
  exact h.not_held hfree hx (by simpa using heq)

/-- No descriptor holds an end of a pipe that does not exist. -/
theorem RefsOk.endsOf_eq_zero (h : RefsOk s owed) (hfree : s.pipes p = none) (ops : Ops) :
    s.endsOf ops p = 0 := by
  by_contra hne
  obtain ⟨_, _, x, _, hend⟩ := holders_pos.1 (Nat.pos_of_ne_zero hne)
  simp only [endAt, Option.any_eq_true, File.isEnd, decide_eq_true_eq,
    Option.map_eq_some_iff] at hend
  obtain ⟨f, hf, _, inode, hinode, hpriv⟩ := hend
  exact (h.pipeFile x f inode p hf hinode hpriv).2.2 hfree

/-- When nothing is owed the invariant says that references are counted. -/
theorem RefsOk.referenced (h : RefsOk s square) : Referenced s := by
  refine ⟨?_, ?_, ?_, ?_, ?_, h.noFault⟩
  · intro slot f hf
    obtain ⟨inode, hinode, hcount, _⟩ := h.count slot f hf
    exact ⟨inode, hinode, hcount⟩
  · intro pid fd slot hfd
    exact Option.ne_none_iff_exists'.1 (h.points pid fd slot hfd)
  · intro p pipe hp
    obtain ⟨hr, hw, _⟩ := h.ends p pipe hp
    exact ⟨by simpa [square] using hr, by simpa [square] using hw⟩
  · intro slot
    refine ⟨h.refsTo_eq_zero, fun hzero => ?_⟩
    cases hf : s.files slot with
    | none => rfl
    | some f =>
      obtain ⟨_, _, _, hpos⟩ := h.count slot f hf
      omega
  intro p _
  refine ⟨fun hfree => ⟨h.endsOf_eq_zero hfree _, h.endsOf_eq_zero hfree _⟩, ?_⟩
  rintro ⟨hr0, hw0⟩
  cases hp : s.pipes p with
  | none => rfl
  | some pipe =>
    obtain ⟨hr, hw, hpos⟩ := h.ends p pipe hp
    rw [hr0] at hr
    rw [hw0] at hw
    simp only [square] at hr hw
    omega

theorem fdAt_congr {s' : Sys} (h : s'.tables = s.tables) : s'.fdAt = s.fdAt :=
  funext fun k => congrFun (congrFun h k.1) k.2

theorem fdAt_setFd (v : Option Nat) : (s.setFd pid fd v).fdAt = update s.fdAt (pid, fd) v := by
  funext k
  obtain ⟨pid', fd'⟩ := k
  simp only [fdAt, setFd, update_apply, Prod.mk.injEq]
  split_ifs <;> simp_all

theorem isEnd_iff (hi : f.inode = some inode) (ops : Ops) (p : Nat) :
    f.isEnd ops p = true ↔ f.ops = some ops ∧ inode.privateData = .pipe p := by
  simp [File.isEnd, hi]

/-! ## One descriptor is set -/

/-- A descriptor of a live process comes to point to `slot`, or did and no longer does.  Before
that the file in the slot becomes `new`, an end of the same pipe as `f`, and counts the
descriptor. -/
structure Rewires (s s' : Sys) (pid fd slot : Nat) (v : Option Nat) (f : File)
    (new : Option File) : Prop where
  live : s.live pid = true
  range : fd < maxFdPerProcess
  value : s.tables pid fd = none ∧ v = some slot ∨ s.tables pid fd = some slot ∧ v = none
  table : s'.fdAt = update s.fdAt (pid, fd) v
  frame : s'.live = s.live ∧ s'.nextPid = s.nextPid ∧
    s'.nextPipe = s.nextPipe ∧ s'.fault = s.fault
  files : s'.files = update s.files slot new
  isEnd : ∀ g, s.files slot = some g ∨ new = some g → ∀ ops p, g.isEnd ops p = f.isEnd ops p
  file : ∀ g, new = some g → ∃ i, g.inode = some i ∧ 0 < i.refCount ∧
    i.refCount + (if v = none then 1 else 0) = s.refsTo slot + (if v = none then 0 else 1) ∧
    ∀ p, i.privateData = .pipe p → i.type = .pipe ∧
      (g.ops = some .pipeRead ∨ g.ops = some .pipeWrite) ∧ s.pipes p ≠ none
  gone : new = none → v = none ∧ s.refsTo slot ≤ 1

section

variable {s' : Sys} {v : Option Nat} {new : Option File} (hw : Rewires s s' pid fd slot v f new)
  (h : RefsOk s owed)

include hw

theorem Rewires.fdSlots : s'.fdSlots = s.fdSlots := by
  rw [Sys.fdSlots, hw.frame.1, hw.frame.2.1, Sys.fdSlots]

include h

theorem Rewires.owned {pid' fd' x : Nat} (hx : s'.tables pid' fd' = some x) :
    s.live pid' = true ∧ fd' < maxFdPerProcess ∧ (x ≠ slot → s.tables pid' fd' = some x) := by
  have hx' : s'.fdAt (pid', fd') = some x := hx
  rw [hw.table, update_apply] at hx'
  split_ifs at hx' with heq
  · cases heq
    refine ⟨hw.live, hw.range, fun hne => ?_⟩
    rcases hw.value with ⟨_, hv⟩ | ⟨_, hv⟩ <;> cases hv.symm.trans hx'
    exact absurd rfl hne
  · obtain ⟨hlive, hlt⟩ := h.owned pid' fd' x hx'
    exact ⟨hlive, hlt, fun _ => hx'⟩

theorem Rewires.holders_eq (P : Nat → Bool) :
    holders s'.fdSlots s'.fdAt P +
        (if v = none ∧ P slot then 1 else 0) =
      holders s.fdSlots s.fdAt P + if v ≠ none ∧ P slot then 1 else 0 := by
  have hk := h.mem_fdSlots hw.live hw.range
  rw [hw.fdSlots, hw.table]
  rcases hw.value with ⟨hnone, rfl⟩ | ⟨hsome, rfl⟩
  · simpa using holders_give (T := s.fdAt) hk hnone slot
  · simpa using (holders_take (T := s.fdAt) hk hsome).symm

theorem Rewires.refsTo (x : Nat) :
    s'.refsTo x + (if v = none ∧ slot = x then 1 else 0) =
      s.refsTo x + if v ≠ none ∧ slot = x then 1 else 0 := by
  have hall := hw.holders_eq h fun y => decide (y = x)
  simp only [decide_eq_true_eq] at hall
  exact hall

/-- A descriptor that is left points to a file that is left. -/
theorem Rewires.points {pid' fd' x : Nat} (hx : s'.tables pid' fd' = some x) :
    s'.files x ≠ none := by
  obtain ⟨hlive, hlt, hold⟩ := hw.owned h hx
  rw [hw.files, update_apply]
  split_ifs with heq
  · intro hnone
    obtain ⟨rfl, hone⟩ := hw.gone hnone
    have hheld : 0 < s'.refsTo slot :=
      holders_pos.2 ⟨(pid', fd'), hw.fdSlots ▸ h.mem_fdSlots hlive hlt, x, hx, by simp [heq]⟩
    have hrefs := hw.refsTo h slot
    simp only [true_and, if_true, ne_eq, not_true_eq_false, false_and, if_false] at hrefs
    omega
  · exact h.points pid' fd' x (hold heq)

theorem Rewires.endsOf (ops : Ops) (p : Nat) :
    s'.endsOf ops p + (if v = none ∧ f.isEnd ops p then 1 else 0) =
      s.endsOf ops p + if v ≠ none ∧ f.isEnd ops p then 1 else 0 := by
  obtain ⟨P, hP⟩ : ∃ P : Nat → Bool, ∀ x, P x = if x = slot then f.isEnd ops p else
    s.endAt ops p x := ⟨_, fun _ => rfl⟩
  have hold : holders s.fdSlots s.fdAt P = s.endsOf ops p := by
    refine holders_congr fun k _ x hx => ?_
    obtain ⟨g, hg⟩ := Option.ne_none_iff_exists'.1 (h.points k.1 k.2 x hx)
    rw [hP]
    split_ifs with heq
    · rw [endAt, hg, Option.any_some, hw.isEnd g (.inl (heq ▸ hg))]
    · rfl
  have hnew : holders s'.fdSlots s'.fdAt P =
      s'.endsOf ops p := by
    refine holders_congr fun k _ x hx => ?_
    obtain ⟨g, hg⟩ := Option.ne_none_iff_exists'.1
      (hw.points h (show s'.tables k.1 k.2 = _ from hx))
    have hat : s'.endAt ops p x = g.isEnd ops p := by simp [endAt, hg]
    rw [hw.files, update_apply] at hg
    rw [hP, hat]
    split_ifs at hg ⊢ with heq
    · rw [hw.isEnd g (.inr hg)]
    · rw [endAt, hg, Option.any_some]
  have hall := hw.holders_eq h P
  rw [hold, hnew, hP, if_pos rfl] at hall
  exact hall

theorem RefsOk.rewire {owed' : Ops → Nat → Nat} (hpipes : ∀ p, s.pipes p = none → s'.pipes p = none)
    (hdead : ∀ p, s'.pipes p = none → s.pipes p = none ∨
      s'.endsOf .pipeRead p = 0 ∧ s'.endsOf .pipeWrite p = 0)
    (hends : ∀ p pipe, s'.pipes p = some pipe →
      pipe.readers = s'.endsOf .pipeRead p + owed' .pipeRead p ∧
        pipe.writers = s'.endsOf .pipeWrite p + owed' .pipeWrite p ∧
        0 < pipe.readers + pipe.writers) : RefsOk s' owed' := by
  obtain ⟨hlive, hnext, hnextPipe, hfault⟩ := hw.frame
  have hfile : ∀ x g, s'.files x = some g → ∃ i, g.inode = some i ∧
      i.refCount = s'.refsTo x ∧ 0 < s'.refsTo x ∧
      ∀ p, i.privateData = .pipe p → i.type = .pipe ∧
        (g.ops = some .pipeRead ∨ g.ops = some .pipeWrite) ∧ s.pipes p ≠ none := by
    intro x g hg
    have hrefs := hw.refsTo h x
    rw [hw.files, update_apply] at hg
    split_ifs at hg with heq
    · obtain ⟨i, hi, hpos, hcount, hpipe⟩ := hw.file g hg
      simp only [heq, and_true, ne_eq, ite_not] at hrefs ⊢
      exact ⟨i, hi, by omega, by omega, hpipe⟩
    · obtain ⟨i, hi, hcount, hpos⟩ := h.count x g hg
      simp only [Ne.symm heq, and_false, if_false, Nat.add_zero] at hrefs
      exact ⟨i, hi, hcount.trans hrefs.symm, hrefs ▸ hpos, fun p => h.pipeFile x g i p hg hi⟩
  refine ⟨fun pid' hl => hnext ▸ h.pids pid' (hlive ▸ hl), fun pid' fd' x hx => ?_,
    fun _ _ _ hx => hw.points h hx, fun x g hg => ?_, fun x g i p hg hi hpriv => ?_, hends,
    fun p hge => hpipes p (h.fresh p (hnextPipe ▸ hge)), hfault.trans h.noFault⟩
  · obtain ⟨hl, hlt, _⟩ := hw.owned h hx
    exact ⟨(congrFun hlive pid').trans hl, hlt⟩
  · obtain ⟨i, hi, hcount, hpos, _⟩ := hfile x g hg
    exact ⟨i, hi, hcount, hpos⟩
  obtain ⟨i', hi', _, hheld, hpipe⟩ := hfile x g hg
  cases hi.symm.trans hi'
  obtain ⟨htype, hops, hsome⟩ := hpipe p hpriv
  refine ⟨htype, hops, fun hnone => ?_⟩
  rcases hdead p hnone with hnone | hzero
  · exact hsome hnone
  -- the pipe is freed, so no descriptor holds one of its ends
  obtain ⟨k, hk, y, hy, heq⟩ := holders_pos.1 hheld
  have hyx : y = x := by simpa using heq
  have hat : ∀ ops, g.ops = some ops → s'.endsOf ops p ≠ 0 := by
    intro ops hgops
    have hend : s'.endAt ops p y = true := by
      rw [endAt, hyx, hg, Option.any_some, isEnd_iff hi]
      exact ⟨hgops, hpriv⟩
    exact Nat.pos_iff_ne_zero.1 (holders_pos.2 ⟨k, hk, y, hy, hend⟩)
  rcases hops with hops | hops
  · exact hat _ hops hzero.1
  · exact hat _ hops hzero.2

end

/-! ## Opening -/

/-- **Opening.**  A new file in a free slot, in a free descriptor. -/
theorem RefsOk.install {owed' : Ops → Nat → Nat} (h : RefsOk s owed) (hlive : s.live pid = true)
    (hfd : fd < maxFdPerProcess) (hnone : s.tables pid fd = none) (hfree : s.files slot = none)
    (hinode : f.inode = some inode) (hone : inode.refCount = 1)
    (hpipe : ∀ p, inode.privateData = .pipe p → inode.type = .pipe ∧
      (f.ops = some .pipeRead ∨ f.ops = some .pipeWrite) ∧ s.pipes p ≠ none)
    (howed : ∀ ops p, owed ops p = owed' ops p + if f.isEnd ops p then 1 else 0) :
    RefsOk (s.install pid fd slot f) owed' := by
  have hw : Rewires s (s.install pid fd slot f) pid fd slot (some slot) f (some f) := by
    refine ⟨hlive, hfd, .inl ⟨hnone, rfl⟩, fdAt_setFd _, ⟨rfl, rfl, rfl, rfl⟩, rfl, ?_, ?_, nofun⟩
    · rintro g (hg | ⟨⟨⟩⟩)
      · cases hfree.symm.trans hg
      · exact fun _ _ => rfl
    · rintro g ⟨⟨⟩⟩
      exact ⟨inode, hinode, by omega, by simp [hone, h.refsTo_eq_zero hfree], hpipe⟩
  refine RefsOk.rewire hw h (fun _ => id) (fun _ => .inl) fun p pipe hp => ?_
  obtain ⟨hr, hw', hpos⟩ := h.ends p pipe hp
  have her := hw.endsOf h .pipeRead p
  have hew := hw.endsOf h .pipeWrite p
  simp only [reduceCtorEq, false_and, if_false, ne_eq, not_false_eq_true, true_and] at her hew
  rw [howed] at hr hw'
  refine ⟨?_, ?_, hpos⟩ <;> omega

/-! ## Duplicating -/

/-- What registering a reference to the file `f` in `slot` does. -/
structure Shares (s s' : Sys) (slot : Nat) (f : File) (inode : VInode) : Prop where
  files : s'.files = Function.update s.files slot (some (addRef f inode))
  tables : s'.tables = s.tables
  live : s'.live = s.live
  nextPid : s'.nextPid = s.nextPid
  nextPipe : s'.nextPipe = s.nextPipe
  fault : s'.fault = s.fault
  pipe : ∀ p pipe', s'.pipes p = some pipe' → ∃ pipe, s.pipes p = some pipe ∧
    pipe'.readers = pipe.readers + (if f.isEnd .pipeRead p then 1 else 0) ∧
    pipe'.writers = pipe.writers + (if f.isEnd .pipeWrite p then 1 else 0)
  pipeNone : ∀ p, s'.pipes p = none ↔ s.pipes p = none

theorem isEnd_of_ne (hi : f.inode = some inode)
    (hp : inode.privateData ≠ .pipe p) (ops : Ops) : f.isEnd ops p = false := by
  rw [← Bool.not_eq_true, isEnd_iff hi]
  exact fun h => hp h.2

/-- A pipe that is replaced by one with the right numbers of ends. -/
theorem Shares.setPipe {pipe pipe' : Pipe}
    (hi : f.inode = some inode) (hpriv : inode.privateData = .pipe p) (hp : s.pipes p = some pipe)
    (hr : pipe'.readers = pipe.readers + (if f.isEnd .pipeRead p then 1 else 0))
    (hw : pipe'.writers = pipe.writers + (if f.isEnd .pipeWrite p then 1 else 0)) :
    Shares s ((s.setFile slot (some (addRef f inode))).setPipe p (some pipe')) slot f inode := by
  refine ⟨rfl, rfl, rfl, rfl, rfl, rfl, ?_, ?_⟩
  · intro q pipe₁ hq
    simp only [Sys.setPipe, Sys.setFile, update_apply] at hq
    split_ifs at hq with heq
    · subst heq
      cases hq
      exact ⟨pipe, hp, hr, hw⟩
    have hother : inode.privateData ≠ .pipe q := by
      rw [hpriv]
      rintro ⟨rfl⟩
      exact heq rfl
    exact ⟨pipe₁, hq, by simp [isEnd_of_ne hi hother], by simp [isEnd_of_ne hi hother]⟩
  intro q
  simp only [Sys.setPipe, Sys.setFile, update_apply]
  split_ifs with heq
  · simp [heq, hp]
  · rfl

theorem vfsDupFd_shares (h : RefsOk s owed)
    (hf : s.files slot = some f) (hi : f.inode = some inode) :
    Shares s (s.vfsDupFd slot) slot f inode := by
  unfold vfsDupFd
  simp only [hf, hi]
  have hplain : (∀ p, inode.privateData ≠ .pipe p) →
      Shares s (s.setFile slot (some (addRef f inode))) slot f inode := fun hno =>
    ⟨rfl, rfl, rfl, rfl, rfl, rfl, fun q pipe' hq =>
      ⟨pipe', hq, by simp [isEnd_of_ne hi (hno q)], by simp [isEnd_of_ne hi (hno q)]⟩,
      fun q => .rfl⟩
  cases hpriv : inode.privateData with
  | pipe p =>
    obtain ⟨htype, hops, hlive⟩ := h.pipeFile slot f inode p hf hi hpriv
    obtain ⟨pipe, hp⟩ := Option.ne_none_iff_exists'.1 hlive
    have hp' : (s.setFile slot (some (addRef f inode))).pipes p = some pipe := hp
    have hend := isEnd_iff hi
    simp only [htype, if_true, addEnd, hp']
    rcases hops with hops | hops
    · rw [if_pos hops]
      exact .setPipe hi hpriv hp (by simp [hend, hops, hpriv]) (by simp [hend, hops])
    · rw [if_neg (by simp [hops]), if_pos hops]
      exact .setPipe hi hpriv hp (by simp [hend, hops]) (by simp [hend, hops, hpriv])
  | null | lufira | other => exact hplain (by simp [hpriv])

/-- **Duplicating.**  One more descriptor for an open file. -/
theorem RefsOk.share (h : RefsOk s owed) (hlive : s.live pid = true) (hfd : fd < maxFdPerProcess)
    (hnone : s.tables pid fd = none) (hf : s.files slot = some f) :
    RefsOk ((s.vfsDupFd slot).setFd pid fd (some slot)) owed := by
  obtain ⟨inode, hi, hcount, hpos⟩ := h.count slot f hf
  have hs := vfsDupFd_shares h hf hi
  have hw : Rewires s ((s.vfsDupFd slot).setFd pid fd (some slot)) pid fd slot (some slot) f
      (some (addRef f inode)) := by
    refine ⟨hlive, hfd, .inl ⟨hnone, rfl⟩, ?_, ⟨hs.live, hs.nextPid, hs.nextPipe, hs.fault⟩,
      hs.files, ?_, ?_, nofun⟩
    · rw [fdAt_setFd, fdAt_congr hs.tables]
    · rintro g (hg | ⟨⟨⟩⟩) ops p
      · cases hf.symm.trans hg
        rfl
      · simp [File.isEnd, addRef, hi]
    · rintro g ⟨⟨⟩⟩
      exact ⟨_, rfl, Nat.succ_pos _, by simp [hcount], fun p => h.pipeFile slot f inode p hf hi⟩
  refine RefsOk.rewire hw h (fun p => (hs.pipeNone p).2) (fun p hp => .inl ((hs.pipeNone p).1 hp))
    fun p pipe' hp => ?_
  obtain ⟨pipe, hp₀, hr', hw'⟩ := hs.pipe p pipe' hp
  obtain ⟨hr, hw₀, hpos'⟩ := h.ends p pipe hp₀
  have her := hw.endsOf h .pipeRead p
  have hew := hw.endsOf h .pipeWrite p
  simp only [reduceCtorEq, false_and, if_false, ne_eq, not_false_eq_true, true_and] at her hew
  refine ⟨?_, ?_, ?_⟩ <;> split_ifs at * <;> omega

/-! ## Closing -/

/-- What the `close` operation of the open file `f` does: the file stays the same
end of the same pipe, and that pipe loses the end. -/
structure Drops (s s' : Sys) (f f' : File) (i i' : VInode) : Prop where
  inode : f'.inode = some i'
  ops : f'.ops = f.ops
  refCount : i'.refCount = i.refCount
  type : i'.type = i.type
  priv : ∀ p, i'.privateData = .pipe p ↔ i.privateData = .pipe p
  files : s'.files = s.files
  tables : s'.tables = s.tables
  live : s'.live = s.live
  nextPid : s'.nextPid = s.nextPid
  nextPipe : s'.nextPipe = s.nextPipe
  fault : s'.fault = s.fault
  pipe : ∀ p pipe', s'.pipes p = some pipe' → ∃ pipe, s.pipes p = some pipe ∧
    pipe.readers = pipe'.readers + (if f.isEnd .pipeRead p then 1 else 0) ∧
    pipe.writers = pipe'.writers + (if f.isEnd .pipeWrite p then 1 else 0) ∧
    ¬ (pipe'.readers = 0 ∧ pipe'.writers = 0)
  pipeNone : ∀ p, s'.pipes p = none → s.pipes p = none ∨ ∃ pipe, s.pipes p = some pipe ∧
    pipe.readers = (if f.isEnd .pipeRead p then 1 else 0) ∧
    pipe.writers = (if f.isEnd .pipeWrite p then 1 else 0)
  pipeGone : ∀ p, s.pipes p = none → s'.pipes p = none

/-- A file that is no end of a pipe. -/
theorem Drops.plain (h : RefsOk s owed) {f' : File} {inode' : VInode}
    (hi : f.inode = some inode) (hi' : f'.inode = some inode') (hops : f'.ops = f.ops)
    (hcount : inode'.refCount = inode.refCount) (htype : inode'.type = inode.type)
    (hno : ∀ p, inode.privateData ≠ .pipe p) (hno' : ∀ p, inode'.privateData ≠ .pipe p) :
    Drops s s f f' inode inode' where
  inode := hi'
  ops := hops
  refCount := hcount
  type := htype
  priv p := ⟨fun hp => absurd hp (hno' p), fun hp => absurd hp (hno p)⟩
  files := rfl
  tables := rfl
  live := rfl
  nextPid := rfl
  nextPipe := rfl
  fault := rfl
  pipe p pipe hp := by
    obtain ⟨_, _, hpos⟩ := h.ends p pipe hp
    refine ⟨pipe, hp, ?_, ?_, fun hzero => by omega⟩
    · simp [isEnd_of_ne hi (hno p)]
    · simp [isEnd_of_ne hi (hno p)]
  pipeNone p hp := .inl hp
  pipeGone p hp := hp

/-- The end of a pipe, whose pipe becomes `pipe'`, or is freed. -/
theorem Drops.pipeEnd (h : RefsOk s owed) {pipe pipe' : Pipe}
    {state : Nat → ProcState} (hi : f.inode = some inode) (hpriv : inode.privateData = .pipe p)
    (hp : s.pipes p = some pipe)
    (hr : pipe.readers = pipe'.readers + (if f.isEnd .pipeRead p then 1 else 0))
    (hw : pipe.writers = pipe'.writers + (if f.isEnd .pipeWrite p then 1 else 0)) :
    Drops s { s.setPipe p (pipeFreeIfOrphaned pipe') with state := state } f f inode inode where
  inode := hi
  ops := rfl
  refCount := rfl
  type := rfl
  priv q := .rfl
  files := rfl
  tables := rfl
  live := rfl
  nextPid := rfl
  nextPipe := rfl
  fault := rfl
  pipe q pipe₁ hq := by
    simp only [Sys.setPipe, update_apply, pipeFreeIfOrphaned] at hq
    split_ifs at hq with heq hzero
    · cases hq
      exact ⟨pipe, heq ▸ hp, heq ▸ hr, heq ▸ hw, hzero⟩
    have hother : inode.privateData ≠ .pipe q := by
      rw [hpriv]
      rintro ⟨rfl⟩
      exact heq rfl
    obtain ⟨_, _, hpos⟩ := h.ends q pipe₁ hq
    refine ⟨pipe₁, hq, ?_, ?_, fun hzero => by omega⟩
    · simp [isEnd_of_ne hi hother]
    · simp [isEnd_of_ne hi hother]
  pipeNone q hq := by
    simp only [Sys.setPipe, update_apply, pipeFreeIfOrphaned] at hq
    split_ifs at hq with heq hzero
    · refine .inr ⟨pipe, heq ▸ hp, ?_, ?_⟩
      · rw [heq, hr, hzero.1, zero_add]
      · rw [heq, hw, hzero.2, zero_add]
    · exact .inl hq
  pipeGone q hq := by
    have hne : q ≠ p := by
      rintro rfl
      rw [hp] at hq
      cases hq
    simpa [Sys.setPipe, update_of_ne hne] using hq

theorem closeOp_drops (h : RefsOk s owed) (hf : s.files slot = some f) (hi : f.inode = some inode) :
    ∃ inode', Drops s (s.closeOp f).2 f (s.closeOp f).1 inode inode' := by
  have hend := isEnd_iff hi
  by_cases hpipe : ∃ p, inode.privateData = .pipe p
  · obtain ⟨p, hpriv⟩ := hpipe
    obtain ⟨_, hops, hlive⟩ := h.pipeFile slot f inode p hf hi hpriv
    obtain ⟨pipe, hp⟩ := Option.ne_none_iff_exists'.1 hlive
    rcases hops with hops | hops
    · simp only [closeOp, hops, hi, hpriv, hp]
      refine ⟨inode, .pipeEnd h hi hpriv hp ?_ ?_⟩
      · simp [hend, hops, hpriv, Shared.wakeWriter]
      · simp [hend, hops, Shared.wakeWriter]
    simp only [closeOp, hops, hi, hpriv, hp]
    refine ⟨inode, .pipeEnd h hi hpriv hp ?_ ?_⟩
    · simp [hend, hops, Shared.wakeReader]
    · simp [hend, hops, hpriv, Shared.wakeReader]
  have hno : ∀ p, inode.privateData ≠ .pipe p := fun p hp => hpipe ⟨p, hp⟩
  have hsame : Drops s s f f inode inode := .plain h hi hi rfl rfl rfl hno hno
  have hnull : Drops s s f { f with inode := some { inode with privateData := .null } } inode
      { inode with privateData := .null } :=
    .plain h hi rfl rfl rfl rfl hno (by simp)
  unfold closeOp
  rw [hi]
  rcases hops : f.ops with _ | ops
  · exact ⟨_, hsame⟩
  cases ops with
  | console | other => exact ⟨_, hsame⟩
  | lufiraFile | lufiraDir => exact ⟨_, hops ▸ hnull⟩
  | pipeRead | pipeWrite =>
    dsimp only
    split
    · exact absurd ‹_› (hno _)
    · exact ⟨_, hsame⟩

theorem dropRef_eq_some {g : File} (hi : f.inode = some inode) (h : dropRef f = some g) :
    1 < inode.refCount ∧ g =
      { f with inode := some { inode with refCount := inode.refCount - 1 } } := by
  simp only [dropRef, hi] at h
  split_ifs at h with hzero
  cases h
  exact ⟨by omega, rfl⟩

theorem dropRef_eq_none (hi : f.inode = some inode)
    (h : dropRef f = none) : inode.refCount ≤ 1 := by
  simp only [dropRef, hi] at h
  split_ifs at h with hzero
  omega

/-- **Closing.**  One descriptor less; the file is freed with the last one, and so
is the pipe. -/
theorem RefsOk.close (h : RefsOk s owed) (pid fd : Nat) : RefsOk (s.vfsClose pid fd).2 owed := by
  unfold vfsClose
  split_ifs with hrange
  · exact h
  cases hfd : s.tables pid fd with
  | none => exact h
  | some slot =>
    obtain ⟨f, hf⟩ := Option.ne_none_iff_exists'.1 (h.points pid fd slot hfd)
    obtain ⟨inode, hi, hcount, hpos⟩ := h.count slot f hf
    obtain ⟨inode', hd⟩ := closeOp_drops h hf hi
    simp only [hf]
    rcases hop : s.closeOp f with ⟨f', s₁⟩
    rw [hop] at hd
    dsimp only at hd ⊢
    obtain ⟨hlive, hlt⟩ := h.owned pid fd slot hfd
    have hw : Rewires s ((s₁.setFile slot (dropRef f')).setFd pid fd none) pid fd slot none f
        (dropRef f') := by
      refine ⟨hlive, hlt, .inr ⟨hfd, rfl⟩, ?_, ⟨hd.live, hd.nextPid, hd.nextPipe, hd.fault⟩, ?_, ?_,
        ?_, fun hg => ⟨rfl, ?_⟩⟩
      · rw [fdAt_setFd]
        exact congrArg (update · (pid, fd) none) (fdAt_congr hd.tables)
      · rw [setFd, setFile, hd.files]
      · rintro g (hg | hg) ops p
        · cases hf.symm.trans hg
          rfl
        · obtain ⟨_, rfl⟩ := dropRef_eq_some hd.inode hg
          rw [Bool.eq_iff_iff, isEnd_iff rfl, isEnd_iff hi]
          exact and_congr (hd.ops ▸ .rfl) (hd.priv p)
      · intro g hg
        obtain ⟨hmany, rfl⟩ := dropRef_eq_some hd.inode hg
        refine ⟨_, rfl, Nat.sub_pos_of_lt hmany, ?_, fun p hpriv => ?_⟩
        · rw [if_pos rfl, if_pos rfl, ← hcount, ← hd.refCount]
          exact Nat.sub_add_cancel hmany.le
        · obtain ⟨ht, ho, hl⟩ := h.pipeFile slot f inode p hf hi ((hd.priv p).1 hpriv)
          exact ⟨hd.type.trans ht, hd.ops ▸ ho, hl⟩
      · rw [← hcount, ← hd.refCount]
        exact dropRef_eq_none hd.inode hg
    have hends := hw.endsOf h
    simp only [true_and, ne_eq, not_true_eq_false, false_and, if_false, Nat.add_zero] at hends
    refine RefsOk.rewire hw h hd.pipeGone (fun p hnone => ?_) fun p pipe' hp => ?_
    · rcases hd.pipeNone p hnone with hnone | ⟨pipe, hp, hr, hw'⟩
      · exact .inl hnone
      obtain ⟨hr', hw₀, _⟩ := h.ends p pipe hp
      have her := hends .pipeRead p
      have hew := hends .pipeWrite p
      right
      split_ifs at her hew hr hw' <;> omega
    · obtain ⟨pipe, hp₀, hr', hw', hzero⟩ := hd.pipe p pipe' hp
      obtain ⟨hr, hw₀, _⟩ := h.ends p pipe hp₀
      have her := hends .pipeRead p
      have hew := hends .pipeWrite p
      split_ifs at her hew hr' hw' <;> omega

end

end Sys

end Vfs
