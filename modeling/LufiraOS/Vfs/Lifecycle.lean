import LufiraOS.Driver.Runs
import LufiraOS.Vfs.Opening

/-!
# The life of open files

Every operation on open files keeps the references, and so does every run of
them, under two conditions that the code does not check: `vfs_pipe` is not called
by a process with a single free descriptor, where it forgets the write end that it
has counted, and `process_create` does not run out of pages, where it forgets the
console files of the process it gives up.
-/

namespace Vfs

open LufiraFs ByteStore Holding Function

namespace Sys

variable {s : Sys} {owed : Ops → Nat → Nat} {pid fd slot : Nat}

/-- Memory and slots of `file_table` are found when they are asked for. -/
def Supplied (s : Sys) (op : FdOp) : Prop :=
  s.fs.HeapOk ∧
    match op with
    | .pipe pid _ => (∀ fd < maxFdPerProcess, s.tables pid fd ≠ none) ∨
        ∃ a < maxFilesSystem, ∃ b < maxFilesSystem, a ≠ b ∧ s.files a = none ∧ s.files b = none
    | _ => True

/-- The process has no free descriptor, or at least two. -/
def RoomForPipe (s : Sys) (pid : Nat) : Prop :=
  (∀ fd < maxFdPerProcess, s.tables pid fd ≠ none) ∨
    ∃ a < maxFdPerProcess, ∃ b < maxFdPerProcess, a ≠ b ∧ s.tables pid a = none ∧
      s.tables pid b = none

/-- The condition under which an operation keeps the references. -/
def Fitting (s : Sys) : FdOp → Prop
  | .pipe pid _ => s.RoomForPipe pid
  | .fork _ outcome _ => outcome ≠ .noPages
  | _ => True

instance (s : Sys) (op : FdOp) : Decidable (s.Fitting op) :=
  match op with
  | .pipe pid _ => inferInstanceAs (Decidable
      ((∀ fd < maxFdPerProcess, s.tables pid fd ≠ none) ∨
        ∃ a < maxFdPerProcess, ∃ b < maxFdPerProcess, a ≠ b ∧ s.tables pid a = none ∧
          s.tables pid b = none))
  | .fork _ outcome _ => inferInstanceAs (Decidable (outcome ≠ .noPages))
  | .openFile _ _ _ _ | .openAt _ _ _ _ _ | .dup2 _ _ _ | .close _ _ | .teardown _ => isTrue trivial

/-! ## Pipes -/

theorem kmalloc_of_heapOk (hheap : s.fs.HeapOk) : s.kmalloc = (true, s) := by
  rw [Sys.kmalloc, hheap.kmalloc]

theorem createInode_of_heapOk (hheap : s.fs.HeapOk) (type : FileType) (priv : PrivateData) :
    s.createInode type priv = (some ⟨type, 0, 1, priv⟩, s) := by
  rw [createInode, kmalloc_of_heapOk hheap]

theorem allocFileFrom_of_free (hheap : s.fs.HeapOk) (i n : Nat)
    (hfree : ∃ j, i ≤ j ∧ j < i + n ∧ s.files j = none) :
    ∃ slot, s.files slot = none ∧
      allocFileFrom i n s = (some slot, s.setFile slot (some File.blank)) := by
  induction n generalizing i with
  | zero =>
    obtain ⟨j, hlo, hhi, _⟩ := hfree
    omega
  | succ n ih =>
    obtain ⟨j, hlo, hhi, hj⟩ := hfree
    rw [allocFileFrom, kmalloc_of_heapOk hheap]
    split_ifs with hi
    · exact ⟨i, by simpa using hi, rfl⟩
    have hne : i ≠ j := by
      rintro rfl
      simp [hj] at hi
    exact ih (i + 1) ⟨j, by omega, by omega, hj⟩

theorem allocFile_of_free (hheap : s.fs.HeapOk) (hfree : ∃ j < maxFilesSystem, s.files j = none) :
    ∃ slot, s.files slot = none ∧ s.allocFile = (some slot, s.setFile slot (some File.blank)) := by
  obtain ⟨j, hj, hnone⟩ := hfree
  exact allocFileFrom_of_free hheap 0 _ ⟨j, Nat.zero_le j, by omega, hnone⟩

theorem allocFd_of_free (hfree : ∃ j < maxFdPerProcess, s.tables pid j = none) :
    ∃ fd, s.allocFd pid = some fd := by
  obtain ⟨j, hj, hnone⟩ := hfree
  cases hfd : s.allocFd pid with
  | none => exact absurd hnone (allocFd_eq_none hfd hj)
  | some fd => exact ⟨fd, rfl⟩

theorem install_tables_ne (f : File) {x : Nat} (hx : x ≠ fd) :
    (s.install pid fd slot f).tables pid x = s.tables pid x := by
  simp [install, setFd, setFile, hx]

theorem install_files_ne (f : File) {x : Nat} (hx : x ≠ slot) :
    (s.install pid fd slot f).files x = s.files x := by
  simp [install, setFd, setFile, hx]

/-- The open file that is the `ops` end of the pipe `p`. -/
def endFile (fd p flags : Nat) (ops : Ops) : File :=
  ⟨fd, some ⟨.pipe, 0, 1, .pipe p⟩, 0, flags, some ops⟩

theorem pipeEnd_eq (hheap : s.fs.HeapOk) (pid fd slot p flags : Nat) (ops : Ops) :
    (s.setFile slot (some File.blank)).pipeEnd pid fd slot p flags ops =
      s.install pid fd slot (endFile fd p flags ops) := by
  have hcreate : (s.setFile slot (some File.blank)).createInode .pipe (.pipe p) =
      (some ⟨.pipe, 0, 1, .pipe p⟩, s.setFile slot (some File.blank)) :=
    createInode_of_heapOk (s := s.setFile slot (some File.blank)) hheap _ _
  rw [Sys.pipeEnd, hcreate]
  exact install_setFile ..

/-- A new end of the pipe `p`, which the pipe has counted already. -/
theorem RefsOk.installEnd {owed' : Ops → Nat → Nat} (h : RefsOk s owed) (hlive : s.live pid = true)
    (hfd : s.allocFd pid = some fd) (hfree : s.files slot = none)
    {p : Nat} (hp : s.pipes p ≠ none) (flags : Nat) {ops : Ops}
    (hops : ops = .pipeRead ∨ ops = .pipeWrite)
    (howed : ∀ ops' q, owed ops' q = owed' ops' q + if ops' = ops ∧ q = p then 1 else 0) :
    RefsOk (s.install pid fd slot (endFile fd p flags ops)) owed' := by
  obtain ⟨hlt, hnone⟩ := allocFd_eq_some hfd
  refine h.install hlive hlt hnone hfree rfl rfl ?_ ?_
  · rintro q ⟨rfl⟩
    exact ⟨rfl, by rcases hops with rfl | rfl <;> simp [endFile], hp⟩
  intro ops' q
  have hend : (ops' = ops ∧ q = p) ↔ (endFile fd p flags ops).isEnd ops' q = true := by
    rw [isEnd_iff rfl]
    constructor
    · rintro ⟨rfl, rfl⟩
      exact ⟨rfl, rfl⟩
    · rintro ⟨⟨rfl⟩, ⟨rfl⟩⟩
      exact ⟨rfl, rfl⟩
  simp only [howed, hend]

/-- A new pipe, of which both ends are still to be installed. -/
theorem RefsOk.newPipe (h : RefsOk s square) (buffer : Nat → UInt8) :
    RefsOk { s.setPipe s.nextPipe (some (Pipe.fresh buffer)) with nextPipe := s.nextPipe + 1 }
      (fun ops p => if (ops = .pipeRead ∨ ops = .pipeWrite) ∧ p = s.nextPipe then 1 else 0) := by
  have hother : ∀ p, p ≠ s.nextPipe →
      (s.setPipe s.nextPipe (some (Pipe.fresh buffer))).pipes p = s.pipes p := by
    intro p hp
    simp [setPipe, update_of_ne hp]
  -- no descriptor can hold an end of a pipe that does not exist yet
  have hzero := h.endsOf_eq_zero (h.fresh _ le_rfl)
  refine ⟨h.pids, h.owned, h.points, h.count, ?_, ?_, ?_, h.noFault⟩
  · intro x f inode p hf hi hpriv
    obtain ⟨htype, hops, hlive⟩ := h.pipeFile x f inode p hf hi hpriv
    refine ⟨htype, hops, ?_⟩
    rcases eq_or_ne p s.nextPipe with rfl | hne
    · simp [setPipe]
    · exact (hother p hne).symm ▸ hlive
  · intro p pipe hp
    change pipe.readers = (s.endsOf .pipeRead p : Int) + _ ∧
      pipe.writers = (s.endsOf .pipeWrite p : Int) + _ ∧ _
    rcases eq_or_ne p s.nextPipe with rfl | hne
    · simp only [setPipe, update_self, Option.some.injEq] at hp
      subst hp
      simp [hzero, Pipe.fresh]
    rw [hother p hne] at hp
    obtain ⟨hr, hw, hpos⟩ := h.ends p pipe hp
    simpa [hne, square] using And.intro hr (And.intro hw hpos)
  · intro p hp
    have hge : s.nextPipe + 1 ≤ p := hp
    rw [hother p (by omega)]
    exact h.fresh p (by omega)

/-- **`vfs_pipe`** keeps the references when it has room for both ends, or for
neither. -/
theorem RefsOk.vfsPipe (h : RefsOk s square) (hlive : s.live pid = true) (hheap : s.fs.HeapOk)
    (hroom : s.RoomForPipe pid)
    (hfiles : (∀ fd < maxFdPerProcess, s.tables pid fd ≠ none) ∨
      ∃ a < maxFilesSystem, ∃ b < maxFilesSystem, a ≠ b ∧ s.files a = none ∧ s.files b = none)
    (buffer : Nat → UInt8) : RefsOk (s.vfsPipe pid buffer).2 square := by
  rw [Sys.vfsPipe, kmalloc_of_heapOk hheap]
  dsimp only
  rw [kmalloc_of_heapOk hheap]
  dsimp only
  cases hfd : s.allocFd pid with
  | none => exact h
  | some readFd =>
    obtain ⟨hlt, hnone⟩ := allocFd_eq_some hfd
    have hfull : ¬ ∀ fd < maxFdPerProcess, s.tables pid fd ≠ none := fun h => h readFd hlt hnone
    obtain ⟨a, ha, b, hb, hab, hfa, hfb⟩ := hroom.resolve_left hfull
    obtain ⟨c, hc, d, hd, hcd, hfc, hfd'⟩ := hfiles.resolve_left hfull
    obtain ⟨slot, hfree, halloc⟩ := allocFile_of_free hheap ⟨c, hc, hfc⟩
    rw [halloc]
    -- the pipe counts both ends, then the read end is installed
    let s₁ : Sys := { s.setPipe s.nextPipe (some (Pipe.fresh buffer)) with
      nextPipe := s.nextPipe + 1 }
    let s₂ : Sys := s₁.install pid readFd slot (endFile readFd s.nextPipe 0 .pipeRead)
    have hread : RefsOk s₂ fun ops p => if ops = .pipeWrite ∧ p = s.nextPipe then 1 else 0 := by
      refine (h.newPipe buffer).installEnd hlive hfd hfree (by simp [setPipe]) 0 (.inl rfl) ?_
      intro ops q
      cases ops <;> by_cases hq : q = s.nextPipe <;> simp [hq]
    have hend : ({ (s.setFile slot (some File.blank)).setPipe s.nextPipe (some (Pipe.fresh buffer))
        with nextPipe := s.nextPipe + 1 } : Sys).pipeEnd pid readFd slot s.nextPipe 0 .pipeRead =
        s₂ := pipeEnd_eq (s := s₁) hheap ..
    change RefsOk ((({ (s.setFile slot (some File.blank)).setPipe s.nextPipe
      (some (Pipe.fresh buffer)) with nextPipe := s.nextPipe + 1 } : Sys).pipeEnd pid readFd slot
      s.nextPipe 0 .pipeRead).pipeWriteEnd pid readFd s.nextPipe).2 square
    rw [hend]
    -- a second descriptor and a second slot are left for the write end
    have htable : ∀ x, x ≠ readFd → s₂.tables pid x = s.tables pid x :=
      fun x hx => install_tables_ne (s := s₁) _ hx
    have hslots : ∀ x, x ≠ slot → s₂.files x = s.files x :=
      fun x hx => install_files_ne (s := s₁) _ hx
    have hpipe : s₂.pipes s.nextPipe ≠ none := by
      change update s.pipes s.nextPipe (some (Pipe.fresh buffer)) s.nextPipe ≠ none
      simp
    obtain ⟨writeFd, hwfd⟩ : ∃ fd, s₂.allocFd pid = some fd := by
      apply allocFd_of_free
      rcases eq_or_ne a readFd with rfl | hne
      · exact ⟨b, hb, by rw [htable b hab.symm, hfb]⟩
      · exact ⟨a, ha, by rw [htable a hne, hfa]⟩
    obtain ⟨wslot, hwfree, hwalloc⟩ : ∃ w, s₂.files w = none ∧
        s₂.allocFile = (some w, s₂.setFile w (some File.blank)) := by
      apply allocFile_of_free (s := s₂) hheap
      rcases eq_or_ne c slot with rfl | hne
      · exact ⟨d, hd, by rw [hslots d hcd.symm, hfd']⟩
      · exact ⟨c, hc, by rw [hslots c hne, hfc]⟩
    rw [pipeWriteEnd, hwfd]
    rw [hwalloc]
    dsimp only
    rw [pipeEnd_eq (s := s₂) hheap]
    refine hread.installEnd hlive hwfd hwfree hpipe oWronly (.inr rfl) ?_
    intro ops q
    simp [square]

/-! ## Closing -/

theorem closeOp_frame (s : Sys) (f : File) : (s.closeOp f).2.tables = s.tables ∧
    (s.closeOp f).2.live = s.live := by
  unfold closeOp
  split
  · split
    · split <;> exact ⟨rfl, rfl⟩
    · exact ⟨rfl, rfl⟩
  · split
    · split <;> exact ⟨rfl, rfl⟩
    · exact ⟨rfl, rfl⟩
  all_goals exact ⟨rfl, rfl⟩

theorem setFd_eq_self {v : Option Nat} (h : s.tables pid fd = v) : s.setFd pid fd v = s := by
  rw [setFd, ← h, update_eq_self, update_eq_self]

/-- `vfs_close` empties its descriptor and leaves the others alone. -/
theorem vfsClose_frame (s : Sys) (pid : Nat) (hfd : fd < maxFdPerProcess) :
    (s.vfsClose pid fd).2.tables = (s.setFd pid fd none).tables ∧
      (s.vfsClose pid fd).2.live = s.live := by
  rw [vfsClose, if_neg (by omega)]
  cases htable : s.tables pid fd with
  | none => exact ⟨by rw [setFd_eq_self htable], rfl⟩
  | some slot =>
    dsimp only
    cases s.files slot with
    | none => exact ⟨rfl, rfl⟩
    | some f =>
      obtain ⟨ht, hl⟩ := closeOp_frame s f
      refine ⟨?_, hl⟩
      simp only [setFd, setFile, ht]

/-- An empty descriptor need not be closed, and closing it would do nothing. -/
theorem close_if_open (hfd : fd < maxFdPerProcess) :
    (if (s.tables pid fd).isSome then (s.vfsClose pid fd).2 else s) = (s.vfsClose pid fd).2 := by
  split_ifs with hopen
  · rfl
  · rw [vfsClose, if_neg (by omega), Option.not_isSome_iff_eq_none.1 hopen]

section

variable (h : RefsOk s owed)

include h

/-- After the loop the descriptors it ran over are empty. -/
theorem closeFrom_spec (pid fd n : Nat) (hn : fd + n ≤ maxFdPerProcess) :
    RefsOk (closeFrom pid fd n s) owed ∧ (closeFrom pid fd n s).live = s.live ∧
      ∀ x, (closeFrom pid fd n s).tables pid x =
        if fd ≤ x ∧ x < fd + n then none else s.tables pid x := by
  induction n generalizing fd s with
  | zero => exact ⟨h, rfl, fun x => by simp [closeFrom]⟩
  | succ n ih =>
    have hlt : fd < maxFdPerProcess := by omega
    obtain ⟨htables, hlive⟩ := vfsClose_frame s pid hlt
    rw [closeFrom, close_if_open hlt]
    obtain ⟨hrefs, hl, hself⟩ := ih (h.close pid fd) (fd + 1) (by omega)
    refine ⟨hrefs, hl.trans hlive, fun x => ?_⟩
    rw [hself x, htables]
    simp only [setFd, update_self, update_apply]
    split_ifs <;> first | rfl | omega

theorem RefsOk.not_mem_fdSlots {k : Nat × Nat} (hk : k ∉ s.fdSlots) : s.fdAt k = none := by
  refine Option.eq_none_iff_forall_ne_some.2 fun x hT => ?_
  obtain ⟨hlive, hfd⟩ := h.owned k.1 k.2 x hT
  exact hk (h.mem_fdSlots hlive hfd)

/-- Other processes are live, among them all that have descriptors. -/
theorem RefsOk.relive {nextPid : Nat} {live : Nat → Bool} (cred : Nat → Cred)
    (hpids : ∀ pid, live pid = true → pid < nextPid)
    (howned : ∀ pid fd x, s.tables pid fd = some x → live pid = true) :
    RefsOk { s with nextPid := nextPid, live := live, cred := cred } owed := by
  set s' : Sys := { s with nextPid := nextPid, live := live, cred := cred }
  have hslots : ∀ P, holders s'.fdSlots s.fdAt P = holders s.fdSlots s.fdAt P := by
    intro P
    refine holders_support ?_ fun k hk => h.not_mem_fdSlots hk
    intro k hk
    cases hT : s.fdAt k with
    | none => rfl
    | some x =>
      have hlive := howned k.1 k.2 x hT
      refine absurd ?_ hk
      simp only [fdSlots, Finset.mem_product, Finset.mem_filter, Finset.mem_range]
      exact ⟨⟨hpids _ hlive, hlive⟩, (h.owned k.1 k.2 x hT).2⟩
  refine ⟨hpids, ?_, h.points, ?_, h.pipeFile, ?_, h.fresh, h.noFault⟩
  · intro pid' fd' x hx
    exact ⟨howned pid' fd' x hx, (h.owned pid' fd' x hx).2⟩
  · intro x f hf
    have hrefs : s'.refsTo x = s.refsTo x := hslots _
    rw [hrefs]
    exact h.count x f hf
  intro p pipe hp
  have hends : ∀ ops, s'.endsOf ops p = s.endsOf ops p := fun ops => hslots _
  rw [hends, hends]
  exact h.ends p pipe hp

/-- A process without descriptors is buried. -/
theorem RefsOk.bury (hnone : ∀ fd, s.tables pid fd = none) :
    RefsOk { s with live := update s.live pid false } owed := by
  refine h.relive s.cred ?_ ?_
  · intro pid' hlive
    rw [update_apply] at hlive
    split_ifs at hlive
    exact h.pids pid' hlive
  intro pid' fd' x hx
  have hne : pid' ≠ pid := by
    rintro rfl
    exact nomatch (hnone fd').symm.trans hx
  rw [update_of_ne hne]
  exact (h.owned pid' fd' x hx).1

/-- A new process is born, still without descriptors. -/
theorem RefsOk.birth (cred : Nat → Cred) :
    RefsOk { s with
      nextPid := s.nextPid + 1, live := update s.live s.nextPid true, cred := cred }
      owed := by
  refine h.relive cred ?_ ?_
  · intro pid' hlive
    rw [update_apply] at hlive
    split_ifs at hlive with heq
    · omega
    · have := h.pids pid' hlive
      omega
  intro pid' fd' x hx
  rw [update_apply]
  split_ifs
  · rfl
  · exact (h.owned pid' fd' x hx).1

theorem RefsOk.fresh_table (fd : Nat) : s.tables s.nextPid fd = none :=
  Option.eq_none_iff_forall_ne_some.2 fun _ hT => lt_irrefl _ (h.pids _ (h.owned _ _ _ hT).1)

theorem RefsOk.closeAll_tables (pid fd : Nat) : (s.closeAll pid).tables pid fd = none := by
  obtain ⟨_, _, hself⟩ := closeFrom_spec h pid 0 maxFdPerProcess (by simp)
  rw [closeAll, hself]
  split_ifs with hfd
  · rfl
  cases hT : s.tables pid fd with
  | none => rfl
  | some x =>
    have := (h.owned pid fd x hT).2
    omega

/-- **`free_process_resources`** closes what the process has open. -/
theorem RefsOk.freeProcessResources (pid : Nat) : RefsOk (s.freeProcessResources pid) owed := by
  have hrefs := (closeFrom_spec h pid 0 maxFdPerProcess (by simp)).1
  exact RefsOk.bury (s := s.closeAll pid) hrefs (h.closeAll_tables pid)

/-- **`vfs_dup2`** moves a reference. -/
theorem RefsOk.vfsDup2 (hlive : s.live pid = true) (oldfd newfd : Nat) :
    RefsOk (s.vfsDup2 pid oldfd newfd).2 owed := by
  unfold Sys.vfsDup2
  by_cases hrange : maxFdPerProcess ≤ oldfd ∨ maxFdPerProcess ≤ newfd
  · rw [if_pos hrange]
    exact h
  rw [if_neg hrange]
  cases hold : s.tables pid oldfd with
  | none => exact h
  | some slot =>
    dsimp only
    rw [close_if_open (by omega)]
    split_ifs with heq
    · exact h
    -- the new descriptor is closed first; the old one keeps its file open
    have h₁ := h.close pid newfd
    obtain ⟨htables, hlive₁⟩ := vfsClose_frame s pid (show newfd < maxFdPerProcess by omega)
    have hnew : (s.vfsClose pid newfd).2.tables pid newfd = none := by
      rw [htables]
      simp [setFd]
    have hold₁ : (s.vfsClose pid newfd).2.tables pid oldfd = some slot := by
      rw [htables]
      simp [setFd, heq, hold]
    obtain ⟨f, hf⟩ := Option.ne_none_iff_exists'.1 (h₁.points pid oldfd slot hold₁)
    exact h₁.share ((congrFun hlive₁ pid).trans hlive) (by omega) hnew hf

end

/-! ## Processes -/

theorem allocFileFrom_setFd (pid fd : Nat) (v : Option Nat) (i n : Nat) :
    allocFileFrom i n (s.setFd pid fd v) =
      ((allocFileFrom i n s).1, (allocFileFrom i n s).2.setFd pid fd v) := by
  induction n generalizing i s with
  | zero => rfl
  | succ n ih =>
    have hk : (s.setFd pid fd v).kmalloc = (s.kmalloc.1, s.kmalloc.2.setFd pid fd v) := rfl
    rw [allocFileFrom, allocFileFrom, hk]
    change (if (s.files i).isNone then _ else _) = _
    split_ifs
    · rcases s.kmalloc with ⟨_ | _, s₁⟩
      · exact ih (i + 1)
      · rfl
    · exact ih (i + 1)

theorem consoleFile_setFd (pid fd : Nat) (v : Option Nat) (fd' flags : Nat) :
    (s.setFd pid fd v).consoleFile fd' flags =
      ((s.consoleFile fd' flags).1, (s.consoleFile fd' flags).2.setFd pid fd v) := by
  have halloc : (s.setFd pid fd v).allocFile = (s.allocFile.1, s.allocFile.2.setFd pid fd v) :=
    allocFileFrom_setFd pid fd v 0 _
  rw [consoleFile, consoleFile, halloc]
  rcases s.allocFile with ⟨_ | slot, s₁⟩
  · rfl
  have hk : ∀ t : Sys, (t.setFd pid fd v).createInode .chardev .null =
      ((t.createInode .chardev .null).1, (t.createInode .chardev .null).2.setFd pid fd v) := by
    intro t
    have hk' : (t.setFd pid fd v).kmalloc = (t.kmalloc.1, t.kmalloc.2.setFd pid fd v) := rfl
    rw [createInode, createInode, hk']
    rcases t.kmalloc with ⟨_ | _, t₁⟩ <;> rfl
  dsimp only
  rw [hk]
  rfl

/-- A console file in the descriptor `fd`, as `vfs_init_fd_table` makes it. -/
def addConsole (s : Sys) (pid fd flags : Nat) : Sys :=
  (s.consoleFile fd flags).2.setFd pid fd (s.consoleFile fd flags).1

/-- `alloc_file` does not look at the table, so the three stores may be done one by
one. -/
theorem initFdTable_eq (s : Sys) (pid : Nat) : s.initFdTable pid =
    ((({ s with tables := update s.tables pid fun _ => none }.addConsole pid 0 0).addConsole
      pid 1 oWronly).addConsole pid 2 oWronly) := by
  simp only [initFdTable, addConsole, consoleFile_setFd]

/-- What a console file in an empty descriptor leaves as it was. -/
theorem RefsOk.addConsole (h : RefsOk s owed) (hlive : s.live pid = true) (hheap : s.fs.HeapOk)
    (hfd : fd < maxFdPerProcess) (hnone : s.tables pid fd = none) (flags : Nat) :
    RefsOk (s.addConsole pid fd flags) owed ∧ (s.addConsole pid fd flags).fs.HeapOk ∧
      (s.addConsole pid fd flags).live = s.live ∧
      ∀ pid' x, (pid', x) ≠ (pid, fd) →
        (s.addConsole pid fd flags).tables pid' x = s.tables pid' x := by
  have hframe : ∀ (t : Sys) (v : Option Nat), t.tables = s.tables → ∀ pid' x,
      (pid', x) ≠ (pid, fd) → (t.setFd pid fd v).tables pid' x = s.tables pid' x := by
    intro t v ht pid' x hne
    have hat : (t.setFd pid fd v).fdAt (pid', x) = t.fdAt (pid', x) := by
      rw [fdAt_setFd, update_of_ne hne]
    exact hat.trans (congrFun (congrFun ht pid') x)
  obtain ⟨fs, hfs, halloc | ⟨slot, hfree, halloc⟩⟩ := allocFile_cases s
  · have hconsole : s.consoleFile fd flags = (none, { s with fs := fs }) := by
      rw [consoleFile, halloc]
    rw [Sys.addConsole, hconsole]
    refine ⟨?_, hheap.uses hfs, rfl, hframe _ _ rfl⟩
    rw [setFd_eq_self (s := { s with fs := fs }) hnone]
    exact h.withFs fs
  have hcreate := createInode_of_heapOk (s := { s with fs := fs }.setFile slot (some File.blank))
    (hheap.uses hfs) .chardev .null
  have hconsole : s.consoleFile fd flags = (some slot, { s with fs := fs }.setFile slot
      (some ⟨fd, some ⟨.chardev, 0, 1, .null⟩, 0, flags, some .console⟩)) := by
    rw [consoleFile, halloc]
    dsimp only
    rw [hcreate]
    simp only [setFile, update_idem]
  rw [Sys.addConsole, hconsole]
  refine ⟨?_, hheap.uses hfs, rfl, hframe _ _ rfl⟩
  refine (h.withFs fs).install hlive hfd hnone hfree rfl rfl (by simp) ?_
  intro ops p
  simp [isEnd_of_ne (f := ⟨fd, some ⟨.chardev, 0, 1, .null⟩, 0, flags, some .console⟩) rfl
    (p := p) (by simp)]

/-- `vfs_init_fd_table` on an empty table. -/
theorem RefsOk.initFdTable (h : RefsOk s owed) (pid : Nat) (hlive : s.live pid = true)
    (hheap : s.fs.HeapOk)
    (hnone : ∀ fd, s.tables pid fd = none) :
    RefsOk (s.initFdTable pid) owed ∧ (s.initFdTable pid).fs.HeapOk ∧
      (s.initFdTable pid).live = s.live := by
  have hself : { s with tables := update s.tables pid fun _ => none } = s := by
    have htable : s.tables pid = fun _ => none := funext hnone
    rw [← htable, update_eq_self]
  rw [initFdTable_eq, hself]
  obtain ⟨h0, hheap0, hlive0, hframe0⟩ :=
    h.addConsole hlive hheap (by decide : 0 < maxFdPerProcess) (hnone 0) 0
  obtain ⟨h1, hheap1, hlive1, hframe1⟩ :=
    h0.addConsole (by rw [hlive0, hlive]) hheap0 (by decide : 1 < maxFdPerProcess)
      (by rw [hframe0 _ _ (by simp), hnone]) oWronly
  obtain ⟨h2, hheap2, hlive2, _⟩ :=
    h1.addConsole (by rw [hlive1, hlive0, hlive]) hheap1 (by decide : 2 < maxFdPerProcess)
      (by rw [hframe1 _ _ (by simp), hframe0 _ _ (by simp), hnone]) oWronly
  exact ⟨h2, hheap2, by rw [hlive2, hlive1, hlive0]⟩

/-- Registering a reference does not look at the descriptor tables. -/
theorem vfsDupFd_tables (tables : Nat → Nat → Option Nat) (slot : Nat) :
    Sys.vfsDupFd { s with tables := tables } slot = { s.vfsDupFd slot with tables := tables } := by
  unfold vfsDupFd
  cases s.files slot with
  | none => rfl
  | some f =>
    dsimp only
    cases f.inode with
    | none => rfl
    | some inode =>
      dsimp only
      cases inode.privateData with
      | pipe p =>
        simp only [addEnd, setFile, setPipe, crash]
        cases s.pipes p <;> split_ifs <;> rfl
      | null | lufira | other => rfl

/-- The table of `child` when only its descriptors below `fd` are registered. -/
def halfCopied (s : Sys) (parent child fd : Nat) : Sys :=
  { s with tables := Function.update s.tables child fun x =>
      if x < fd then s.tables child x else s.tables parent x }

/-- The loop of `process_fork`: what it has registered keeps the references, and
the rest of the table is still the parent's. -/
theorem dupFrom_spec (h : RefsOk s owed) {parent child : Nat} (hne : child ≠ parent)
    (hlive : s.live child = true) (fd n : Nat) (hn : fd + n ≤ maxFdPerProcess)
    (hnone : ∀ x, fd ≤ x → s.tables child x = none) :
    ∃ t, RefsOk t owed ∧ dupFrom child fd n (s.halfCopied parent child fd) =
        t.halfCopied parent child (fd + n) ∧
      ∀ x, fd + n ≤ x → t.tables child x = none := by
  induction n generalizing fd s with
  | zero => exact ⟨s, h, rfl, hnone⟩
  | succ n ih =>
    rw [dupFrom]
    have hat : (s.halfCopied parent child fd).tables child fd = s.tables parent fd := by
      simp [halfCopied]
    rw [hat]
    cases hT : s.tables parent fd with
    | none =>
      have hsame : s.halfCopied parent child fd = s.halfCopied parent child (fd + 1) := by
        simp only [halfCopied]
        congr 2
        funext x
        rcases Nat.lt_trichotomy x fd with hlt | rfl | hgt
        · rw [if_pos hlt, if_pos (by omega)]
        · rw [if_neg (lt_irrefl _), if_pos (by omega), hT, hnone _ le_rfl]
        · rw [if_neg (by omega), if_neg (by omega)]
      rw [hsame]
      obtain ⟨t, ht, heq, hrest⟩ := ih h hlive (fd + 1) (by omega)
        fun x hx => hnone x (by omega)
      exact ⟨t, ht, by rw [heq]; congr 1; omega, fun x hx => hrest x (by omega)⟩
    | some slot =>
      obtain ⟨f, hf⟩ := Option.ne_none_iff_exists'.1 (h.points parent fd slot hT)
      obtain ⟨inode, hi, _, _⟩ := h.count slot f hf
      have hshare := vfsDupFd_shares h hf hi
      have hnext := h.share hlive (show fd < maxFdPerProcess by omega) (hnone fd le_rfl) hf
      have hlive' : ((s.vfsDupFd slot).setFd child fd (some slot)).live child = true :=
        (congrFun hshare.live child).trans hlive
      have hsame : (s.halfCopied parent child fd).vfsDupFd slot =
          ((s.vfsDupFd slot).setFd child fd (some slot)).halfCopied parent child (fd + 1) := by
        rw [halfCopied, vfsDupFd_tables]
        simp only [halfCopied, setFd, hshare.tables]
        congr 1
        rw [update_idem]
        congr 1
        funext x
        rw [update_self, update_of_ne hne.symm]
        rcases Nat.lt_trichotomy x fd with hlt | rfl | hgt
        · rw [if_pos hlt, if_pos (by omega), update_of_ne (by omega)]
        · rw [if_neg (lt_irrefl _), if_pos (by omega), update_self, hT]
        · rw [if_neg (by omega), if_neg (by omega)]
      dsimp only
      rw [hsame]
      obtain ⟨t, ht, heq, hrest⟩ := ih hnext hlive' (fd + 1) (by omega) (by
        intro x hx
        simp only [setFd, hshare.tables, update_self]
        rw [update_of_ne (by omega)]
        exact hnone x (by omega))
      exact ⟨t, ht, by rw [heq]; congr 1; omega, fun x hx => hrest x (by omega)⟩

/-- The child of a fork shares the files of its parent. -/
theorem RefsOk.inheritFds (h : RefsOk s owed) {parent child : Nat} (hne : child ≠ parent)
    (hlive : s.live child = true) : RefsOk (s.inheritFds parent child) owed := by
  obtain ⟨h₁, hlive₁, -⟩ := closeFrom_spec h child 0 maxFdPerProcess (by simp)
  have hempty := h.closeAll_tables child
  have hstart : { s.closeAll child with
      tables := update (s.closeAll child).tables child ((s.closeAll child).tables parent) } =
      (s.closeAll child).halfCopied parent child 0 := by
    simp only [halfCopied, Nat.not_lt_zero, if_false]
  obtain ⟨t, ht, heq, hrest⟩ := dupFrom_spec (s := s.closeAll child) h₁ hne
    ((congrFun hlive₁ child).trans hlive) 0 maxFdPerProcess (by simp) fun x _ => hempty x
  rw [Sys.inheritFds]
  rw [hstart, heq]
  -- behind the last descriptor both tables are empty
  have hdone : t.halfCopied parent child (0 + maxFdPerProcess) = t := by
    have htable : (fun x => if x < 0 + maxFdPerProcess then t.tables child x
        else t.tables parent x) = t.tables child := by
      funext x
      split_ifs with hx
      · rfl
      cases hT : t.tables parent x with
      | none => rw [hrest x (by omega)]
      | some y =>
        have := (ht.owned parent x y hT).2
        omega
    rw [halfCopied, htable, update_eq_self]
  rw [hdone]
  exact ht

/-- **`process_fork`** keeps the references unless it runs out of pages. -/
theorem RefsOk.processFork (h : RefsOk s owed) (hlive : s.live pid = true) (hheap : s.fs.HeapOk)
    {outcome : Creation} (houtcome : outcome ≠ .noPages) (cloned : Bool) :
    RefsOk (s.processFork pid outcome cloned).2 owed := by
  unfold Sys.processFork
  cases outcome with
  | refused => exact h
  | noPages => exact absurd rfl houtcome
  | made =>
    have hbirth := h.birth (update s.cred s.nextPid { s.cred pid with cwd := 1 })
    obtain ⟨h₁, _, hlive₁⟩ := hbirth.initFdTable s.nextPid (by simp) hheap h.fresh_table
    have hne : s.nextPid ≠ pid := by
      have := h.pids pid hlive
      omega
    simp only [processCreate]
    split_ifs
    · have hchild := h₁.inheritFds hne (by rw [hlive₁]; simp)
      exact ⟨hchild.pids, hchild.owned, hchild.points, hchild.count, hchild.pipeFile,
        hchild.ends, hchild.fresh, hchild.noFault⟩
    · exact h₁.freeProcessResources _

/-! ## Runs -/

/-- One operation keeps the references. -/
theorem RefsOk.execFd (h : RefsOk s square) {op : FdOp} (hsupplied : s.Supplied op)
    (hfits : s.Fitting op) : RefsOk (s.execFd op) square := by
  obtain ⟨hheap, hslots⟩ := hsupplied
  unfold Sys.execFd
  split_ifs with hlive
  · cases op with
    | openFile pid path flags foreign => exact h.openFrom hlive hheap _ path flags foreign
    | openAt pid base path flags foreign => exact h.openFrom hlive hheap _ path flags _
    | pipe pid buffer => exact h.vfsPipe hlive hheap hfits hslots buffer
    | dup2 pid oldfd newfd => exact h.vfsDup2 hlive oldfd newfd
    | close pid fd => exact h.close pid fd
    | fork pid outcome cloned => exact h.processFork hlive hheap hfits cloned
    | teardown pid => exact h.freeProcessResources pid
  · exact h

theorem boot_refsOk {fs : Mount} (hheap : fs.HeapOk) (cred : Nat → Cred) :
    RefsOk (boot fs cred) square ∧ (boot fs cred).fs.HeapOk := by
  have hempty : RefsOk { fs := fs, files := fun _ => none, pipes := fun _ => none, nextPipe := 0
                         tables := fun _ _ => none, live := fun pid => pid = 0, cred := cred
                         state := fun _ => .running, nextPid := 1, fault := false } square := by
    refine ⟨?_, by simp, by simp, by simp, by simp, by simp, fun _ _ => rfl, rfl⟩
    intro pid hlive
    have hzero : pid = 0 := by simpa using hlive
    subst hzero
    exact Nat.zero_lt_one
  obtain ⟨hrefs, hheap', _⟩ := hempty.initFdTable 0 (by simp) hheap fun _ => rfl
  exact ⟨hrefs, hheap'⟩

/-- **Open files are reference counted.**  In every run in which memory and
slots of `file_table` are found, no `vfs_pipe` finds a single free descriptor and
no `process_create` runs out of pages, the reference counts of open files and the
end counts of pipes are the numbers of descriptors, and files and pipes live
exactly as long as they have one. -/
theorem referenced_of_run (fs : Mount) (cred : Nat → Cred) (ops : List FdOp) (hheap : fs.HeapOk)
    (hmeets : Run.Meets execFd (fun s op => s.Supplied op ∧ s.Fitting op) (boot fs cred) ops) :
    Referenced (Run.run execFd (boot fs cred) ops) := by
  have hstep : ∀ s op, RefsOk s square → s.Supplied op ∧ s.Fitting op →
      RefsOk (s.execFd op) square := fun s op h hop => h.execFd hop.1 hop.2
  exact (Run.Meets.invariant hstep hmeets (boot_refsOk hheap cred).1).referenced

/-- The kernel just started. -/
def smallSys : Sys := boot blankMount fun _ => ⟨0, 0, 1⟩

/-- A shell pipeline: a pipe, a child with both ends, each side closing the end it
does not use, and the end of the child. -/
def pipeline : List FdOp :=
  [.pipe 0 fun _ => 0, .fork 0 .made true, .close 0 4, .close 1 3, .teardown 1]

theorem referenced_of_run_pipeline :
    ((Run.run execFd smallSys pipeline).pipes 0).isSome = true ∧
      Referenced (Run.run execFd smallSys pipeline) := by
  refine ⟨by decide +kernel, referenced_of_run _ _ _ (fun _ => rfl) ?_⟩
  refine ⟨⟨⟨fun _ => rfl, by decide +kernel⟩, by decide +kernel⟩, ?_⟩
  refine ⟨⟨⟨fun _ => rfl, trivial⟩, by decide +kernel⟩, ?_⟩
  refine ⟨⟨⟨fun _ => rfl, trivial⟩, trivial⟩, ?_⟩
  refine ⟨⟨⟨fun _ => rfl, trivial⟩, trivial⟩, ?_⟩
  exact ⟨⟨⟨fun _ => rfl, trivial⟩, trivial⟩, trivial⟩

/-- Standard input is duplicated until one descriptor is left, then a pipe is
asked for. -/
def crampedPipe : List FdOp :=
  ((List.range 12).map fun i => .dup2 0 0 (i + 3)) ++ [.pipe 0 fun _ => 0]

/-- With one descriptor left `vfs_pipe` gives up after it has counted a writer: the
pipe is never freed, and no descriptor holds an end of it. -/
theorem referenced_fails_on_crampedPipe : ¬ Referenced (Run.run execFd smallSys crampedPipe) := by
  intro h
  have hwriters : ((Run.run execFd smallSys crampedPipe).pipes 0).map Pipe.writers = some 1 := by
    decide +kernel
  have hnone : (Run.run execFd smallSys crampedPipe).endsOf .pipeWrite 0 = 0 := by
    decide +kernel
  obtain ⟨pipe, hpipe, hone⟩ := Option.map_eq_some_iff.1 hwriters
  have hends := (h.ends 0 pipe hpipe).2
  rw [hnone, hone] at hends
  exact absurd hends (by decide)

end Sys

end Vfs
