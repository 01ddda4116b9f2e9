import LufiraOS.Lib.Bytes
import LufiraOS.Paging.UserRange
import Mathlib

/-!
# System calls that fill a buffer of the caller

`sys_pslist`, `sys_net_fetch` and `sys_net_fetch_read` of `kernel/system/syscall/syscall.c`, with
`process_pslist` of `kernel/system/process/process.c`.  Three lengths meet in each of them: the one
that `is_user_range_valid` checks, the one the copy loop runs to, and the one that the list of
processes or the network daemon supplies.  A call delivers its result, the stores it makes in the
memory of the caller and the ranges that were accepted.
-/

namespace Syscall

open ByteStore Paging

/-- What `process_pslist` reports of a process. -/
structure Process where
  pid : UInt32
  ppid : UInt32
  name : Nat → UInt8
  state : UInt32
  uid : UInt32
  cpuTicks : UInt64

/-- `netd_reply_t`, as far as the two calls read it. -/
structure Reply where
  result : Int32
  status : Int32

/-- What the calls find: the page table of the current process, the ring of processes, whether a
network daemon is registered, the length of a string of the caller if it is valid, whether the two
shared regions can be made, the reply of the daemon if it sends one, and the pages it has filled. -/
structure Kernel where
  current : Option PML4
  processes : List Process
  netd : Bool
  validateUserString : Nat → Option Nat
  makeUrlShm : Bool
  makeBodyShm : Bool
  reply : Option Reply
  pages : Nat → Nat → UInt8

/-- A store of the kernel: the address and the bytes. -/
abbrev Store := Nat × List UInt8

/-- The result of a call, its stores in the memory of the caller, and the ranges that the check of
user pointers has accepted. -/
structure Outcome where
  result : Int
  stores : List Store
  accepted : List (Nat × Nat)

def efault : Int := -14

def einval : Int := -22

def netFetchEnodev : Int := -7

/-- `MAX_SHARED_REGION_PAGES * PAGE_SIZE`. -/
def netFetchMaxCap : Nat := 4096 * 4096

/-- The bytes of a word. -/
def wordList (v : UInt32) : List UInt8 := (List.range 4).map (byteOf v)

/-- `sizeof(lufira_ps_entry_t)`. -/
def psEntrySize : Nat := 56

/-- The bytes of a `lufira_ps_entry_t`. -/
def Process.entry (p : Process) : List UInt8 :=
  wordList p.pid ++ wordList p.ppid ++ (List.range 32).map p.name ++ wordList p.state ++
    wordList p.uid ++ wordList (UInt32.ofNat p.cpuTicks.toNat) ++
    wordList (UInt32.ofNat (p.cpuTicks.toNat / 4294967296))

theorem Process.length_entry (p : Process) : p.entry.length = psEntrySize := by
  simp [Process.entry, wordList, psEntrySize]

/-- The loop of `process_pslist`, from entry `written` on. -/
def pslistLoop (out maxCount : Nat) : (written : Nat) → List Process → List Store
  | _, [] => []
  | written, p :: ps =>
    if maxCount ≤ written then []
    else ((out + psEntrySize * written) % 2 ^ 64, p.entry) ::
      pslistLoop out maxCount (written + 1) ps

/-- `process_pslist`. -/
def Kernel.processPslist (k : Kernel) (out maxCount : Nat) : List Store :=
  pslistLoop out maxCount 0 k.processes

/-- `sys_pslist`: the product of the check is a 64-bit one, and the count is cut to 32 bits. -/
def Kernel.sysPslist (k : Kernel) (buf maxCount : Nat) : Outcome :=
  match k.current with
  | none => ⟨efault, [], []⟩
  | some t =>
    if maxCount = 0 then ⟨0, [], []⟩
    else
      let len := maxCount * psEntrySize % 2 ^ 64
      if PML4.isUserRangeValid t buf len true then
        let stores := k.processPslist buf (maxCount % 2 ^ 32)
        ⟨stores.length, stores, [(buf, len)]⟩
      else ⟨efault, [], []⟩

/-- The copy loop of the two network calls, over `n` pages from page `p` on. -/
def copyPages (pages : Nat → Nat → UInt8) (out : Nat) : (n p off remaining : Nat) → List Store
  | 0, _, _, _ => []
  | n + 1, p, off, remaining =>
    if remaining = 0 then []
    else
      let take := if remaining < pageSize then remaining else pageSize
      ((out + off) % 2 ^ 64, (List.range take).map (pages p)) ::
        copyPages pages out n (p + 1) (off + take) (remaining - take)

/-- The number of pages of the region for `cap` bytes. -/
def numPages (cap : Nat) : Nat := (cap + pageSize - 1) / pageSize

/-- The bytes of the reply, copied to the caller. -/
def Kernel.copyReply (k : Kernel) (out cap : Nat) (result : Int) : List Store :=
  if 0 < result then copyPages k.pages out (numPages cap) 0 0 result.toNat else []

/-- The store of the status word, if the caller wants it. -/
def storeStatus (statusPtr : Nat) (status : Int32) : List Store :=
  if statusPtr = 0 then [] else [(statusPtr, wordList (UInt32.ofBitVec status.toBitVec))]

/-- The ranges that `sys_net_fetch` has had accepted. -/
def fetchRanges (buf cap statusPtr : Nat) : List (Nat × Nat) :=
  (if cap = 0 then [] else [(buf, cap)]) ++ (if statusPtr = 0 then [] else [(statusPtr, 4)])

/-- The part of `sys_net_fetch` behind its checks. -/
def Kernel.fetch (k : Kernel) (buf cap statusPtr : Nat) : Int × List Store :=
  if k.netd = false then (netFetchEnodev, storeStatus statusPtr 0)
  else if k.makeUrlShm = false then (-1, [])
  else if 0 < cap ∧ k.makeBodyShm = false then (-1, [])
  else
    match k.reply with
    | none => (netFetchEnodev, storeStatus statusPtr 0)
    | some reply =>
      (reply.result.toInt,
        (if 0 < cap then k.copyReply buf cap reply.result.toInt else []) ++
          storeStatus statusPtr reply.status)

/-- `sys_net_fetch`. -/
def Kernel.sysNetFetch (k : Kernel) (urlPtr buf cap statusPtr : Nat) : Outcome :=
  match k.current with
  | none => ⟨efault, [], []⟩
  | some t =>
    if k.validateUserString urlPtr = none then ⟨efault, [], []⟩
    else if 0 < cap ∧ PML4.isUserRangeValid t buf cap true = false then ⟨efault, [], []⟩
    else if statusPtr ≠ 0 ∧ PML4.isUserRangeValid t statusPtr 4 true = false then ⟨efault, [], []⟩
    else if netFetchMaxCap < cap then ⟨einval, [], fetchRanges buf cap statusPtr⟩
    else
      let res := k.fetch buf cap statusPtr
      ⟨res.1, res.2, fetchRanges buf cap statusPtr⟩

/-- `sys_net_fetch_read`. -/
def Kernel.sysNetFetchRead (k : Kernel) (buf cap : Nat) : Outcome :=
  match k.current with
  | none => ⟨efault, [], []⟩
  | some t =>
    if cap = 0 then ⟨0, [], []⟩
    else if PML4.isUserRangeValid t buf cap true = false then ⟨efault, [], []⟩
    else if netFetchMaxCap < cap then ⟨einval, [], [(buf, cap)]⟩
    else if k.netd = false then ⟨netFetchEnodev, [], [(buf, cap)]⟩
    else if k.makeBodyShm = false then ⟨-1, [], [(buf, cap)]⟩
    else
      match k.reply with
      | none => ⟨netFetchEnodev, [], [(buf, cap)]⟩
      | some reply =>
        ⟨reply.result.toInt, k.copyReply buf cap reply.result.toInt, [(buf, cap)]⟩

/-! ### The addresses that are stored to -/

/-- Address `a` is among those that the stores write. -/
def Touches (stores : List Store) (a : Nat) : Prop :=
  ∃ s ∈ stores, ∃ i, i < s.2.length ∧ a = (s.1 + i) % 2 ^ 64

variable {k : Kernel} {a out buf cap : Nat}

@[simp] theorem touches_nil : ¬ Touches [] a := by
  rintro ⟨s, hs, -⟩
  cases hs

theorem touches_cons {s : Store} {stores : List Store} :
    Touches (s :: stores) a ↔ (∃ i, i < s.2.length ∧ a = (s.1 + i) % 2 ^ 64) ∨
      Touches stores a := by
  constructor
  · rintro ⟨s', hs, hi⟩
    rcases List.mem_cons.mp hs with rfl | hmem
    · exact Or.inl hi
    · exact Or.inr ⟨s', hmem, hi⟩
  · rintro (hi | ⟨s', hmem, hi⟩)
    · exact ⟨s, List.mem_cons_self, hi⟩
    · exact ⟨s', List.mem_cons_of_mem _ hmem, hi⟩

theorem touches_append {stores stores' : List Store} :
    Touches (stores ++ stores') a ↔ Touches stores a ∨ Touches stores' a := by
  induction stores with
  | nil => simp
  | cons s stores ih => rw [List.cons_append, touches_cons, touches_cons, ih, or_assoc]

/-- `n` bytes in a row, wherever the first part of them ends. -/
theorem row_split (base first rest : Nat) :
    (∃ i, i < first + rest ∧ a = (base + i) % 2 ^ 64) ↔
      (∃ i, i < first ∧ a = (base % 2 ^ 64 + i) % 2 ^ 64) ∨
        ∃ i, i < rest ∧ a = (base + first + i) % 2 ^ 64 := by
  constructor
  · rintro ⟨i, hi, rfl⟩
    by_cases hlt : i < first
    · exact Or.inl ⟨i, hlt, by rw [Nat.mod_add_mod]⟩
    · exact Or.inr ⟨i - first, by omega, by rw [show base + first + (i - first) =
        base + i by omega]⟩
  · rintro (⟨i, hi, rfl⟩ | ⟨i, hi, rfl⟩)
    · exact ⟨i, by omega, by rw [Nat.mod_add_mod]⟩
    · exact ⟨first + i, by omega, by rw [Nat.add_assoc]⟩

/-- The loop of `process_pslist` writes one entry behind the other. -/
theorem touches_pslistLoop (maxCount written : Nat) (ps : List Process) :
    Touches (pslistLoop out maxCount written ps) a ↔
      ∃ i, i < psEntrySize * min ps.length (maxCount - written) ∧
        a = (out + psEntrySize * written + i) % 2 ^ 64 := by
  induction ps generalizing written with
  | nil => simp [pslistLoop]
  | cons p ps ih =>
      rw [pslistLoop]
      split
      · next hfull =>
          rw [Nat.sub_eq_zero_of_le hfull, Nat.min_zero, Nat.mul_zero]
          simp
      · next hroom =>
          have hcount : psEntrySize * min (p :: ps).length (maxCount - written) =
              psEntrySize + psEntrySize * min ps.length (maxCount - (written + 1)) := by
            rw [List.length_cons, show min (ps.length + 1) (maxCount - written) =
              min ps.length (maxCount - (written + 1)) + 1 by omega, Nat.mul_add]
            omega
          have hnext : out + psEntrySize * (written + 1) =
              out + psEntrySize * written + psEntrySize := by
            rw [Nat.mul_add]
            omega
          rw [touches_cons, ih (written + 1), hcount, hnext, row_split, p.length_entry]

/-- The copy loop writes the bytes of the reply, but no more than the pages hold. -/
theorem touches_copyPages (pages : Nat → Nat → UInt8) (n p off remaining : Nat) :
    Touches (copyPages pages out n p off remaining) a ↔
      ∃ i, i < min remaining (n * pageSize) ∧ a = (out + off + i) % 2 ^ 64 := by
  induction n generalizing p off remaining with
  | zero => simp [copyPages]
  | succ n ih =>
      rw [copyPages]
      split
      · next hzero =>
          rw [hzero]
          simp
      · dsimp only
        generalize htake : (if remaining < pageSize then remaining else pageSize) = take
        have hmin : take = min remaining pageSize := by
          rw [← htake]
          split <;> omega
        have hcount : min remaining ((n + 1) * pageSize) =
            take + min (remaining - take) (n * pageSize) := by
          rw [Nat.succ_mul]
          omega
        rw [touches_cons, ih, hcount, ← Nat.add_assoc out off take, row_split]
        simp only [List.length_map, List.length_range]

theorem touches_copyReply (result : Int) :
    Touches (k.copyReply out cap result) a ↔
      ∃ i, i < min result.toNat (numPages cap * pageSize) ∧ a = (out + i) % 2 ^ 64 := by
  unfold Kernel.copyReply
  split
  · rw [touches_copyPages, Nat.add_zero]
  · next hneg =>
      rw [show result.toNat = 0 by omega, Nat.zero_min]
      simp

theorem touches_storeStatus {statusPtr : Nat} (hfit : statusPtr ≠ 0 → statusPtr + 4 ≤ 2 ^ 64)
    (status : Int32) : Touches (storeStatus statusPtr status) a ↔
      statusPtr ≠ 0 ∧ statusPtr ≤ a ∧ a < statusPtr + 4 := by
  unfold storeStatus
  split
  · next hzero => simp [hzero]
  · next hne =>
      have hroom := hfit hne
      rw [touches_cons, or_iff_left touches_nil]
      simp only [wordList, List.length_map, List.length_range]
      constructor
      · rintro ⟨i, hi, rfl⟩
        rw [Nat.mod_eq_of_lt (by omega)]
        exact ⟨hne, by omega, by omega⟩
      · rintro ⟨-, hlo, hhi⟩
        refine ⟨a - statusPtr, by omega, ?_⟩
        rw [Nat.mod_eq_of_lt (by omega)]
        omega

/-- A row of bytes stays in a range from its start on exactly when it is not longer. -/
theorem row_inside_iff {len n : Nat} (hbuf : buf < 2 ^ 64) (hfit : buf + len ≤ 2 ^ 64)
    (hlen : len < 2 ^ 64) :
    (∀ a, (∃ i, i < n ∧ a = (buf + i) % 2 ^ 64) → buf ≤ a ∧ a < buf + len) ↔ n ≤ len := by
  constructor
  · intro h
    by_contra hlong
    have hend := h ((buf + len) % 2 ^ 64) ⟨len, by omega, rfl⟩
    omega
  · rintro hle a ⟨i, hi, rfl⟩
    rw [Nat.mod_eq_of_lt (by omega)]
    omega

/-! ### The calls -/

inductive Call
  | pslist (buf maxCount : UInt64)
  | netFetch (urlPtr buf cap statusPtr : UInt64)
  | netFetchRead (buf cap : UInt64)

def Kernel.exec (k : Kernel) : Call → Outcome
  | .pslist buf maxCount => k.sysPslist buf.toNat maxCount.toNat
  | .netFetch urlPtr buf cap statusPtr =>
    k.sysNetFetch urlPtr.toNat buf.toNat cap.toNat statusPtr.toNat
  | .netFetchRead buf cap => k.sysNetFetchRead buf.toNat cap.toNat

/-- The addresses that a call is for. -/
def Call.Allows : Call → Nat → Prop
  | .pslist buf maxCount, a => buf.toNat ≤ a ∧ a < buf.toNat + maxCount.toNat * psEntrySize
  | .netFetch _ buf cap statusPtr, a => (buf.toNat ≤ a ∧ a < buf.toNat + cap.toNat) ∨
      (statusPtr.toNat ≠ 0 ∧ statusPtr.toNat ≤ a ∧ a < statusPtr.toNat + 4)
  | .netFetchRead buf cap, a => buf.toNat ≤ a ∧ a < buf.toNat + cap.toNat

/-- Every byte that the call stores is one it is for, and lies in a range that was accepted. -/
def Kernel.Confined (k : Kernel) (c : Call) : Prop :=
  ∀ a, Touches (k.exec c).stores a →
    c.Allows a ∧ ∃ r ∈ (k.exec c).accepted, r.1 ≤ a ∧ a < r.1 + r.2

/-- `sys_net_fetch` passes its checks and sends its request. -/
structure Kernel.Asks (k : Kernel) (t : PML4) (urlPtr buf cap statusPtr : Nat) : Prop where
  urlOk : k.validateUserString urlPtr ≠ none
  bufOk : 0 < cap → PML4.isUserRangeValid t buf cap true = true
  statusOk : statusPtr ≠ 0 → PML4.isUserRangeValid t statusPtr 4 true = true
  capOk : cap ≤ netFetchMaxCap
  netdUp : k.netd = true
  urlShm : k.makeUrlShm = true
  bodyShm : 0 < cap → k.makeBodyShm = true

/-- The lengths agree.  `sys_pslist`: the product of the check covers the entries that are written.
The network calls: the daemon reports no more than the buffer has room for, or the buffer ends with
a page of the region; what is too much for `sys_net_fetch` may also be in the status word. -/
def Kernel.LengthsAgree (k : Kernel) : Call → Prop
  | .pslist buf maxCount => ∀ t, k.current = some t → maxCount.toNat ≠ 0 →
      PML4.isUserRangeValid t buf.toNat (maxCount.toNat * psEntrySize % 2 ^ 64) true = true →
      psEntrySize * min k.processes.length (maxCount.toNat % 2 ^ 32) ≤
        maxCount.toNat * psEntrySize % 2 ^ 64
  | .netFetch urlPtr buf cap statusPtr => ∀ t reply, k.current = some t →
      k.Asks t urlPtr.toNat buf.toNat cap.toNat statusPtr.toNat → k.reply = some reply →
      reply.result.toInt ≤ cap.toNat ∨ cap.toNat % pageSize = 0 ∨
        (statusPtr.toNat ≠ 0 ∧ ∀ i, cap.toNat ≤ i →
          i < min reply.result.toInt.toNat (numPages cap.toNat * pageSize) →
          statusPtr.toNat ≤ (buf.toNat + i) % 2 ^ 64 ∧
            (buf.toNat + i) % 2 ^ 64 < statusPtr.toNat + 4)
  | .netFetchRead buf cap => ∀ t reply, k.current = some t → cap.toNat ≠ 0 →
      PML4.isUserRangeValid t buf.toNat cap.toNat true = true → cap.toNat ≤ netFetchMaxCap →
      k.netd = true → k.makeBodyShm = true → k.reply = some reply →
      reply.result.toInt ≤ cap.toNat ∨ cap.toNat % pageSize = 0

theorem fit_of_isUserRangeValid {t : PML4} {len : Nat} (hbuf : buf < 2 ^ 64) (hlen : len < 2 ^ 64)
    (h : PML4.isUserRangeValid t buf len true = true) : buf + len ≤ 2 ^ 64 := by
  by_cases hpos : 0 < len
  · exact ((PML4.isUserRangeValid_eq_true_iff hbuf hlen hpos).mp h).1
  · omega

/-- No more is copied than there is room for. -/
theorem copied_le_iff (cap : Nat) (result : Int) :
    min result.toNat (numPages cap * pageSize) ≤ cap ↔ result ≤ cap ∨ cap % pageSize = 0 := by
  unfold numPages
  have hpage : pageSize = 4096 := rfl
  rw [hpage]
  omega

/-- `sys_pslist` writes the entries there are, up to the count cut to 32 bits. -/
theorem confined_pslist_iff (k : Kernel) (buf maxCount : UInt64) :
    k.Confined (.pslist buf maxCount) ↔ k.LengthsAgree (.pslist buf maxCount) := by
  have hbuf := buf.toNat_lt
  dsimp only [Kernel.Confined, Kernel.LengthsAgree, Kernel.exec, Kernel.sysPslist, Call.Allows]
  generalize buf.toNat = buf at hbuf
  generalize maxCount.toNat = n
  cases k.current with
  | none => simp
  | some t =>
      by_cases hzero : n = 0
      · simp [hzero]
      by_cases hvalid : PML4.isUserRangeValid t buf (n * psEntrySize % 2 ^ 64) true = true
      · have hlen : n * psEntrySize % 2 ^ 64 < 2 ^ 64 := Nat.mod_lt _ (by omega)
        have hle : n * psEntrySize % 2 ^ 64 ≤ n * psEntrySize := Nat.mod_le _ _
        have hfit := fit_of_isUserRangeValid hbuf hlen hvalid
        simp only [hzero, if_false, hvalid, if_true, Kernel.processPslist, touches_pslistLoop,
          Nat.mul_zero, Nat.add_zero, Nat.sub_zero, List.mem_singleton, exists_eq_left,
          Option.some.injEq, forall_eq', ne_eq, not_false_eq_true, forall_const]
        rw [← row_inside_iff hbuf hfit hlen]
        refine forall_congr' fun a => imp_congr_right fun _ => ?_
        omega
      · refine iff_of_true (fun a htouch => ?_) (fun t' ht _ hok => ?_)
        · dsimp only at htouch
          rw [if_neg hzero, if_neg hvalid] at htouch
          exact absurd htouch touches_nil
        · cases ht
          exact absurd hok hvalid

/-- The same for `sys_net_fetch_read`. -/
theorem confined_netFetchRead_iff (k : Kernel) (buf cap : UInt64) :
    k.Confined (.netFetchRead buf cap) ↔ k.LengthsAgree (.netFetchRead buf cap) := by
  have hbuf := buf.toNat_lt
  have hcap := cap.toNat_lt
  dsimp only [Kernel.Confined, Kernel.LengthsAgree, Kernel.exec, Kernel.sysNetFetchRead,
    Call.Allows]
  generalize buf.toNat = buf at hbuf
  generalize cap.toNat = cap at hcap
  cases k.current with
  | none => simp
  | some t =>
      by_cases hzero : cap = 0
      · simp [hzero]
      by_cases hvalid : PML4.isUserRangeValid t buf cap true = true
      · by_cases hbig : netFetchMaxCap < cap
        · simp [hzero, hvalid, hbig, Nat.not_le.mpr hbig]
        by_cases hnetd : k.netd = true
        · by_cases hshm : k.makeBodyShm = true
          · cases hreply : k.reply with
            | none => simp [hzero, hvalid, hbig, hnetd, hshm]
            | some reply =>
                have hfit := fit_of_isUserRangeValid hbuf hcap hvalid
                have hinside := (row_inside_iff hbuf hfit hcap).trans
                  (copied_le_iff cap reply.result.toInt)
                simp only [hzero, if_false, hvalid, hbig, hnetd, hshm, Bool.true_eq_false,
                  touches_copyReply, List.mem_singleton, exists_eq_left, and_self]
                constructor
                · rintro hconf t' reply' - - - - - - ⟨⟩
                  exact hinside.mp hconf
                · intro hagree
                  exact hinside.mpr (hagree t reply rfl hzero hvalid (by omega) trivial trivial rfl)
          · simp [hzero, hvalid, hbig, hnetd, hshm]
        · simp [hzero, hvalid, hbig, hnetd]
      · refine iff_of_true (fun a htouch => ?_) (fun t' reply ht _ hok => ?_)
        · dsimp only at htouch
          rw [if_neg hzero, if_pos (by simpa using hvalid)] at htouch
          exact absurd htouch touches_nil
        · cases ht
          exact absurd hok hvalid

/-- Where the stores of `sys_net_fetch` come from: the reply and the status word, or the status word
alone, or nothing. -/
theorem sysNetFetch_cases (k : Kernel) (urlPtr buf cap statusPtr : Nat) :
    (∃ t reply, k.current = some t ∧ k.Asks t urlPtr buf cap statusPtr ∧ k.reply = some reply ∧
      (k.sysNetFetch urlPtr buf cap statusPtr).stores =
        (if 0 < cap then k.copyReply buf cap reply.result.toInt else []) ++
          storeStatus statusPtr reply.status ∧
      (k.sysNetFetch urlPtr buf cap statusPtr).accepted = fetchRanges buf cap statusPtr) ∨
    ((∀ t reply, k.current = some t → k.Asks t urlPtr buf cap statusPtr → k.reply ≠ some reply) ∧
      ((k.sysNetFetch urlPtr buf cap statusPtr).stores = [] ∨
        ∃ t status, (statusPtr ≠ 0 → PML4.isUserRangeValid t statusPtr 4 true = true) ∧
          (k.sysNetFetch urlPtr buf cap statusPtr).stores = storeStatus statusPtr status ∧
          (k.sysNetFetch urlPtr buf cap statusPtr).accepted = fetchRanges buf cap statusPtr)) := by
  unfold Kernel.sysNetFetch
  cases hcur : k.current with
  | none => exact Or.inr ⟨fun t reply h => (by cases h), Or.inl rfl⟩
  | some t =>
      dsimp only
      split
      · next hurl =>
          exact Or.inr ⟨fun t' reply _ hasks => absurd hurl hasks.urlOk, Or.inl rfl⟩
      next hurl =>
      split
      · next hbuf =>
          refine Or.inr ⟨fun t' reply ht hasks => ?_, Or.inl rfl⟩
          cases ht
          have hok := hasks.bufOk hbuf.1
          rw [hbuf.2] at hok
          cases hok
      next hbuf =>
      split
      · next hstatus =>
          refine Or.inr ⟨fun t' reply ht hasks => ?_, Or.inl rfl⟩
          cases ht
          have hok := hasks.statusOk hstatus.1
          rw [hstatus.2] at hok
          cases hok
      next hstatus =>
      have hstatusOk : statusPtr ≠ 0 → PML4.isUserRangeValid t statusPtr 4 true = true := by
        intro hne
        by_contra hbad
        exact hstatus ⟨hne, by simpa using hbad⟩
      split
      · next hbig =>
          exact Or.inr ⟨fun t' reply _ hasks => absurd hasks.capOk (by omega), Or.inl rfl⟩
      next hbig =>
      dsimp only
      unfold Kernel.fetch
      split
      · next hnetd =>
          refine Or.inr ⟨fun t' reply _ hasks => ?_, Or.inr ⟨t, 0, hstatusOk, rfl, rfl⟩⟩
          have hup := hasks.netdUp
          rw [hnetd] at hup
          cases hup
      next hnetd =>
      split
      · next hurlShm =>
          refine Or.inr ⟨fun t' reply _ hasks => ?_, Or.inl rfl⟩
          have hok := hasks.urlShm
          rw [hurlShm] at hok
          cases hok
      next hurlShm =>
      split
      · next hbody =>
          refine Or.inr ⟨fun t' reply _ hasks => ?_, Or.inl rfl⟩
          have hok := hasks.bodyShm hbody.1
          rw [hbody.2] at hok
          cases hok
      next hbody =>
      cases hreply : k.reply with
      | none =>
          exact Or.inr ⟨fun t' reply _ _ h => (by cases h), Or.inr ⟨t, 0, hstatusOk, rfl, rfl⟩⟩
      | some reply =>
          refine Or.inl ⟨t, reply, rfl, ⟨hurl, fun hpos => ?_, hstatusOk, by omega,
            by simpa using hnetd, by simpa using hurlShm, fun hpos => ?_⟩, rfl, rfl, rfl⟩
          · by_contra hbad
            exact hbuf ⟨hpos, by simpa using hbad⟩
          · by_contra hbad
            exact hbody ⟨hpos, by simpa using hbad⟩

theorem mem_fetchRanges {r : Nat × Nat} {buf cap statusPtr : Nat} :
    r ∈ fetchRanges buf cap statusPtr ↔
      (cap ≠ 0 ∧ r = (buf, cap)) ∨ (statusPtr ≠ 0 ∧ r = (statusPtr, 4)) := by
  unfold fetchRanges
  by_cases hcap : cap = 0 <;> by_cases hstatus : statusPtr = 0 <;> simp [hcap, hstatus]

/-- The same for `sys_net_fetch`. -/
theorem confined_netFetch_iff (k : Kernel) (urlPtr buf cap statusPtr : UInt64) :
    k.Confined (.netFetch urlPtr buf cap statusPtr) ↔
      k.LengthsAgree (.netFetch urlPtr buf cap statusPtr) := by
  have hbuf := buf.toNat_lt
  have hcap := cap.toNat_lt
  have hptr := statusPtr.toNat_lt
  dsimp only [Kernel.Confined, Kernel.LengthsAgree, Kernel.exec, Call.Allows]
  have hcases := sysNetFetch_cases k urlPtr.toNat buf.toNat cap.toNat statusPtr.toNat
  generalize urlPtr.toNat = urlPtr at hcases
  generalize buf.toNat = buf at hbuf hcases
  generalize cap.toNat = cap at hcap hcases
  generalize statusPtr.toNat = statusPtr at hptr hcases
  have hinside : ∀ {a}, (buf ≤ a ∧ a < buf + cap) ∨
      (statusPtr ≠ 0 ∧ statusPtr ≤ a ∧ a < statusPtr + 4) →
      ∃ r ∈ fetchRanges buf cap statusPtr, r.1 ≤ a ∧ a < r.1 + r.2 := by
    rintro a (hin | ⟨hne, hin⟩)
    · exact ⟨(buf, cap), mem_fetchRanges.mpr (Or.inl ⟨by omega, rfl⟩), hin⟩
    · exact ⟨(statusPtr, 4), mem_fetchRanges.mpr (Or.inr ⟨hne, rfl⟩), hin⟩
  rcases hcases with ⟨t, reply, hcur, hasks, hreply, hstores, haccepted⟩ | ⟨hno, hstores⟩
  · have hstatusFit : statusPtr ≠ 0 → statusPtr + 4 ≤ 2 ^ 64 := fun hne =>
      fit_of_isUserRangeValid hptr (by omega) (hasks.statusOk hne)
    have hbufFit : buf + cap ≤ 2 ^ 64 := by
      by_cases hpos : 0 < cap
      · exact fit_of_isUserRangeValid hbuf hcap (hasks.bufOk hpos)
      · omega
    have hbody : ∀ a, Touches (if 0 < cap then k.copyReply buf cap reply.result.toInt else []) a ↔
        ∃ i, i < min reply.result.toInt.toNat (numPages cap * pageSize) ∧
          a = (buf + i) % 2 ^ 64 := by
      intro a
      split
      · exact touches_copyReply _
      · next hzero =>
          have hnone : numPages cap * pageSize = 0 := by
            rw [show cap = 0 by omega]
            rfl
          rw [hnone, Nat.min_zero]
          simp
    have hmax : netFetchMaxCap = 16777216 := rfl
    have hcapMax := hasks.capOk
    have hpages : numPages cap * pageSize ≤ cap + 4095 := by
      unfold numPages
      rw [show pageSize = 4096 from rfl]
      omega
    rw [hstores, haccepted]
    have hcopied := copied_le_iff cap reply.result.toInt
    constructor
    · intro hconf t' reply' ht hasks' hr
      obtain rfl : reply = reply' := by
        rw [hreply] at hr
        exact Option.some.inj hr
      by_cases hle : min reply.result.toInt.toNat (numPages cap * pageSize) ≤ cap
      · rcases hcopied.mp hle with h | h
        · exact Or.inl h
        · exact Or.inr (Or.inl h)
      · right
        right
        -- a byte behind the buffer is not in it, so it is in the status word
        have hexcess : ∀ i, cap ≤ i →
            i < min reply.result.toInt.toNat (numPages cap * pageSize) →
            statusPtr ≠ 0 ∧ statusPtr ≤ (buf + i) % 2 ^ 64 ∧
              (buf + i) % 2 ^ 64 < statusPtr + 4 := by
          intro i hi hlt
          have hallowed := (hconf ((buf + i) % 2 ^ 64)
            (touches_append.mpr (Or.inl ((hbody _).mpr ⟨i, hlt, rfl⟩)))).1
          refine hallowed.resolve_left ?_
          omega
        exact ⟨(hexcess cap (Nat.le_refl _) (by omega)).1, fun i hi hlt => (hexcess i hi hlt).2⟩
    · intro hagree a htouch
      have hallowed : (buf ≤ a ∧ a < buf + cap) ∨
          (statusPtr ≠ 0 ∧ statusPtr ≤ a ∧ a < statusPtr + 4) := by
        rcases touches_append.mp htouch with hcopy | hstatus
        · obtain ⟨i, hi, rfl⟩ := (hbody a).mp hcopy
          by_cases hin : i < cap
          · left
            rw [Nat.mod_eq_of_lt (by omega)]
            omega
          · rcases hagree t reply hcur hasks hreply with hle | hpage | ⟨hne, hword⟩
            · exact absurd (hcopied.mpr (Or.inl hle)) (by omega)
            · exact absurd (hcopied.mpr (Or.inr hpage)) (by omega)
            · exact Or.inr ⟨hne, hword i (by omega) hi⟩
        · exact Or.inr ((touches_storeStatus hstatusFit _).mp hstatus)
      exact ⟨hallowed, hinside hallowed⟩
  · refine iff_of_true (fun a htouch => ?_)
      (fun t reply hcur hasks hr => absurd hr (hno t reply hcur hasks))
    rcases hstores with hnone | ⟨t, status, hvalid, hstores, haccepted⟩
    · rw [hnone] at htouch
      exact absurd htouch touches_nil
    · rw [hstores] at htouch
      rw [haccepted]
      have hin := (touches_storeStatus (fun hne =>
        fit_of_isUserRangeValid hptr (by omega) (hvalid hne)) status).mp htouch
      exact ⟨Or.inr hin, hinside (Or.inr hin)⟩

/-- **Output bounds.**  A call stores inside the buffer it was given, and in ranges that were
accepted, exactly when its lengths agree. -/
theorem confined_iff (k : Kernel) (c : Call) : k.Confined c ↔ k.LengthsAgree c := by
  cases c with
  | pslist buf maxCount => exact confined_pslist_iff k buf maxCount
  | netFetch urlPtr buf cap statusPtr => exact confined_netFetch_iff k urlPtr buf cap statusPtr
  | netFetchRead buf cap => exact confined_netFetchRead_iff k buf cap

/-- A page table that maps everything for the user. -/
def openTable : PML4 := fun _ =>
  ⟨{ present := true, write := true, user := true }, 0, fun _ =>
    ⟨{ present := true, write := true, user := true }, 0, fun _ =>
      ⟨{ present := true, write := true, user := true }, 0, fun _ =>
        ⟨{ present := true, write := true, user := true }, 0, ()⟩⟩⟩⟩

theorem isUserRangeValid_openTable {addr len : Nat} (hfit : addr + len ≤ 2 ^ 64)
    (haddr : addr < 2 ^ 64) (hlen : len < 2 ^ 64) (hpos : 0 < len) :
    PML4.isUserRangeValid openTable addr len true = true :=
  (PML4.isUserRangeValid_eq_true_iff haddr hlen hpos).mpr ⟨hfit, fun _ _ _ => rfl⟩

/-- One process runs, and the daemon reports more bytes than it was asked for. -/
def busyKernel : Kernel where
  current := some openTable
  processes := [⟨1, 0, fun _ => 0, 0, 0, 0⟩]
  netd := true
  validateUserString := fun _ => some 0
  makeUrlShm := true
  makeBodyShm := true
  reply := some ⟨4096, 200⟩
  pages := fun _ _ => 0

/-- With `max_count = (2^61 + 5) / 7` the product wraps to 40, less than one entry; and a daemon
that reports a whole page fills it behind a buffer of one byte. -/
theorem stores_leave_buffer :
    ¬ busyKernel.Confined (.pslist 4096 329406144173384851) ∧
      ¬ busyKernel.Confined (.netFetch 0 4096 1 0) ∧
      ¬ busyKernel.Confined (.netFetchRead 4096 1) := by
  have hone : PML4.isUserRangeValid openTable 4096 1 true = true :=
    isUserRangeValid_openTable (by omega) (by omega) (by omega) (by omega)
  refine ⟨fun h => ?_, fun h => ?_, fun h => ?_⟩
  · have hagree := (confined_pslist_iff _ _ _).mp h openTable rfl (by decide)
      (isUserRangeValid_openTable (by decide) (by decide) (by decide) (by decide))
    exact absurd hagree (by decide)
  · have hagree := (confined_netFetch_iff _ _ _ _ _).mp h openTable ⟨4096, 200⟩ rfl
      ⟨by simp [busyKernel], fun _ => hone, fun hne => absurd rfl hne, by decide, rfl, rfl,
        fun _ => rfl⟩ rfl
    rcases hagree with hle | hpage | ⟨hne, -⟩
    · exact absurd hle (by decide)
    · exact absurd hpage (by decide)
    · exact hne rfl
  · have hagree := (confined_netFetchRead_iff _ _ _).mp h openTable ⟨4096, 200⟩ rfl (by decide) hone
      (by decide) rfl rfl rfl
    exact absurd hagree (by decide)

end Syscall
