import LufiraOS.Driver.File
import LufiraOS.Lib.RingBuffer

/-!
# Pipes

The pipe functions of `kernel/fs/vfs/vfs.c`.  A reader that finds the pipe empty
and a writer that finds it full put themselves into the waiter slot of their side
and call `schedule()`; the code between two such points runs undisturbed, so each
loop is a function that ends by returning or by blocking.

Processes are numbered; of a process only its `state` is kept here.
-/

namespace Vfs

open LufiraFs (toInt)

/-- `PIPE_BUF_SIZE`. -/
def pipeBufSize : Nat := 4096

/-- The states of a process the pipe code moves between. -/
inductive ProcState
  | ready
  | running
  | blocked
  deriving DecidableEq, Repr

/-- `pipe_t`; the bytes, their positions and their count are the ring. -/
structure Pipe where
  ring : RingBuffer UInt8
  readers : Int
  writers : Int
  readWaiter : Option Nat
  writeWaiter : Option Nat

/-- The pipe as `vfs_pipe` sets it up in the memory `buffer`. -/
def Pipe.fresh (buffer : Nat → UInt8) : Pipe where
  ring := ⟨buffer, pipeBufSize, 0, 0, 0⟩
  readers := 1
  writers := 1
  readWaiter := none
  writeWaiter := none

/-- What a pipe function works on: the pipe and the states of the processes. -/
structure Shared where
  pipe : Pipe
  state : Nat → ProcState

/-- `pipe_wake`, on the process states; the callers clear the slot. -/
def pipeWake (waiter : Option Nat) (state : Nat → ProcState) : Nat → ProcState :=
  match waiter with
  | none => state
  | some pid => Function.update state pid .ready

namespace Shared

variable (sh : Shared)

/-- `pipe_wake (&p->read_waiter)`. -/
def wakeReader : Shared :=
  ⟨{ sh.pipe with readWaiter := none }, pipeWake sh.pipe.readWaiter sh.state⟩

/-- `pipe_wake (&p->write_waiter)`. -/
def wakeWriter : Shared :=
  ⟨{ sh.pipe with writeWaiter := none }, pipeWake sh.pipe.writeWaiter sh.state⟩

/-- Take the byte at the read position, and wake a writer. -/
def takeByte : Shared :=
  { sh with pipe := { sh.pipe with ring := sh.pipe.ring.pop } }.wakeWriter

/-- Store a byte at the write position, and wake a reader. -/
def putByte (b : UInt8) : Shared :=
  { sh with pipe := { sh.pipe with ring := sh.pipe.ring.push b } }.wakeReader

/-- Wait for bytes: `p->read_waiter = current_process`, then `schedule()`. -/
def awaitBytes (me : Nat) : Shared :=
  ⟨{ sh.pipe with readWaiter := some me }, Function.update sh.state me .blocked⟩

/-- Wait for room: `p->write_waiter = current_process`, then `schedule()`. -/
def awaitRoom (me : Nat) : Shared :=
  ⟨{ sh.pipe with writeWaiter := some me }, Function.update sh.state me .blocked⟩

end Shared

/-- How a stretch of a pipe call ends. -/
inductive Exit
  | returned
  | blocked
  deriving DecidableEq, Repr

/-- The loop of `pipe_read` with `n` bytes still to come and `out` read so far,
up to its end or to its `schedule()`. -/
def pipeReadLoop (me : Nat) : (n : Nat) → List UInt8 → Shared → Exit × List UInt8 × Shared
  | 0, out, sh => (.returned, out, sh)
  | n + 1, out, sh =>
    if sh.pipe.ring.count = 0 then
      if sh.pipe.writers = 0 then (.returned, out, sh)
      else if out = [] then (.blocked, out, sh.awaitBytes me)
      else (.returned, out, sh)
    else pipeReadLoop me n (out ++ [sh.pipe.ring.front]) sh.takeByte

/-- The loop of `pipe_write` with the bytes `rest` still to be written and
`total` written so far, up to its end or to its `schedule()`: what is still to
be written then, and how much has been. -/
def pipeWriteLoop (me : Nat) :
    (rest : List UInt8) → (total : Nat) → Shared → Exit × List UInt8 × Nat × Shared
  | [], total, sh => (.returned, [], total, sh)
  | b :: rest, total, sh =>
    if sh.pipe.readers = 0 then (.returned, b :: rest, total, sh)
    else if sh.pipe.ring.count = sh.pipe.ring.size then
      (.blocked, b :: rest, total, sh.awaitRoom me)
    else pipeWriteLoop me rest (total + 1) (sh.putByte b)

/-- What `pipe_read` returns for `total` bytes. -/
def pipeReadResult (total : Nat) : Int := toInt total

/-- What `pipe_write` returns for `total` of `count` bytes. -/
def pipeWriteResult (count total : Nat) : Int :=
  if total = 0 ∧ 0 < count then -1 else toInt total

/-- `pipe_free_if_orphaned`. -/
def pipeFreeIfOrphaned (p : Pipe) : Option Pipe :=
  if p.readers = 0 ∧ p.writers = 0 then none else some p

/-- `pipe_close_read`; the pipe is gone when it was the last end. -/
def pipeCloseRead (p : Pipe) (state : Nat → ProcState) : Option Pipe × (Nat → ProcState) :=
  let sh := Shared.wakeWriter ⟨{ p with readers := p.readers - 1 }, state⟩
  (pipeFreeIfOrphaned sh.pipe, sh.state)

/-- `pipe_close_write`; the pipe is gone when it was the last end. -/
def pipeCloseWrite (p : Pipe) (state : Nat → ProcState) : Option Pipe × (Nat → ProcState) :=
  let sh := Shared.wakeReader ⟨{ p with writers := p.writers - 1 }, state⟩
  (pipeFreeIfOrphaned sh.pipe, sh.state)

/-! ## The loops -/

variable (sh : Shared)

@[simp] theorem Shared.takeByte_ring : sh.takeByte.pipe.ring = sh.pipe.ring.pop := rfl

@[simp] theorem Shared.takeByte_readers :
    sh.takeByte.pipe.readers = sh.pipe.readers := rfl

@[simp] theorem Shared.takeByte_writers :
    sh.takeByte.pipe.writers = sh.pipe.writers := rfl

@[simp] theorem Shared.putByte_ring (b : UInt8) :
    (sh.putByte b).pipe.ring = sh.pipe.ring.push b := rfl

@[simp] theorem Shared.putByte_readers (b : UInt8) :
    (sh.putByte b).pipe.readers = sh.pipe.readers := rfl

@[simp] theorem Shared.awaitBytes_ring (me : Nat) :
    (sh.awaitBytes me).pipe.ring = sh.pipe.ring := rfl

@[simp] theorem Shared.awaitRoom_ring (me : Nat) :
    (sh.awaitRoom me).pipe.ring = sh.pipe.ring := rfl

/-- What a stretch of `pipe_read` does to the queue `q` in the pipe: it takes a
first part of it, and it returns short of the `n` bytes only with the queue
empty, and with nothing read only with no writer left. -/
structure ReadSpec (n : Nat) (out q : List UInt8) (sh : Shared) (exit : Exit) (bytes : List UInt8)
    (sh' : Shared) (taken rest : List UInt8) : Prop where
  split : q = taken ++ rest
  bytes_eq : bytes = out ++ taken
  holds : sh'.pipe.ring.Holds rest
  size : sh'.pipe.ring.size = sh.pipe.ring.size
  writers : sh'.pipe.writers = sh.pipe.writers
  eof : exit = .returned → bytes = [] → 0 < n → rest = [] ∧ sh'.pipe.writers = 0

/-- **One stretch of `pipe_read`.** -/
theorem pipeReadLoop_spec (me n : Nat) (out q : List UInt8) (sh : Shared)
    (hring : sh.pipe.ring.Holds q) {exit : Exit} {bytes : List UInt8} {sh' : Shared}
    (h : pipeReadLoop me n out sh = (exit, bytes, sh')) :
    ∃ taken rest, ReadSpec n out q sh exit bytes sh' taken rest := by
  induction n generalizing out q sh with
  | zero =>
    obtain ⟨rfl, rfl, rfl⟩ := by simpa [pipeReadLoop] using h
    exact ⟨[], q, rfl, by simp, hring, rfl, rfl, fun _ _ h0 => absurd h0 (by omega)⟩
  | succ n ih =>
    rw [pipeReadLoop] at h
    split_ifs at h with hcount hwriters hout
    · obtain ⟨rfl, rfl, rfl⟩ := by simpa using h
      have hq : q = [] := List.length_eq_zero_iff.1 (hring.length.trans hcount)
      exact ⟨[], q, rfl, by simp, hring, rfl, rfl, fun _ _ _ => ⟨hq, hwriters⟩⟩
    · obtain ⟨rfl, rfl, rfl⟩ := by simpa using h
      exact ⟨[], q, rfl, by simp, hring, rfl, rfl, fun hexit => nomatch hexit⟩
    · obtain ⟨rfl, rfl, rfl⟩ := by simpa using h
      exact ⟨[], q, rfl, by simp, hring, rfl, rfl, fun _ hnil => absurd hnil hout⟩
    cases q with
    | nil => exact absurd hring.length.symm hcount
    | cons b q =>
      obtain ⟨taken, rest, hspec⟩ := ih _ q sh.takeByte hring.pop h
      have hbytes : bytes = out ++ b :: taken := by
        rw [hspec.bytes_eq, hring.front, List.append_assoc, List.singleton_append]
      refine ⟨b :: taken, rest, by rw [hspec.split, List.cons_append], hbytes, hspec.holds,
        hspec.size, hspec.writers, ?_⟩
      intro _ hnil
      simp [hbytes] at hnil

/-- What a stretch of `pipe_write` does to the queue `q` in the pipe: it appends
a first part of what was to be written, and it returns with bytes left only with
no reader left. -/
structure WriteSpec (data q : List UInt8) (total : Nat) (sh : Shared) (exit : Exit)
    (rest : List UInt8) (total' : Nat) (sh' : Shared) (put : List UInt8) : Prop where
  split : data = put ++ rest
  total_eq : total' = total + put.length
  holds : sh'.pipe.ring.Holds (q ++ put)
  size : sh'.pipe.ring.size = sh.pipe.ring.size
  broken : exit = .returned → rest ≠ [] → sh'.pipe.readers = 0

/-- **One stretch of `pipe_write`.** -/
theorem pipeWriteLoop_spec (me : Nat) (data q : List UInt8) (total : Nat) (sh : Shared)
    (hring : sh.pipe.ring.Holds q) {exit : Exit} {rest : List UInt8} {total' : Nat}
    {sh' : Shared} (h : pipeWriteLoop me data total sh = (exit, rest, total', sh')) :
    ∃ put, WriteSpec data q total sh exit rest total' sh' put := by
  induction data generalizing q total sh with
  | nil =>
    obtain ⟨rfl, rfl, rfl, rfl⟩ := by simpa [pipeWriteLoop] using h
    exact ⟨[], rfl, rfl, by simpa using hring, rfl, fun _ hne => absurd rfl hne⟩
  | cons b data ih =>
    rw [pipeWriteLoop] at h
    split_ifs at h with hreaders hfull
    · obtain ⟨rfl, rfl, rfl, rfl⟩ := by simpa using h
      exact ⟨[], rfl, rfl, by simpa using hring, rfl, fun _ _ => hreaders⟩
    · obtain ⟨rfl, rfl, rfl, rfl⟩ := by simpa using h
      exact ⟨[], rfl, rfl, by simpa using hring, rfl, fun hexit => nomatch hexit⟩
    have hroom : sh.pipe.ring.count < sh.pipe.ring.size := lt_of_le_of_ne hring.fits hfull
    obtain ⟨put, hspec⟩ := ih (q ++ [b]) (total + 1) (sh.putByte b) (hring.push hroom b) h
    refine ⟨b :: put, by rw [hspec.split, List.cons_append], ?_, ?_, hspec.size, hspec.broken⟩
    · rw [hspec.total_eq, List.length_cons]
      omega
    · simpa using hspec.holds

end Vfs
