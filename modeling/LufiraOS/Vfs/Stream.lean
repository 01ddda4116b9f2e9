import LufiraOS.Lib.Run
import LufiraOS.Vfs.Pipe

/-!
# A pipe as a byte stream

One pipe used by any number of processes.  A call of `pipe_read` or `pipe_write`
runs until it returns or blocks; a blocked call is taken up again when its
process is ready and the scheduler chooses it.  Between such stretches the ends
of the pipe are duplicated and closed.

The bytes stored in and taken from the pipe since it was made are recorded, and
so is what the last event returned to its caller.
-/

namespace Vfs

open List

open Function

open LufiraFs (toInt)

/-- A pipe call that sleeps in `schedule()`. -/
inductive Call
  | read (count : Nat)
  | write (count : Nat) (rest : List UInt8) (total : Nat)

/-- A pipe call as its caller made it. -/
inductive Request
  | read (count : Nat)
  | write (count : Nat)

/-- A pipe and its users.  `pipe` is empty when the pipe has been freed. -/
structure PipeSys where
  pipe : Option Pipe
  state : Nat → ProcState
  call : Nat → Option Call
  inserted : List UInt8
  removed : List UInt8
  answer : Option (Request × Int)

/-- What can happen to a pipe. -/
inductive PipeEvent
  | read (pid count : Nat)
  | write (pid : Nat) (data : List UInt8)
  /-- The scheduler continues a ready process. -/
  | resume (pid : Nat)
  /-- Something else makes a blocked process ready. -/
  | rouse (pid : Nat)
  | dupRead
  | dupWrite
  | closeRead
  | closeWrite

namespace PipeSys

/-- The pipe just made by `vfs_pipe`. -/
def fresh (buffer : Nat → UInt8) (state : Nat → ProcState) : PipeSys :=
  ⟨some (Pipe.fresh buffer), state, fun _ => none, [], [], none⟩

/-- A stretch of `pipe_read` by `pid`. -/
def stretchRead (s : PipeSys) (p : Pipe) (pid count : Nat) : PipeSys :=
  match pipeReadLoop pid count [] ⟨p, s.state⟩ with
  | (.returned, bytes, sh) =>
    { s with
      pipe := some sh.pipe, state := sh.state, call := Function.update s.call pid none
      removed := s.removed ++ bytes
      answer := some (.read count, pipeReadResult bytes.length) }
  | (.blocked, bytes, sh) =>
    { s with
      pipe := some sh.pipe, state := sh.state
      call := Function.update s.call pid (some (.read count))
      removed := s.removed ++ bytes, answer := none }

/-- A stretch of `pipe_write` by `pid`, of `count` bytes of which `rest` are to
be written. -/
def stretchWrite (s : PipeSys) (p : Pipe) (pid count : Nat) (rest : List UInt8) (total : Nat) :
    PipeSys :=
  match pipeWriteLoop pid rest total ⟨p, s.state⟩ with
  | (.returned, _, total', sh) =>
    { s with
      pipe := some sh.pipe, state := sh.state, call := Function.update s.call pid none
      inserted := s.inserted ++ rest.take (total' - total)
      answer := some (.write count, pipeWriteResult count total') }
  | (.blocked, rest', total', sh) =>
    { s with
      pipe := some sh.pipe, state := sh.state
      call := Function.update s.call pid (some (.write count rest' total'))
      inserted := s.inserted ++ rest.take (total' - total), answer := none }

/-- One event of a live pipe.  A process that sleeps in a call cannot make
another, and only an open end can be duplicated or closed. -/
def execLive (s : PipeSys) (p : Pipe) : PipeEvent → PipeSys
  | .read pid count =>
    match s.call pid with
    | none => s.stretchRead p pid count
    | some _ => s
  | .write pid data =>
    match s.call pid with
    | none => s.stretchWrite p pid data.length data 0
    | some _ => s
  | .resume pid =>
    if s.state pid = .ready then
      let s := { s with state := Function.update s.state pid .running }
      match s.call pid with
      | none => s
      | some (.read count) => s.stretchRead p pid count
      | some (.write count rest total) => s.stretchWrite p pid count rest total
    else s
  | .rouse pid => { s with state := Function.update s.state pid .ready }
  | .dupRead => if 0 < p.readers then
    { s with pipe := some { p with readers := p.readers + 1 } } else s
  | .dupWrite => if 0 < p.writers then
    { s with pipe := some { p with writers := p.writers + 1 } } else s
  | .closeRead =>
    if 0 < p.readers then
      { s with pipe := (pipeCloseRead p s.state).1, state := (pipeCloseRead p s.state).2 }
    else s
  | .closeWrite =>
    if 0 < p.writers then
      { s with pipe := (pipeCloseWrite p s.state).1, state := (pipeCloseWrite p s.state).2 }
    else s

/-- One event; nothing happens to a pipe that has been freed. -/
def exec (s : PipeSys) (e : PipeEvent) : PipeSys :=
  match s.pipe with
  | none => { s with answer := none }
  | some p => { s with answer := none }.execLive p e

/-- **The stream property** of a pipe, in the state after an event. -/
structure Stream (s : PipeSys) : Prop where
  fifo : s.removed <+: s.inserted
  count : ∀ p, s.pipe = some p →
    p.ring.count = s.inserted.length - s.removed.length ∧ p.ring.count ≤ pipeBufSize
  eof : ∀ count, s.answer = some (.read count, 0) → 0 < count →
    s.removed = s.inserted ∧ ∃ p, s.pipe = some p ∧ p.writers = 0
  broken : ∀ count v, s.answer = some (.write count, v) → v < count →
    ∃ p, s.pipe = some p ∧ p.readers = 0

/-- The number of bytes to be written fits into an `int`. -/
def Fits (_ : PipeSys) : PipeEvent → Prop
  | .write _ data => data.length < 2147483648
  | _ => True

instance (s : PipeSys) (e : PipeEvent) : Decidable (Fits s e) :=
  match e with
  | .write _ data => inferInstanceAs (Decidable (data.length < 2147483648))
  | .read _ _ | .resume _ | .rouse _ | .dupRead | .dupWrite | .closeRead | .closeWrite =>
    isTrue trivial

/-! ## The invariant -/

/-- What is stored and not yet taken lies in the ring, in order, and a writer
that sleeps knows how much it has written. -/
structure Sound (s : PipeSys) : Prop where
  queue : ∃ q, s.inserted = s.removed ++ q ∧
    ∀ p, s.pipe = some p → p.ring.Holds q ∧ p.ring.size = pipeBufSize
  sleeping : ∀ pid count rest total, s.call pid = some (.write count rest total) →
    total + rest.length = count ∧ count < 2147483648

variable {s : PipeSys} {p : Pipe} {state : Nat → ProcState} {size len : Nat}

/-- The answer of the last event is as the stream property wants it. -/
structure Answered (s : PipeSys) : Prop where
  eof : ∀ count, s.answer = some (.read count, 0) → 0 < count →
    s.removed = s.inserted ∧ ∃ p, s.pipe = some p ∧ p.writers = 0
  broken : ∀ count v, s.answer = some (.write count, v) → v < count →
    ∃ p, s.pipe = some p ∧ p.readers = 0

theorem Answered.of_none (h : s.answer = none) : Answered s :=
  ⟨fun _ hans => by simp [h] at hans, fun _ _ hans => by simp [h] at hans⟩

theorem Sound.stream (hs : Sound s) (hans : Answered s) : Stream s := by
  obtain ⟨q, hq, hring⟩ := hs.queue
  refine ⟨⟨q, hq.symm⟩, ?_, hans.eof, hans.broken⟩
  intro p hp
  obtain ⟨hholds, hsize⟩ := hring p hp
  refine ⟨?_, hsize ▸ hholds.fits⟩
  rw [← hholds.length, hq, length_append]
  omega

/-- A pipe that still holds the same bytes keeps the invariant. -/
theorem Sound.repipe (hs : Sound s) (hp : s.pipe = some p) {pipe : Option Pipe}
    {answer : Option (Request × Int)}
    (hring : ∀ p', pipe = some p' → p'.ring = p.ring) :
    Sound { s with pipe := pipe, state := state, answer := answer } := by
  obtain ⟨q, hq, hqueue⟩ := hs.queue
  refine ⟨⟨q, hq, ?_⟩, hs.sleeping⟩
  intro p' hp'
  rw [hring p' hp']
  exact hqueue p hp

/-- A call that returns, or sleeps as a reader, leaves no unfinished write of its
process behind. -/
theorem Sound.recall (hs : Sound s) (pid : Nat) {c : Option Call}
    (hc : ∀ count rest total, c = some (.write count rest total) →
      total + rest.length = count ∧ count < 2147483648) (who count : Nat)
    (rest : List UInt8) (total : Nat)
    (h : update s.call pid c who = some (.write count rest total)) :
    total + rest.length = count ∧ count < 2147483648 := by
  rcases eq_or_ne who pid with rfl | hne
  · rw [update_self] at h
    exact hc _ _ _ h
  · rw [update_of_ne hne] at h
    exact hs.sleeping _ _ _ _ h

theorem toInt_of_lt {n : Nat} (h : n < 2147483648) : toInt n = n := by
  rw [toInt, Nat.mod_eq_of_lt (by omega), if_pos h]

/-- **A stretch of reading keeps the stream.** -/
theorem stretchRead_sound (hs : Sound s) (hp : s.pipe = some p) (pid count : Nat) :
    Sound (s.stretchRead p pid count) ∧ Answered (s.stretchRead p pid count) := by
  obtain ⟨q, hq, hqueue⟩ := hs.queue
  obtain ⟨hholds, hsize⟩ := hqueue p hp
  rcases hloop : pipeReadLoop pid count [] ⟨p, s.state⟩ with ⟨exit, bytes, sh⟩
  obtain ⟨taken, rest, hspec⟩ := pipeReadLoop_spec pid count [] q ⟨p, s.state⟩ hholds hloop
  have hbytes : bytes = taken := hspec.bytes_eq
  have hinserted : s.inserted = s.removed ++ bytes ++ rest := by
    rw [hq, hspec.split, hbytes, append_assoc]
  -- no stretch takes more than the ring holds, so the result is the true number
  have hshort : bytes.length < 2147483648 := by
    have hlen := hholds.length
    have hfits := hholds.fits
    rw [hsize, pipeBufSize] at hfits
    rw [hspec.split, length_append] at hlen
    rw [hbytes]
    omega
  have hring : ∀ p', some sh.pipe = some p' → p'.ring.Holds rest ∧ p'.ring.size = pipeBufSize := by
    rintro p' ⟨rfl⟩
    exact ⟨hspec.holds, hspec.size.trans hsize⟩
  cases exit with
  | returned =>
    rw [stretchRead, hloop]
    refine ⟨⟨⟨rest, hinserted, hring⟩, hs.recall pid (by simp)⟩, ?_, by simp⟩
    intro n hans hn
    simp only [Option.some.injEq, Prod.mk.injEq, Request.read.injEq, pipeReadResult,
      toInt_of_lt hshort] at hans
    obtain ⟨rfl, hzero⟩ := hans
    have hnil : bytes = [] := length_eq_zero_iff.1 (by exact_mod_cast hzero)
    obtain ⟨hrest, hwriters⟩ := hspec.eof rfl hnil hn
    exact ⟨by rw [hinserted, hrest, append_nil], sh.pipe, rfl, hwriters⟩
  | blocked =>
    rw [stretchRead, hloop]
    exact ⟨⟨⟨rest, hinserted, hring⟩, hs.recall pid (by simp)⟩, Answered.of_none rfl⟩

/-- **A stretch of writing keeps the stream.** -/
theorem stretchWrite_sound (hs : Sound s) (hp : s.pipe = some p) (pid : Nat) {count total : Nat}
    {data : List UInt8} (htotal : total + data.length = count) (hfits : count < 2147483648) :
    Sound (s.stretchWrite p pid count data total) ∧
      Answered (s.stretchWrite p pid count data total) := by
  obtain ⟨q, hq, hqueue⟩ := hs.queue
  obtain ⟨hholds, hsize⟩ := hqueue p hp
  rcases hloop : pipeWriteLoop pid data total ⟨p, s.state⟩ with ⟨exit, rest, total', sh⟩
  obtain ⟨put, hspec⟩ := pipeWriteLoop_spec pid data q total ⟨p, s.state⟩ hholds hloop
  have hput : data.take (total' - total) = put := by
    rw [hspec.split, hspec.total_eq, Nat.add_sub_cancel_left, take_left']
    rfl
  have hlen : total' + rest.length = count := by
    rw [← htotal, hspec.split, hspec.total_eq, length_append]
    omega
  have hinserted : s.inserted ++ put = s.removed ++ (q ++ put) := by
    rw [hq, append_assoc]
  have hring : ∀ p', some sh.pipe = some p' →
      p'.ring.Holds (q ++ put) ∧ p'.ring.size = pipeBufSize := by
    rintro p' ⟨rfl⟩
    exact ⟨hspec.holds, hspec.size.trans hsize⟩
  cases exit with
  | returned =>
    simp only [stretchWrite, hloop, hput]
    refine ⟨⟨⟨q ++ put, hinserted, hring⟩, hs.recall pid (by simp)⟩, by simp, ?_⟩
    intro n v hans hv
    obtain ⟨rfl, rfl⟩ := by simpa using hans
    refine ⟨sh.pipe, rfl, hspec.broken rfl ?_⟩
    rintro rfl
    rw [pipeWriteResult, if_neg (by simp at hlen; omega), toInt_of_lt (by omega)] at hv
    simp only [length_nil] at hlen
    omega
  | blocked =>
    simp only [stretchWrite, hloop, hput]
    refine ⟨⟨⟨q ++ put, hinserted, hring⟩, hs.recall pid ?_⟩, .of_none rfl⟩
    rintro n r t ⟨rfl⟩
    exact ⟨hlen, hfits⟩

theorem pipeFreeIfOrphaned_some {p' : Pipe} (h : pipeFreeIfOrphaned p = some p') : p' = p := by
  unfold pipeFreeIfOrphaned at h
  split_ifs at h
  cases h
  rfl

/-- One event keeps the stream. -/
theorem execLive_sound (hs : Sound s) (hp : s.pipe = some p) (hans : s.answer = none)
    {e : PipeEvent} (hfits : Fits s e) : Sound (s.execLive p e) ∧ Answered (s.execLive p e) := by
  have hidle : Sound s ∧ Answered s := ⟨hs, .of_none hans⟩
  have hrepipe : ∀ {pipe : Option Pipe} {state : Nat → ProcState},
      (∀ p', pipe = some p' → p'.ring = p.ring) →
      Sound { s with pipe := pipe, state := state } ∧
        Answered { s with pipe := pipe, state := state } :=
    fun hring => ⟨hs.repipe hp hring, .of_none hans⟩
  cases e with
  | read pid count =>
    simp only [execLive]
    split
    · exact stretchRead_sound hs hp pid count
    · exact hidle
  | write pid data =>
    simp only [execLive]
    split
    · exact stretchWrite_sound hs hp pid (Nat.zero_add _) hfits
    · exact hidle
  | resume pid =>
    simp only [execLive]
    split_ifs
    · have hrun : Sound { s with state := update s.state pid .running } := ⟨hs.queue, hs.sleeping⟩
      split
      · exact ⟨hrun, .of_none hans⟩
      · exact stretchRead_sound hrun hp pid _
      rename_i hcall
      obtain ⟨htotal, hcount⟩ := hs.sleeping _ _ _ _ hcall
      exact stretchWrite_sound hrun hp pid htotal hcount
    · exact hidle
  | rouse pid => exact ⟨⟨hs.queue, hs.sleeping⟩, .of_none hans⟩
  | dupRead | dupWrite =>
    simp only [execLive]
    split_ifs
    · exact hrepipe (by rintro p' ⟨rfl⟩; rfl)
    · exact hidle
  | closeRead | closeWrite =>
    simp only [execLive]
    split_ifs
    · refine hrepipe fun _ h => ?_
      rw [pipeFreeIfOrphaned_some h]
      rfl
    · exact hidle

theorem exec_sound (hs : Sound s) {e : PipeEvent} (hfits : Fits s e) :
    Sound (s.exec e) ∧ Answered (s.exec e) := by
  rw [exec]
  have hquiet : Sound { s with answer := none } := ⟨hs.queue, hs.sleeping⟩
  split
  · exact ⟨hquiet, .of_none rfl⟩
  · rename_i p hp
    exact execLive_sound hquiet hp rfl hfits

theorem fresh_sound (buffer : Nat → UInt8) (state : Nat → ProcState) :
    Sound (fresh buffer state) := by
  refine ⟨⟨[], rfl, ?_⟩, fun _ _ _ _ h => nomatch h⟩
  rintro p ⟨rfl⟩
  exact ⟨⟨rfl, Nat.zero_le _, (by decide : 0 < pipeBufSize), rfl, fun _ h => nomatch h⟩, rfl⟩

/-- **A pipe is a byte stream.**  However readers, writers and closes interleave,
what has been read is a first part of what has been written, the count is the
difference, a read returns `0` only at the end of the stream, and a write falls
short only when no read end is open, provided that no write is of more bytes
than an `int` can count. -/
theorem stream_of_run (buffer : Nat → UInt8) (state : Nat → ProcState) (es : List PipeEvent)
    (hfits : Run.Meets exec Fits (fresh buffer state) es) :
    Stream (Run.run exec (fresh buffer state) es) := by
  have hstep : ∀ s e, Sound s ∧ Answered s → Fits s e → Sound (s.exec e) ∧ Answered (s.exec e) :=
    fun s e hs hfit => exec_sound hs.1 hfit
  obtain ⟨hs, hans⟩ := Run.Meets.invariant hstep hfits
    ⟨fresh_sound buffer state, .of_none rfl⟩
  exact hs.stream hans

/-- A pipe whose reader finds two bytes and then the end of the stream. -/
def shortTalk : List PipeEvent := [.write 1 [7, 8], .read 2 5, .closeWrite, .read 2 5]

theorem stream_of_run_small :
    (Run.run exec (fresh (fun _ => 0) fun _ => .running) shortTalk).removed = [7, 8] ∧
      Stream (Run.run exec (fresh (fun _ => 0) fun _ => .running) shortTalk) :=
  ⟨rfl, stream_of_run _ _ shortTalk (by decide)⟩

/-! ## Writes that an `int` cannot count -/

theorem pipeWake_ready (waiter : Option Nat) {w : Nat}
    (hw : state w = .ready) : pipeWake waiter state w = .ready := by
  cases waiter with
  | none => exact hw
  | some pid => rw [pipeWake, update_apply, hw, ite_self]

/-- Reading exactly what the pipe holds empties it and leaves a waiting writer
ready. -/
theorem pipeReadLoop_drains (me w : Nat) (n : Nat) (out : List UInt8) (sh : Shared)
    (hcount : sh.pipe.ring.count = n)
    (hw : sh.state w = .ready ∨ sh.pipe.writeWaiter = some w ∧ 0 < n) :
    ∃ bytes sh', pipeReadLoop me n out sh = (.returned, bytes, sh') ∧
      sh'.pipe.ring.count = 0 ∧ sh'.pipe.ring.size = sh.pipe.ring.size ∧
      sh'.pipe.readers = sh.pipe.readers ∧ sh'.state w = .ready := by
  induction n generalizing out sh with
  | zero =>
    have hready : sh.state w = .ready := by
      rcases hw with hw | ⟨_, h0⟩
      · exact hw
      · omega
    exact ⟨out, sh, rfl, hcount, rfl, rfl, hready⟩
  | succ n ih =>
    have hready : sh.takeByte.state w = .ready := by
      rcases hw with hw | ⟨hw, _⟩
      · exact pipeWake_ready sh.pipe.writeWaiter hw
      · simp [Shared.takeByte, Shared.wakeWriter, pipeWake, hw]
    obtain ⟨bytes, sh', hloop, hrest⟩ := ih (out ++ [sh.pipe.ring.front]) sh.takeByte
      (by simp [hcount]) (.inl hready)
    refine ⟨bytes, sh', ?_, hrest⟩
    rw [pipeReadLoop, if_neg (by omega), hloop]

/-- With readers left, a write of no more than there is room for returns, and a
larger one fills the pipe and waits. -/
theorem pipeWriteLoop_fills (me : Nat) (data : List UInt8) (total room : Nat) (sh : Shared)
    (hreaders : sh.pipe.readers ≠ 0) (hroom : sh.pipe.ring.count + room = sh.pipe.ring.size) :
    ∃ sh', sh'.pipe.readers = sh.pipe.readers ∧ sh'.pipe.ring.size = sh.pipe.ring.size ∧
      if data.length ≤ room then
        pipeWriteLoop me data total sh = (.returned, [], total + data.length, sh')
      else
        pipeWriteLoop me data total sh = (.blocked, data.drop room, total + room, sh') ∧
          sh'.pipe.ring.count = sh.pipe.ring.size ∧ sh'.pipe.writeWaiter = some me := by
  induction data generalizing total room sh with
  | nil => exact ⟨sh, rfl, rfl, by simp [pipeWriteLoop]⟩
  | cons b data ih =>
    cases room with
    | zero =>
      refine ⟨sh.awaitRoom me, rfl, rfl, ?_⟩
      simp [pipeWriteLoop, hreaders, show sh.pipe.ring.count = sh.pipe.ring.size by omega,
        Shared.awaitRoom]
    | succ room =>
      obtain ⟨sh', hr, hsize, hcase⟩ := ih (total + 1) room (sh.putByte b) hreaders
        (by rw [Shared.putByte_ring, RingBuffer.push_count, RingBuffer.push_size]; omega)
      refine ⟨sh', hr, hsize, ?_⟩
      have hstep : pipeWriteLoop me (b :: data) total sh =
          pipeWriteLoop me data (total + 1) (sh.putByte b) := by
        rw [pipeWriteLoop, if_neg hreaders, if_neg (by omega)]
      rw [hstep]
      simp only [length_cons, Nat.add_le_add_iff_right, drop_succ_cons]
      split_ifs at hcase ⊢
      · rw [hcase, Nat.add_right_comm, Nat.add_assoc]
      · rw [hcase.1, Nat.add_right_comm, Nat.add_assoc]
        exact ⟨rfl, hcase.2⟩

/-- The writer `1` sleeps in a write of `len` bytes, `n` of which are left, and the
pipe of size `size` is full; the reader `2` is free. -/
structure Pumping (size len n : Nat) (s : PipeSys) : Prop where
  pipe : ∃ p, s.pipe = some p ∧ p.ring.count = size ∧ p.ring.size = size ∧
    p.readers = 1 ∧ p.writeWaiter = some 1
  call : ∃ rest total, s.call 1 = some (.write len rest total) ∧ rest.length = n ∧
    total + n = len
  idle : s.call 2 = none

/-- The write of `len` bytes has returned, with the read end open. -/
def Pumped (len : Nat) (s : PipeSys) : Prop :=
  s.answer = some (.write len, pipeWriteResult len len) ∧ ∃ p, s.pipe = some p ∧ p.readers = 1

/-- A stretch of writing into an empty pipe. -/
theorem stretchWrite_pumps {total : Nat} {rest : List UInt8}
    (hsize : p.ring.size = size) (hcount : p.ring.count = 0) (hreaders : p.readers = 1)
    (hlen : total + rest.length = len) (hidle : s.call 2 = none) :
    if rest.length ≤ size then Pumped len (s.stretchWrite p 1 len rest total)
    else Pumping size len (rest.length - size) (s.stretchWrite p 1 len rest total) := by
  obtain ⟨sh', hr, hs, hcase⟩ := pipeWriteLoop_fills 1 rest total size ⟨p, s.state⟩
    (by simp [hreaders]) (by simp [hcount, hsize])
  split_ifs at hcase ⊢ with hfit
  · rw [stretchWrite, hcase, hlen]
    exact ⟨rfl, sh'.pipe, rfl, hr.trans hreaders⟩
  obtain ⟨hloop, hfull, hwaiter⟩ := hcase
  rw [stretchWrite, hloop]
  refine ⟨⟨sh'.pipe, rfl, hfull.trans hsize, hs.trans hsize, hr.trans hreaders, hwaiter⟩, ?_, ?_⟩
  · refine ⟨rest.drop size, total + size, by simp, ?_, ?_⟩
    · rw [length_drop]
    · omega
  · simpa using hidle

/-- The reader empties the pipe and the writer goes on. -/
theorem Pumping.step {n : Nat} (h : Pumping size len n s) (hpos : 0 < size) :
    if n ≤ size then Pumped len ((s.exec (.read 2 size)).exec (.resume 1))
    else Pumping size len (n - size) ((s.exec (.read 2 size)).exec (.resume 1)) := by
  obtain ⟨p, hp, hcount, hsize, hreaders, hwaiter⟩ := h.pipe
  obtain ⟨rest, total, hcall, rfl, hlen⟩ := h.call
  obtain ⟨bytes, sh, hloop, hempty, hsize', hreaders', hready⟩ :=
    pipeReadLoop_drains 2 1 size [] ⟨p, s.state⟩ hcount (.inr ⟨hwaiter, hpos⟩)
  have hread : s.exec (.read 2 size) =
      { s with
        pipe := some sh.pipe, state := sh.state, call := update s.call 2 none
        removed := s.removed ++ bytes
        answer := some (.read size, pipeReadResult bytes.length) } := by
    simp only [exec, hp, execLive, h.idle, stretchRead, hloop]
  have hcall' : update s.call 2 none 1 = some (.write len rest total) := by
    rw [update_of_ne (by decide), hcall]
  rw [hread]
  simp only [exec, execLive, hready, if_true, hcall']
  exact stretchWrite_pumps (hsize'.trans hsize) hempty (hreaders'.trans hreaders) hlen (by simp)

/-- `k` rounds of the reader emptying the pipe and the writer going on. -/
def rounds (size k : Nat) : List PipeEvent :=
  (List.replicate k [.read 2 size, .resume 1]).flatten

/-- After `k + 1` rounds a write with `k + 1` pipe loads left has returned. -/
theorem Pumping.rounds (hpos : 0 < size) (k : Nat) (h : Pumping size len ((k + 1) * size) s) :
    Pumped len (Run.run exec s (rounds size (k + 1))) := by
  induction k generalizing s with
  | zero =>
    have hstep := h.step hpos
    rw [if_pos (by omega)] at hstep
    exact hstep
  | succ k ih =>
    have hless : (k + 1 + 1) * size - size = (k + 1) * size := by
      rw [Nat.add_mul (k + 1), Nat.one_mul, Nat.add_sub_cancel]
    have hmany : 0 < (k + 1) * size := Nat.mul_pos (Nat.succ_pos k) hpos
    have hstep := h.step hpos
    rw [if_neg (by omega), hless] at hstep
    exact ih hstep

/-- A write of `k + 2` pipe loads returns while the read end is open. -/
theorem write_pumped (buffer : Nat → UInt8) (state : Nat → ProcState) (k : Nat)
    (data : List UInt8) (hdata : data.length = (k + 2) * pipeBufSize) :
    Pumped data.length
      (Run.run exec (fresh buffer state) (.write 1 data :: rounds pipeBufSize (k + 1))) := by
  have hfirst := stretchWrite_pumps (p := Pipe.fresh buffer) (s := fresh buffer state) rfl rfl rfl
    (Nat.zero_add data.length) rfl
  have hpos : 0 < pipeBufSize := by decide
  have hmany : 0 < (k + 1) * pipeBufSize := Nat.mul_pos (Nat.succ_pos k) hpos
  have hsplit : data.length = (k + 1) * pipeBufSize + pipeBufSize := by
    rw [hdata, Nat.add_mul (k + 1) 1, Nat.one_mul]
  have hless : data.length - pipeBufSize = (k + 1) * pipeBufSize := by omega
  rw [if_neg (by rw [hsplit]; change ¬ _ ≤ pipeBufSize; omega)] at hfirst
  change Pumping pipeBufSize _ (_ - pipeBufSize) _ at hfirst
  rw [hless] at hfirst
  exact hfirst.rounds hpos k

/-- A write of two gigabytes, and a reader that takes them all. -/
def longTalk : List PipeEvent :=
  .write 1 (List.replicate 2147483648 0) :: rounds pipeBufSize 524287

/-- The number of bytes a write returns is an `int`: a write of `2³¹` bytes that is
read completely returns a negative number, with the read end open. -/
theorem stream_fails_on_longTalk :
    ¬ Stream (Run.run exec (fresh (fun _ => 0) fun _ => .running) longTalk) := by
  intro hstream
  have hlen : (List.replicate 2147483648 (0 : UInt8)).length = (524286 + 2) * pipeBufSize :=
    length_replicate
  obtain ⟨hanswer, p', hpipe, hreaders⟩ :=
    write_pumped (fun _ => 0) (fun _ => .running) 524286 _ hlen
  rw [length_replicate] at hanswer
  obtain ⟨p, hp, hzero⟩ := hstream.broken _ _ hanswer (by decide)
  cases hpipe.symm.trans hp
  omega

end PipeSys

end Vfs
