import LufiraOS.Lib.Cycle

/-!
# The process list and its scheduler

`kernel/system/process/process.c`, the timer loop of `pit.c`, and the places where a
process waits for something: a mailbox, a pipe, an interrupt line, the sound ring,
the console.  Processes are nodes on the heap, linked into a ring by `next`; an
address that holds no node is free.

Interrupts are masked while the kernel runs for a process (`FMASK`), so a step is
what happens between two points at which control leaves the kernel or a process is
suspended.  `cont` says where a process goes on when it is resumed: in its own
code, in the loop of `process_wait`, or in a loop that waits for a slot.  Descriptor
tables, address spaces and the window manager are not here; which pipes are woken
when a process is freed, and which allocations succeed, are arguments.
-/

namespace Scheduler

open Cycle

/-- `process_state_t`. -/
inductive PState
  | ready
  | running
  | blocked
  | sleeping
  | terminated
  | stopped
  deriving DecidableEq, Repr, Inhabited

/-- The pointers that record a waiting process. -/
inductive Slot
  | mailbox (owner : Nat)
  | pipeRead (pipe : Nat)
  | pipeWrite (pipe : Nat)
  | irq (line : Nat)
  | soundRing
  | consoleInput
  deriving DecidableEq, Repr

/-- Where a process goes on when it runs again. -/
inductive Cont
  | user
  | wait (target : Nat)
  | slot (w : Slot)
  deriving DecidableEq, Repr, Inhabited

/-- `process_t`, the fields that the functions below use. -/
structure Node where
  pid : Nat
  ppid : Nat
  state : PState
  wakeupTick : Nat
  exitCode : Int
  waitTargetPid : Nat
  isShell : Bool
  signalHandlers : List Nat
  pendingSignal : Nat
  inSignalHandler : Bool
  alarmTick : Nat
  cont : Cont
  next : Nat
  deriving DecidableEq, Repr, Inhabited

/-- The state of the process manager.  The code has no `taken` and `created`: they
count the numbers `process_create` has given out and the processes it has made. -/
structure State where
  nodes : Nat → Option Node
  slots : Slot → Option Nat
  processList : Nat
  idle : Nat
  current : Nat
  nextPid : Nat
  processCount : Nat
  ticks : Nat
  taken : Nat
  created : Nat

/-- `MAX_PROCESSES`. -/
def maxProcesses : Nat := 32

/-- `WAIT_ANY_PID`. -/
def waitAnyPid : Nat := 4294967295

/-- `MAX_ITERATIONS`.  The walks that the source does not bound get the same limit
here. -/
def maxIterations : Nat := 10000

/-- `SIGINT`. -/
def sigint : Nat := 2

/-- `SIGKILL`. -/
def sigkill : Nat := 9

/-- `SIGALRM`. -/
def sigalrm : Nat := 14

/-- `SIGTERM`. -/
def sigterm : Nat := 15

/-- `SIGCONT`. -/
def sigcont : Nat := 18

/-- `SIGSTOP`. -/
def sigstop : Nat := 19

namespace State

/-! ## Memory -/

variable (s : State)

/-- The node a pointer leads to. -/
def node (a : Nat) : Node := (s.nodes a).getD default

/-- `a->next`. -/
def next (a : Nat) : Nat := (s.node a).next

/-- Fields of a node are written. -/
def modify (a : Nat) (f : Node → Node) : State :=
  { s with nodes := Function.update s.nodes a ((s.nodes a).map f) }

/-- `a->state = st`. -/
def setState (a : Nat) (st : PState) : State :=
  s.modify a fun n => { n with state := st }

/-- `a->next = b`. -/
def setNext (a b : Nat) : State := s.modify a fun n => { n with next := b }

/-- `kfree`. -/
def kfree (a : Nat) : State := { s with nodes := Function.update s.nodes a none }

/-- The nodes that a walk from `process_list` meets before it is back there. -/
def ring : List Nat := collect s.next s.processList maxIterations s.processList

/-- `process_find_by_pid`. -/
def findByPid (pid : Nat) : Option Nat :=
  s.ring.find? fun a => (s.node a).pid = pid

/-! ## Waking -/

/-- `pipe_wake`; `mailbox_send`, `driver_irq_notify`, `sound_ring_write` and
`console_input_push` do the same with their own slot. -/
def wake (w : Slot) : State :=
  match s.slots w with
  | none => s
  | some a => { s.setState a .ready with slots := Function.update s.slots w none }

/-- The descriptors of a freed process are closed, which wakes the other ends of its
pipes. -/
def wakeAll (ws : List Slot) : State := ws.foldl wake s

/-! ## Switching -/

/-- `switch_to_process`. -/
def switchToProcess (a : Nat) : State :=
  let prev := s.current
  let s := if (s.node prev).state = .running then s.setState prev .ready else s
  { s.setState a .running with current := a }

/-- The loop of `schedule`: the node it stops at, and how many tries are left. -/
def pick (s : State) : (tries : Nat) → (a : Nat) → Nat × Nat
  | 0, a => (a, 0)
  | tries + 1, a =>
    if (s.node a).state ≠ .ready ∨ a = s.idle then
      let b := s.next a
      if b = s.current then (b, tries) else pick s tries b
    else (a, tries + 1)

/-- `schedule`. -/
def schedule : State :=
  let (next, left) := s.pick 100 (s.next s.current)
  if (s.node next).state ≠ .ready ∨ next = s.idle ∨ left = 0 then
    if (s.node s.current).state = .running then s
    else if s.idle ≠ s.current then s.switchToProcess s.idle
    else s
  else if next = s.current then s
  else s.switchToProcess next

/-! ## Creating -/

/-- What the allocators and the loader answer while a process is made: the address
of the `process_t`, whether its stacks and tables can be had, whether its program
can be loaded. -/
structure Spawn where
  alloc : Option Nat
  resources : Bool
  loaded : Bool

/-- The node `process_create` fills in. -/
def newNode (pid : Nat) : Node where
  pid := pid
  ppid := (s.node s.current).pid
  state := .ready
  wakeupTick := 0
  exitCode := 0
  waitTargetPid := 0
  isShell := false
  signalHandlers := []
  pendingSignal := 0
  inSignalHandler := false
  alarmTick := 0
  cont := .user
  next := s.processList

/-- The end of `process_create`: the node is put behind the last one. -/
def link (a : Nat) (n : Node) : State :=
  let last := seek s.next (fun b => s.next b = 0 ∨ s.next b = s.processList) maxIterations
    s.processList
  let s := { s with
    nodes := Function.update s.nodes a (some n)
    slots := Function.update s.slots (.mailbox a) none }
  let s := s.setNext last a
  { s with processCount := s.processCount + 1, created := s.created + 1 }

/-- `next_pid++`. -/
def takePid : State :=
  { s with nextPid := (s.nextPid + 1) % 4294967296, taken := s.taken + 1 }

/-- `process_create`: the new process, or nothing.  `kmalloc` gives no address that
is in use, and never the null pointer. -/
def processCreate (alloc : Option Nat) (resources : Bool) : Option Nat × State :=
  if maxProcesses ≤ s.processCount then (none, s)
  else
    match alloc with
    | none => (none, s)
    | some a =>
      if a = 0 ∨ (s.nodes a).isSome then (none, s)
      else
        let pid := s.nextPid
        let s := s.takePid
        if resources then (some a, s.link a (s.newNode pid)) else (none, s)

/-- `spawn_shell_process` and `spawn_daemon_process`: a process whose program cannot be
loaded is left terminated. -/
def spawn (sp : Spawn) : Option Nat × State :=
  match s.processCreate sp.alloc sp.resources with
  | (none, s) => (none, s)
  | (some a, s) => if sp.loaded then (some a, s) else (none, s.setState a .terminated)

/-- `elf_exec_internal`: a program that is run in the foreground is switched to at once. -/
def elfExec (sp : Spawn) (foreground : Bool) : State :=
  match s.spawn sp with
  | (some a, s) => if foreground then s.switchToProcess a else s
  | (none, s) => s

/-! ## Removing -/

/-- The node is taken out of the ring; `process_list` moves on when it is the first. -/
def unlink (a : Nat) : State :=
  if s.next a = a then
    if s.processList = a then { s with processList := 0 } else s
  else if s.processList = a then
    let last := seek s.next (fun b => s.next b = a) maxIterations a
    { s.setNext last (s.next a) with processList := s.next a }
  else
    let prev := seek s.next (fun b => s.next b = a ∨ s.next b = s.processList) maxIterations
      s.processList
    if s.next prev = a then s.setNext prev (s.next a) else s

/-- A node that is out of the ring is freed. -/
def release (a : Nat) (closes : List Slot) : State :=
  let s := s.wakeAll closes
  { s with processCount := s.processCount - 1 }.kfree a

/-- `process_remove_from_list`. -/
def processRemoveFromList (a : Nat) (closes : List Slot) : State :=
  (s.unlink a).release a closes

/-- `process_discard`. -/
def processDiscard (a : Nat) (closes : List Slot) : State :=
  (s.setState a .terminated).processRemoveFromList a closes

/-- The loop of `process_reap`, and the nodes it visits with the state each is in.
`closes a` are the pipes that are woken when the node `a` is freed. -/
def reapLoop (closes : Nat → List Slot) (start : Nat) : (iterations : Nat) → (s : State) →
    (p : Nat) → (prev : Option Nat) → State × List (Nat × PState)
  | 0, s, _, _ => (s, [])
  | n + 1, s, p, prev =>
    let nextProcess := s.next p
    if nextProcess = p ∧ p ≠ s.idle then (s, [])
    else if (s.node p).state = .terminated ∧ p ≠ s.idle then
      match prev with
      | none =>
        let last := seek s.next (fun b => s.next b = p) maxIterations p
        if s.next last = p then
          let s' := { s.setNext last nextProcess with processList := nextProcess }.release p
            (closes p)
          let (t, seen) := reapLoop closes start n s' s'.processList none
          (t, (p, .terminated) :: seen)
        else (s, [(p, .terminated)])
      | some q =>
        let s' := (s.setNext q nextProcess).release p (closes p)
        let (t, seen) := reapLoop closes start n s' (s'.next q) (some q)
        (t, (p, .terminated) :: seen)
    else if nextProcess = start then (s, [(p, (s.node p).state)])
    else
      let (t, seen) := reapLoop closes start n s nextProcess (some p)
      (t, (p, (s.node p).state) :: seen)

/-- `process_reap`. -/
def processReap (closes : Nat → List Slot) : State :=
  (reapLoop closes s.processList maxIterations s s.processList none).1

/-! ## Terminating -/

/-- `driver_release_process`: the interrupt lines of the process forget it. -/
def releaseIrqs (a : Nat) : State :=
  { s with slots := fun w =>
      match w with
      | .irq _ => if s.slots w = some a then none else s.slots w
      | _ => s.slots w }

/-- `respawn_shell_if_needed`. -/
def respawnShellIfNeeded (a : Nat) (sp : Spawn) : State :=
  if (s.node a).isShell then
    match s.spawn sp with
    | (none, s) => s
    | (some b, s) => s.modify b fun n => { n with isShell := true }
  else s

/-- `find_waiting_parent`. -/
def findWaitingParent (child : Node) : Option Nat :=
  if child.ppid = 0 then none
  else s.ring.find? fun a =>
    (s.node a).pid = child.ppid ∧ (s.node a).state = .blocked ∧
      ((s.node a).waitTargetPid = child.pid ∨ (s.node a).waitTargetPid = waitAnyPid)

/-- `waiter->wait_target_pid = 0; waiter->state = PROCESS_READY`. -/
def wakeParent (a : Nat) : State :=
  s.modify a fun n => { n with waitTargetPid := 0, state := .ready }

/-- `p->exit_code = code; p->state = PROCESS_TERMINATED`, and the interrupt lines are
released. -/
def mark (a : Nat) (code : Int) : State :=
  (s.modify a fun n => { n with exitCode := code, state := .terminated }).releaseIrqs a

/-- What `process_exit` and `terminate_process_by_signal` do before they look for the
parent.  The message to the window manager is a `wake` of its own. -/
def terminate (a : Nat) (code : Int) (sp : Spawn) : State :=
  (s.mark a code).respawnShellIfNeeded a sp

/-- `process_exit`. -/
def processExit (code : Int) (sp : Spawn) : State :=
  let a := s.current
  let s := s.terminate a code sp
  match s.findWaitingParent (s.node a) with
  | some w => (s.wakeParent w).switchToProcess w
  | none => s.schedule

/-- `terminate_process_by_signal`. -/
def terminateBySignal (a sig : Nat) (sp : Spawn) : State :=
  if (s.node a).state = .terminated then s
  else
    let s := s.terminate a (128 + sig) sp
    match s.findWaitingParent (s.node a) with
    | some w =>
      let s := s.wakeParent w
      if a = s.current then s.switchToProcess w else s
    | none => if a = s.current then s.schedule else s

/-- The signal is caught: a handler is registered and none is running. -/
def Caught (n : Node) (sig : Nat) : Prop :=
  (sig = sigint ∨ sig = sigterm ∨ sig = sigalrm) ∧ sig ∈ n.signalHandlers ∧
    n.inSignalHandler = false

instance (n : Node) (sig : Nat) : Decidable (Caught n sig) := inferInstanceAs (Decidable (_ ∧ _))

/-- The signals that terminate a process which does not catch them. -/
def Fatal (sig : Nat) : Prop := sig = sigint ∨ sig = sigkill ∨ sig = sigterm ∨ sig = sigalrm

instance (sig : Nat) : Decidable (Fatal sig) := inferInstanceAs (Decidable (_ ∨ _))

/-- A caught signal is recorded, and a process that waits is woken to take it. -/
def record (n : Node) (sig : Nat) : Node :=
  { n with
    pendingSignal := sig
    state := if n.state = .blocked ∨ n.state = .sleeping then .ready else n.state }

/-- `process_signal`, on a node it has found. -/
def signalNode (a sig : Nat) (sp : Spawn) : State :=
  if a = s.idle then s
  else if Caught (s.node a) sig then s.modify a fun n => record n sig
  else if Fatal sig then s.terminateBySignal a sig sp
  else if sig = sigstop then
    if (s.node a).state = .terminated then s
    else
      let s := s.setState a .stopped
      if a = s.current then s.schedule else s
  else if sig = sigcont then
    if (s.node a).state = .stopped then s.setState a .ready else s
  else s

/-- `process_signal`. -/
def processSignal (pid sig : Nat) (sp : Spawn) : State :=
  match s.findByPid pid with
  | none => s
  | some a => s.signalNode a sig sp

/-! ## Waiting -/

/-- How a turn of the loop of `process_wait` ends. -/
inductive WaitResult
  | returned (pid : Nat) (status : Int)
  | noChild
  | blocked
  deriving DecidableEq, Repr

/-- The node is a child that the caller waits for. -/
def Awaited (n : Node) (callerPid target : Nat) : Prop :=
  n.ppid = callerPid ∧ (target = waitAnyPid ∨ n.pid = target)

instance (n : Node) (callerPid target : Nat) : Decidable (Awaited n callerPid target) :=
  inferInstanceAs (Decidable (_ ∧ _))

/-- The first terminated child on the ring. -/
def zombie (callerPid target : Nat) : Option Nat :=
  s.ring.find? fun a => Awaited (s.node a) callerPid target ∧ (s.node a).state = .terminated

/-- There is a child to wait for. -/
def hasChild (callerPid target : Nat) : Bool :=
  s.ring.any fun a => Awaited (s.node a) callerPid target

/-- One turn of the loop of `process_wait`, for the current process. -/
def waitTurn (target : Nat) (closes : List Slot) : WaitResult × State :=
  let caller := s.current
  let callerPid := (s.node caller).pid
  match s.zombie callerPid target with
  | some z =>
    (.returned (s.node z).pid (s.node z).exitCode,
      (s.processRemoveFromList z closes).modify caller fun n => { n with cont := .user })
  | none =>
    if s.hasChild callerPid target then
      (.blocked, (s.modify caller fun n =>
        { n with waitTargetPid := target, state := .blocked, cont := .wait target }).schedule)
    else (.noChild, s.modify caller fun n => { n with cont := .user })

/-- `process_wait`, up to its first `schedule`. -/
def processWait (pid : Nat) (closes : List Slot) : WaitResult × State :=
  s.waitTurn (if pid = 0 then waitAnyPid else pid) closes

/-- `process_wait`, resumed behind its `schedule`. -/
def rescan (target : Nat) (closes : List Slot) : WaitResult × State :=
  (s.modify s.current fun n => { n with waitTargetPid := 0 }).waitTurn target closes

/-- The current process records itself in a slot and gives up the processor. -/
def block (w : Slot) : State :=
  ({ s with slots := Function.update s.slots w (some s.current) }.modify s.current fun n =>
    { n with state := .blocked, cont := .slot w }).schedule

/-- A process waits at its own mailbox only. -/
def MayBlock : Slot → Prop
  | .mailbox owner => owner = s.current
  | _ => True

instance (w : Slot) : Decidable (s.MayBlock w) := by
  cases w <;> unfold MayBlock <;> infer_instance

/-- `process_sleep`. -/
def processSleep (milliseconds : Nat) : State :=
  if milliseconds = 0 then s
  else
    (s.modify s.current fun n =>
      { n with wakeupTick := s.ticks + (milliseconds + 9) / 10, state := .sleeping }).schedule

/-- `process_fork`, as far as the process list is concerned; `cloned` when the address
space could be copied. -/
def processFork (alloc : Option Nat) (resources cloned : Bool) : State :=
  match s.processCreate alloc resources with
  | (none, s) => s
  | (some a, s) =>
    if cloned then
      s.modify a fun n =>
        { n with signalHandlers := (s.node s.current).signalHandlers, state := .ready }
    else s.processDiscard a []

/-- One turn of the loop of `timer_irq_handler`. -/
def timerVisit (a : Nat) (sp : Spawn) : State :=
  let s := if (s.node a).state = .sleeping ∧ (s.node a).wakeupTick ≤ s.ticks
    then s.setState a .ready else s
  if (s.node a).alarmTick ≠ 0 ∧ (s.node a).alarmTick ≤ s.ticks then
    (s.modify a fun n => { n with alarmTick := 0 }).processSignal (s.node a).pid sigalrm sp
  else s

/-- The idle process. -/
def idleNode (a : Nat) : Node where
  pid := 0
  ppid := 0
  state := .ready
  wakeupTick := 0
  exitCode := 0
  waitTargetPid := 0
  isShell := false
  signalHandlers := []
  pendingSignal := 0
  inSignalHandler := false
  alarmTick := 0
  cont := .user
  next := a

/-- `process_init`, with the idle process at `a`. -/
def processInit (a : Nat) : State where
  nodes := Function.update (fun _ => none) a (some (idleNode a))
  slots := fun _ => none
  processList := a
  idle := a
  current := a
  nextPid := 1
  processCount := 0
  ticks := 0
  taken := 0
  created := 0

end State

/-! ## Steps -/

/-- What can happen next.  The current process calls the kernel, an interrupt comes
in while it runs in user mode, or it goes on in a loop of the kernel in which it was
suspended. -/
inductive Step
  | spawn (sp : State.Spawn) (foreground : Bool)
  | fork (alloc : Option Nat) (resources cloned : Bool)
  | exit (code : Int) (sp : State.Spawn)
  | signal (pid sig : Nat) (sp : State.Spawn)
  | setSignals (handlers : List Nat) (pending : Nat) (inHandler : Bool) (alarmTick : Nat)
  | wait (pid : Nat) (closes : List Slot)
  | block (w : Slot)
  | sleep (milliseconds : Nat)
  | schedule
  | wake (w : Slot)
  | tick
  | timerVisit (a : Nat) (sp : State.Spawn)
  | reap (closes : Nat → List Slot)
  | rescan (closes : List Slot)
  | resume (available : Bool)

namespace State

/-- What the current process, or an interrupt, does while the process runs in user
mode. -/
def userStep (s : State) : Step → State
  | .spawn sp foreground => s.elfExec sp foreground
  | .fork alloc resources cloned => s.processFork alloc resources cloned
  | .exit code sp => if s.current = s.idle then s else s.processExit code sp
  | .signal pid sig sp => s.processSignal pid sig sp
  | .setSignals handlers pending inHandler alarmTick =>
    s.modify s.current fun n =>
      { n with
        signalHandlers := handlers
        pendingSignal := pending
        inSignalHandler := inHandler
        alarmTick := alarmTick }
  | .wait pid closes => (s.processWait pid closes).2
  | .block w => if s.current ≠ s.idle ∧ s.MayBlock w then s.block w else s
  | .sleep milliseconds => if s.current = s.idle then s else s.processSleep milliseconds
  | .schedule => s.schedule
  | .wake w => s.wake w
  | .tick => { s with ticks := s.ticks + 1 }
  | .timerVisit a sp => if a ∈ s.ring then s.timerVisit a sp else s
  | .reap closes => s.processReap closes
  | .rescan _ => s
  | .resume _ => s

/-- One step.  A process that was suspended in a loop of the kernel first goes on
there: `process_wait` scans again, and a process that waited for a slot finds
something or waits again.  As long as the slot records it, nothing has come. -/
def step (s : State) (e : Step) : State :=
  match (s.node s.current).cont, e with
  | .user, e => s.userStep e
  | .wait target, .rescan closes => (s.rescan target closes).2
  | .slot w, .resume available =>
    if s.slots w = some s.current ∨ available = false then s.block w
    else s.modify s.current fun n => { n with cont := .user }
  | _, _ => s

end State

end Scheduler
