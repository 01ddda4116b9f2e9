import LufiraOS.Process.Core
import Mathlib.Tactic.Common

/-!
# Caught signals and the frame of a system call

`kernel/system/syscall/syscall_entry.S`, `syscall_handler` in `syscall.c`, and
`process_signal`, `process_deliver_pending_signal` and `process_sigreturn` in
`process.c`.  The entry stub pushes the user registers and the return pops them;
in between a pending signal may redirect the frame to its handler, and the
handler's `SYS_SIGRETURN` puts the saved frame back.

The stub skips the slot of `rax` when it pops, so `rax` is what the handler
function returned.  The frame's own `rax` is still the number of the call, and that
is what delivery saves.
-/

namespace Signals

open Option

open Scheduler (sigint sigkill sigalrm sigterm)

/-- The registers of user mode. -/
structure Registers where
  rax : UInt64
  rbx : UInt64
  rcx : UInt64
  rdx : UInt64
  rsi : UInt64
  rdi : UInt64
  rbp : UInt64
  r8 : UInt64
  r9 : UInt64
  r10 : UInt64
  r11 : UInt64
  r12 : UInt64
  r13 : UInt64
  r14 : UInt64
  r15 : UInt64
  rsp : UInt64
  rip : UInt64
  rflags : UInt64
  deriving DecidableEq, Repr

/-- `syscall_frame_t`. -/
structure Frame where
  r9 : UInt64
  r8 : UInt64
  r10 : UInt64
  rdx : UInt64
  rsi : UInt64
  rdi : UInt64
  rax : UInt64
  r15 : UInt64
  r14 : UInt64
  r13 : UInt64
  r12 : UInt64
  rbp : UInt64
  rbx : UInt64
  rflags : UInt64
  rip : UInt64
  alignPad : UInt64
  userRsp : UInt64
  deriving DecidableEq, Repr

/-! ## The stub -/

/-- The words of a frame, lowest address first. -/
def Frame.words (f : Frame) : List UInt64 :=
  [f.r9, f.r8, f.r10, f.rdx, f.rsi, f.rdi, f.rax, f.r15, f.r14, f.r13, f.r12, f.rbp, f.rbx,
    f.rflags, f.rip, f.alignPad, f.userRsp]

/-- The frame `syscall_handler` is given, as `syscall_entry` pushes it.  The `syscall` instruction
has put the return address into `rcx` and the flags into `r11`. -/
def entryFrame (u : Registers) : Frame where
  r9 := u.r9
  r8 := u.r8
  r10 := u.r10
  rdx := u.rdx
  rsi := u.rsi
  rdi := u.rdi
  rax := u.rax
  r15 := u.r15
  r14 := u.r14
  r13 := u.r13
  r12 := u.r12
  rbp := u.rbp
  rbx := u.rbx
  rflags := u.rflags
  rip := u.rip
  alignPad := 0
  userRsp := u.rsp

/-- The pops of `syscall_entry` and the `iretq` behind them, with `result` in `rax`. -/
def popped (result : UInt64) : List UInt64 → Option Registers
  | [r9, r8, r10, rdx, rsi, rdi, _, r15, r14, r13, r12, rbp, rbx, r11, rcx, _, rsp] =>
    some {
      rax := result
      rbx := rbx
      rcx := rcx
      rdx := rdx
      rsi := rsi
      rdi := rdi
      rbp := rbp
      r8 := r8
      r9 := r9
      r10 := r10
      r11 := r11
      r12 := r12
      r13 := r13
      r14 := r14
      r15 := r15
      rsp := rsp
      rip := rcx
      rflags := r11 }
  | _ => none

/-! ## The signal fields of a process -/

/-- The fields of `process_t` that signals use. -/
structure Process where
  signalHandlers : Nat → UInt64
  pendingSignal : Nat
  inSignalHandler : Bool
  savedSignalContext : Registers
  sigStackTop : UInt64

/-- `SYS_SIGRETURN`. -/
def sysSigreturn : UInt64 := 47

namespace Process

/-- `process_signal`, on these fields; `none` when the process is terminated. -/
def signal (p : Process) (sig : Nat) : Option Process :=
  if (sig = sigint ∨ sig = sigterm ∨ sig = sigalrm) ∧ p.signalHandlers sig ≠ 0 ∧
      p.inSignalHandler = false then
    some { p with pendingSignal := sig }
  else if sig = sigint ∨ sig = sigkill ∨ sig = sigterm ∨ sig = sigalrm then none
  else some p

/-- `sys_sigaction`, on these fields. -/
def sigaction (p : Process) (sig : Nat) (handler : UInt64) : Process :=
  if sig = sigint ∨ sig = sigterm ∨ sig = sigalrm then
    { p with signalHandlers := fun s => if s = sig then handler else p.signalHandlers s }
  else p

/-- `process_deliver_pending_signal` finds a signal to deliver. -/
def Deliverable (p : Process) : Prop :=
  p.pendingSignal ≠ 0 ∧ p.signalHandlers p.pendingSignal ≠ 0 ∧ p.inSignalHandler = false ∧
    p.sigStackTop ≠ 0

instance (p : Process) : Decidable p.Deliverable := inferInstanceAs (Decidable (_ ∧ _))

/-- The frame as `process_deliver_pending_signal` saves it; `rcx` and `r11` have no
slot and are left alone. -/
def save (old : Registers) (f : Frame) : Registers :=
  { old with
    rax := f.rax
    rbx := f.rbx
    rdx := f.rdx
    rsi := f.rsi
    rdi := f.rdi
    rbp := f.rbp
    r8 := f.r8
    r9 := f.r9
    r10 := f.r10
    r12 := f.r12
    r13 := f.r13
    r14 := f.r14
    r15 := f.r15
    rsp := f.userRsp
    rip := f.rip
    rflags := f.rflags }

/-- `process_deliver_pending_signal`. -/
def deliverPendingSignal (p : Process) (f : Frame) : Process × Frame :=
  if p.Deliverable then
    ({ p with
        pendingSignal := 0
        inSignalHandler := true
        savedSignalContext := save p.savedSignalContext f },
      { f with
        rip := p.signalHandlers p.pendingSignal
        userRsp := p.sigStackTop
        rdi := UInt64.ofNat p.pendingSignal })
  else (p, f)

/-- `process_sigreturn`. -/
def sigreturn (p : Process) (f : Frame) : UInt64 × Process × Frame :=
  let saved := p.savedSignalContext
  (saved.rax, { p with inSignalHandler := false },
    { f with
      rbx := saved.rbx
      rdx := saved.rdx
      rsi := saved.rsi
      rdi := saved.rdi
      rbp := saved.rbp
      r8 := saved.r8
      r9 := saved.r9
      r10 := saved.r10
      r12 := saved.r12
      r13 := saved.r13
      r14 := saved.r14
      r15 := saved.r15
      rflags := saved.rflags
      rip := saved.rip
      userRsp := saved.rsp })

/-- What can happen to the signal fields while a call runs or the process runs in
user mode. -/
inductive Event
  | signal (sig : Nat)
  | sigaction (sig : Nat) (handler : UInt64)

/-- One event. -/
def event (p : Process) : Event → Option Process
  | .signal sig => p.signal sig
  | .sigaction sig handler => some (p.sigaction sig handler)

/-- Events, one after the other. -/
def events (p : Process) : List Event → Option Process
  | [] => some p
  | e :: es => (p.event e).bind fun p => p.events es

/-- The calls of `syscall_handler`, up to the delivery.  `SYS_SIGRETURN` rewrites the
frame; any other call has the result `r`, and `es` happens while it runs. -/
def dispatch (p : Process) (f : Frame) (r : UInt64) (es : List Event) :
    Option (UInt64 × Process × Frame) :=
  if f.rax = sysSigreturn then some (p.sigreturn f)
  else (p.events es).map fun p => (r, p, f)

/-- A system call made with the registers `u`: the process and the registers it
returns to user mode with. -/
def syscall (p : Process) (u : Registers) (r : UInt64) (es : List Event) :
    Option (Process × Registers) :=
  (p.dispatch (entryFrame u) r es).bind fun (result, p, f) =>
    let (p, f) := p.deliverPendingSignal f
    (popped result f.words).map fun u => (p, u)

/-- What a signal handler can do: calls of its own, other than `SYS_SIGRETURN`, made
with any registers, and what happens in between.  A successful `exec` does not come
back to the handler. -/
inductive HandlerStep
  | syscall (u : Registers) (r : UInt64) (es : List Event)
  | event (e : Event)

/-- One step of a handler. -/
def handlerStep (p : Process) : HandlerStep → Option Process
  | .syscall u r es => if u.rax = sysSigreturn then none else (p.syscall u r es).map Prod.fst
  | .event e => p.event e

/-- The steps of a handler, up to its `SYS_SIGRETURN`. -/
def handler (p : Process) : List HandlerStep → Option Process
  | [] => some p
  | s :: ss => (p.handlerStep s).bind fun p => p.handler ss

/-! ## Inside a handler -/

variable {p p' : Process}

/-- The process is inside a handler, and `saved` is the frame it will return to. -/
structure Inside (saved : Registers) (p : Process) : Prop where
  nested : p.inSignalHandler = true
  quiet : p.pendingSignal = 0
  kept : p.savedSignalContext = saved

variable {saved : Registers}

section

variable (hp : Inside saved p)

include hp

/-- A second signal is not recorded: it has no effect or ends the process. -/
theorem Inside.event {e : Event} (h : p.event e = some p') :
    Inside saved p' := by
  cases e with
  | signal sig =>
    have hnot : ¬ ((sig = sigint ∨ sig = sigterm ∨ sig = sigalrm) ∧ p.signalHandlers sig ≠ 0 ∧
        p.inSignalHandler = false) := by
      rintro ⟨-, -, hout⟩
      rw [hp.nested] at hout
      cases hout
    simp only [Process.event, Process.signal, if_neg hnot] at h
    split at h
    · cases h
    · cases h
      exact hp
  | sigaction sig handler =>
    cases h
    simp only [sigaction]
    split
    · exact ⟨hp.nested, hp.quiet, hp.kept⟩
    · exact hp

theorem Inside.events {es : List Event} (h : p.events es = some p') :
    Inside saved p' := by
  induction es generalizing p with
  | nil => exact some.inj h ▸ hp
  | cons e es ih =>
    obtain ⟨p₁, he, hes⟩ := bind_eq_some_iff.1 h
    exact ih (hp.event he) hes

/-- Nothing is delivered inside a handler. -/
theorem Inside.deliverPendingSignal (f : Frame) : p.deliverPendingSignal f = (p, f) := by
  refine if_neg fun hdel => ?_
  rw [Deliverable, hp.nested] at hdel
  cases hdel.2.2.1

theorem Inside.handlerStep {s : HandlerStep} (h : p.handlerStep s = some p') : Inside saved p' := by
  cases s with
  | event e => exact hp.event h
  | syscall u r es =>
    simp only [Process.handlerStep] at h
    split at h
    · cases h
    · next hnum =>
      obtain ⟨⟨p₁, u₁⟩, hcall, rfl⟩ := map_eq_some_iff.1 h
      obtain ⟨⟨result, p₂, f⟩, hdispatch, hreturn⟩ := bind_eq_some_iff.1 hcall
      have hnum' : (entryFrame u).rax ≠ sysSigreturn := hnum
      rw [dispatch, if_neg hnum'] at hdispatch
      obtain ⟨p₃, hes, heq⟩ := map_eq_some_iff.1 hdispatch
      obtain ⟨rfl, rfl, rfl⟩ : r = result ∧ p₃ = p₂ ∧ entryFrame u = f := by
        simpa using heq
      have hp₃ := hp.events hes
      dsimp only at hreturn
      rw [hp₃.deliverPendingSignal] at hreturn
      obtain ⟨_, -, heq'⟩ := map_eq_some_iff.1 hreturn
      obtain ⟨rfl, -⟩ := Prod.mk.inj heq'
      exact hp₃

/-- **A handler keeps the saved frame**, whatever it does before it returns. -/
theorem Inside.handler {steps : List HandlerStep}
    (h : p.handler steps = some p') : Inside saved p' := by
  induction steps generalizing p with
  | nil => exact some.inj h ▸ hp
  | cons s ss ih =>
    obtain ⟨p₁, hs, hss⟩ := bind_eq_some_iff.1 h
    exact ih (hp.handlerStep hs) hss

end

/-- A delivered signal puts the process inside its handler. -/
theorem Deliverable.inside (hp : p.Deliverable) (f : Frame) :
    Inside (save p.savedSignalContext f) (p.deliverPendingSignal f).1 := by
  rw [deliverPendingSignal, if_pos hp]
  exact ⟨rfl, rfl, rfl⟩

/-! ## Returning from a handler -/

/-- `SYS_SIGRETURN` returns to the saved frame, with its `rax`. -/
theorem Inside.syscall_sigreturn {f : Frame} {old : Registers} (hp : Inside (save old f) p)
    {v : Registers} (hv : v.rax = sysSigreturn) (r : UInt64) (es : List Event) :
    (p.syscall v r es).map Prod.snd = popped f.rax f.words := by
  have hnum : (entryFrame v).rax = sysSigreturn := hv
  have hquiet : ∀ (q : Process) (g : Frame), q.pendingSignal = 0 →
      q.deliverPendingSignal g = (q, g) :=
    fun q g hq => if_neg fun hdel => hdel.1 hq
  rw [syscall, dispatch, if_pos hnum, bind_some, sigreturn, hp.kept]
  dsimp only
  rw [hquiet]
  · rfl
  · exact hp.quiet

/-- The frame keeps the number of the call in its slot of `rax`. -/
theorem dispatch_rax {f g : Frame} {r result : UInt64} {es : List Event}
    (h : p.dispatch f r es = some (result, p', g)) : g.rax = f.rax := by
  rw [dispatch] at h
  split at h
  · obtain ⟨-, -, rfl⟩ : p.savedSignalContext.rax = result ∧ _ = p' ∧ _ = g := by
      simpa [sigreturn] using h
    rfl
  obtain ⟨p₁, -, heq⟩ := map_eq_some_iff.1 h
  obtain ⟨-, -, rfl⟩ : r = result ∧ p₁ = p' ∧ f = g := by simpa using heq
  rfl

theorem popped_inj {a b : UInt64} {f : Frame} : popped a f.words = popped b f.words ↔ a = b := by
  refine ⟨fun h => ?_, fun h => h ▸ rfl⟩
  exact congrArg (fun u => u.rax) (some.inj h)

/-- **Signal transparency.**  A call made with the registers `u` has `result`, a
caught signal is delivered on its return, and the handler ends with `SYS_SIGRETURN`.
The process then goes on as if the call had simply returned exactly when `result`
happens to be the number of the call. -/
theorem transparent_iff {p₁ p₂ : Process} {u v : Registers} {r r' result : UInt64}
    {es es' : List Event} {f : Frame} {steps : List HandlerStep}
    (hcall : p.dispatch (entryFrame u) r es = some (result, p₁, f)) (hpending : p₁.Deliverable)
    (hhandler : (p₁.deliverPendingSignal f).1.handler steps = some p₂)
    (hreturn : v.rax = sysSigreturn) :
    (p₂.syscall v r' es').map Prod.snd = popped result f.words ↔ result = u.rax := by
  have hinside := (hpending.inside f).handler hhandler
  have hrax : f.rax = u.rax := dispatch_rax hcall
  rw [hinside.syscall_sigreturn hreturn, popped_inj, hrax]
  exact eq_comm

/-! ## A signal that changes a result -/

/-- All registers zero but `rax`. -/
def callWith (rax : UInt64) : Registers :=
  ⟨rax, 0, 0, 0, 0, 0, 0, 0, 0, 0, 0, 0, 0, 0, 0, 0x700000, 0x400000, 0x202⟩

/-- A process with a handler for `SIGINT` at `0x401000`. -/
def catching : Process where
  signalHandlers s := if s = sigint then 0x401000 else 0
  pendingSignal := 0
  inSignalHandler := false
  savedSignalContext := callWith 0
  sigStackTop := 0x690000002000

/-- `SIGINT` arrives while `SYS_GETPID`, number 3, runs in the process with the
number 3, and the handler returns at once. -/
theorem transparent_iff_getpid :
    let p₁ : Process := { catching with pendingSignal := sigint }
    let f := entryFrame (callWith 3)
    catching.dispatch f 3 [.signal sigint] = some (3, p₁, f) ∧ p₁.Deliverable ∧
      ((p₁.deliverPendingSignal f).1.syscall (callWith sysSigreturn) 0 []).map Prod.snd =
        popped 3 f.words := by
  have hcall : catching.dispatch (entryFrame (callWith 3)) 3 [.signal sigint] =
      some (3, { catching with pendingSignal := sigint }, entryFrame (callWith 3)) := rfl
  have hpending : ({ catching with pendingSignal := sigint } : Process).Deliverable := by decide
  have hhandler : (({ catching with pendingSignal := sigint } : Process).deliverPendingSignal
      (entryFrame (callWith 3))).1.handler [] = some _ := rfl
  exact ⟨hcall, hpending, (transparent_iff hcall hpending hhandler rfl).2 rfl⟩

/-- `SIGINT` arrives while `SYS_GETPID` runs in the process with the number 7: after
the handler `rax` is 3. -/
theorem not_transparent_getpid :
    let p₁ : Process := { catching with pendingSignal := sigint }
    let f := entryFrame (callWith 3)
    catching.dispatch f 7 [.signal sigint] = some (7, p₁, f) ∧ p₁.Deliverable ∧
      ((p₁.deliverPendingSignal f).1.syscall (callWith sysSigreturn) 0 []).map Prod.snd ≠
        popped 7 f.words ∧
      ((p₁.deliverPendingSignal f).1.syscall (callWith sysSigreturn) 0 []).map
        (fun r => r.2.rax) = some 3 := by
  refine ⟨rfl, by decide, by decide, by decide⟩

end Process

end Signals
