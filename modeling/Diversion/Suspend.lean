import Diversion.Lib.RefCount
import Diversion.Lib.Transition
import Diversion.Word

/-!
# Suspending the other threads

`suspend_other_threads` (src/installer/arch/os/linux.rs) lists the threads of the process, sends
each a signal and waits until all have answered. The handler `suspend_sigaction` counts its
thread off, hands over the instruction pointer and stays until the guard is dropped. Every access
of shared memory and every answer of the kernel is a step, between which the threads run, exit and
create threads.

A task is a thread as the kernel knows it, at the index that is its id; an id may be given again
once its thread is gone. A target is a `Thread` of the installer's list together with the signal
it was sent, and `Phase` is where that signal or its handler is.
-/

namespace Diversion

namespace Suspend

/-! ## The handler -/

/-- Where the signal of a target is, and what its handler does next. -/
inductive Phase where
  /-- Not sent, or not taken by the kernel. -/
  | unsent
  | queued
  /-- Its thread was gone before the handler was entered. -/
  | lost
  /-- In `sa_sigaction` : load `IS_SUSPENDING`. -/
  | delivered
  /-- In `suspend_sigaction` : upgrade `suspend_count`. -/
  | entered
  /-- `fetch_sub`. -/
  | counting
  /-- Upgrade `channel`. -/
  | opening
  /-- Store the instruction pointer in the channel. -/
  | storing
  /-- `notify_send`. -/
  | notifying
  /-- `wait_recv`. -/
  | waiting
  /-- Load the instruction pointer. -/
  | loading
  /-- Drop the local `channel`, then `suspend_count`, then `payload`. -/
  | droppingChannel
  | droppingCount
  | droppingPayload
  /-- Out of the handler, before the next instruction of the program. -/
  | returning
  | returned
  /-- The signal went to the handler that was there before. -/
  | foreign
  /-- An `unwrap` failed. -/
  | panicked
deriving DecidableEq, Repr

namespace Phase

/-- The thread executes the handler. -/
def inHandler : Phase → Bool
  | .unsent | .queued | .lost | .returned | .foreign => false
  | _ => true

/-- The thread is there to execute the handler. -/
def isActive : Phase → Bool
  | .queued => true
  | phase => phase.inHandler

/-- Not counted off by the handler. -/
def isUncounted : Phase → Bool
  | .unsent | .queued | .lost | .delivered | .entered | .counting => true
  | _ => false

/-- Counted off, and not past `wait_recv`. -/
def isStopped : Phase → Bool
  | .opening | .storing | .notifying | .waiting => true
  | _ => false

/-- Past `notify_send`. -/
def isSent : Phase → Bool
  | .waiting | .loading | .droppingChannel | .droppingCount | .droppingPayload | .returning
  | .returned => true
  | _ => false

/-- The instruction pointer of the interrupted context is the one of the channel. -/
def hasLoaded : Phase → Bool
  | .droppingChannel | .droppingCount | .droppingPayload | .returning | .returned => true
  | _ => false

/-- The handler has a strong reference to `suspend_count`. -/
def holdsCount : Phase → Bool
  | .counting | .opening | .storing | .notifying | .waiting | .loading | .droppingChannel
  | .droppingCount => true
  | _ => false

/-- The handler has a strong reference to the channel. -/
def holdsChannel : Phase → Bool
  | .storing | .notifying | .waiting | .loading | .droppingChannel => true
  | _ => false

/-- The payload is in the signal or with the handler. -/
def holdsPayload : Phase → Bool
  | .unsent | .lost | .returning | .returned => false
  | _ => true

end Phase

/-! ## The state -/

/-- A thread of the process. -/
structure Task where
  alive : Bool
  ip : ℕ
  /-- It is inside the allocator, with a lock of the heap. -/
  inHeap : Bool
deriving DecidableEq, Repr

/-- `Oneshot<AtomicUsize>`. -/
structure Oneshot where
  recv : Bool
  send : Bool
  value : ℕ
deriving DecidableEq, Repr

/-- `Oneshot::new`. -/
def Oneshot.new (value : ℕ) : Oneshot :=
  ⟨false, false, value⟩

/-- Where the box of a payload is. -/
inductive PayloadAt where
  | thread
  /-- In the signal or with its handler. -/
  | signal
  | freed
deriving DecidableEq, Repr

/-- A `Thread`, and the signal it was sent. -/
structure Target where
  tid : ℕ
  /-- `id >= 0`. -/
  live : Bool
  channel : Oneshot
  channelRefs : RefCount
  payload : PayloadAt
  /-- The payload has a reference to `suspend_count`, which is not `Weak::new()`. -/
  shared : Bool
  phase : Phase
  /-- The instruction pointer of the interrupted context. -/
  ip : ℕ
deriving DecidableEq, Repr

namespace Target

/-- `Thread::new`. -/
def new (tid : ℕ) : Target where
  tid
  live := true
  channel := .new 1
  channelRefs := RefCount.new.downgrade
  payload := .thread
  shared := false
  phase := .unsent
  ip := 0

/-- Neither counted off by its handler nor written off as dead. -/
def isUncounted (target : Target) : Bool :=
  target.live && target.phase.isUncounted

/-- The handler has a strong reference to `suspend_count`. -/
def holdsCount (target : Target) : Bool :=
  target.phase.holdsCount

/-- The drop of a `Payload` : its weak references, then its box. -/
def dropPayload (target : Target) : Target :=
  { target with
    channelRefs := target.channelRefs.dropWeak, payload := .freed, shared := false }

/-- The signals of a thread that exits are lost. -/
def exit (tid : ℕ) (target : Target) : Target :=
  if target.tid = tid ∧ target.phase = .queued then { target with phase := .lost } else target

end Target

/-- What the installer does next. -/
inductive Installer where
  /-- `others_iter`. -/
  | listing
  /-- `my_sigaction`, then `IS_SUSPENDING` and `suspend_count` are set. -/
  | starting
  /-- Send the signal to the next thread. -/
  | sending (k : ℕ)
  /-- The signal could not be sent : count the thread off, take the payload back and set the id
  to -1. -/
  | unsent (k : ℕ)
  /-- Load `suspend_count`. -/
  | checking
  /-- Send no signal to the next thread, which only asks whether it is there. -/
  | polling (k : ℕ)
  /-- It is not : count it off and set its id to -1. -/
  | gone (k : ℕ)
  /-- Clear `IS_SUSPENDING`. -/
  | closing
  /-- Drop `suspend_count`. -/
  | unsharing
  /-- `suspend_other_threads` has returned the threads. -/
  | suspended
  /-- In `set_ip_if`, after the load. -/
  | setting (k : ℕ)
  /-- In the drop of the guard : resume the next thread. -/
  | resuming (k : ℕ)
  /-- Drop the next thread. -/
  | dropping (k : ℕ)
  | done
  /-- `suspend_other_threads` has returned an error. -/
  | failed
  /-- An `unwrap` failed. -/
  | panicked
deriving DecidableEq, Repr

namespace Installer

/-- `suspend_count` counts. -/
def isStarted : Installer → Bool
  | .listing | .starting | .failed | .panicked => false
  | _ => true

/-- `IS_SUSPENDING` is set. -/
def isSuspending : Installer → Bool
  | .sending _ | .unsent _ | .checking | .polling _ | .gone _ | .closing => true
  | _ => false

/-- The installer has a strong reference to `suspend_count`. -/
def holdsCount : Installer → Bool
  | .sending _ | .unsent _ | .checking | .polling _ | .gone _ | .closing | .unsharing => true
  | _ => false

end Installer

/-- The threads, the targets of the signal and what the installer shares with the handlers. -/
structure State where
  tasks : List Task
  targets : List Target
  /-- How many threads fit the scratch space. -/
  capacity : ℕ
  isSuspending : Bool
  suspendCount : ℕ
  countRefs : RefCount
  installer : Installer
deriving DecidableEq, Repr

/-- The other threads of the process, when `suspend_other_threads` is called. -/
def State.init (capacity : ℕ) (tasks : List Task) : State where
  tasks
  targets := []
  capacity
  isSuspending := false
  suspendCount := 0
  countRefs := ⟨0, 0⟩
  installer := .listing

/-! ## The steps -/

/-- One step of one thread, of the system or of the installer. -/
inductive Action where
  /-- A thread executes an instruction of the program. -/
  | execute (tid ip : ℕ) (inHeap : Bool)
  /-- A thread creates one, whose id is `reused` or new. -/
  | create (parent : ℕ) (reused : Option ℕ) (ip : ℕ)
  | exit (tid : ℕ)
  /-- The signal of a target interrupts its thread. -/
  | deliver (k : ℕ)
  /-- The next step of the handler of a target. -/
  | handler (k : ℕ)
  /-- `read_dir` succeeds or fails, then yields the entry of a thread, then no more entries or an
  error. -/
  | noDir
  | entry (tid : ℕ)
  | endOfDir
  /-- The next step of the installer. `ok` is what the system answers if it is asked. -/
  | installer (ok : Bool)
  /-- `set_ip_if` on a thread, up to the load. -/
  | setIp (k : ℕ)
  /-- Its store, if there is one. -/
  | storeIp (ip : Option ℕ)
  /-- The guard is dropped. -/
  | drop
deriving DecidableEq, Repr

/-- `fetch_sub` of one. -/
def fetchSub (n : ℕ) : ℕ :=
  if n = 0 then wordSize - 1 else n - 1

namespace State

/-- Replace a target. -/
def setTarget (s : State) (k : ℕ) (target : Target) : State :=
  { s with targets := s.targets.set k target }

/-- The counts of `suspend_count` without the reference of the payload. -/
def dropPayload (s : State) (target : Target) : RefCount :=
  if target.shared then s.countRefs.dropWeak else s.countRefs

/-- The thread executes a handler. -/
def isInterrupted (s : State) (tid : ℕ) : Bool :=
  s.targets.any fun target => target.tid = tid && target.phase.inHandler

/-- The thread executes instructions of the program. -/
def Runs (s : State) (tid : ℕ) : Prop :=
  (∃ task ∈ s.tasks[tid]?, task.alive) ∧ ¬s.isInterrupted tid
deriving Decidable

/-- A thread goes on, unless its handler runs. -/
def execute (s : State) (tid ip : ℕ) (inHeap : Bool) : Option State :=
  if s.Runs tid then some { s with tasks := s.tasks.set tid ⟨true, ip, inHeap⟩ } else none

/-- A new thread, with an id of its own or that of a thread that is gone. -/
def create (s : State) (parent : ℕ) (reused : Option ℕ) (ip : ℕ) : Option State :=
  if s.Runs parent then
    match reused with
    | none => some { s with tasks := s.tasks ++ [⟨true, ip, false⟩] }
    | some tid =>
      (s.tasks[tid]?).bind fun task =>
        if task.alive then none else some { s with tasks := s.tasks.set tid ⟨true, ip, false⟩ }
  else none

def exit (s : State) (tid : ℕ) : Option State :=
  if s.Runs tid then
    some { s with
      tasks := s.tasks.modify tid fun task => { task with alive := false }
      targets := s.targets.map (Target.exit tid) }
  else none

/-- The signal is blocked in its own handler. -/
def deliver (s : State) (k : ℕ) (target : Target) : Option State :=
  if target.phase = .queued ∧ ¬s.isInterrupted target.tid then
    (s.tasks[target.tid]?).map fun task =>
      s.setTarget k { target with phase := .delivered, ip := task.ip }
  else none

/-- `sa_sigaction` and `suspend_sigaction`. -/
def handler (s : State) (k : ℕ) (target : Target) : Option State :=
  match target.phase with
  | .delivered =>
    some (s.setTarget k { target with phase := if s.isSuspending then .entered else .foreign })
  | .entered =>
    match if target.shared then s.countRefs.upgrade else none with
    | some countRefs => some ({ s with countRefs }.setTarget k { target with phase := .counting })
    | none => some (s.setTarget k { target with phase := .panicked })
  | .counting =>
    some ({ s with suspendCount := fetchSub s.suspendCount }.setTarget k
      { target with phase := .opening })
  | .opening =>
    match target.channelRefs.upgrade with
    | some channelRefs => some (s.setTarget k { target with phase := .storing, channelRefs })
    | none => some (s.setTarget k { target with phase := .panicked })
  | .storing =>
    some (s.setTarget k
      { target with phase := .notifying, channel := { target.channel with value := target.ip } })
  | .notifying =>
    some (s.setTarget k
      { target with phase := .waiting, channel := { target.channel with send := true } })
  | .waiting =>
    if target.channel.recv then some (s.setTarget k { target with phase := .loading }) else none
  | .loading =>
    some (s.setTarget k { target with phase := .droppingChannel, ip := target.channel.value })
  | .droppingChannel =>
    some (s.setTarget k
      { target with phase := .droppingCount, channelRefs := target.channelRefs.dropStrong })
  | .droppingCount =>
    some ({ s with countRefs := s.countRefs.dropStrong }.setTarget k
      { target with phase := .droppingPayload })
  | .droppingPayload =>
    some ({ s with countRefs := s.dropPayload target }.setTarget k
      { target.dropPayload with phase := .returning })
  | .returning =>
    some ({ s with
      tasks := s.tasks.modify target.tid fun task => { task with ip := target.ip } }.setTarget k
        { target with phase := .returned })
  | _ => none

/-- `rt_tgsigqueueinfo`, after the payload was taken and given `suspend_count`. -/
def sendSignal (s : State) (k : ℕ) (target : Target) (ok : Bool) : State :=
  if target.payload = .thread then
    let s := { s with countRefs := s.countRefs.downgrade }
    let target := { target with payload := .signal, shared := true }
    if ok then
      let alive := (s.tasks[target.tid]?).any Task.alive
      { s with installer := .sending (k + 1) }.setTarget k
        { target with phase := if alive then .queued else .lost }
    else { s with installer := .unsent k }.setTarget k target
  else { s with installer := .panicked }

/-- `Thread::resume`. -/
def resume (s : State) (k : ℕ) (target : Target) : Option State :=
  if target.live then
    if target.channel.send then
      some ({ s with installer := .resuming (k + 1) }.setTarget k
        { target with channel := { target.channel with recv := true } })
    else none
  else some { s with installer := .resuming (k + 1) }

/-- The drop of a `Thread` : its channel, then its payload. -/
def dropThread (s : State) (k : ℕ) (target : Target) : State :=
  let s := { s with installer := .dropping (k + 1) }
  let target := { target with channelRefs := target.channelRefs.dropStrong }
  if target.payload = .thread then
    { s with countRefs := s.dropPayload target }.setTarget k target.dropPayload
  else s.setTarget k target

/-- `suspend_other_threads` once the threads are listed, and the drop of the guard. -/
def installerStep (s : State) (ok : Bool) : Option State :=
  match s.installer with
  | .starting =>
    if s.targets = [] then some { s with installer := .suspended }
    else if ok then
      some { s with
        isSuspending := true, suspendCount := s.targets.length, countRefs := .new
        installer := .sending 0 }
    else some { s with installer := .failed }
  | .sending k =>
    match s.targets[k]? with
    | some target => some (s.sendSignal k target ok)
    | none => some { s with installer := .checking }
  | .unsent k =>
    (s.targets[k]?).map fun target =>
      { s with suspendCount := fetchSub s.suspendCount, installer := .sending (k + 1) }.setTarget k
        { target with payload := .thread, live := false }
  | .checking =>
    if s.suspendCount = 0 then some { s with installer := .closing }
    else some { s with installer := .polling 0 }
  | .polling k =>
    match s.targets[k]? with
    | some target =>
      if target.live = false ∨ ok then some { s with installer := .polling (k + 1) }
      -- the poll fails only if the thread is gone
      else if (s.tasks[target.tid]?).any Task.alive then none
      else some { s with installer := .gone k }
    | none => some { s with installer := .checking }
  | .gone k =>
    (s.targets[k]?).map fun target =>
      { s with suspendCount := fetchSub s.suspendCount, installer := .polling (k + 1) }.setTarget k
        { target with live := false }
  | .closing => some { s with isSuspending := false, installer := .unsharing }
  | .unsharing => some { s with countRefs := s.countRefs.dropStrong, installer := .suspended }
  | .resuming k =>
    match s.targets[k]? with
    | some target => s.resume k target
    | none => some { s with installer := .dropping 0 }
  | .dropping k =>
    match s.targets[k]? with
    | some target => some (s.dropThread k target)
    | none => some { s with installer := .done }
  | _ => none

/-- `others_iter`, and `alloc_down_with`, which takes the threads that fit. -/
def entry (s : State) (tid : ℕ) : State :=
  if s.targets.length < s.capacity then { s with targets := .new tid :: s.targets } else s

/-- `set_ip_if` up to the load. Nothing happens to a thread with id -1. -/
def setIp (s : State) (k : ℕ) (target : Target) : Option State :=
  if target.live then
    if target.channel.send then some { s with installer := .setting k } else none
  else some s

/-- The rest of `set_ip_if`, where `ip` is what the closure makes of the loaded value. -/
def storeIp (s : State) (k : ℕ) (target : Target) (ip : Option ℕ) : State :=
  { s with installer := .suspended }.setTarget k
    { target with channel := { target.channel with value := ip.getD target.channel.value } }

/-- `none` where the step is not enabled. -/
def step (s : State) : Action → Option State
  | .execute tid ip inHeap => s.execute tid ip inHeap
  | .create parent reused ip => s.create parent reused ip
  | .exit tid => s.exit tid
  | .deliver k => (s.targets[k]?).bind (s.deliver k)
  | .handler k => (s.targets[k]?).bind (s.handler k)
  | .noDir => if s.installer = .listing then some { s with installer := .failed } else none
  | .entry tid =>
    if s.installer = .listing ∧ tid < s.tasks.length then some (s.entry tid) else none
  | .endOfDir => if s.installer = .listing then some { s with installer := .starting } else none
  | .installer ok => s.installerStep ok
  | .setIp k => if s.installer = .suspended then (s.targets[k]?).bind (s.setIp k) else none
  | .storeIp ip =>
    match s.installer with
    | .setting k => (s.targets[k]?).map fun target => s.storeIp k target ip
    | _ => none
  | .drop => if s.installer = .suspended then some { s with installer := .resuming 0 } else none

end State

end Suspend

end Diversion
