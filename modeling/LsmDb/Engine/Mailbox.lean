import LsmDb.Engine.Cache
import LsmDb.Engine.Programs
import LsmDb.Lib.Monitor

/-! The compactor's mailbox step by step: `compactor_loop`, `signal_compaction`, `wait_for_idle` and `Drop for Lsm`,
with the mutex, the condition variable and its spurious wakeups (`db.rs`). The rest of the engine takes each critical
section as one operation. -/
namespace LsmDb
open Lib
set_option autoImplicit false

structure CompactionState where
  pending : Bool
  running : Bool
  shutdown : Bool
  generation : ℕ
deriving DecidableEq

def CompactionState.default : CompactionState := ⟨false, false, false, 0⟩

/-- Where a thread is. At the points that start with `lock` it waits for the mutex, and `asleep` and `idleAsleep`
wait for the condition. -/
inductive Pc where
  | rest
  -- `compactor_loop`
  | lockLoop
  | loop
  | asleep
  | working
  | lockDone (result : Except Error Unit)
  | done (result : Except Error Unit)
  | doneNotify
  | doneUnlock
  | exited
  -- `signal_compaction`
  | lockSignal
  | signal
  | signalNotify
  | signalUnlock
  -- `wait_for_idle`
  | lockIdle
  | idle
  | idleAsleep
  -- `Drop for Lsm`
  | lockDrop
  | drop
  | dropNotify
  | join
  | joined
deriving DecidableEq

def Pc.holds : Pc → Bool
  | loop | done _ | doneNotify | doneUnlock | signal | signalNotify | signalUnlock | idle | drop => true
  | _ => false

def Pc.wake : Pc → Pc
  | asleep => lockLoop
  | idleAsleep => lockIdle
  | p => p

theorem Pc.holds_wake (p : Pc) : p.wake.holds = p.holds := by
  cases p <;> rfl

instance points : Points Pc := ⟨Pc.holds, Pc.wake, Pc.holds_wake⟩

structure Mailbox where
  monitor : Monitor Pc
  state : CompactionState
  lastError : Option Error
  -- the threads inside a call on the handle
  callers : List Tid
  spawned : Bool
  dropped : Bool
  -- requests so far, those among them made before the last round began, and rounds that have ended
  asked : ℕ
  taken : ℕ
  ended : ℕ

namespace Mailbox

def initial : Mailbox := ⟨⟨none, fun _ => .rest⟩, .default, none, [], false, false, 0, 0, 0⟩

/-- What a client does with the mailbox. -/
inductive Errand where
  | signalCompaction
  | waitForIdle
  | drop

inductive Move where
  | spawn
  | start (t : Tid) (errand : Errand)
  /-- The thread's next step. -/
  | go (t : Tid)
  /-- A spurious wakeup. -/
  | wake (t : Tid)
  /-- `compact_once` returns. -/
  | compacted (result : Except Error Unit)

def go (m : Mailbox) (t : Tid) : Option Mailbox :=
  match m.monitor.pc t with
  | .lockLoop => (m.monitor.acquire t .loop).map fun q => { m with monitor := q }
  | .loop =>
    if !m.state.pending && !m.state.shutdown then some { m with monitor := m.monitor.release t .asleep }
    else if m.state.shutdown then some { m with monitor := m.monitor.release t .exited }
    else some { m with
      monitor := m.monitor.release t .working
      state := { m.state with pending := false, running := true }
      taken := m.asked }
  | .lockDone result => (m.monitor.acquire t (.done result)).map fun q => { m with monitor := q }
  | .done result => some { m with
      monitor := m.monitor.move t .doneNotify
      state := { m.state with running := false, generation := (m.state.generation + 1) % 2 ^ 64 }
      lastError := match result with
        | .ok _ => m.lastError
        | .error e => some e
      ended := m.ended + 1 }
  | .doneNotify => some { m with monitor := m.monitor.notifyAll.move t .doneUnlock }
  | .doneUnlock => some { m with monitor := m.monitor.release t .lockLoop }
  | .lockSignal => (m.monitor.acquire t .signal).map fun q => { m with monitor := q }
  | .signal => some { m with
      monitor := m.monitor.move t .signalNotify
      state := { m.state with pending := true }
      asked := m.asked + 1 }
  | .signalNotify => some { m with monitor := m.monitor.notifyAll.move t .signalUnlock }
  | .signalUnlock => some { m with monitor := m.monitor.release t .rest, callers := m.callers.erase t }
  | .lockIdle => (m.monitor.acquire t .idle).map fun q => { m with monitor := q }
  | .idle =>
    if m.state.pending || m.state.running then some { m with monitor := m.monitor.release t .idleAsleep }
    else some { m with monitor := m.monitor.release t .rest, callers := m.callers.erase t }
  | .lockDrop => (m.monitor.acquire t .drop).map fun q => { m with monitor := q }
  -- the guard is gone before the sleepers are woken
  | .drop => some { m with monitor := m.monitor.release t .dropNotify, state := { m.state with shutdown := true } }
  | .dropNotify => some { m with monitor := m.monitor.notifyAll.move t .join }
  | .join => if m.monitor.pc compactorTid = .exited then some { m with monitor := m.monitor.move t .joined } else none
  | .rest | .asleep | .working | .exited | .idleAsleep | .joined => none

/-- A client may use the handle until it is dropped, and drops it when nobody uses it. The flush of an open may ask
for a compaction before the compactor is spawned. -/
def step (m : Mailbox) : Move → Option Mailbox
  | .spawn =>
    if m.spawned then none
    else some { m with spawned := true, monitor := m.monitor.move compactorTid .lockLoop }
  | .start t errand =>
    if t = compactorTid ∨ m.monitor.pc t ≠ .rest ∨ m.dropped then none
    else
      match errand with
      | .signalCompaction => some { m with monitor := m.monitor.move t .lockSignal, callers := t :: m.callers }
      | .waitForIdle =>
        if m.spawned then some { m with monitor := m.monitor.move t .lockIdle, callers := t :: m.callers } else none
      | .drop =>
        if m.spawned && m.callers.isEmpty then some { m with monitor := m.monitor.move t .lockDrop, dropped := true }
        else none
  | .go t => m.go t
  | .wake t =>
    match m.monitor.pc t with
    | .asleep | .idleAsleep => some { m with monitor := m.monitor.move t (m.monitor.pc t).wake }
    | _ => none
  | .compacted result =>
    if m.monitor.pc compactorTid = .working then some { m with monitor := m.monitor.move compactorTid (.lockDone result) }
    else none

inductive Reach : Mailbox → Prop
  | initial : Reach initial
  | step {m m' : Mailbox} {l : Move} (h : Reach m) (hs : m.step l = some m') : Reach m'

end Mailbox
end LsmDb
