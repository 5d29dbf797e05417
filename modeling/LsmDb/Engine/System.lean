import LsmDb.Engine.Programs

/-! The system: any number of client threads, the compactor, sessions that open and close, and crashes.

A label names one step. The steps a run may take are restricted by an `Env`: which I/O calls may fail,
how large keys, values and batches are, and whether client calls overlap. -/
namespace LsmDb
open Lib
set_option autoImplicit false

inductive Call where
  | put (key value : Bytes)
  | delete (key : Bytes)
  | write (batch : Batch)
  | get (key : Bytes)
  | scan (range : Range)
  | flush
  | compact
  | openWith (config : LsmConfig) (features : Features)
deriving DecidableEq

/-- The records a call writes. -/
def Call.ops : Call → List Entry
  | .put key value => [(key, .value value)]
  | .delete key => [(key, .tombstone)]
  | .write batch => batch.entries
  | _ => []

inductive Reply where
  | unit (r : Except Error Unit)
  | value (r : Except Error (Option Bytes))
  | pairs (r : Except Error (List (Bytes × Bytes)))
deriving DecidableEq

def Reply.isOk : Reply → Bool
  | .unit (.ok _) | .value (.ok _) | .pairs (.ok _) => true
  | _ => false

section System
variable [Deps]

def Call.program (config : LsmConfig) (features : Features) : Call → P Reply
  | .put key value => .unit <$> (LsmDb.put config features key value).run
  | .delete key => .unit <$> (LsmDb.delete config features key).run
  | .write batch => .unit <$> (LsmDb.write config features batch).run
  | .get key => .value <$> (LsmDb.get key).run
  | .scan range => .pairs <$> (LsmDb.scan range).run
  | .flush => .unit <$> (LsmDb.flush config features).run
  | .compact => .unit <$> (compactorRound features).run
  | .openWith config features => .unit <$> (LsmDb.openWith config features).run

inductive Thread where
  | idle
  | running (call : Call) (prog : P Reply)
  | replied (call : Call) (reply : Reply)

structure Config where
  world : World
  threads : Tid → Thread

def Config.initial : Config := ⟨World.initial, fun _ => .idle⟩

inductive Label where
  | start (t : Tid) (call : Call)
  | act (t : Tid) (choice : Choice)
  | finish (t : Tid)
  | crash (damage : List (ℕ × Option Bytes))
  | close

/-- Who may start a call, and when: clients and the compactor on an engine that `open` has returned, an
open when nothing runs. -/
def canStart (w : World) (t : Tid) : Call → Bool
  | .openWith _ _ => !w.live && w.active.isEmpty && t != compactorTid
  | .compact => w.ready && t == compactorTid && !w.active.contains t
  | _ => w.ready && t != compactorTid && !w.active.contains t

def started (w : World) (t : Tid) : Call → World
  | .openWith _ features => { w with
      opener := some t
      features := features
      known := []
      active := t :: w.active }
  | call => { w with
      active := t :: w.active
      spec := { w.spec with unsure := call.ops ++ w.spec.unsure } }

/-- A call returns. -/
def ended (w : World) (t : Tid) (call : Call) (reply : Reply) : World :=
  let w := { w with active := w.active.erase t }
  match call with
  | .openWith _ _ => { w with opener := none, ready := reply.isOk }
  | _ =>
    if reply.isOk then { w with spec := { w.spec with
      acked := w.spec.acked.apply call.ops
      unsure := w.spec.unsure.filter fun x => x.1 ∉ call.ops.map Prod.fst } }
    else w

/-- A crash may leave a sidecar missing, or with contents its envelope rejects. -/
def damageSidecar (dir : SortedMap Text Data) (d : ℕ × Option Bytes) : SortedMap Text Data :=
  match d.2 with
  | none => dir.erase (sidecarPath (runFilename d.1))
  | some bytes =>
    if (dir.get? (sidecarPath (runFilename d.1))).isSome ∧ (RunFilter.decode bytes).isNone then
      dir.insert (sidecarPath (runFilename d.1)) (.bin bytes)
    else dir

def crashed (w : World) (damage : List (ℕ × Option Bytes)) : World :=
  { w.dropEngine with
    nextRunId := 0
    opener := none
    active := []
    dir := damage.foldl damageSidecar w.dir }

def step (c : Config) : Label → Option Config
  | .start t call =>
    if canStart c.world t call then
      some ⟨started c.world t call, Function.update c.threads t
        (.running call (call.program c.world.config c.world.features))⟩
    else none
  | .act t choice =>
    match c.threads t with
    | .running call (.op o k) =>
      match exec t o choice c.world with
      | some (r, w) => some ⟨w, Function.update c.threads t (.running call (k r))⟩
      | none => none
    | _ => none
  | .finish t =>
    match c.threads t with
    | .running call (.done reply) =>
      some ⟨ended c.world t call reply, Function.update c.threads t (.replied call reply)⟩
    | _ => none
  | .crash damage => some ⟨crashed c.world damage, fun _ => .idle⟩
  | .close =>
    if c.world.ready ∧ c.world.active = [] then some ⟨c.world.dropEngine, c.threads⟩ else none

/-! ## Which steps a run may take -/

structure Env where
  /-- Block reads may fail, or fail their checksum. -/
  blockFaults : Bool
  /-- I/O calls of opening, of compaction and of the log may fail. -/
  ioFaults : Bool
  /-- I/O calls of a client's flush may fail. -/
  flushFaults : Bool
  /-- `Path::exists` may answer no because its stat failed. -/
  statFaults : Bool
  /-- Keys are at most `MAX_RECORD_LEN` long, values at most this. -/
  limit : Option ℕ
  /-- A batch has fewer than `2 ^ 32` operations. -/
  counted : Bool
  /-- A process opens at most `2 ^ 64` runs, and the runs of an engine have at most `2 ^ 32` blocks or its
  block cache is disabled. -/
  small : Bool
  /-- Client calls do not overlap. -/
  sequential : Bool
  /-- Every session is built with this setting of the `durability` feature. -/
  durability : Option Bool

def Env.allowsAct (e : Env) (w : World) (t : Tid) (o : Act) (c : Choice) : Prop :=
  match o with
  | .fetchAdd => w.nextSeq + 1 < 2 ^ 64
  | .register _ run _ => e.small = true →
      w.nextRunId < 2 ^ 64 ∧ (w.live = true → run.index.length ≤ 2 ^ 32 ∨ w.cache.enabled = false)
  | .startEngine config _ _ runs _ _ => e.small = true →
      (∀ r ∈ runs, r.index.length ≤ 2 ^ 32) ∨ (BlockCache.new config.blockCacheCapacity).enabled = false
  | .readBlock _ _ | .readFaults => e.blockFaults = true ∨ c.faulty = false
  | .exists _ => e.statFaults = true ∨ c.faulty = false
  | .walOpen | .walIter | .walAppend _ | .walRemove | .remove _ => e.ioFaults = true ∨ o.fails w c = false
  | o =>
    if t = compactorTid ∨ w.opener = some t then e.ioFaults = true ∨ o.fails w c = false
    else e.flushFaults = true ∨ o.fails w c = false

def Env.allowsCall (e : Env) (w : World) (call : Call) : Prop :=
  (∀ l, e.limit = some l → ∀ op ∈ call.ops, op.1.length ≤ MAX_RECORD_LEN ∧ op.2.valueLen ≤ l) ∧
  (e.counted = true → call.ops.length < 2 ^ 32) ∧
  (e.sequential = true → ∀ t ∈ w.active, t = compactorTid) ∧
  (∀ config features, call = .openWith config features →
    ∀ d, e.durability = some d → features.durability = d)

def Env.allows (e : Env) (c : Config) : Label → Prop
  | .start t call => t ≠ compactorTid → e.allowsCall c.world call
  | .act t choice => ∀ call o k, c.threads t = .running call (.op o k) → e.allowsAct c.world t o choice
  | _ => True

/-- The configurations a run can reach from an empty directory. -/
inductive Reach (e : Env) : Config → Prop
  | initial : Reach e Config.initial
  | step {c c' : Config} {l : Label} (hr : Reach e c) (ha : e.allows c l) (hs : step c l = some c') :
      Reach e c'

end System
end LsmDb
