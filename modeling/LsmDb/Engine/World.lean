import LsmDb.Engine.Cache
import LsmDb.Engine.LogRecord
import LsmDb.Engine.Manifest
import LsmDb.Engine.Scan
import LsmDb.Lib.Prog
import LsmDb.Sstable.RoundTrip
import Mathlib.Data.Char

/-! The state the engine's threads share, and the atomic operations they perform on it: lock-delimited
steps on `Inner`, atomics, the block cache, and file-system calls. Every file-system call may fail, and
a failed write may leave part of its bytes.

Beside the program's own state the world records what a reader of the history would write down (`Spec`):
the reference store in lock order, what the last committed flush and the log make recoverable, and what
each reader's snapshot stood for. No operation reads these. -/
namespace LsmDb
open Lib
set_option autoImplicit false

abbrev Tid := ℕ

/-- The background compaction thread. -/
def compactorTid : Tid := 0

/-- The contents of a file: the manifest is text, everything else is bytes. -/
inductive Data where
  | bin (bytes : Bytes)
  | text (text : Text)
deriving DecidableEq

/-- Cargo features of a session's build. -/
structure Features where
  durability : Bool
  bloom : Bool
deriving DecidableEq

section World
variable [Deps]

/-- A memtable and a run list read at one instant, and `cur` at that instant. -/
structure Sight where
  cur : Store
  memtable : MemTable
  runs : List SsTable

def Sight.blank : Sight := ⟨Store.empty, MemTable.new, []⟩

structure Spec where
  -- all writes applied to the memtable, in lock order
  cur : Store
  -- `cur` as of the last flush whose manifest rename completed
  flushed : Store
  -- what the log and the runs below it stand for
  logged : Store
  -- the writes whose calls returned `Ok`, in call order
  acked : Store
  -- the writes whose calls have not returned, or returned an error
  unsure : List Entry
  -- what each thread's last snapshot showed
  seen : Tid → Sight

def Spec.empty : Spec := ⟨Store.empty, Store.empty, Store.empty, Store.empty, [], fun _ => Sight.blank⟩

/-- The reference a new session starts from. -/
def Spec.durable (s : Spec) (durability : Bool) : Store := if durability then s.logged else s.flushed

structure World where
  -- the directory; the log's file is kept apart
  dir : SortedMap Text Data
  wal : Option Deps.Wal
  -- the process
  nextRunId : ℕ
  opener : Option Tid
  active : List Tid
  ready : Bool
  -- the engine
  live : Bool
  config : LsmConfig
  features : Features
  memtable : MemTable
  runs : List SsTable
  walOpen : Bool
  lock : Option Tid
  nextSeq : ℕ
  compacting : Bool
  pending : Bool
  running : Bool
  generation : ℕ
  lastError : Option Error
  cache : BlockCache
  -- the run handles threads hold outside the lock, and the runs marked obsolete
  held : List (Tid × SsTable)
  obsolete : List ℕ
  -- every run opened in this session, and the bytes last installed under each name
  known : List SsTable
  finished : Text → Option Bytes
  spec : Spec

namespace World

def initial : World where
  dir := SortedMap.empty
  wal := none
  nextRunId := 0
  opener := none
  active := []
  ready := false
  live := false
  config := LsmConfig.default
  features := ⟨false, false⟩
  memtable := MemTable.new
  runs := []
  walOpen := false
  lock := none
  nextSeq := 0
  compacting := false
  pending := false
  running := false
  generation := 0
  lastError := none
  cache := BlockCache.new 0
  held := []
  obsolete := []
  known := []
  finished := fun _ => none
  spec := Spec.empty

/-- The engine is gone: dropped by its owner or by a crash. -/
def dropEngine (w : World) : World :=
  { w with
    ready := false
    live := false
    memtable := MemTable.new
    runs := []
    walOpen := false
    lock := none
    nextSeq := 0
    compacting := false
    pending := false
    running := false
    generation := 0
    lastError := none
    cache := BlockCache.new 0
    held := []
    obsolete := []
    known := []
    spec := { w.spec with
      cur := w.spec.durable w.features.durability
      acked := w.spec.durable w.features.durability
      unsure := [] } }

/-- The log has taken a group of operations. -/
def appended (w : World) (log : Deps.Wal) (ops : List Entry) : World :=
  { w with wal := some log, spec := { w.spec with logged := w.spec.logged.apply ops } }

/-- Names found in the directory. -/
def listing (w : World) : List Text := w.dir.keys ++ (if w.wal.isSome then [WAL_FILE] else [])

end World
end World

/-! ## Operations -/

section Ops
variable [Deps]

/-- What `SsTable::open` reads of a run: its bytes, index and entry count. -/
structure OpenedRun where
  file : Bytes
  index : List BlockHandle
  entryCount : ℕ

inductive Act where
  -- `RwLock<Inner>`
  | lock
  | unlock
  | inner
  | apply (ops : List Entry)
  | take
  | setWal (isOpen : Bool)
  | install (obsolete runs : List SsTable)
  | snapshot (want : MemTable → List SsTable → Bool)
  -- `Arc<SsTable>`
  | register (name : Text) (run : OpenedRun) (filter : Option RunFilter)
  | release (table : SsTable)
  -- atomics and the compactor's mailbox
  | fetchAdd
  | loadSeq
  | swapCompacting
  | storeCompacting
  | signal
  | awaitWork
  | finishWork (result : Except Error Unit)
  -- block cache and block reads
  | cacheGet (key : BlockKey)
  | cacheInsert (key : BlockKey) (block : DecodedBlock)
  | readBlock (table : SsTable) (i : ℕ)
  | readFaults
  -- file system
  | createDir
  | exists (name : Text)
  | readText (name : Text)
  | read (name : Text)
  | openRun (name : Text)
  | create (name : Text) (empty : Data)
  | append (name : Text) (data : Data)
  | sync (name : Text)
  | rename (source target : Text)
  | remove (name : Text)
  | readDir
  -- write-ahead log
  | walOpen
  | walIter
  | walAppend (ops : List Entry)
  | walRemove
  -- life of the engine
  | startEngine (config : LsmConfig) (features : Features) (memtable : MemTable) (runs : List SsTable)
      (walOpen : Bool) (nextSeq : ℕ)
  | dropEngine
  | spawn

/-- Why the read of a block fails. -/
inductive BlockFault where
  | io
  | checksum

def BlockFault.error : BlockFault → Error
  | io => .io "read data block" .other
  | checksum => .corruption "data block checksum mismatch"

/-- The reads of the blocks of one run, by run id and block number. -/
abbrev Faults := ℕ → ℕ → Option BlockFault

abbrev Res : Act → Type
  | .lock | .unlock | .apply _ | .setWal _ | .install _ _ | .storeCompacting | .signal | .awaitWork
  | .finishWork _ | .cacheInsert _ _ | .startEngine _ _ _ _ _ _ | .dropEngine => Unit
  | .inner => MemTable × List SsTable × Bool
  | .take => List Entry
  | .snapshot _ => MemTable × List SsTable
  | .register _ _ _ => SsTable
  | .release _ | .swapCompacting | .exists _ => Bool
  | .fetchAdd | .loadSeq => ℕ
  | .cacheGet _ => Option DecodedBlock
  | .readBlock _ _ => Except Error DecodedBlock
  | .readFaults => Faults
  | .createDir | .create _ _ | .append _ _ | .sync _ | .rename _ _ | .remove _ | .walOpen | .walAppend _
  | .walRemove | .spawn => Except IoError Unit
  | .readText _ => Except IoError Text
  | .read _ => Except IoError Bytes
  | .openRun _ => Except Error OpenedRun
  | .readDir => Except IoError (List Text × Bool)
  | .walIter => Except Error (List Bytes)

/-- What the environment decides about one operation. A failure carries a number: how far a write got,
or which of several system calls failed. -/
inductive Choice where
  | ok
  | fail (n : ℕ)
  | order (names : List Text) (broken : Bool)
  | faults (f : Faults)

/-! ## What an operation does -/

def Data.append : Data → Data → Data
  | .bin a, .bin b => .bin (a ++ b)
  | .text a, .text b => .text (a ++ b)
  | a, _ => a

def Data.take (n : ℕ) : Data → Data
  | .bin a => .bin (a.take n)
  | .text a => .text (a.take n)

/-- Whether the bytes fit into the file. -/
def Data.fits : Data → Data → Bool
  | .bin a, .bin b => a.length + b.length ≤ MAX_FILE_LEN
  | _, _ => true

/-- `SsTable::open` up to the handle; failure `n` hits the open, the stat, the footer or the index. -/
def openFile (d : Option Data) : Choice → Except Error OpenedRun
  | .fail n =>
    if n = 0 then .error (.io "open sorted run" .other)
    else if n = 1 then .error (.io "stat sorted run" .other)
    else if n = 2 then .error (.io "read run footer" .other)
    else .error (.io "read run index" .other)
  | _ =>
    match d with
    | none => .error (.io "open sorted run" .notFound)
    | some (.text _) => .error (.corruption "file shorter than header and footer")
    | some (.bin file) =>
      match SsTable.readIndex file.length (preadExact file) with
      | .ok (index, entryCount) => .ok ⟨file, index, entryCount⟩
      | .error e => .error e

def isObsolete (w : World) (table : SsTable) : Bool := table.runId ∈ w.obsolete

/-- Handles still around: of threads, and of the run list. -/
def isHeld (w : World) (table : SsTable) : Bool :=
  w.held.any (fun h => h.2.runId = table.runId) || w.runs.any (fun r => r.runId = table.runId)

/-- Give up one handle of a thread. -/
def dropHandle (t : Tid) (table : SsTable) (held : List (Tid × SsTable)) : List (Tid × SsTable) :=
  held.eraseP fun h => h.1 = t ∧ h.2.runId = table.runId

/-- One atomic step of thread `t`. -/
def exec (t : Tid) : (o : Act) → Choice → World → Option (Res o × World)
  | .lock, _, w => if w.lock = none then some ((), { w with lock := some t }) else none
  | .unlock, _, w => some ((), { w with lock := none })
  | .inner, _, w => some ((w.memtable, w.runs, w.walOpen), w)
  | .apply ops, _, w => some ((), { w with
      memtable := w.memtable.applyAll ops
      spec := { w.spec with cur := w.spec.cur.apply ops } })
  | .take, _, w => some (w.memtable.take.1, { w with memtable := w.memtable.take.2 })
  | .setWal b, _, w => some ((), { w with walOpen := b })
  | .install obsolete runs, _, w => some ((), { w with
      runs := runs
      obsolete := obsolete.map SsTable.runId ++ w.obsolete })
  | .snapshot want, _, w =>
    if w.lock = none then
      some ((w.memtable, w.runs), { w with
        held := (if want w.memtable w.runs then w.runs.map (t, ·) else []) ++ w.held
        spec := { w.spec with seen := Function.update w.spec.seen t ⟨w.spec.cur, w.memtable, w.runs⟩ } })
    else none
  | .register name run filter, _, w =>
    let table : SsTable := ⟨run.file, name, run.index, run.entryCount, filter, w.nextRunId⟩
    some (table, { w with nextRunId := w.nextRunId + 1, known := table :: w.known })
  | .release table, _, w =>
    let w' := { w with held := dropHandle t table w.held }
    some (isObsolete w' table && !isHeld w' table, w')
  | .fetchAdd, _, w => some (w.nextSeq, { w with nextSeq := (w.nextSeq + 1) % 2 ^ 64 })
  | .loadSeq, _, w => some (w.nextSeq, w)
  | .swapCompacting, _, w => some (w.compacting, { w with compacting := true })
  | .storeCompacting, _, w => some ((), { w with compacting := false })
  | .signal, _, w => some ((), { w with pending := true })
  | .awaitWork, _, w => if w.pending then some ((), { w with pending := false, running := true }) else none
  | .finishWork result, _, w => some ((), { w with
      running := false
      generation := (w.generation + 1) % 2 ^ 64
      lastError := match result with
        | .ok _ => w.lastError
        | .error e => some e })
  | .cacheGet key, _, w => some ((w.cache.get key).1, { w with cache := (w.cache.get key).2 })
  | .cacheInsert key block, _, w => some ((), { w with cache := w.cache.insert key block })
  | .readBlock table i, c, w =>
    match c with
    | .fail 0 => some (.error BlockFault.io.error, w)
    | .fail _ => some (.error BlockFault.checksum.error, w)
    | _ => some (table.readBlock i, w)
  | .readFaults, c, w =>
    match c with
    | .faults f => some (f, w)
    | _ => some (fun _ _ => none, w)
  | .createDir, c, w =>
    match c with
    | .fail _ => some (.error .other, w)
    | _ => some (.ok (), w)
  | .exists name, c, w =>
    match c with
    | .fail _ => some (false, w)
    | _ => some ((w.dir.get? name).isSome, w)
  | .readText name, c, w =>
    match c with
    | .fail _ => some (.error .other, w)
    | _ =>
      match w.dir.get? name with
      | some (.text text) => some (.ok text, w)
      | some (.bin _) => some (.error .other, w)
      | none => some (.error .notFound, w)
  | .read name, c, w =>
    match c with
    | .fail _ => some (.error .other, w)
    | _ =>
      match w.dir.get? name with
      | some (.bin bytes) => some (.ok bytes, w)
      | some (.text _) => some (.error .other, w)
      | none => some (.error .notFound, w)
  | .openRun name, c, w => some (openFile (w.dir.get? name) c, w)
  | .create name empty, c, w =>
    match c with
    | .fail 0 => some (.error .other, w)
    | .fail _ => some (.error .other, { w with dir := w.dir.insert name empty })
    | _ => some (.ok (), { w with dir := w.dir.insert name empty })
  | .append name data, c, w =>
    match w.dir.get? name with
    | none => some (.error .other, w)
    | some old =>
      match c with
      | .fail n => some (.error .other, { w with dir := w.dir.insert name (old.append (data.take n)) })
      | _ =>
        if old.fits data then some (.ok (), { w with dir := w.dir.insert name (old.append data) })
        else some (.error .other, w)
  | .sync _, c, w =>
    match c with
    | .fail _ => some (.error .other, w)
    | _ => some (.ok (), w)
  | .rename source target, c, w =>
    match c with
    | .fail _ => some (.error .other, w)
    | _ =>
      match w.dir.get? source with
      | none => some (.error .notFound, w)
      | some d => some (.ok (), { w with
          dir := (w.dir.erase source).insert target d
          finished := match d with
            | .bin bytes => Function.update w.finished target (some bytes)
            | .text _ => w.finished
          spec := if target = MANIFEST ∧ t ≠ compactorTid then { w.spec with flushed := w.spec.cur }
            else w.spec })
  | .remove name, c, w =>
    match c with
    | .fail _ => some (.error .other, w)
    | _ =>
      match w.dir.get? name with
      | none => some (.error .notFound, w)
      | some _ => some (.ok (), { w with dir := w.dir.erase name })
  | .readDir, c, w =>
    match c with
    | .fail _ => some (.error .other, w)
    | .order names broken =>
      if broken then
        -- an error after some of the entries
        if names.Nodup ∧ ∀ n ∈ names, n ∈ w.listing then some (.ok (names, true), w) else none
      else if names.isPerm w.listing then some (.ok (names, false), w) else none
    | _ => some (.ok (w.listing, false), w)
  | .walOpen, c, w =>
    match c with
    | .fail 0 => some (.error .other, w)
    | .fail _ => some (.error .other, { w with wal := some (w.wal.getD Deps.walNew) })
    | _ => some (.ok (), { w with wal := some (w.wal.getD Deps.walNew) })
  | .walIter, c, w =>
    match c with
    | .fail 0 => some (.error (.io "read write-ahead log" .other), w)
    | .fail _ => some (.error (.io "read log record" .other), w)
    | _ => some (.ok (logRecords w.wal), w)
  | .walAppend ops, c, w =>
    match Deps.walAppend (w.wal.getD Deps.walNew) (encodeLog ops) with
    -- the record is too long
    | none => some (.error .other, w)
    | some log =>
      match c with
      -- atomic: a failed append is in the log as a whole or not at all
      | .fail 0 => some (.error .other, w)
      | .fail _ => some (.error .other, w.appended log ops)
      | _ => some (.ok (), w.appended log ops)
  | .walRemove, c, w =>
    match c with
    | .fail _ => some (.error .other, w)
    | _ =>
      match w.wal with
      | none => some (.error .notFound, w)
      | some _ => some (.ok (), { w with wal := none, spec := { w.spec with logged := w.spec.cur } })
  | .startEngine config features memtable runs walOpen nextSeq, _, w => some ((), { w with
      live := true
      config := config
      features := features
      memtable := memtable
      runs := runs
      walOpen := walOpen
      lock := none
      nextSeq := nextSeq
      cache := BlockCache.new config.blockCacheCapacity })
  | .dropEngine, _, w => some ((), w.dropEngine)
  | .spawn, c, w =>
    match c with
    | .fail _ => some (.error .other, w)
    | _ => some (.ok (), w)

/-- The environment's decision makes the operation report an error. -/
def Choice.faulty : Choice → Bool
  | .ok => false
  | .fail _ => true
  | .order _ broken => broken
  | .faults _ => true

def Act.fails (w : World) (c : Choice) : Act → Bool
  | .append name data => c.faulty || !((w.dir.get? name).all fun old => old.fits data)
  | .walAppend ops => c.faulty || Deps.walMaxRecord < (encodeLog ops).length
  | _ => c.faulty

/-- Opening the log keeps its records. -/
theorem exec_walOpen {t : Tid} {c : Choice} {r : Except IoError Unit} {w w' : World}
    (h : exec t .walOpen c w = some (r, w')) : logRecords w'.wal = logRecords w.wal := by
  simp only [exec] at h
  split at h <;> (obtain ⟨_, rfl⟩ := Prod.mk.inj (Option.some.inj h)) <;> simp

/-- What an append leaves: nothing, or the log with its record. -/
theorem exec_walAppend {t : Tid} {ops : List Entry} {c : Choice} {r : Except IoError Unit} {w w' : World}
    (h : exec t (.walAppend ops) c w = some (r, w')) :
    r = .error .other ∧ w' = w ∧ (Act.walAppend ops).fails w c = true ∨
      ∃ log, Deps.walIter log = logRecords w.wal ++ [encodeLog ops] ∧ w' = w.appended log ops ∧
        (r = .ok () ∨ r = .error .other ∧ (Act.walAppend ops).fails w c = true) := by
  simp only [exec] at h
  split at h
  · rename_i hnone
    have hlong : ¬ (encodeLog ops).length ≤ Deps.walMaxRecord := by
      rw [← Deps.walAppend_isSome (w.wal.getD Deps.walNew), hnone]
      simp
    obtain ⟨rfl, rfl⟩ := Prod.mk.inj (Option.some.inj h)
    exact Or.inl ⟨rfl, rfl, by simpa [Act.fails] using Or.inr (Nat.lt_of_not_le hlong)⟩
  · rename_i log hlog
    have hiter := Deps.walIter_append _ _ _ hlog
    rw [walIter_getD] at hiter
    split at h
    · obtain ⟨rfl, rfl⟩ := Prod.mk.inj (Option.some.inj h)
      exact Or.inl ⟨rfl, rfl, rfl⟩
    · obtain ⟨rfl, rfl⟩ := Prod.mk.inj (Option.some.inj h)
      exact Or.inr ⟨log, hiter, rfl, Or.inr ⟨rfl, rfl⟩⟩
    · obtain ⟨rfl, rfl⟩ := Prod.mk.inj (Option.some.inj h)
      exact Or.inr ⟨log, hiter, rfl, Or.inl rfl⟩

/-- A record that is not too long is taken, unless the append fails. -/
theorem exec_walAppend_ok {t : Tid} {ops : List Entry} {w : World} (h : (encodeLog ops).length ≤ Deps.walMaxRecord) :
    ∃ log, Deps.walIter log = logRecords w.wal ++ [encodeLog ops] ∧
      exec t (.walAppend ops) .ok w = some (.ok (), w.appended log ops) := by
  obtain ⟨log, hlog⟩ := Option.isSome_iff_exists.mp ((Deps.walAppend_isSome (w.wal.getD Deps.walNew) _).mpr h)
  have hiter := Deps.walIter_append _ _ _ hlog
  rw [walIter_getD] at hiter
  exact ⟨log, hiter, by simp only [exec, hlog]⟩

end Ops
end LsmDb
