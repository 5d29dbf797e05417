import LsmDb.Engine.World

/-! The engine's functions as programs over the atomic operations (`db.rs`, with `Manifest::store`,
`write_sidecar`, `RunFilter::load`, `Durability` and `SsTable::drop`). An early return by `?` is a throw;
what goes out of scope on the way (guards, handles) is released explicitly. -/
namespace LsmDb
open Lib
set_option autoImplicit false

variable [Deps]

abbrev P := Prog Act Res
abbrev M := ExceptT Error P

/-- The world and its operations, as programs run on them. -/
abbrev machine : Machine Act Res := ⟨World, Choice, exec⟩

def perform (o : Act) : P (Res o) := .op o .done

def io {α : Type} (context : String) (x : P (Except IoError α)) : M α :=
  ExceptT.mk (x >>= fun r => pure (ioResult context r))

def lift {α : Type} (r : Except Error α) : M α := ExceptT.mk (pure r)

/-- The write lock around a body, released on every way out. -/
def withGuard {α : Type} (body : M α) : M α := ExceptT.mk do
  let _ ← perform .lock
  let r ← body.run
  let _ ← perform .unlock
  return r

/-! ## Writing a run -/

def writeChunksTo (name : Text) : List Chunk → M Unit
  | [] => pure ()
  | c :: cs => do
    io c.context (perform (.append name (.bin c.bytes)))
    writeChunksTo name cs

def pushEntries (name : Text) (w : SsTableWriter) : List Entry → M SsTableWriter
  | [] => pure w
  | e :: es => do
    let (w, chunks) ← lift (w.push e.1 e.2)
    writeChunksTo name chunks
    pushEntries name w es

/-- `SsTableWriter::create`, the pushes and `finish`. `readErr` is the error that ends the stream of
entries, if one does. -/
def writeRunFile (name : Text) (entries : List Entry) (readErr : Option Error) : M Unit := do
  io "create sorted run" (perform (.create name (.bin [])))
  writeChunksTo name [SsTableWriter.header]
  let w ← pushEntries name SsTableWriter.new entries
  match readErr with
  | some e => throw e
  | none => pure ()
  let chunks ← lift w.finish
  writeChunksTo name chunks
  io "flush run to stable storage" (perform (.sync name))

def writeSidecar (filter : RunFilter) (name : Text) : M Unit := do
  let bytes ← lift filter.sidecarBytes
  let path := sidecarPath name
  io "write bloom sidecar" (perform (.create (tmpPath path) (.bin [])))
  io "write bloom sidecar" (perform (.append (tmpPath path) (.bin bytes)))
  io "install bloom sidecar" (perform (.rename (tmpPath path) path))

/-- The part `flush_locked` and `compact_inner` share: write the run under its temporary name, install
it, write its sidecar, reopen it. -/
def buildRun (context : String) (name : Text) (entries : List Entry) (readErr : Option Error)
    (filter : Option RunFilter) : M SsTable := do
  writeRunFile (tmpPath name) entries readErr
  io context (perform (.rename (tmpPath name) name))
  match filter with
  | some f => writeSidecar f name
  | none => pure ()
  let opened ← ExceptT.mk (perform (.openRun name))
  perform (.register name opened filter)

def storeManifest (nextSeq : ℕ) (names : List Text) : M Unit := do
  io "create manifest" (perform (.create MANIFEST_TMP (.text [])))
  io "write manifest" (perform (.append MANIFEST_TMP (.text (manifestText nextSeq names))))
  io "flush manifest to stable storage" (perform (.sync MANIFEST_TMP))
  io "install manifest" (perform (.rename MANIFEST_TMP MANIFEST))

/-! ## Durability -/

def logOps (features : Features) (ops : List Entry) : M Unit := do
  if features.durability then
    let inner ← perform .inner
    if inner.2.2 = false then throw (.corruption "write-ahead log not open")
    io "append to write-ahead log" (perform (.walAppend ops))

def rotate (features : Features) : M Unit := do
  if features.durability then
    perform (.setWal false)
    match ← perform .walRemove with
    | .ok _ => pure ()
    | .error .notFound => pure ()
    | .error .other => throw (.io "rotate write-ahead log" .other)
    io "reopen write-ahead log" (perform .walOpen)
    perform (.setWal true)

/-! ## Writes and flushes -/

/-- Every name of the run list, newest first. -/
def names (runs : List SsTable) : List Text := runs.map SsTable.name

def flushLocked (config : LsmConfig) (features : Features) : M Unit := do
  let entries ← perform .take
  let seq ← perform .fetchAdd
  let filter := ((builder features.bloom entries.length).addAll (entries.map Prod.fst)).finish
  let table ← buildRun "install flushed run" (runFilename seq) entries none filter
  let inner ← perform .inner
  let newRuns := table :: inner.2.1
  let nextSeq ← perform .loadSeq
  storeManifest nextSeq (names newRuns)
  perform (.install [] newRuns)
  rotate features
  if config.compactionTrigger ≤ newRuns.length then perform .signal

def maybeFlush (config : LsmConfig) (features : Features) : M Unit := do
  let inner ← perform .inner
  if !inner.1.isEmpty && config.memtableCapacity ≤ inner.1.approxSize then flushLocked config features

def flush (config : LsmConfig) (features : Features) : M Unit := withGuard do
  let inner ← perform .inner
  if inner.1.isEmpty then pure () else flushLocked config features

/-- `put`, `delete` and `write` with the records they write. -/
def writeOps (config : LsmConfig) (features : Features) (ops : List Entry) : M Unit := withGuard do
  logOps features ops
  perform (.apply ops)
  maybeFlush config features

def put (config : LsmConfig) (features : Features) (key value : Bytes) : M Unit :=
  writeOps config features [(key, .value value)]

def delete (config : LsmConfig) (features : Features) (key : Bytes) : M Unit :=
  writeOps config features [(key, .tombstone)]

def write (config : LsmConfig) (features : Features) (batch : Batch) : M Unit :=
  writeOps config features batch.entries

/-! ## Reads -/

/-- Dropping the handles of a snapshot; the last handle of an obsolete run removes its files. -/
def dropRuns : List SsTable → P Unit
  | [] => pure ()
  | table :: tables => do
    let last ← perform (.release table)
    if last then
      let _ ← perform (.remove table.name)
      let _ ← perform (.remove (sidecarPath table.name))
    dropRuns tables

def cachedBlock (table : SsTable) (i : ℕ) : M DecodedBlock := do
  let key : BlockKey := ⟨table.runId % 2 ^ 64, i % 2 ^ 32⟩
  match ← perform (.cacheGet key) with
  | some block => pure block
  | none =>
    let block ← ExceptT.mk (perform (.readBlock table i))
    perform (.cacheInsert key block)
    pure block

def lookup (table : SsTable) (key : Bytes) : M (Option Record) := do
  let i := table.candidate key
  if table.index.length ≤ i then pure none
  else
    let block ← cachedBlock table i
    pure (find block key)

def searchRuns (key : Bytes) : List SsTable → M (Option Bytes)
  | [] => pure none
  | table :: tables => do
    if table.mightContain key = false then searchRuns key tables
    else
      match ← lookup table key with
      | some (.value v) => pure (some v)
      | some .tombstone => pure none
      | none => searchRuns key tables

def get (key : Bytes) : M (Option Bytes) := ExceptT.mk do
  let (memtable, runs) ← perform (.snapshot fun m _ => (m.get key).isNone)
  match memtable.get key with
  | some (.value v) => pure (.ok (some v))
  | some .tombstone => pure (.ok none)
  | none =>
    let r ← (searchRuns key runs).run
    dropRuns runs
    pure r

/-- The cursor of a run some of whose blocks cannot be read. -/
def faultyCursor (faults : Faults) (table : SsTable) : RunCursor :=
  RunCursor.new table.index.length fun i =>
    match faults table.runId i with
    | some fault => .error fault.error
    | none => table.readBlock i

def scan (range : Range) : M (List (Bytes × Bytes)) := ExceptT.mk do
  let (memtable, runs) ← perform (.snapshot fun _ _ => true)
  let faults ← perform .readFaults
  let mem := memtable.iter.filter fun e => position range e.1 = .within
  let r := scanMerge range mem (runs.map (faultyCursor faults))
  dropRuns runs
  pure r

/-! ## Compaction -/

def valueEntries (items : List (Bytes × Bytes)) : List Entry := items.map fun e => (e.1, .value e.2)

/-- `compact_inner` once the inputs are in hand. -/
def mergeRuns (features : Features) (inputs : List SsTable) : M Unit := do
  let capacity := inputs.foldl (fun acc r => min (acc + r.entryCount) (2 ^ 64 - 1)) 0
  let seq ← perform .fetchAdd
  let faults ← perform .readFaults
  let (items, readErr) := (Merge.new [] (inputs.map (faultyCursor faults))).collect
  let filter := ((builder features.bloom capacity).addAll (items.map Prod.fst)).finish
  let output ← buildRun "install compacted run" (runFilename seq) (valueEntries items) readErr filter
  withGuard do
    let inner ← perform .inner
    let newRuns := inner.2.1.filter (fun r => !inputs.any fun i => i.runId = r.runId) ++ [output]
    let nextSeq ← perform .loadSeq
    storeManifest nextSeq (names newRuns)
    perform (.install inputs newRuns)

def compactInner (features : Features) : M Unit := ExceptT.mk do
  let (_, inputs) ← perform (.snapshot fun _ runs => 2 ≤ runs.length)
  if inputs.length < 2 then pure (.ok ())
  else
    let r ← (mergeRuns features inputs).run
    dropRuns inputs
    pure r

def compactOnce (features : Features) : M Unit := ExceptT.mk do
  let busy ← perform .swapCompacting
  if busy then pure (.ok ())
  else
    let r ← (compactInner features).run
    perform .storeCompacting
    pure r

/-- One round of `compactor_loop`. -/
def compactorRound (features : Features) : M Unit := ExceptT.mk do
  let _ ← perform .awaitWork
  let r ← (compactOnce features).run
  let _ ← perform (.finishWork r)
  pure r

/-! ## Opening -/

def loadManifest : M (Option Manifest) := do
  if ← perform (.exists MANIFEST) then
    let text ← io "read manifest" (perform (.readText MANIFEST))
    let m ← lift (parseManifest text)
    pure (some m)
  else pure none

def loadFilter (features : Features) (name : Text) : M (Option RunFilter) := do
  if features.bloom then
    match ← perform (.read (sidecarPath name)) with
    | .error .notFound => pure none
    | .error .other => throw (.io "read bloom sidecar" .other)
    | .ok bytes =>
      match RunFilter.decode bytes with
      | some f => pure (some f)
      | none =>
        let _ ← perform (.remove (sidecarPath name))
        pure none
  else pure none

def openRuns (features : Features) : List Text → M (List SsTable)
  | [] => pure []
  | name :: rest => do
    if ← perform (.exists name) then
      let opened ← ExceptT.mk (perform (.openRun name))
      let filter ← loadFilter features name
      let table ← perform (.register name opened filter)
      let tables ← openRuns features rest
      pure (table :: tables)
    else throw (.corruption "manifest references a missing run")

/-- The loop over the directory: temporaries, sidecars and runs that are not live are removed, and the
next sequence number passes every run file. -/
def reclaim (live : List Text) (nextSeq : ℕ) : List Text → M ℕ
  | [] => pure nextSeq
  | name :: rest => do
    if TMP.isSuffixOf name then
      io "remove temporary file" (perform (.remove name))
      reclaim live nextSeq rest
    else
      match stripSuffix BLOOM name with
      | some run =>
        if run ∉ live then io "remove orphan bloom sidecar" (perform (.remove name))
        reclaim live nextSeq rest
      | none =>
        match seqOf name with
        | some seq =>
          if name ∉ live then io "remove orphan run" (perform (.remove name))
          reclaim live (max nextSeq ((seq + 1) % 2 ^ 64)) rest
        | none => reclaim live nextSeq rest

def openLog (features : Features) : M MemTable := do
  if features.durability then
    io "open write-ahead log" (perform .walOpen)
    let records ← ExceptT.mk (perform .walIter)
    lift (replayLog MemTable.new records)
  else pure MemTable.new

/-- Dropping the engine when `open` fails after building it. -/
def orDrop {α : Type} (x : M α) : M α := ExceptT.mk do
  match ← x.run with
  | .ok a => pure (.ok a)
  | .error e =>
    perform .dropEngine
    pure (.error e)

def openWith (config : LsmConfig) (features : Features) : M Unit := do
  io "create database directory" (perform .createDir)
  let manifest ← loadManifest
  let live := match manifest with
    | some m => m.runs
    | none => []
  let manifestSeq := match manifest with
    | some m => m.nextSeq
    | none => 0
  let runs ← openRuns features live
  let (found, broken) ← io "scan database directory" (perform .readDir)
  let nextSeq ← reclaim live manifestSeq found
  if broken then throw (.io "read directory entry" .other)
  let memtable ← openLog features
  perform (.startEngine config features memtable runs features.durability nextSeq)
  orDrop do
    flush config features
    io "spawn compaction thread" (perform .spawn)

end LsmDb
