import LsmDb.Engine.System
import LsmDb.Sstable.Accept

/-! What holds in every reachable state of the system.

A thread's annotation says what it holds and knows: the write lock with mirrors of what the lock
protects, the run it is writing with mirrors of that run's four files, the handles of its snapshot, the
compaction inputs. The ghost state gives the entries behind each run file, the run numbers the manifest
on disk lists, the buffer behind the run list, and the groups in the log. -/
namespace LsmDb
open Lib
set_option autoImplicit false

/-! ## Files by name -/

/-- The file under a name. -/
def look (dir : SortedMap Text Data) (n : Name) : Option Data := dir.get? n.text

theorem look_insert (dir : SortedMap Text Data) (n : Name) (d : Data) :
    look (dir.insert n.text d) = Function.update (look dir) n (some d) := by
  funext m
  by_cases h : m = n
  · subst h
    rw [Function.update_self, look, SortedMap.get?_insert_self]
  · have ht : m.text ≠ n.text := fun ht => h (Name.text_injective ht)
    rw [Function.update_of_ne h, look, SortedMap.get?_insert, if_neg ht]
    rfl

theorem look_erase_text (dir : SortedMap Text Data) (name : Text) (m : Name) :
    look (dir.erase name) m = if m.text = name then none else look dir m := by
  unfold look
  rw [SortedMap.get?_erase]
  split_ifs <;> rfl

theorem look_erase (dir : SortedMap Text Data) (n : Name) :
    look (dir.erase n.text) = Function.update (look dir) n none := by
  funext m
  rw [look_erase_text]
  by_cases h : m = n
  · subst h
    rw [Function.update_self, if_pos rfl]
  · rw [Function.update_of_ne h, if_neg (fun ht => h (Name.text_injective ht))]

section Annotations
variable [Deps]

/-! ## Annotations -/

/-- A run being written: its number, its four files, its entries once it is installed, its handle once
it is reopened, and whether the manifest lists it. -/
structure Build where
  seq : ℕ
  tmp : Option Data
  run : Option Data
  side : Option Data
  sideTmp : Option Data
  entries : List Entry
  table : Option SsTable
  committed : Bool

/-- What the holder of the write lock knows. -/
structure Hold where
  memtable : MemTable
  runs : List SsTable
  walOpen : Bool
  tmp : Option Data
  ns : List ℕ
  buf : List Entry

/-- How far a call has come: `prior` are the writes that were unsure before it. -/
inductive Phase where
  | quiet
  | pending (ops : List Entry) (prior : List Entry)
  | logged (ops : List Entry) (prior : List Entry)
  | applied (ops : List Entry) (prior : List Entry)
  | saved

inductive Mode where
  | idle
  | live
  | opening (w : World)

structure Own where
  mode : Mode
  opener : Bool
  hold : Option Hold
  build : Option Build
  held : List SsTable
  dead : Option SsTable
  -- what a compaction is merging, with the entries of each run
  inputs : List (SsTable × List Entry)
  seen : Sight
  phase : Phase
  lost : Bool

def Own.idle (seen : Sight) : Own := ⟨.idle, false, none, none, [], none, [], seen, .quiet, false⟩

/-- `lost` says that the buffer was dropped by a flush that failed. -/
structure Ghost where
  content : ℕ → List Entry
  ns : List ℕ
  buf : List Entry
  groups : List (List Entry)
  lost : Bool

/-- What replaying the log gives. -/
def Ghost.log (g : Ghost) : List Entry := insertAll g.groups.flatten []

/-- The contents of the listed runs, newest first. -/
def Ghost.layers (g : Ghost) : List (List Entry) := g.ns.map g.content

/-! ## Environments in which nothing is lost -/

/-- An entry of the sizes the environment allows. -/
def Env.Within (e : Env) (x : Entry) : Prop :=
  ∀ l, e.limit = some l → x.1.length ≤ MAX_RECORD_LEN ∧ x.2.valueLen ≤ l

structure Env.Good (e : Env) (d : Bool) : Prop where
  laws : BloomLaws
  stat : e.statFaults = false
  flush : e.flushFaults = false
  durability : e.durability = some d
  limit : ∃ l, e.limit = some l ∧ l ≤ 2 ^ 31 ∧ (d = true → l ≤ MAX_RECORD_LEN)
  counted : d = true → e.counted = true

/-! ## The directory -/

/-- A table opened from run number `s`. -/
structure RunOf (content : ℕ → List Entry) (r : SsTable) (s : ℕ) : Prop where
  name : r.name = runFilename s
  table : ∃ bs, TableOf r (content s) bs
  covers : BloomLaws → Covers r.filter (content s)

/-- A complete run, as it was installed under its name. -/
structure RunFile (content : ℕ → List Entry) (finished : Text → Option Bytes) (s : ℕ) (d : Data) : Prop where
  lt : s + 1 < 2 ^ 64
  bytes : ∃ b bs, d = .bin b ∧ finished (runFilename s) = some b ∧ RunLayout (content s) b bs
  ascending : Ascending (content s)

def SideFile (content : ℕ → List Entry) (s : ℕ) (d : Data) : Prop :=
  ∃ b, d = .bin b ∧ ∀ f, RunFilter.decode b = some f → BloomLaws → Covers (some f) (content s)

structure Stored (e : Env) (content : ℕ → List Entry) (ns : List ℕ) (dir : SortedMap Text Data)
    (finished : Text → Option Bytes) : Prop where
  run : ∀ s d, look dir (.run s) = some d → RunFile content finished s d
  side : ∀ s d, look dir (.side s) = some d → SideFile content s d
  manifest : (look dir .manifest = none ∧ ns = []) ∨
    ∃ q, q < 2 ^ 64 ∧ look dir .manifest = some (.text (manifestText q (ns.map runFilename)))
  nodup : ns.Nodup
  present : e.statFaults = false → ∀ s ∈ ns, look dir (.run s) ≠ none

/-- What the next open will find. -/
structure Durable (e : Env) (d : Bool) (g : Ghost) (wal : Option Deps.Wal) (spec : Spec) : Prop where
  within : ∀ s ∈ g.ns, ∀ x ∈ g.content s, e.Within x
  flushed : d = false → spec.flushed = answer g.layers
  log : d = true → logRecords wal = g.groups.map encodeLog
  sized : d = true → ∀ ops ∈ g.groups, LogSized ops ∧ ∀ x ∈ ops, e.Within x
  logged : d = true → spec.logged = answer (g.log :: g.layers)

/-- Opening the log keeps its records. -/
theorem Durable.opened {e : Env} {d : Bool} {g : Ghost} {wal : Option Deps.Wal} {spec : Spec} (h : Durable e d g wal spec) :
    Durable e d g (some (wal.getD Deps.walNew)) spec where
  within := h.within
  flushed := h.flushed
  log hd := by
    rw [logRecords_some, walIter_getD]
    exact h.log hd
  sized := h.sized
  logged := h.logged

/-! ## One thread -/

structure Mirrors (g : Ghost) (w : World) (h : Hold) : Prop where
  memtable : w.memtable = h.memtable
  runs : w.runs = h.runs
  walOpen : w.walOpen = h.walOpen
  tmp : look w.dir .manifestTmp = h.tmp
  ns : g.ns = h.ns
  buf : g.buf = h.buf

structure Building (e : Env) (g : Ghost) (w : World) (b : Build) : Prop where
  lt : b.seq < w.nextSeq
  tmp : look w.dir (.runTmp b.seq) = b.tmp
  run : look w.dir (.run b.seq) = b.run
  side : look w.dir (.side b.seq) = b.side
  sideTmp : look w.dir (.sideTmp b.seq) = b.sideTmp
  content : b.run ≠ none → g.content b.seq = b.entries
  only : ∀ r ∈ w.known, r.name = runFilename b.seq → b.table = some r
  table : ∀ r, b.table = some r → r ∈ w.known ∧ r.name = runFilename b.seq ∧ r.runId ∉ w.obsolete ∧
    r ∉ w.runs
  unlisted : e.statFaults = false → b.committed = false → b.seq ∉ g.ns

/-- An obsolete run nobody holds any more. -/
structure Dead (known : List SsTable) (obsolete : List ℕ) (held : List (Tid × SsTable)) (r : SsTable) :
    Prop where
  known : r ∈ known
  obsolete : r.runId ∈ obsolete
  unheld : ∀ h ∈ held, h.2.runId ≠ r.runId

structure Local (e : Env) (g : Ghost) (w : World) (t : Tid) (a : Own) : Prop where
  holder : w.lock = some t ↔ a.hold ≠ none
  mirrors : ∀ h, a.hold = some h → Mirrors g w h
  building : ∀ b, a.build = some b → Building e g w b
  held : (w.held.filter fun h => h.1 = t).map Prod.snd = a.held
  dead : ∀ r, a.dead = some r → Dead w.known w.obsolete w.held r
  inputs : a.inputs ≠ [] → t = compactorTid
  suffix : a.inputs.map Prod.fst <:+ w.runs
  input : ∀ x ∈ a.inputs, ∀ s, x.1.name = runFilename s → g.content s = x.2
  logged : ∀ ops prior, a.phase = .logged ops prior →
    a.hold ≠ none ∧ (e.Good true → ∀ x ∈ ops, find g.log x.1 ≠ none)
  lost : a.opener = true → g.lost = a.lost

/-! ## All threads -/

structure Shared (w : World) (A : Tid → Own) : Prop where
  opener : ∀ t, (A t).opener = true ↔ w.opener = some t
  seen : ∀ t, w.spec.seen t = (A t).seen
  resting : ∀ t, (A t).mode = .idle → A t = Own.idle (A t).seen
  inactive : ∀ t, t ∉ w.active → (A t).mode = .idle
  alone : ∀ t, w.opener = some t → ∀ t', t' ≠ t → (A t').mode = .idle
  ready : w.ready = true → w.live = true ∧ w.opener = none

/-- What a phase says about the history. -/
def Phase.Holds (d : Bool) (s : Spec) : Phase → Prop
  | .quiet => True
  | .pending ops prior => s.unsure = ops ++ prior ∧
      ∀ k, k ∉ prior.map Prod.fst → s.cur k = s.acked k ∧ (d = true → s.logged k = s.acked k)
  | .logged ops prior => s.unsure = ops ++ prior ∧ (∀ k, k ∉ prior.map Prod.fst → s.cur k = s.acked k) ∧
      (d = true → ∀ k, k ∉ prior.map Prod.fst ∨ k ∈ ops.map Prod.fst → s.logged k = s.acked.apply ops k)
  | .applied ops prior => s.unsure = ops ++ prior ∧
      ∀ k, k ∉ prior.map Prod.fst ∨ k ∈ ops.map Prod.fst →
        s.cur k = s.acked.apply ops k ∧ (d = true → s.logged k = s.acked.apply ops k)
  | .saved => d = false → s.flushed = s.cur

/-- No write is unsure but those of the call itself. -/
def Phase.Sure (s : Spec) : Phase → Prop
  | .pending _ prior | .logged _ prior | .applied _ prior => prior = []
  | .saved => s.unsure = []
  | .quiet => True

/-- How the writes that were acknowledged, applied and logged compare when client calls do not
overlap. -/
structure Told (e : Env) (d : Bool) (s : Spec) (phase : Tid → Phase) : Prop where
  solo : ∀ t t', phase t ≠ .quiet → phase t' ≠ .quiet → t = t'
  compactor : phase compactorTid = .quiet
  agree : ∀ k, k ∉ s.unsure.map Prod.fst → s.cur k = s.acked k ∧ (d = true → s.logged k = s.acked k)
  holds : ∀ t, (phase t).Holds d s
  sure : e.ioFaults = false → (∀ t, (phase t).Sure s) ∧ ((∀ t, phase t = .quiet) → s.unsure = [])

/-! ## A session -/

/-- A cached block is the block of a run of this session. -/
def BelongsTo (known : List SsTable) (key : BlockKey) (block : DecodedBlock) : Prop :=
  ∃ r ∈ known, key.runId = r.runId ∧ r.readBlock key.blockIdx = .ok block

structure Cached (cache : BlockCache) (known : List SsTable) : Prop where
  ids : ∀ r ∈ known, r.runId < 2 ^ 64
  coherent : cache.Coherent (BelongsTo known)
  small : cache.enabled = true → ∀ r ∈ known, r.index.length ≤ 2 ^ 32

/-- The reference store, as the buffer and the listed runs hold it. -/
structure View (e : Env) (d : Bool) (g : Ghost) (features : Features) (cur : Store) : Prop where
  durability : features.durability = d
  within : ∀ x ∈ g.buf, e.Within x
  cur : g.lost = false → cur = answer (g.buf :: g.layers)
  shadow : d = true → ∀ k, find g.log k = none → find g.buf k = none

structure Session (e : Env) (g : Ghost) (w : World) : Prop where
  stored : Stored e g.content g.ns w.dir w.finished
  durable : ∀ d, e.Good d → Durable e d g w.wal w.spec
  live : w.live = true
  seq_lt : w.nextSeq < 2 ^ 64
  fresh : ∀ s, w.nextSeq ≤ s → look w.dir (.run s) = none ∧ look w.dir (.side s) = none
  known : ∀ r ∈ w.known, ∃ s, s < w.nextSeq ∧ RunOf g.content r s
  id_lt : ∀ r ∈ w.known, r.runId < w.nextRunId
  id_ne : w.known.Pairwise fun a b => a.runId ≠ b.runId
  name_ne : w.known.Pairwise fun a b => a.name ≠ b.name
  obsolete_lt : ∀ i ∈ w.obsolete, i < w.nextRunId
  runs_known : ∀ r ∈ w.runs, r ∈ w.known
  runs_nodup : w.runs.Nodup
  runs_live : ∀ r ∈ w.runs, r.runId ∉ w.obsolete
  held_known : ∀ h ∈ w.held, h.2 ∈ w.known
  buf : w.lock = none → g.buf = w.memtable.iter
  named : e.statFaults = false → w.lock = none → names w.runs = g.ns.map runFilename
  ns_lt : e.statFaults = false → ∀ s ∈ g.ns, s < w.nextSeq
  gone : e.statFaults = false → ∀ r ∈ w.known, r.runId ∈ w.obsolete → ∀ s ∈ g.ns, r.name ≠ runFilename s
  cached : e.small = true → Cached w.cache w.known
  lost : g.lost = true → w.opener ≠ none ∨ ∀ d, ¬ e.Good d
  view : ∀ d, e.Good d → View e d g w.features w.spec.cur
  wal : ∀ d, e.Good d → e.ioFaults = false → w.lock = none → w.walOpen = d

structure Crew (e : Env) (g : Ghost) (w : World) (A : Tid → Own) : Prop where
  shared : Shared w A
  modes : ∀ t, (A t).mode = .idle ∨ (A t).mode = .live
  threads : ∀ t, Local e g w t (A t)
  apart : ∀ t t' b b', t ≠ t' → (A t).build = some b → (A t').build = some b' → b.seq ≠ b'.seq
  told : ∀ d, e.Good d → e.sequential = true → Told e d w.spec fun t => (A t).phase

structure Running (e : Env) (g : Ghost) (w : World) (A : Tid → Own) : Prop where
  session : Session e g w
  crew : Crew e g w A

/-- No engine: at most a thread that is opening one, which knows the whole world. -/
structure Resting (e : Env) (g : Ghost) (w : World) (A : Tid → Own) : Prop where
  stored : Stored e g.content g.ns w.dir w.finished
  durable : ∀ d, e.Good d → Durable e d g w.wal w.spec
  shared : Shared w A
  told : ∀ d, e.Good d → e.sequential = true → Told e d w.spec fun t => (A t).phase
  live : w.live = false
  runs : w.runs = []
  held : w.held = []
  obsolete : w.obsolete = []
  modes : ∀ t, A t = Own.idle (A t).seen ∨
    A t = { Own.idle (A t).seen with mode := .opening w, opener := true }
  cur : ∀ d, e.Good d → w.spec.cur = w.spec.durable d
  features : ∀ d, e.Good d → w.spec.durable w.features.durability = w.spec.durable d

def Inv (e : Env) (w : World) (A : Tid → Own) : Prop :=
  ∃ g, Running e g w A ∨ Resting e g w A

end Annotations
end LsmDb
