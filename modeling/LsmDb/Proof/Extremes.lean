import LsmDb.Engine.Agreement
import LsmDb.Proof.Failures
import LsmDb.Proof.Sidecars

/-! Inputs at the edge of what the code accepts: a value the reader refuses, a run with more blocks than the block
cache can tell apart. The runs here are followed operation by operation, with an environment in which nothing fails. -/
namespace LsmDb
open Lib
set_option autoImplicit false

section Extremes
variable [Deps] {t : Tid} {w w' : World} {config : LsmConfig} {features : Features}

/-! ## Writing a run -/

theorem alone_writeChunksTo {name : Text} {file out : Bytes} {cs : List Chunk}
    (hfile : w.dir.get? name = some (.bin file)) (h : writeChunks file cs = .ok out) :
    alone t allOk (writeChunksTo name cs).run w = some (.ok (), { w with dir := w.dir.insert name (.bin out) }) := by
  induction cs generalizing w file with
  | nil =>
    obtain rfl : file = out := by simpa [writeChunks, pure, Except.pure] using h
    have hsame : w.dir.insert name (.bin file) = w.dir := by
      refine SortedMap.ext_get? fun x => ?_
      rw [SortedMap.get?_insert]
      split_ifs with hx
      · rw [hx, hfile]
      · rfl
    rw [hsame]
    rfl
  | cons c cs ih =>
    simp only [writeChunks, List.foldlM_cons, bind, Except.bind] at h
    cases hw : writeAll file c with
    | error err => simp [hw] at h
    | ok mid =>
      simp only [hw] at h
      obtain ⟨rfl, hlen⟩ := writeAll_ok hw
      have hfits : (Data.bin file).fits (.bin c.bytes) = true := by
        simpa [Data.fits] using hlen
      have hx : exec t (.append name (.bin c.bytes)) .ok w =
          some (.ok (), { w with dir := w.dir.insert name (.bin (file ++ c.bytes)) }) := by
        simp [exec, hfile, hfits, Data.append]
      simp only [writeChunksTo]
      rw [alone_bind_ok (alone_io_ok (x := perform (.append name (.bin c.bytes))) (alone_mk hx)),
        ih (w := { w with dir := w.dir.insert name (.bin (file ++ c.bytes)) }) (SortedMap.get?_insert_self ..) h]
      simp only [SortedMap.insert_insert]

theorem alone_pushEntries {name : Text} {file out : Bytes} {es : List Entry} {x x' : SsTableWriter}
    (hfile : w.dir.get? name = some (.bin file)) (h : pushAll x file es = .ok (x', out)) :
    alone t allOk (pushEntries name x es).run w = some (.ok x', { w with dir := w.dir.insert name (.bin out) }) := by
  induction es generalizing w file x with
  | nil =>
    obtain ⟨rfl, rfl⟩ : x = x' ∧ file = out := by simpa [pushAll] using h
    have hnone := @alone_writeChunksTo _ t _ _ _ _ [] hfile rfl
    simp only [pushEntries]
    have hdir := (Prod.mk.inj (Option.some.inj (hnone : some _ = some _))).2
    rw [← hdir]
    rfl
  | cons e es ih =>
    simp only [pushAll, bind, Except.bind] at h
    cases hp : x.push e.1 e.2 with
    | error err => simp [hp] at h
    | ok p =>
      obtain ⟨x₁, chunks⟩ := p
      simp only [hp] at h
      cases hw : writeChunks file chunks with
      | error err => simp [hw] at h
      | ok mid =>
        simp only [hw] at h
        have hlift : alone t allOk (lift (x.push e.1 e.2)).run w = some (.ok (x₁, chunks), w) := by
          rw [hp]
          rfl
        simp only [pushEntries]
        rw [alone_bind_ok hlift]
        dsimp only
        rw [alone_bind_ok (alone_writeChunksTo hfile hw),
          ih (w := { w with dir := w.dir.insert name (.bin mid) }) (SortedMap.get?_insert_self ..) h]
        simp only [SortedMap.insert_insert]

theorem alone_writeRunFile {name : Text} {file : Bytes} {es : List Entry} (h : writeRun es = .ok file) :
    alone t allOk (writeRunFile name es none).run w =
      some (.ok (), { w with dir := w.dir.insert name (.bin file) }) := by
  have hhead : writeAll [] SsTableWriter.header = .ok MAGIC := rfl
  simp only [writeRun, hhead, bind, Except.bind] at h
  cases hp : pushAll SsTableWriter.new MAGIC es with
  | error err => simp [hp] at h
  | ok p =>
    obtain ⟨x, mid⟩ := p
    simp only [hp] at h
    cases hf : x.finish with
    | error err => simp [hf] at h
    | ok chunks =>
      simp only [hf] at h
      have hcreate : exec t (.create name (.bin [])) .ok w =
          some (.ok (), { w with dir := w.dir.insert name (.bin []) }) := rfl
      have hmagic := @alone_writeChunksTo _ t { w with dir := w.dir.insert name (.bin []) } name [] MAGIC
        [SsTableWriter.header] (SortedMap.get?_insert_self ..) rfl
      simp only [SortedMap.insert_insert] at hmagic
      have hpush := alone_pushEntries (t := t) (w := { w with dir := w.dir.insert name (.bin MAGIC) })
        (SortedMap.get?_insert_self ..) hp
      simp only [SortedMap.insert_insert] at hpush
      have hlift : alone t allOk (lift x.finish).run { w with dir := w.dir.insert name (.bin mid) } =
          some (.ok chunks, { w with dir := w.dir.insert name (.bin mid) }) := by
        rw [hf]
        rfl
      have hrest := alone_writeChunksTo (t := t) (w := { w with dir := w.dir.insert name (.bin mid) })
        (SortedMap.get?_insert_self ..) h
      simp only [SortedMap.insert_insert] at hrest
      unfold writeRunFile
      rw [alone_bind_ok (alone_io_ok (x := perform (.create name (.bin []))) (alone_mk hcreate)),
        alone_bind_ok hmagic, alone_bind_ok hpush]
      dsimp only
      rw [alone_bind_ok hlift, alone_bind_ok hrest]
      rfl

/-- A run's sidecar, if it has a filter. -/
def sidecarWorld (w : World) (name : Text) : Option RunFilter → World
  | none => w
  | some f =>
    match f.sidecarBytes with
    | .ok bytes => { w with
        dir := (w.dir.erase (tmpPath (sidecarPath name))).insert (sidecarPath name) (.bin bytes)
        finished := Function.update w.finished (sidecarPath name) (some bytes) }
    | .error _ => w

/-- A filter that fits into a file. -/
def Storable (filter : Option RunFilter) : Prop :=
  ∀ f, filter = some f → ∃ bytes, f.sidecarBytes = .ok bytes ∧ bytes.length ≤ MAX_FILE_LEN

theorem alone_writeSidecar {f : RunFilter} {bytes : Bytes} (h : f.sidecarBytes = .ok bytes)
    (hlen : bytes.length ≤ MAX_FILE_LEN) (s : ℕ) :
    alone t allOk (writeSidecar f (runFilename s)).run w =
      some (.ok (), sidecarWorld w (runFilename s) (some f)) := by
  have hname : sidecarPath (runFilename s) ≠ MANIFEST := by
    have hne : (Name.side s).text ≠ Name.manifest.text := by simp
    exact hne
  let path := sidecarPath (runFilename s)
  let w₁ : World := { w with dir := w.dir.insert (tmpPath path) (.bin []) }
  let w₂ : World := { w with dir := w.dir.insert (tmpPath path) (.bin bytes) }
  have hcreate : exec t (.create (tmpPath path) (.bin [])) .ok w = some (.ok (), w₁) := rfl
  have happend : exec t (.append (tmpPath path) (.bin bytes)) .ok w₁ = some (.ok (), w₂) := by
    simp [exec, w₁, w₂, Data.fits, Data.append, hlen]
  have hrename : exec t (.rename (tmpPath path) path) .ok w₂ =
      some (.ok (), sidecarWorld w (runFilename s) (some f)) := by
    simp [exec, w₂, path, hname, sidecarWorld, h]
  unfold writeSidecar
  rw [h]
  refine (alone_bind_ok (show alone t allOk (lift (.ok bytes) : M Bytes).run w = some (.ok bytes, w) from rfl) _).trans ?_
  rw [alone_bind_ok (alone_io_ok (x := perform (.create (tmpPath path) (.bin []))) (alone_mk hcreate)),
    alone_bind_ok (alone_io_ok (x := perform (.append (tmpPath path) (.bin bytes))) (alone_mk happend))]
  exact alone_io_ok (x := perform (.rename (tmpPath path) path)) (alone_mk hrename)

/-- The world once a run is installed and open. -/
def builtWorld (w : World) (table : SsTable) : World :=
  { sidecarWorld { w with
      dir := (w.dir.erase (tmpPath table.name)).insert table.name (.bin table.file)
      finished := Function.update w.finished table.name (some table.file) } table.name table.filter with
    nextRunId := w.nextRunId + 1
    known := table :: w.known }

/-- Installing and reopening a run. -/
theorem alone_buildRun {context : String} {s : ℕ} {file : Bytes} {es : List Entry} {index : List BlockHandle}
    {count : ℕ} {filter : Option RunFilter} (hs : Storable filter)
    (h : writeRun es = .ok file) (hindex : SsTable.readIndex file.length (preadExact file) = .ok (index, count)) :
    alone t allOk (buildRun context (runFilename s) es none filter).run w =
      some (.ok ⟨file, runFilename s, index, count, filter, w.nextRunId⟩,
        builtWorld w ⟨file, runFilename s, index, count, filter, w.nextRunId⟩) := by
  have hmanifest : runFilename s ≠ MANIFEST := by
    have hne : (Name.run s).text ≠ Name.manifest.text := by simp
    exact hne
  let w₁ : World := { w with dir := w.dir.insert (tmpPath (runFilename s)) (.bin file) }
  let w₂ : World := { w with
    dir := (w.dir.erase (tmpPath (runFilename s))).insert (runFilename s) (.bin file)
    finished := Function.update w.finished (runFilename s) (some file) }
  let w₃ : World := sidecarWorld w₂ (runFilename s) filter
  have hrename : exec t (.rename (tmpPath (runFilename s)) (runFilename s)) .ok w₁ = some (.ok (), w₂) := by
    simp [exec, w₁, w₂, hmanifest]
  have hfile : w₃.dir.get? (runFilename s) = some (.bin file) := by
    have hself : w₂.dir.get? (runFilename s) = some (.bin file) := SortedMap.get?_insert_self ..
    simp only [w₃, sidecarWorld]
    split
    · exact hself
    · split
      · have hrun : (Name.run s).text ≠ (Name.side s).text := by simp
        have htmp : (Name.run s).text ≠ (Name.sideTmp s).text := by simp
        exact (SortedMap.get?_insert_ne _ _ hrun).trans ((SortedMap.get?_erase_ne _ htmp).trans hself)
      · exact hself
  have hid : w₃.nextRunId = w.nextRunId ∧ w₃.known = w.known := by
    simp only [w₃, sidecarWorld]
    split
    · exact ⟨rfl, rfl⟩
    · split
      · exact ⟨rfl, rfl⟩
      · exact ⟨rfl, rfl⟩
  have hopen : exec t (.openRun (runFilename s)) .ok w₃ = some (.ok ⟨file, index, count⟩, w₃) := by
    simp [exec, hfile, openFile, hindex]
  have hreg : exec t (.register (runFilename s) ⟨file, index, count⟩ filter) .ok w₃ =
      some (⟨file, runFilename s, index, count, filter, w.nextRunId⟩,
        builtWorld w ⟨file, runFilename s, index, count, filter, w.nextRunId⟩) := by
    rw [← hid.1]
    simp only [exec, builtWorld]
    rw [hid.1, hid.2]
  have htail : alone t allOk (do
      let opened ← ExceptT.mk (perform (.openRun (runFilename s)))
      perform (.register (runFilename s) opened filter) : M SsTable).run w₃ =
      some (.ok ⟨file, runFilename s, index, count, filter, w.nextRunId⟩,
        builtWorld w ⟨file, runFilename s, index, count, filter, w.nextRunId⟩) := by
    rw [alone_bind_ok (x := ExceptT.mk (perform (.openRun (runFilename s)))) (alone_mk hopen)]
    exact alone_lift hreg pure
  unfold buildRun
  rw [alone_bind_ok (alone_writeRunFile h),
    alone_bind_ok (alone_io_ok (x := perform (.rename (tmpPath (runFilename s)) (runFilename s))) (alone_mk hrename))]
  dsimp only
  cases filter with
  | none => exact htail
  | some f =>
    obtain ⟨bytes, hbytes, hlen⟩ := hs f rfl
    exact (alone_bind_ok (alone_writeSidecar hbytes hlen s) _).trans htail

theorem alone_storeManifest_client (ht : t ≠ compactorTid) (q : ℕ) (l : List Text) :
    alone t allOk (storeManifest q l).run w = some (.ok (), { w with
      dir := (w.dir.erase MANIFEST_TMP).insert MANIFEST (.text (manifestText q l))
      spec := { w.spec with flushed := w.spec.cur } }) := by
  rw [alone_storeManifest, if_neg ht]

theorem filter_off (n : ℕ) (keys : List Bytes) : ((builder false n).addAll keys).finish = none := by
  have hsame : ∀ keys : List Bytes, (⟨none⟩ : RunFilterBuilder).addAll keys = ⟨none⟩ := by
    intro keys
    induction keys with
    | nil => rfl
    | cons key keys ih => exact ih
  exact congrArg RunFilterBuilder.finish (hsame keys)

/-- The world of a flush that has the memtable and its number. -/
def takenWorld (w : World) : World :=
  { w with
    memtable := w.memtable.take.2
    nextSeq := (w.nextSeq + 1) % 2 ^ 64 }

/-- The world after a flush, before the log is rotated. -/
def flushedWorld (w : World) (table : SsTable) : World :=
  let w := builtWorld (takenWorld w) table
  { w with
    runs := table :: w.runs
    dir := (w.dir.erase MANIFEST_TMP).insert MANIFEST (.text (manifestText w.nextSeq (names (table :: w.runs))))
    spec := { w.spec with flushed := w.spec.cur } }

theorem alone_flushLocked {file : Bytes} {index : List BlockHandle} {count : ℕ} {filter : Option RunFilter}
    (ht : t ≠ compactorTid)
    (hf : ((builder features.bloom w.memtable.iter.length).addAll (w.memtable.iter.map Prod.fst)).finish = filter)
    (hs : Storable filter) (h : writeRun w.memtable.iter = .ok file)
    (hindex : SsTable.readIndex file.length (preadExact file) = .ok (index, count))
    (hrot : alone t allOk (rotate features).run
      (flushedWorld w ⟨file, runFilename w.nextSeq, index, count, filter, w.nextRunId⟩) = some (.ok (), w'))
    (hfew : w.runs.length + 1 < config.compactionTrigger) :
    alone t allOk (flushLocked config features).run w = some (.ok (), w') := by
  let table : SsTable := ⟨file, runFilename w.nextSeq, index, count, filter, w.nextRunId⟩
  let w₁ : World := { w with memtable := w.memtable.take.2 }
  have htake : exec t .take .ok w = some (w.memtable.iter, w₁) := rfl
  have hfetch : exec t .fetchAdd .ok w₁ = some (w.nextSeq, takenWorld w) := rfl
  have hbuild : alone t allOk (buildRun "install flushed run" (runFilename w.nextSeq) w.memtable.iter none filter).run
      (takenWorld w) = some (.ok table, builtWorld (takenWorld w) table) := alone_buildRun hs h hindex
  have hruns : (builtWorld (takenWorld w) table).runs = w.runs := by
    simp only [builtWorld, sidecarWorld]
    split
    · rfl
    · split
      · rfl
      · rfl
  unfold flushLocked
  rw [alone_lift htake, alone_lift hfetch]
  dsimp only
  rw [hf, alone_bind_ok hbuild, alone_lift (show exec t .inner .ok _ = some ((_, _, _), _) from rfl),
    alone_lift (show exec t .loadSeq .ok _ = some (_, _) from rfl), alone_bind_ok (alone_storeManifest_client ht _ _),
    alone_lift (show exec t (.install [] _) .ok _ = some ((), _) from rfl)]
  refine (alone_bind_ok hrot _).trans ?_
  have hlen : ¬ config.compactionTrigger ≤ w.runs.length + 1 := by omega
  simp only [List.length_cons, hruns]
  rw [if_neg hlen]
  rfl

/-- The world once writes are applied. -/
def appliedWorld (w : World) (ops : List Entry) : World :=
  { w with
    memtable := w.memtable.applyAll ops
    spec := { w.spec with cur := w.spec.cur.apply ops } }

/-- A write that fills the memtable, in a build without the log. -/
theorem alone_writeOps_full {ops : List Entry} {file : Bytes} {index : List BlockHandle} {count : ℕ}
    {filter : Option RunFilter} (hlock : w.lock = none) (ht : t ≠ compactorTid) (hd : features.durability = false)
    (hf : ((builder features.bloom (w.memtable.applyAll ops).iter.length).addAll
      ((w.memtable.applyAll ops).iter.map Prod.fst)).finish = filter) (hs : Storable filter)
    (hfull : config.memtableCapacity ≤ (w.memtable.applyAll ops).approxSize)
    (hne : (w.memtable.applyAll ops).isEmpty = false) (h : writeRun (w.memtable.applyAll ops).iter = .ok file)
    (hindex : SsTable.readIndex file.length (preadExact file) = .ok (index, count))
    (hfew : w.runs.length + 1 < config.compactionTrigger) :
    alone t allOk (writeOps config features ops).run w = some (.ok (), { flushedWorld
      (appliedWorld { w with lock := some t } ops) ⟨file, runFilename w.nextSeq, index, count, filter, w.nextRunId⟩ with
      lock := none }) := by
  let w₁ : World := { w with lock := some t }
  have hlog : alone t allOk (logOps features ops).run w₁ = some (.ok (), w₁) := by
    rw [logOps, hd]
    rfl
  have hrot : ∀ v, alone t allOk (rotate features).run v = some (.ok (), v) := fun v => by
    rw [rotate, hd]
    rfl
  have hflush := @alone_flushLocked _ t (appliedWorld w₁ ops) _ config features _ _ _ _ ht hf hs h hindex (hrot _) hfew
  have hbody : alone t allOk (do logOps features ops; perform (.apply ops); maybeFlush config features : M Unit).run w₁ =
      some (.ok (), flushedWorld (appliedWorld w₁ ops)
        ⟨file, runFilename w.nextSeq, index, count, filter, w.nextRunId⟩) := by
    rw [alone_bind_ok hlog, alone_lift (show exec t (.apply ops) .ok w₁ = some ((), appliedWorld w₁ ops) from rfl)]
    unfold maybeFlush
    rw [alone_lift (show exec t .inner .ok (appliedWorld w₁ ops) =
      some ((w.memtable.applyAll ops, w.runs, w.walOpen), appliedWorld w₁ ops) from rfl)]
    simp only [hne, hfull, Bool.not_false, decide_true, Bool.and_true, if_true]
    exact hflush
  exact alone_withGuard hlock hbody

/-! ## Reading one run -/

/-- An engine over one run, with nothing in its memtable. -/
structure OneRun (w : World) (table : SsTable) : Prop where
  lock : w.lock = none
  memtable : w.memtable.iter = []
  runs : w.runs = [table]
  obsolete : w.obsolete = []
  held : w.held = []

/-- The run has no filter. -/
structure Single (w : World) (table : SsTable) : Prop extends OneRun w table where
  filter : table.filter = none

/-- An engine that is up, with nobody around. -/
structure AtRest (w : World) : Prop where
  ready : w.ready = true
  idle : w.active = []

theorem AtRest.canStart_get (h : AtRest w) (key : Bytes) : canStart w 1 (.get key) = true := by
  simp [canStart, h.ready, h.idle, compactorTid]

/-- A reader's world between its snapshot and its return. -/
def readerWorld (w : World) (t : Tid) : World :=
  { w with spec := { w.spec with seen := Function.update w.spec.seen t ⟨w.spec.cur, w.memtable, w.runs⟩ } }

theorem alone_dropRuns_one (ho : w.obsolete = []) (table : SsTable) :
    alone t allOk (dropRuns [table]) { w with held := [(t, table)] } = some ((), { w with held := [] }) := by
  have hx : exec t (.release table) .ok { w with held := [(t, table)] } = some (false, { w with held := [] }) := by
    simp [exec, isObsolete, ho, dropHandle]
  simp only [dropRuns]
  rw [alone_perform hx]
  rfl

theorem alone_get_single {table : SsTable} {key : Bytes} {r : Except Error (Option Record)} {cache : BlockCache}
    (h : Single w table)
    (hlook : alone t allOk (lookup table key).run { readerWorld w t with held := [(t, table)] } =
      some (r, { readerWorld w t with held := [(t, table)], cache := cache })) :
    alone t allOk (get key).run w = some (r.map fun x => x.bind Record.live, { readerWorld w t with cache := cache }) := by
  have hmiss : w.memtable.get key = none := by rw [MemTable.get_eq_find, h.memtable]; rfl
  have hx : exec t (.snapshot fun m _ => (m.get key).isNone) .ok w =
      some ((w.memtable, [table]), { readerWorld w t with held := [(t, table)] }) := by
    simp [exec, readerWorld, h.lock, h.held, h.runs, hmiss]
  have hpass : table.mightContain key = true := by
    unfold SsTable.mightContain
    rw [h.filter]
    rfl
  have hsearch : alone t allOk (searchRuns key [table]).run { readerWorld w t with held := [(t, table)] } =
      some (r.map fun x => x.bind Record.live, { readerWorld w t with held := [(t, table)], cache := cache }) := by
    simp only [searchRuns, hpass, Bool.true_eq_false, if_false]
    cases r with
    | error err => exact alone_bind_error hlook _
    | ok x =>
      rw [alone_bind_ok hlook]
      rcases x with _ | (v | _) <;> rfl
  have hdrop : alone t allOk (dropRuns [table]) { readerWorld w t with held := [(t, table)], cache := cache } =
      some ((), { readerWorld w t with held := [], cache := cache }) :=
    alone_dropRuns_one (w := { readerWorld w t with cache := cache }) h.obsolete table
  rw [get_run, alone_perform hx, getFrom]
  simp only [hmiss]
  rw [alone_bind hsearch, alone_bind hdrop]
  have hheld : ({ readerWorld w t with held := [], cache := cache } : World) = { readerWorld w t with cache := cache } := by
    rw [← h.held]
    rfl
  rw [← hheld]
  rfl

theorem alone_cachedBlock_hit {table : SsTable} {i : ℕ} {block : DecodedBlock} {cache : BlockCache}
    (h : w.cache.get (cacheKey table i) = (some block, cache)) :
    alone t allOk (cachedBlock table i).run w = some (.ok block, { w with cache := cache }) := by
  have hx : exec t (.cacheGet (cacheKey table i)) .ok w = some (some block, { w with cache := cache }) := by
    simp only [exec, h]
  unfold cachedBlock
  dsimp only
  rw [alone_lift hx]
  rfl

theorem alone_cachedBlock_miss {table : SsTable} {i : ℕ} {block : DecodedBlock} {cache : BlockCache}
    (h : w.cache.get (cacheKey table i) = (none, cache)) (hb : table.readBlock i = .ok block) :
    alone t allOk (cachedBlock table i).run w =
      some (.ok block, { w with cache := cache.insert (cacheKey table i) block }) := by
  have hx : exec t (.cacheGet (cacheKey table i)) .ok w = some (none, { w with cache := cache }) := by
    simp only [exec, h]
  have hr : exec t (.readBlock table i) .ok { w with cache := cache } = some (.ok block, { w with cache := cache }) := by
    simp only [exec, hb]
  unfold cachedBlock
  dsimp only
  rw [alone_lift hx]
  dsimp only
  rw [alone_bind_ok (x := ExceptT.mk (perform (.readBlock table i))) (alone_mk hr)]
  rfl

theorem alone_cachedBlock_error {table : SsTable} {i : ℕ} {err : Error} {cache : BlockCache}
    (h : w.cache.get (cacheKey table i) = (none, cache)) (hb : table.readBlock i = .error err) :
    alone t allOk (cachedBlock table i).run w = some (.error err, { w with cache := cache }) := by
  have hx : exec t (.cacheGet (cacheKey table i)) .ok w = some (none, { w with cache := cache }) := by
    simp only [exec, h]
  have hr : exec t (.readBlock table i) .ok { w with cache := cache } =
      some (.error err, { w with cache := cache }) := by
    simp only [exec, hb]
  unfold cachedBlock
  dsimp only
  rw [alone_lift hx]
  dsimp only
  exact alone_bind_error (x := ExceptT.mk (perform (.readBlock table i))) (alone_mk hr) _

theorem alone_lookup_of {table : SsTable} {key : Bytes} {r : Except Error DecodedBlock}
    (hi : table.candidate key < table.index.length)
    (h : alone t allOk (cachedBlock table (table.candidate key)).run w = some (r, w')) :
    alone t allOk (lookup table key).run w = some (r.map fun block => find block key, w') := by
  have hnot : ¬ table.index.length ≤ table.candidate key := by omega
  simp only [lookup, if_neg hnot]
  cases r with
  | error err => exact alone_bind_error h _
  | ok block =>
    rw [alone_bind_ok h]
    rfl

omit [Deps] in
theorem cache_get_new (n : ℕ) (key : BlockKey) : ((BlockCache.new n).get key).1 = none := by
  unfold BlockCache.get
  split_ifs
  · split
    · rename_i s hs
      have hshard : s = Shard.withSlots s.slots.length := by
        have hmem := List.mem_of_getElem? hs
        simp only [BlockCache.new, List.mem_replicate] at hmem
        rw [hmem.2]
        simp [Shard.withSlots]
      rw [hshard]
      rfl
    · rfl
  · rfl

/-! ## A first write, flushed at once -/

def eager : LsmConfig := LsmConfig.default.withMemtableCapacity 0

/-- The directory after a first flush. -/
def firstDir (file : Bytes) : SortedMap Text Data :=
  (((SortedMap.empty.erase (tmpPath (runFilename 0))).insert (runFilename 0) (.bin file)).erase MANIFEST_TMP).insert
    MANIFEST (.text (manifestText 1 [runFilename 0]))

/-- An engine with nothing cached yet over the first run it opened, which has a block for each entry. -/
structure Cold (w : World) (es : List Entry) (table : SsTable) : Prop where
  single : Single w table
  rest : AtRest w
  holds : TableOf table es (es.map fun x => [x])
  id : table.runId = 0
  cache : w.cache = BlockCache.new LsmConfig.default.blockCacheCapacity

/-- What a first write leaves when it is flushed at once. -/
structure Flushed (w : World) (es : List Entry) (table : SsTable) : Prop extends Cold w es table where
  wal : w.wal = none
  dir : w.dir = firstDir table.file
  cur : w.spec.cur = Store.empty.apply es
  flushed : w.spec.flushed = Store.empty.apply es

/-- An engine that was just opened over nothing. -/
structure Fresh (w : World) (b : Bool) : Prop where
  lock : w.lock = none
  memtable : w.memtable = MemTable.new
  runs : w.runs = []
  nextSeq : w.nextSeq = 0
  nextRunId : w.nextRunId = 0
  dir : w.dir = SortedMap.empty
  wal : w.wal = none
  config : w.config = eager
  features : w.features = ⟨false, b⟩
  rest : AtRest w
  obsolete : w.obsolete = []
  held : w.held = []
  cache : w.cache = BlockCache.new LsmConfig.default.blockCacheCapacity
  cur : w.spec.cur = Store.empty

theorem opened_fresh (b : Bool) : ∃ w, callAlone 1 allOk (.openWith eager ⟨false, b⟩) World.initial =
    some (.unit (.ok ()), w) ∧ Fresh w b :=
  ⟨_, rfl, rfl, rfl, rfl, rfl, rfl, rfl, rfl, rfl, rfl, ⟨rfl, rfl⟩, rfl, rfl, rfl, rfl⟩

/-- Entries that each fill a block, and together fit into a file. -/
structure Bulky (es : List Entry) : Prop where
  nonempty : es ≠ []
  ascending : Ascending es
  flushable : ∀ x ∈ es, x.Flushable
  big : ∀ x ∈ es, TARGET_BLOCK_SIZE ≤ (encodeEntry x).length
  room : runRoom es ≤ MAX_FILE_LEN

omit [Deps] in
theorem iter_applyAll_ascending {es : List Entry} (h : Ascending es) : (MemTable.new.applyAll es).iter = es := by
  rw [MemTable.iter_applyAll, MemTable.iter_new, insertAll_of_ascending (by simpa using h), List.nil_append]

omit [Deps] in
theorem Bulky.isEmpty_applyAll {es : List Entry} (h : Bulky es) : (MemTable.new.applyAll es).isEmpty = false := by
  rw [Bool.eq_false_iff, ne_eq, MemTable.isEmpty_iff, iter_applyAll_ascending h.ascending]
  exact h.nonempty

/-- The run they are written to. -/
theorem Bulky.file {es : List Entry} (h : Bulky es) :
    ∃ file, writeRun es = .ok file ∧ RunLayout es file (es.map fun x => [x]) ∧
      SsTable.readIndex file.length (preadExact file) = .ok (handlesFrom 8 (es.map fun x => [x]), es.length) := by
  obtain ⟨file, hfile⟩ := (writeRun_cases h.flushable).2 h.room
  have hl := writeRun_singletons hfile h.big
  refine ⟨file, hfile, hl, hl.readIndex_ok h.ascending fun x hx => ?_⟩
  obtain ⟨y, hy, hkey⟩ := hl.exists_entry hx
  rw [hkey]
  exact (h.flushable y hy).1

/-- The filter a flush of them gives their run. -/
def filterOf (b : Bool) (es : List Entry) : Option RunFilter :=
  ((builder b es.length).addAll (es.map Prod.fst)).finish

/-- The world after a first write of such entries, which is flushed at once. -/
def wroteWorld (w : World) (batch : Batch) (table : SsTable) : World :=
  ended { flushedWorld (appliedWorld { started w 1 (.write batch) with lock := some 1 } batch.entries) table with
    lock := none } 1 (.write batch) (.unit (.ok ()))

theorem Bulky.wrote {batch : Batch} (h : Bulky batch.entries) {b : Bool} (hs : Storable (filterOf b batch.entries)) :
    ∃ w₁ table, callAlone 1 allOk (.openWith eager ⟨false, b⟩) World.initial = some (.unit (.ok ()), w₁) ∧ Fresh w₁ b ∧
      TableOf table batch.entries (batch.entries.map fun x => [x]) ∧ table.name = runFilename 0 ∧ table.runId = 0 ∧
      table.filter = filterOf b batch.entries ∧
      callAlone 1 allOk (.write batch) w₁ = some (.unit (.ok ()), wroteWorld w₁ batch table) := by
  obtain ⟨w₁, hopen, hw⟩ := opened_fresh b
  obtain ⟨file, hfile, hl, hindex⟩ := h.file
  have hiter := iter_applyAll_ascending h.ascending
  have hmem : (started w₁ 1 (.write batch)).memtable = MemTable.new := hw.memtable
  have hwrite := @alone_writeOps_full _ 1 (started w₁ 1 (.write batch)) eager ⟨false, b⟩ batch.entries file _ _
    (filterOf b batch.entries) hw.lock (by decide) rfl (by rw [hmem, hiter]; rfl) hs (by show 0 ≤ _; omega)
    (by rw [hmem]; exact h.isEmpty_applyAll) (by rw [hmem, hiter]; exact hfile) hindex
    (by show w₁.runs.length + 1 < 4; rw [hw.runs, List.length_nil]; omega)
  have hcan : canStart w₁ 1 (.write batch) = true := by simp [canStart, hw.rest.ready, hw.rest.idle, compactorTid]
  refine ⟨w₁, ⟨file, runFilename w₁.nextSeq, handlesFrom 8 (batch.entries.map fun x => [x]), batch.entries.length,
    filterOf b batch.entries, w₁.nextRunId⟩, hopen, hw, ⟨hl, h.ascending, rfl, rfl⟩, by rw [hw.nextSeq], hw.nextRunId, rfl,
    callAlone_eq hcan ?_⟩
  rw [hw.config, hw.features]
  exact alone_unit hwrite

/-- Whatever filter the run has, it is the only one. -/
theorem Fresh.wrote {b : Bool} (hw : Fresh w b) (batch : Batch) (table : SsTable) :
    OneRun (wroteWorld w batch table) table ∧ AtRest (wroteWorld w batch table) ∧
      (wroteWorld w batch table).cache = BlockCache.new LsmConfig.default.blockCacheCapacity := by
  have hidle : (1 :: w.active).erase 1 = [] := by
    rw [hw.rest.idle]
    rfl
  have hruns : (table :: w.runs : List SsTable) = [table] := by rw [hw.runs]
  obtain ⟨file, name, index, count, filter, id⟩ := table
  cases filter with
  | none => exact ⟨⟨rfl, rfl, hruns, hw.obsolete, hw.held⟩, ⟨hw.rest.ready, hidle⟩, hw.cache⟩
  | some f =>
    simp only [wroteWorld, flushedWorld, builtWorld, sidecarWorld]
    split
    · exact ⟨⟨rfl, rfl, hruns, hw.obsolete, hw.held⟩, ⟨hw.rest.ready, hidle⟩, hw.cache⟩
    · exact ⟨⟨rfl, rfl, hruns, hw.obsolete, hw.held⟩, ⟨hw.rest.ready, hidle⟩, hw.cache⟩

theorem filterOf_off (es : List Entry) : filterOf false es = none := filter_off es.length (es.map Prod.fst)

theorem Bulky.written {batch : Batch} (h : Bulky batch.entries) :
    ∃ w₁ w₂ table, callAlone 1 allOk (.openWith eager ⟨false, false⟩) World.initial = some (.unit (.ok ()), w₁) ∧
      callAlone 1 allOk (.write batch) w₁ = some (.unit (.ok ()), w₂) ∧ Flushed w₂ batch.entries table := by
  obtain ⟨w₁, table, hopen, hw, htable, hname, hid, hfilter, hwrite⟩ :=
    h.wrote (b := false) (by rw [filterOf_off]; simp [Storable])
  rw [filterOf_off] at hfilter
  obtain ⟨hone, hrest, hcache⟩ := hw.wrote batch table
  refine ⟨w₁, _, table, hopen, hwrite, ⟨{ hone with filter := hfilter }, hrest, htable, hid, hcache⟩, ?_, ?_, ?_, ?_⟩
  all_goals
    obtain ⟨file, name, index, count, filter, id⟩ := table
    obtain rfl : filter = none := hfilter
    obtain rfl : name = runFilename 0 := hname
  · exact hw.wal
  · have hruns : (⟨file, runFilename 0, index, count, none, id⟩ :: w₁.runs : List SsTable) =
        [⟨file, runFilename 0, index, count, none, id⟩] := by rw [hw.runs]
    show (((w₁.dir.erase (tmpPath (runFilename 0))).insert (runFilename 0) (.bin file)).erase
      MANIFEST_TMP).insert MANIFEST (.text (manifestText ((w₁.nextSeq + 1) % 2 ^ 64)
        (names (⟨file, runFilename 0, index, count, none, id⟩ :: w₁.runs)))) = _
    rw [hruns, hw.dir, hw.nextSeq]
    rfl
  · show w₁.spec.cur.apply _ = _
    rw [hw.cur]
  · show w₁.spec.cur.apply _ = _
    rw [hw.cur]

/-! ## A value the reader refuses -/

/-- The engine a build with neither log nor filters starts over the directory of a first flush. -/
def reopenedWorld (w : World) (config : LsmConfig) (table : SsTable) : World :=
  { w with
    nextRunId := w.nextRunId + 1
    known := table :: w.known
    live := true
    config := config
    features := ⟨false, false⟩
    memtable := MemTable.new
    runs := [table]
    walOpen := false
    lock := none
    nextSeq := 1
    cache := BlockCache.new config.blockCacheCapacity }

theorem alone_reopen {file : Bytes} {index : List BlockHandle} {count : ℕ} (hdir : w.dir = firstDir file)
    (hwal : w.wal = none) (hindex : SsTable.readIndex file.length (preadExact file) = .ok (index, count)) :
    alone t allOk (openWith config ⟨false, false⟩).run w =
      some (.ok (), reopenedWorld w config ⟨file, runFilename 0, index, count, none, w.nextRunId⟩) := by
  have hmanifest : w.dir.get? MANIFEST = some (.text (manifestText 1 [runFilename 0])) := by
    rw [hdir]
    exact SortedMap.get?_insert_self ..
  have hrun : w.dir.get? (runFilename 0) = some (.bin file) := by
    rw [hdir]
    rfl
  have hkeys : w.listing = [MANIFEST, runFilename 0] := by
    unfold World.listing
    rw [hdir, hwal]
    rfl
  let table : SsTable := ⟨file, runFilename 0, index, count, none, w.nextRunId⟩
  let w₁ : World := { w with nextRunId := w.nextRunId + 1, known := table :: w.known }
  have hload : alone t allOk loadManifest.run w = some (.ok (some ⟨1, [runFilename 0]⟩), w) :=
    alone_loadManifest (by norm_num) (by simp) hmanifest
  have hopen : alone t allOk (openRuns ⟨false, false⟩ [runFilename 0]).run w = some (.ok [table], w₁) := by
    have hexists : exec t (.exists (runFilename 0)) .ok w = some (true, w) := by simp [exec, hrun]
    have hfile : exec t (.openRun (runFilename 0)) .ok w = some (.ok ⟨file, index, count⟩, w) := by
      simp [exec, hrun, openFile, hindex]
    unfold openRuns
    rw [alone_lift hexists, if_pos rfl, alone_bind_ok (x := ExceptT.mk (perform (.openRun (runFilename 0)))) (alone_mk hfile)]
    rfl
  have hlist : exec t .readDir .ok w₁ = some (.ok ([MANIFEST, runFilename 0], false), w₁) := by
    rw [← hkeys]
    rfl
  have hreclaim : alone t allOk (reclaim [runFilename 0] 1 [MANIFEST, runFilename 0]).run w₁ = some (.ok 1, w₁) := rfl
  unfold openWith
  rw [alone_bind_ok (alone_io_ok (x := perform .createDir) (alone_mk (show exec t .createDir .ok w = some (.ok (), w) from
    rfl))), alone_bind_ok hload]
  dsimp only
  rw [alone_bind_ok hopen, alone_bind_ok (alone_io_ok (x := perform .readDir) (alone_mk hlist))]
  dsimp only
  rw [alone_bind_ok hreclaim]
  rfl

theorem Flushed.reopened {es : List Entry} {table : SsTable} (h : Flushed w es table)
    (hkeys : ∀ x ∈ es, x.1.length ≤ MAX_RECORD_LEN) :
    ∃ w' table', callAlone 1 allOk (.openWith eager ⟨false, false⟩) (crashed w []) = some (.unit (.ok ()), w') ∧
      Cold w' es table' := by
  have hl := h.holds.layout
  have hidx : ∀ x ∈ handlesFrom 8 (es.map fun x => [x]), x.lastKey.length ≤ MAX_RECORD_LEN := by
    intro x hx
    obtain ⟨y, hy, hkey⟩ := hl.exists_entry hx
    rw [hkey]
    exact hkeys y hy
  have hopen := @alone_reopen _ 1 (started (crashed w []) 1 (.openWith eager ⟨false, false⟩)) eager table.file _ _ h.dir h.wal
    (hl.readIndex_ok h.holds.ascending hidx)
  refine ⟨_, ⟨table.file, runFilename 0, handlesFrom 8 (es.map fun x => [x]), es.length, none, 0⟩,
    callAlone_eq rfl (alone_unit hopen), ⟨⟨rfl, rfl, rfl, rfl, rfl⟩, rfl⟩, ⟨rfl, rfl⟩,
    ⟨hl, h.holds.ascending, rfl, rfl⟩, rfl, rfl⟩

/-- A run of one entry that the reader refuses: every lookup up to its key fails. -/
theorem Single.get_refused {x : Entry} {key : Bytes} {table : SsTable} (hkey : key ≤ x.1) (h : Single w table) (hrest : AtRest w)
    (htab : TableOf table [x] [[x]]) (hx : ¬ x.Sized)
    (hcache : w.cache = BlockCache.new LsmConfig.default.blockCacheCapacity) :
    ∃ err w', callAlone 1 allOk (.get key) w = some (.value (.error err), w') := by
  have hcand : table.candidate key = 0 := by
    rw [htab.candidate_eq]
    simp [lastKey, not_lt.mpr hkey]
  have hlen : table.candidate key < table.index.length := by
    rw [hcand, htab.index_length]
    simp
  obtain ⟨err, herr⟩ : ∃ err, table.readBlock (table.candidate key) = .error err := by
    rw [hcand]
    rcases htab.readBlock_cases (i := 0) (b := [x]) rfl with ⟨hs, _⟩ | ⟨_, herr⟩
    · exact absurd (hs x (by simp)) hx
    · exact herr
  have hfst : (w.cache.get (cacheKey table (table.candidate key))).1 = none := by
    rw [hcache]
    exact cache_get_new _ _
  have hmiss : w.cache.get (cacheKey table (table.candidate key)) =
      (none, (w.cache.get (cacheKey table (table.candidate key))).2) := by
    rw [← hfst]
  have hstarted : Single (started w 1 (.get key)) table := { h with }
  have hlook := alone_lookup_of (t := 1) (w := { readerWorld (started w 1 (.get key)) 1 with held := [(1, table)] }) hlen
    (alone_cachedBlock_error hmiss herr)
  exact ⟨err, _, callAlone_eq (hrest.canStart_get key) (alone_bind (alone_get_single hstarted hlook) _)⟩

/-- One put of a value of `n` bytes. -/
def longPut (n : ℕ) : Batch := ⟨[([1], .put (List.replicate n 0))]⟩

omit [Deps] in
theorem bulky_longPut {n : ℕ} (hlow : 2 ^ 30 < n) (hhigh : n ≤ 2 ^ 31) : Bulky (longPut n).entries := by
  have hentries : (longPut n).entries = [([1], .value (List.replicate n 0))] := rfl
  have hlen : (encodeEntry ([1], .value (List.replicate n 0))).length = 9 + 1 + n := by
    rw [encodeEntry_length]
    simp [Record.valueLen]
  rw [hentries]
  refine ⟨by simp, by simp [Ascending], fun x hx => ?_, fun x hx => ?_, ?_⟩
  · rw [List.mem_singleton.mp hx]
    refine ⟨show 1 ≤ MAX_RECORD_LEN by decide, ?_⟩
    show (List.replicate n _).length ≤ 2 ^ 31
    rwa [List.length_replicate]
  · rw [List.mem_singleton.mp hx, hlen]
    unfold TARGET_BLOCK_SIZE
    omega
  · simp only [runRoom, List.map_cons, List.map_nil, List.sum_cons, List.sum_nil, entryRoom, Record.valueLen,
      List.length_replicate, List.length_cons, List.length_nil, FOOTER_SIZE, MAX_FILE_LEN]
    omega

omit [Deps] in
theorem longPut_unsized {n : ℕ} (hlow : 2 ^ 30 < n) : ¬ Entry.Sized ([1], .value (List.replicate n 0)) := by
  rintro ⟨_, hv⟩
  simp only [Record.valueLen, List.length_replicate, MAX_RECORD_LEN] at hv
  omega

theorem longPut_refused {n : ℕ} (hlow : 2 ^ 30 < n) (hhigh : n ≤ 2 ^ 31) :
    ∃ w₁ w₂ w₃ w₄ err, callAlone 1 allOk (.openWith eager ⟨false, false⟩) World.initial = some (.unit (.ok ()), w₁) ∧
      callAlone 1 allOk (.write (longPut n)) w₁ = some (.unit (.ok ()), w₂) ∧
      w₂.spec.flushed [1] = some (List.replicate n 0) ∧
      callAlone 1 allOk (.openWith eager ⟨false, false⟩) (crashed w₂ []) = some (.unit (.ok ()), w₃) ∧
      callAlone 1 allOk (.get [1]) w₃ = some (.value (.error err), w₄) := by
  have hentries : (longPut n).entries = [([1], .value (List.replicate n 0))] := rfl
  have hbulky := bulky_longPut hlow hhigh
  obtain ⟨w₁, w₂, table, hopen, hwrite, hflushed⟩ := hbulky.written
  obtain ⟨w₃, table', hreopen, hcold⟩ := hflushed.reopened fun x hx => (hbulky.flushable x hx).1
  obtain ⟨err, w₄, hget⟩ := hcold.single.get_refused le_rfl hcold.rest hcold.holds (longPut_unsized hlow) hcold.cache
  refine ⟨w₁, w₂, w₃, w₄, err, hopen, hwrite, ?_, hreopen, hget⟩
  rw [hflushed.flushed, hentries]
  simp [Store.apply, Lib.write]

omit [Deps] in
/-- A value of `2 ^ 30 + 1` bytes is acknowledged and flushed, and after a crash it cannot be read. -/
theorem recovered_value_refused : letI := Deps.concrete
    ∃ w₁ w₂ w₃ w₄ err, callAlone 1 allOk (.openWith eager ⟨false, false⟩) World.initial = some (.unit (.ok ()), w₁) ∧
      callAlone 1 allOk (.write (longPut (2 ^ 30 + 1))) w₁ = some (.unit (.ok ()), w₂) ∧
      w₂.spec.flushed [1] = some (List.replicate (2 ^ 30 + 1) 0) ∧
      callAlone 1 allOk (.openWith eager ⟨false, false⟩) (crashed w₂ []) = some (.unit (.ok ()), w₃) ∧
      callAlone 1 allOk (.get [1]) w₃ = some (.value (.error err), w₄) := by
  let _ := Deps.concrete
  exact longPut_refused (by omega) (by omega)

/-! ## A run of more than `2 ^ 32` blocks -/

/-- The last `n` digits of a number, most significant first. -/
def bigEndian : ℕ → ℕ → Bytes
  | 0, _ => []
  | n + 1, i => ⟨i / 256 ^ n % 256, Nat.mod_lt _ (by decide)⟩ :: bigEndian n i

omit [Deps] in
theorem length_bigEndian (n i : ℕ) : (bigEndian n i).length = n := by
  induction n with
  | zero => rfl
  | succ n ih => rw [bigEndian, List.length_cons, ih]

omit [Deps] in
theorem bigEndian_mod {n m i : ℕ} (h : n ≤ m) : bigEndian n (i % 256 ^ m) = bigEndian n i := by
  induction n with
  | zero => rfl
  | succ n ih =>
    have hdigit : i % 256 ^ m / 256 ^ n % 256 = i / 256 ^ n % 256 := by
      obtain ⟨k, rfl⟩ := Nat.exists_eq_add_of_le h
      rw [show 256 ^ (n + 1 + k) = 256 ^ n * 256 ^ (1 + k) by rw [← pow_add]; ring_nf, Nat.mod_mul_right_div_self,
        pow_add, pow_one, Nat.mod_mul_right_mod]
    simp only [bigEndian, hdigit, ih (by omega)]

omit [Deps] in
theorem bigEndian_lt {n i j : ℕ} (hij : i < j) (hj : j < 256 ^ n) : bigEndian n i < bigEndian n j := by
  induction n generalizing i j with
  | zero => omega
  | succ n ih =>
    have hpos : 0 < 256 ^ n := by positivity
    have hdj : j / 256 ^ n < 256 := Nat.div_lt_of_lt_mul (by rw [pow_succ] at hj; exact hj)
    have hdi : i / 256 ^ n ≤ j / 256 ^ n := Nat.div_le_div_right hij.le
    rw [bigEndian, bigEndian, List.cons_lt_cons_iff]
    rcases Nat.lt_or_ge (i / 256 ^ n) (j / 256 ^ n) with hlt | hge
    · left
      show i / 256 ^ n % 256 < j / 256 ^ n % 256
      rw [Nat.mod_eq_of_lt hdj, Nat.mod_eq_of_lt (by omega)]
      exact hlt
    · have heq : i / 256 ^ n = j / 256 ^ n := le_antisymm hdi hge
      right
      refine ⟨by simp only [heq], ?_⟩
      have hmod : i % 256 ^ n < j % 256 ^ n := by
        have hi := Nat.div_add_mod i (256 ^ n)
        have hj' := Nat.div_add_mod j (256 ^ n)
        rw [heq] at hi
        omega
      have hlt := ih hmod (Nat.mod_lt _ hpos)
      rwa [bigEndian_mod le_rfl, bigEndian_mod le_rfl] at hlt

def page : Bytes := List.replicate 4096 0

/-- `n` puts of one page each, in key order. -/
def pages (n : ℕ) : Batch := ⟨(List.range n).map fun i => (bigEndian 5 i, .put page)⟩

def pageEntry (i : ℕ) : Entry := (bigEndian 5 i, .value page)

omit [Deps] in
theorem entries_pages (n : ℕ) : (pages n).entries = (List.range n).map pageEntry := by
  simp only [pages, Batch.entries, List.map_map]
  rfl

omit [Deps] in
theorem length_page : page.length = 4096 := List.length_replicate

omit [Deps] in
theorem ascending_pages {n : ℕ} (hn : n ≤ 2 ^ 33) : Ascending (pages n).entries := by
  rw [entries_pages]
  refine List.pairwise_map.mpr ?_
  have hpair := List.pairwise_lt_range (n := n)
  refine List.Pairwise.imp_of_mem (fun {i j} _ hj hij => ?_) hpair
  exact bigEndian_lt hij (lt_of_lt_of_le (List.mem_range.mp hj) (hn.trans (by norm_num)))

omit [Deps] in
theorem bulky_pages {n : ℕ} (h0 : 0 < n) (hn : n ≤ 2 ^ 33) : Bulky (pages n).entries := by
  have hasc := ascending_pages hn
  rw [entries_pages] at hasc ⊢
  refine ⟨by simp; omega, hasc, fun x hx => ?_, fun x hx => ?_, ?_⟩
  · obtain ⟨i, _, rfl⟩ := List.mem_map.mp hx
    refine ⟨?_, ?_⟩
    · show (bigEndian 5 i).length ≤ _
      rw [length_bigEndian]
      decide
    · show page.length ≤ _
      rw [length_page]
      norm_num
  · obtain ⟨i, _, rfl⟩ := List.mem_map.mp hx
    rw [encodeEntry_length]
    show TARGET_BLOCK_SIZE ≤ 9 + (bigEndian 5 i).length + page.length
    rw [length_bigEndian, length_page]
    decide
  · have hroom : ∀ i, entryRoom (pageEntry i) = 4135 := by
      intro i
      show 29 + 2 * (bigEndian 5 i).length + page.length = 4135
      rw [length_bigEndian, length_page]
    have hsum : (((List.range n).map pageEntry).map entryRoom).sum = n * 4135 := by
      have hconst : entryRoom ∘ pageEntry = fun _ => 4135 := funext hroom
      rw [List.map_map, hconst, List.map_const', List.sum_replicate_nat, List.length_range]
    unfold runRoom
    rw [hsum]
    unfold FOOTER_SIZE MAX_FILE_LEN
    omega

omit [Deps] in
theorem pageEntry_mem {n i : ℕ} (hi : i < n) : pageEntry i ∈ (pages n).entries := by
  rw [entries_pages]
  exact List.mem_map_of_mem (List.mem_range.mpr hi)

theorem candidate_pages {table : SsTable} {n i : ℕ}
    (h : TableOf table (pages n).entries ((pages n).entries.map fun x => [x])) (hn : n ≤ 2 ^ 33) (hi : i < n) :
    table.candidate (bigEndian 5 i) = i := by
  have hget : ∀ j, ((pages n).entries.map fun x => [x])[j]? = if j < n then some [pageEntry j] else none := by
    intro j
    rw [entries_pages, List.getElem?_map, List.getElem?_map]
    split_ifs with hj
    · rw [List.getElem?_range hj]
      rfl
    · rw [List.getElem?_eq_none (by rw [List.length_range]; omega)]
      rfl
  rw [h.candidate_eq]
  refine takeWhile_length ?_ ?_ ?_
  · rw [List.length_map, entries_pages, List.length_map, List.length_range]
    exact hi.le
  · intro j b hj hb
    rw [hget, if_pos (by omega)] at hb
    obtain rfl := Option.some.inj hb
    exact decide_eq_true (bigEndian_lt hj (lt_of_lt_of_le hi (hn.trans (by norm_num))))
  · intro b hb
    rw [hget, if_pos hi] at hb
    obtain rfl := Option.some.inj hb
    exact decide_eq_false (lt_irrefl (bigEndian 5 i))

/-- A read of one run, from the block it finds. -/
theorem Single.call_get {table : SsTable} {key : Bytes} {r : Except Error DecodedBlock} {cache : BlockCache}
    (h : Single w table) (hrest : AtRest w) (hi : table.candidate key < table.index.length)
    (hblock : ∀ w' : World, w'.cache = w.cache →
      alone 1 allOk (cachedBlock table (table.candidate key)).run w' = some (r, { w' with cache := cache })) :
    ∃ w', callAlone 1 allOk (.get key) w = some (.value (r.map fun block => (find block key).bind Record.live), w') ∧
      Single w' table ∧ AtRest w' ∧ w'.cache = cache ∧ w'.spec.cur = w.spec.cur := by
  have hstarted : Single (started w 1 (.get key)) table := { h with }
  have hlook := alone_lookup_of (t := 1) hi
    (hblock { readerWorld (started w 1 (.get key)) 1 with held := [(1, table)] } rfl)
  have hget := alone_get_single hstarted hlook
  have hcall := callAlone_eq (hrest.canStart_get key) (alone_bind hget fun r => Prog.done (Reply.value r))
  have hmap : (r.map fun block => find block key).map (fun x => x.bind Record.live) =
      r.map fun block => (find block key).bind Record.live := by
    cases r <;> rfl
  rw [hmap] at hcall
  have hidle : (1 :: w.active).erase 1 = [] := by
    rw [hrest.idle]
    rfl
  cases r with
  | error err => exact ⟨_, hcall, ⟨⟨h.lock, h.memtable, h.runs, h.obsolete, h.held⟩, h.filter⟩, ⟨hrest.ready, hidle⟩, rfl, rfl⟩
  | ok block => exact ⟨_, hcall, ⟨⟨h.lock, h.memtable, h.runs, h.obsolete, h.held⟩, h.filter⟩, ⟨hrest.ready, hidle⟩, rfl, rfl⟩

omit [Deps] in
theorem shards_new {n : ℕ} (hn : (BlockCache.new n).enabled = true) (key : BlockKey) :
    ∃ k, (BlockCache.new n).shards[BlockCache.shard key]? = some (Shard.withSlots (k + 1)) := by
  have hlt : BlockCache.shard key < SHARDS := Nat.mod_lt _ (by decide)
  have hpos : 0 < n / ASSUMED_BLOCK_BYTES := of_decide_eq_true hn
  refine ⟨max ((n / ASSUMED_BLOCK_BYTES + SHARDS - 1) / SHARDS) 1 - 1, ?_⟩
  simp only [BlockCache.new, hpos, decide_true, if_true, List.getElem?_replicate, if_pos hlt]
  congr 2
  omega

omit [Deps] in
/-- The block cache after its first insertion. -/
theorem cache_get_first {n : ℕ} (hn : (BlockCache.new n).enabled = true) (key : BlockKey) (block : DecodedBlock) :
    ∃ cache cache', (BlockCache.new n).get key = (none, cache) ∧ (cache.insert key block).get key = (some block, cache') := by
  obtain ⟨k, hs⟩ := shards_new hn key
  have hmiss : (BlockCache.new n).get key = (none, BlockCache.new n) := by
    obtain ⟨hlt, hat⟩ := List.getElem?_eq_some_iff.mp hs
    have hget : (Shard.withSlots (k + 1)).get key = (none, Shard.withSlots (k + 1)) := rfl
    simp only [BlockCache.get, hn, if_true, hs, hget]
    rw [← hat, List.set_getElem_self, ← hn]
  refine ⟨BlockCache.new n, ((BlockCache.new n).insert key block |>.get key).2, hmiss, Prod.ext ?_ rfl⟩
  refine BlockCache.get_insert_self (BlockCache.coherent_new (fun _ _ => True) n) hn hs ?_ block
  simp [Shard.withSlots]

omit [Deps] in
/-- The store after one write of ascending entries. -/
theorem apply_ascending {es : List Entry} (h : Ascending es) : Store.empty.apply es = answer [es] := by
  have hinsert : insertAll es ([] : List Entry) = es := insertAll_of_ascending h
  have hres := resolve_insertAll Record.live es [] []
  rw [hinsert] at hres
  unfold Store.apply answer
  rw [hres]
  congr 1

omit [Deps] in
theorem sized_pages {n : ℕ} : ∀ x ∈ (pages n).entries, x.Sized := by
  intro x hx
  rw [entries_pages] at hx
  obtain ⟨i, _, rfl⟩ := List.mem_map.mp hx
  refine ⟨?_, ?_⟩
  · show (bigEndian 5 i).length ≤ _
    rw [length_bigEndian]
    decide
  · show page.length ≤ _
    rw [length_page]
    decide

/-- Reading the first block and then the block `2 ^ 32`: the second read is answered from the first block. -/
theorem Cold.hides {n : ℕ} {table : SsTable} (h : Cold w (pages n).entries table) (hlow : 2 ^ 32 < n) (hn : n ≤ 2 ^ 33) :
    ∃ w₁ w₂, callAlone 1 allOk (.get (bigEndian 5 0)) w = some (.value (.ok (some page)), w₁) ∧
      callAlone 1 allOk (.get (bigEndian 5 (2 ^ 32))) w₁ = some (.value (.ok none), w₂) ∧
      w₁.spec.cur = w.spec.cur ∧ Single w₁ table := by
  have htab := h.holds
  have hcand : ∀ i < n, table.candidate (bigEndian 5 i) = i := fun i hi => candidate_pages htab hn hi
  have hlen : table.index.length = n := by
    rw [htab.index_length, List.length_map, entries_pages, List.length_map, List.length_range]
  have hfirst : ((pages n).entries.map fun x => [x])[0]? = some [pageEntry 0] := by
    rw [entries_pages, List.getElem?_map, List.getElem?_map, List.getElem?_range (by omega)]
    rfl
  obtain ⟨cache, cache', hmiss, hhit⟩ := cache_get_first (n := LsmConfig.default.blockCacheCapacity)
    (by decide) ⟨0, 0⟩ [pageEntry 0]
  have hkey0 : cacheKey table 0 = ⟨0, 0⟩ := by
    unfold cacheKey
    rw [h.id]
    rfl
  have hkey1 : cacheKey table (2 ^ 32) = ⟨0, 0⟩ := by
    unfold cacheKey
    rw [h.id, Nat.mod_self]
    rfl
  have hcand0 := hcand 0 (by omega)
  have hcand1 := hcand (2 ^ 32) hlow
  obtain ⟨w₁, hget, hsingle, hrest, hcache, hcur⟩ := @Single.call_get _ _ _ (bigEndian 5 0)
    (.ok [pageEntry 0]) (cache.insert ⟨0, 0⟩ [pageEntry 0]) h.single h.rest (by rw [hcand0, hlen]; omega) (by
      intro w' hw'
      rw [hcand0]
      have hm : w'.cache.get (cacheKey table 0) = (none, cache) := by
        rw [hw', h.cache, hkey0]
        exact hmiss
      have hread := alone_cachedBlock_miss (t := 1) hm (htab.readBlock_ok sized_pages hfirst)
      rwa [hkey0] at hread)
  obtain ⟨w₂, hget', _⟩ := @Single.call_get _ _ _ (bigEndian 5 (2 ^ 32)) (.ok [pageEntry 0])
    cache' hsingle hrest (by rw [hcand1, hlen]; exact hlow) (by
      intro w' hw'
      rw [hcand1]
      refine alone_cachedBlock_hit ?_
      rw [hw', hcache, hkey1]
      exact hhit)
  have hfound : find [pageEntry 0] (bigEndian 5 0) = some (.value page) := find_cons_self _ _ _
  have hnot : find [pageEntry 0] (bigEndian 5 (2 ^ 32)) = none := by
    refine find_none_of_forall_ne fun x hx => ?_
    rw [List.mem_singleton.mp hx]
    exact ne_of_lt (bigEndian_lt (by norm_num) (by norm_num))
  refine ⟨w₁, w₂, ?_, ?_, hcur, hsingle⟩
  · rw [hget]
    simp only [Except.map, hfound]
    rfl
  · rw [hget']
    simp only [Except.map, hnot]
    rfl

/-- Writing the pages and reading the first and the last. -/
theorem pages_hidden {n : ℕ} (hlow : 2 ^ 32 < n) (hn : n ≤ 2 ^ 33) :
    ∃ w₁ w₂ w₃ w₄ table, callAlone 1 allOk (.openWith eager ⟨false, false⟩) World.initial = some (.unit (.ok ()), w₁) ∧
      callAlone 1 allOk (.write (pages n)) w₁ = some (.unit (.ok ()), w₂) ∧
      callAlone 1 allOk (.get (bigEndian 5 0)) w₂ = some (.value (.ok (some page)), w₃) ∧
      callAlone 1 allOk (.get (bigEndian 5 (2 ^ 32))) w₃ = some (.value (.ok none), w₄) ∧
      w₃.spec.cur = answer [(pages n).entries] ∧ Single w₃ table ∧
      TableOf table (pages n).entries ((pages n).entries.map fun x => [x]) := by
  have hbulky := bulky_pages (n := n) (by omega) hn
  obtain ⟨w₁, w₂, table, hopen, hwrite, hflushed⟩ := hbulky.written
  obtain ⟨w₃, w₄, hget, hget', hcur, hsingle⟩ := hflushed.toCold.hides hlow hn
  refine ⟨w₁, w₂, w₃, w₄, table, hopen, hwrite, hget, hget', ?_, hsingle, hflushed.holds⟩
  rw [hcur, hflushed.cur, apply_ascending hbulky.ascending]

omit [Deps] in
theorem answer_pages {n i : ℕ} (hn : n ≤ 2 ^ 33) (hi : i < n) :
    answer [(pages n).entries] (bigEndian 5 i) = some page := by
  have hasc := (bulky_pages (n := n) (by omega) hn).ascending
  have hfind := hasc.find_of_mem (pageEntry_mem hi)
  exact resolve_cons_some Record.live hfind []

omit [Deps] in
/-- The store holds the key, and the engine says it does not. -/
theorem read_of_block_hidden : letI := Deps.concrete
    ∃ w₁ w₂ w₃ w₄, callAlone 1 allOk (.openWith eager ⟨false, false⟩) World.initial = some (.unit (.ok ()), w₁) ∧
      callAlone 1 allOk (.write (pages (2 ^ 32 + 1))) w₁ = some (.unit (.ok ()), w₂) ∧
      callAlone 1 allOk (.get (bigEndian 5 0)) w₂ = some (.value (.ok (some page)), w₃) ∧
      w₃.spec.cur (bigEndian 5 (2 ^ 32)) = some page ∧
      callAlone 1 allOk (.get (bigEndian 5 (2 ^ 32))) w₃ = some (.value (.ok none), w₄) := by
  let _ := Deps.concrete
  obtain ⟨w₁, w₂, w₃, w₄, table, hopen, hwrite, hget, hget', hcur, _⟩ :=
    pages_hidden (n := 2 ^ 32 + 1) (by omega) (by norm_num)
  refine ⟨w₁, w₂, w₃, w₄, hopen, hwrite, hget, ?_, hget'⟩
  rw [hcur]
  exact answer_pages (by norm_num) (by omega)

omit [Deps] in
/-- The runs hold the key, every block can be read, and the engine says the key is absent. -/
theorem absent_without_error : letI := Deps.concrete
    ∃ w₁ w₂ w₃ w₄ ess, callAlone 1 allOk (.openWith eager ⟨false, false⟩) World.initial = some (.unit (.ok ()), w₁) ∧
      callAlone 1 allOk (.write (pages (2 ^ 32 + 1))) w₁ = some (.unit (.ok ()), w₂) ∧
      callAlone 1 allOk (.get (bigEndian 5 0)) w₂ = some (.value (.ok (some page)), w₃) ∧
      List.Forall₂ Reads w₃.runs ess ∧
      answer (w₃.memtable.iter :: ess) (bigEndian 5 (2 ^ 32)) = some page ∧
      callAlone 1 allOk (.get (bigEndian 5 (2 ^ 32))) w₃ = some (.value (.ok none), w₄) := by
  let _ := Deps.concrete
  obtain ⟨w₁, w₂, w₃, w₄, table, hopen, hwrite, hget, hget', _, hsingle, htab⟩ :=
    pages_hidden (n := 2 ^ 32 + 1) (by omega) (by norm_num)
  refine ⟨w₁, w₂, w₃, w₄, [(pages (2 ^ 32 + 1)).entries], hopen, hwrite, hget, ?_, ?_, hget'⟩
  · rw [hsingle.runs]
    refine List.Forall₂.cons ⟨⟨_, htab⟩, fun _ => ?_⟩ List.Forall₂.nil
    rw [hsingle.filter]
    exact fun _ _ => rfl
  · rw [hsingle.memtable]
    refine (resolve_nil_cons Record.live _ _).trans ?_
    exact answer_pages (by norm_num) (by omega)

end Extremes
end LsmDb
