import LsmDb.Engine.Replay
import LsmDb.Proof.Extremes

/-! Many logged writes, a crash and a recovery. Each write is one record of the log; the open that follows the crash
replays them into one memtable and flushes it into one run, which may have more blocks than the block cache can tell
apart. -/
namespace LsmDb
open Lib
set_option autoImplicit false

section Recovered
variable [Deps] {t : Tid} {w w' : World} {config : LsmConfig} {features : Features}

/-! ## Logged writes -/

/-- A logged write that does not fill the memtable. -/
theorem alone_writeOps_logged {ops : List Entry} (hlock : w.lock = none) (hd : features.durability = true)
    (hopen : w.walOpen = true) (htaken : (encodeLog ops).length ≤ Deps.walMaxRecord)
    (hroom : (w.memtable.applyAll ops).approxSize < config.memtableCapacity) :
    ∃ log, Deps.walIter log = logRecords w.wal ++ [encodeLog ops] ∧
      alone t allOk (writeOps config features ops).run w =
        some (.ok (), { appliedWorld (w.appended log ops) ops with lock := none }) := by
  let w₁ : World := { w with lock := some t }
  obtain ⟨log, hiter, happend⟩ := exec_walAppend_ok (t := t) (w := w₁) htaken
  have hinner : exec t .inner .ok w₁ = some ((w.memtable, w.runs, true), w₁) := by rw [← hopen]; rfl
  have hlog : alone t allOk (logOps features ops).run w₁ = some (.ok (), w₁.appended log ops) := by
    simp only [logOps, hd, if_true]
    rw [alone_lift hinner]
    exact alone_io_ok (x := perform (.walAppend ops)) (alone_mk happend)
  let w₂ : World := appliedWorld (w₁.appended log ops) ops
  have hflush : alone t allOk (maybeFlush config features).run w₂ = some (.ok (), w₂) := by
    have hread : exec t .inner .ok w₂ = some ((w.memtable.applyAll ops, w.runs, w.walOpen), w₂) := rfl
    have hno : ¬ (config.memtableCapacity ≤ (w.memtable.applyAll ops).approxSize) := by omega
    simp only [maybeFlush]
    rw [alone_lift hread]
    simp only [hno, decide_false, Bool.and_false, Bool.false_eq_true, if_false]
    rfl
  have hbody : alone t allOk (do logOps features ops; perform (.apply ops); maybeFlush config features : M Unit).run w₁ =
      some (.ok (), w₂) := by
    rw [alone_bind_ok hlog, alone_lift (show exec t (.apply ops) .ok (w₁.appended log ops) = some ((), w₂) from rfl)]
    exact hflush
  have hdone := alone_withGuard hlock hbody
  exact ⟨log, hiter, hdone⟩

/-! ## Opening a directory with nothing but a log -/

/-- The engine once the log is replayed. -/
def replayedWorld (w : World) (config : LsmConfig) (m : MemTable) : World :=
  { w with
    wal := some (w.wal.getD Deps.walNew)
    live := true
    config := config
    features := ⟨true, false⟩
    memtable := m
    runs := []
    walOpen := true
    lock := none
    nextSeq := 0
    cache := BlockCache.new config.blockCacheCapacity }

theorem alone_openWith_replayed {m : MemTable} (hdir : w.dir = SortedMap.empty)
    (hreplay : replayLog MemTable.new (logRecords w.wal) = .ok m)
    (hflush : alone t allOk (flush config ⟨true, false⟩).run (replayedWorld w config m) = some (.ok (), w')) :
    alone t allOk (openWith config ⟨true, false⟩).run w = some (.ok (), w') := by
  have hexists : exec t (.exists MANIFEST) .ok w = some (false, w) := by simp [exec, hdir, SortedMap.get?_empty]
  have hmanifest : alone t allOk loadManifest.run w = some (.ok none, w) := by
    simp only [loadManifest]
    rw [alone_lift hexists]
    rfl
  have hlist : exec t .readDir .ok w = some (.ok (w.listing, false), w) := rfl
  have hreclaim : alone t allOk (reclaim [] 0 w.listing).run w = some (.ok 0, w) := by
    have hkeys : w.listing = if w.wal.isSome then [WAL_FILE] else [] := by
      simp [World.listing, hdir, SortedMap.keys, SortedMap.empty]
    rw [hkeys]
    split_ifs <;> rfl
  have hbuilt : alone t allOk (do
      flush config ⟨true, false⟩
      io "spawn compaction thread" (perform .spawn) : M Unit).run (replayedWorld w config m) = some (.ok (), w') := by
    rw [alone_bind_ok hflush]
    rfl
  simp only [openWith]
  rw [alone_bind_ok (alone_io_ok (x := perform .createDir) (alone_mk (show exec t .createDir .ok w = some (.ok (), w) from rfl))),
    alone_bind_ok hmanifest]
  rw [alone_bind_ok (show alone t allOk (openRuns ⟨true, false⟩ []).run w = some (.ok [], w) from rfl),
    alone_bind_ok (alone_io_ok (x := perform .readDir) (alone_mk hlist))]
  dsimp only
  rw [alone_bind_ok hreclaim]
  simp only [Bool.false_eq_true, if_false]
  rw [alone_bind_ok (alone_openLog rfl hreplay)]
  refine (alone_lift (show exec t (.startEngine config ⟨true, false⟩ m [] true 0) .ok _ =
    some ((), replayedWorld w config m) from rfl) _).trans ?_
  exact (alone_bind hbuilt _).trans rfl

/-! ## A run of puts -/

def roomy : LsmConfig := LsmConfig.default.withMemtableCapacity (2 ^ 60)

/-- An engine that has logged these entries one by one and flushed nothing. -/
structure Logging (w : World) (es : List Entry) : Prop where
  rest : AtRest w
  lock : w.lock = none
  config : w.config = roomy
  features : w.features = ⟨true, false⟩
  walOpen : w.walOpen = true
  dir : w.dir = SortedMap.empty
  memtable : w.memtable = MemTable.new.applyAll es
  records : logRecords w.wal = es.map fun x => encodeLog [x]
  acked : w.spec.acked = Store.empty.apply es

theorem logging_opened : ∃ w, callAlone 1 allOk (.openWith roomy ⟨true, false⟩) World.initial = some (.unit (.ok ()), w) ∧
    Logging w [] := by
  have hopen := @alone_openWith_replayed _ 1 (started World.initial 1 (.openWith roomy ⟨true, false⟩)) _ roomy MemTable.new
    rfl rfl (alone_flush_empty rfl rfl)
  refine ⟨_, callAlone_eq rfl (alone_unit hopen), ⟨rfl, rfl⟩, rfl, rfl, rfl, rfl, rfl, rfl, ?_, rfl⟩
  exact Deps.walIter_new

theorem Logging.put {es : List Entry} {key value : Bytes} (h : Logging w es)
    (htaken : (encodeLog [(key, .value value)]).length ≤ Deps.walMaxRecord)
    (hroom : (MemTable.new.applyAll (es ++ [(key, .value value)])).approxSize < 2 ^ 60) :
    ∃ w', callAlone 1 allOk (.put key value) w = some (.unit (.ok ()), w') ∧ Logging w' (es ++ [(key, .value value)]) := by
  have hcan : canStart w 1 (.put key value) = true := by simp [canStart, h.rest.ready, h.rest.idle, compactorTid]
  obtain ⟨log, hiter, hwrite⟩ := @alone_writeOps_logged _ 1 (started w 1 (.put key value)) roomy ⟨true, false⟩
    [(key, .value value)] h.lock rfl h.walOpen htaken
    (by rw [MemTable.applyAll_append, ← h.memtable] at hroom; exact hroom)
  refine ⟨_, callAlone_eq hcan (by rw [h.config, h.features]; exact alone_unit hwrite), ?_⟩
  exact {
    rest := ⟨h.rest.ready, by
      show (1 :: w.active).erase 1 = []
      rw [h.rest.idle]
      rfl⟩
    lock := rfl
    config := h.config
    features := h.features
    walOpen := h.walOpen
    dir := h.dir
    memtable := by
      show w.memtable.applyAll _ = _
      rw [h.memtable, MemTable.applyAll_append]
    records := by
      show Deps.walIter log = _
      rw [hiter, List.map_append, ← h.records]
      rfl
    acked := by
      show w.spec.acked.apply _ = _
      rw [h.acked]
      exact (List.foldl_append ..).symm }

/-- Calls made one after the other, each of which succeeds. -/
def callsOk (t : Tid) : List Call → World → Option World
  | [], w => some w
  | call :: calls, w =>
    match callAlone t allOk call w with
    | some (.unit (.ok _), w') => callsOk t calls w'
    | _ => none

theorem Logging.puts {es : List Entry} {kvs : List (Bytes × Bytes)} (h : Logging w es)
    (htaken : ∀ x ∈ kvs, (encodeLog [(x.1, .value x.2)]).length ≤ Deps.walMaxRecord)
    (hroom : ∀ n, (MemTable.new.applyAll (es ++ valueEntries (kvs.take n))).approxSize < 2 ^ 60) :
    ∃ w', callsOk 1 (kvs.map fun x => .put x.1 x.2) w = some w' ∧ Logging w' (es ++ valueEntries kvs) := by
  induction kvs generalizing w es with
  | nil => exact ⟨w, rfl, by simpa [valueEntries] using h⟩
  | cons x kvs ih =>
    have hsplit : ∀ l : List (Bytes × Bytes), es ++ valueEntries (x :: l) = es ++ [(x.1, .value x.2)] ++ valueEntries l := by
      intro l
      simp [valueEntries]
    obtain ⟨w₁, hput, hw₁⟩ := h.put (htaken x (by simp)) (by simpa [valueEntries] using hroom 1)
    obtain ⟨w₂, hrest, hw₂⟩ := ih hw₁ (fun y hy => htaken y (by simp [hy])) fun n => by
      have := hroom (n + 1)
      rwa [List.take_succ_cons, hsplit] at this
    refine ⟨w₂, ?_, by rw [hsplit]; exact hw₂⟩
    simp only [List.map_cons, callsOk, hput]
    exact hrest

/-- The open after a crash flushes what it replayed. -/
theorem Logging.recovers {es : List Entry} (h : Logging w es) (hbulky : Bulky es) (hsized : ∀ x ∈ es, x.Sized) :
    ∃ w' table, callAlone 1 allOk (.openWith roomy ⟨true, false⟩) (crashed w []) = some (.unit (.ok ()), w') ∧
      Cold w' es table := by
  let w₀ : World := started (crashed w []) 1 (.openWith roomy ⟨true, false⟩)
  let w₁ : World := { replayedWorld w₀ roomy (MemTable.new.applyAll es) with lock := some 1 }
  have hreplay : replayLog MemTable.new (logRecords w₀.wal) = .ok (MemTable.new.applyAll es) := by
    have hgroups : logRecords w₀.wal = (es.map fun x => [x]).map encodeLog := by
      rw [List.map_map]
      exact h.records
    have hone : ∀ ops ∈ es.map fun x => [x], LogSized ops := by
      intro ops hops
      obtain ⟨x, hx, rfl⟩ := List.mem_map.mp hops
      exact ⟨by simp, fun y hy => by rw [List.mem_singleton.mp hy]; exact hsized x hx⟩
    rw [hgroups, replayLog_encodeLog hone, ← List.flatMap_def, List.flatMap_singleton']
  obtain ⟨file, hfile, hl, hindex⟩ := hbulky.file
  let table : SsTable := ⟨file, runFilename 0, handlesFrom 8 (es.map fun x => [x]), es.length, none, 0⟩
  have hiter : w₁.memtable.iter = es := iter_applyAll_ascending hbulky.ascending
  have hlocked := @alone_flushLocked _ 1 w₁ (rotatedWorld (flushedWorld w₁ table)) roomy ⟨true, false⟩ _ _ _ none (by decide)
    (filter_off _ _) (by simp [Storable]) (by rw [hiter]; exact hfile) hindex (alone_rotate_some rfl rfl) (show 0 + 1 < 4 by decide)
  have hbody : alone 1 allOk (do
      let inner ← perform .inner
      if inner.1.isEmpty then pure () else flushLocked roomy ⟨true, false⟩ : M Unit).run w₁ =
      some (.ok (), rotatedWorld (flushedWorld w₁ table)) := by
    rw [alone_lift (show exec 1 .inner .ok w₁ = some ((w₁.memtable, w₁.runs, w₁.walOpen), w₁) from rfl)]
    simp only [show w₁.memtable.isEmpty = false from hbulky.isEmpty_applyAll, Bool.false_eq_true, if_false]
    exact hlocked
  have hopen := @alone_openWith_replayed _ 1 w₀ _ roomy _ h.dir hreplay (alone_withGuard rfl hbody)
  exact ⟨_, table, callAlone_eq rfl (alone_unit hopen), ⟨⟨rfl, rfl, rfl, rfl, rfl⟩, rfl⟩, ⟨rfl, rfl⟩,
    ⟨hl, hbulky.ascending, rfl, rfl⟩, rfl, rfl⟩

/-! ## A run of more than `2 ^ 32` blocks -/

omit [Deps] in
theorem approxSize_pages {n : ℕ} (hn : n ≤ 2 ^ 33) : (MemTable.new.applyAll (pages n).entries).approxSize = n * 4101 := by
  have hsize : ∀ i, (pageEntry i).1.length + (pageEntry i).2.valueLen = 4101 := by
    intro i
    show (bigEndian 5 i).length + page.length = 4101
    rw [length_bigEndian, length_page]
  have hconst : ((fun e : Entry => e.1.length + e.2.valueLen) ∘ pageEntry) = fun _ => 4101 := funext hsize
  rw [MemTable.exact_new.applyAll, iter_applyAll_ascending (ascending_pages hn), entries_pages, MemTable.total,
    List.map_map, hconst, List.map_const', List.sum_replicate_nat, List.length_range]

/-- `n` puts of one page each, in key order. -/
def pagePuts (n : ℕ) : List Call := (List.range n).map fun i => .put (bigEndian 5 i) page

theorem logging_pages {n : ℕ} (hn : n ≤ 2 ^ 33) (hmax : 4114 ≤ Deps.walMaxRecord) (h : Logging w []) :
    ∃ w', callsOk 1 (pagePuts n) w = some w' ∧ Logging w' (pages n).entries := by
  let kvs : List (Bytes × Bytes) := (List.range n).map fun i => (bigEndian 5 i, page)
  have hentries : ∀ k, valueEntries (kvs.take k) = (pages (min k n)).entries := by
    intro k
    rw [entries_pages, ← List.map_take, List.take_range, valueEntries, List.map_map]
    rfl
  have hputs : kvs.map (fun x => Call.put x.1 x.2) = pagePuts n := by
    rw [List.map_map]
    rfl
  have htaken : ∀ x ∈ kvs, (encodeLog [(x.1, .value x.2)]).length ≤ Deps.walMaxRecord := by
    intro x hx
    obtain ⟨i, _, rfl⟩ := List.mem_map.mp hx
    rw [encodeLog, List.length_append, encodeU32_length, List.flatMap_singleton, encodeEntry_length]
    show 4 + (9 + (bigEndian 5 i).length + page.length) ≤ _
    rw [length_bigEndian, length_page]
    exact hmax
  have hroom : ∀ k, (MemTable.new.applyAll ([] ++ valueEntries (kvs.take k))).approxSize < 2 ^ 60 := by
    intro k
    rw [hentries, List.nil_append, approxSize_pages (by omega)]
    omega
  obtain ⟨w', hcalls, hw'⟩ := h.puts htaken hroom
  have hall := hentries n
  rw [List.take_of_length_le (by simp [kvs]), min_self] at hall
  rw [hputs] at hcalls
  rw [hall] at hw'
  exact ⟨w', hcalls, hw'⟩

omit [Deps] in
/-- Each put is logged and acknowledged; the open after the crash replays and flushes them, and then the engine says
that it does not hold the last key. -/
theorem recovered_block_hidden : letI := Deps.concrete
    ∃ w₁ w₂ w₃ w₄ w₅, callAlone 1 allOk (.openWith roomy ⟨true, false⟩) World.initial = some (.unit (.ok ()), w₁) ∧
      callsOk 1 (pagePuts (2 ^ 32 + 1)) w₁ = some w₂ ∧
      w₂.spec.acked (bigEndian 5 (2 ^ 32)) = some page ∧
      callAlone 1 allOk (.openWith roomy ⟨true, false⟩) (crashed w₂ []) = some (.unit (.ok ()), w₃) ∧
      callAlone 1 allOk (.get (bigEndian 5 0)) w₃ = some (.value (.ok (some page)), w₄) ∧
      callAlone 1 allOk (.get (bigEndian 5 (2 ^ 32))) w₄ = some (.value (.ok none), w₅) := by
  let _ := Deps.concrete
  obtain ⟨w₁, hopen, hw₁⟩ := logging_opened
  obtain ⟨w₂, hputs, hw₂⟩ := logging_pages (n := 2 ^ 32 + 1) (by norm_num) (show 4114 ≤ 67108864 by norm_num) hw₁
  have hbulky := bulky_pages (n := 2 ^ 32 + 1) (by omega) (by norm_num)
  obtain ⟨w₃, table, hreopen, hcold⟩ := hw₂.recovers hbulky sized_pages
  obtain ⟨w₄, w₅, hget, hget', _⟩ := hcold.hides (by omega) (by norm_num)
  refine ⟨w₁, w₂, w₃, w₄, w₅, hopen, hputs, ?_, hreopen, hget, hget'⟩
  rw [hw₂.acked, apply_ascending hbulky.ascending]
  exact answer_pages (by norm_num) (by omega)

end Recovered
end LsmDb
