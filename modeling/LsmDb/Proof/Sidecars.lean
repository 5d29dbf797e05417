import LsmDb.Engine.Naming
import LsmDb.Engine.Replay
import LsmDb.Proof.Lookups
import LsmDb.Proof.Opening

/-! Point reads of an engine that has just been opened, whatever filters its runs were given: what `get`
answers, as a function of the memtable, the runs and their filters. -/
namespace LsmDb
open Lib
set_option autoImplicit false

section Reading
variable [Deps] {t : Tid}

/-- The record the runs hold for a key, newest first; a run whose filter rules the key out is skipped. -/
def search (key : Bytes) : List (Option RunFilter × List Entry) → Option Record
  | [] => none
  | (filter, es) :: rest => if mightContain filter key then (find es key).or (search key rest) else search key rest

/-- A table and the entries it was written with. -/
structure Serves (known : List SsTable) (table : SsTable) (es : List Entry) : Prop where
  known : table ∈ known
  table : ∃ bs, TableOf table es bs
  sized : ∀ x ∈ es, x.Sized

theorem alone_searchRuns {known : List SsTable} {runs : List SsTable} {ess : List (List Entry)}
    (hruns : List.Forall₂ (Serves known) runs ess) {w : World} (hk : w.known = known)
    (hc : Cached w.cache known) (hn : Numbered known w.nextRunId) (key : Bytes) :
    ∃ cache, Cached cache known ∧ alone t allOk (searchRuns key runs).run w =
      some (.ok ((search key ((runs.map SsTable.filter).zip ess)).bind Record.live), { w with cache := cache }) := by
  induction hruns generalizing w with
  | nil => exact ⟨w.cache, hc, rfl⟩
  | @cons table es runs ess hs _ ih =>
    simp only [searchRuns, List.map_cons, List.zip_cons_cons, search]
    by_cases hf : table.mightContain key = false
    · have hf' : mightContain table.filter key = false := hf
      rw [if_pos hf]
      simp only [hf', Bool.false_eq_true, if_false]
      exact ih hk hc hn
    · have hf' : mightContain table.filter key = true := (Bool.not_eq_false _).mp hf
      obtain ⟨bs, htable⟩ := hs.table
      subst hk
      obtain ⟨cache, hcache, hrun⟩ := run_lookup hc hn hs.known t key
      rw [htable.lookup_eq hs.sized] at hrun
      have hrun' : alone t allOk (lookup table key).run w = _ := hrun
      rw [if_neg hf, if_pos hf', alone_bind_ok hrun']
      cases hfind : find es key with
      | none => exact ih (w := { w with cache := cache }) rfl hcache hn
      | some r =>
        cases r with
        | value v => exact ⟨cache, hcache, rfl⟩
        | tombstone => exact ⟨cache, hcache, rfl⟩

/-- An engine with this memtable and these runs, that nobody has locked. -/
structure Serving (w : World) (m : MemTable) (runs : List SsTable) (ess : List (List Entry)) : Prop where
  lock : w.lock = none
  memtable : w.memtable = m
  runs_eq : w.runs = runs
  cached : Cached w.cache w.known
  numbered : Numbered w.known w.nextRunId
  serves : List.Forall₂ (Serves w.known) runs ess

/-- The operations of a reader that drops its handles. -/
def Act.drops : Act → Bool
  | .release _ | .remove _ => true
  | _ => false

theorem Serving.dropped {w w' : World} {m : MemTable} {runs : List SsTable} {ess : List (List Entry)}
    (h : Serving w m runs ess) {o : Act} {ch : Choice} {r : Res o} (ho : o.drops = true)
    (hx : exec t o ch w = some (r, w')) : Serving w' m runs ess := by
  have hsame : ∀ f ∈ [Field.lock, .memtable, .runs, .cache, .known, .nextRunId], f.Same w w' := by
    intro f hf
    refine exec_differ hx f ?_
    cases o <;> simp only [Act.drops, Bool.false_eq_true] at ho
    all_goals
      intro htouch
      simp only [Act.touches, List.mem_singleton] at htouch
      subst htouch
      simp at hf
  have hlock : w'.lock = w.lock := hsame .lock (by simp)
  have hmem : w'.memtable = w.memtable := hsame .memtable (by simp)
  have hruns : w'.runs = w.runs := hsame .runs (by simp)
  have hcache : w'.cache = w.cache := hsame .cache (by simp)
  have hknown : w'.known = w.known := hsame .known (by simp)
  have hid : w'.nextRunId = w.nextRunId := hsame .nextRunId (by simp)
  exact {
    lock := hlock.trans h.lock
    memtable := hmem.trans h.memtable
    runs_eq := hruns.trans h.runs_eq
    cached := by rw [hcache, hknown]; exact h.cached
    numbered := by rw [hknown, hid]; exact h.numbered
    serves := by rw [hknown]; exact h.serves }

theorem Serving.alone_dropRuns {m : MemTable} {runs : List SsTable} {ess : List (List Entry)} (tables : List SsTable)
    {w : World} (h : Serving w m runs ess) :
    ∃ w', Serving w' m runs ess ∧ alone t allOk (dropRuns tables) w = some ((), w') := by
  induction tables generalizing w with
  | nil => exact ⟨w, h, rfl⟩
  | cons table tables ih =>
    obtain ⟨last, w₁, hrelease⟩ : ∃ last w₁, exec t (.release table) .ok w = some (last, w₁) := ⟨_, _, rfl⟩
    have h₁ := h.dropped rfl hrelease
    simp only [dropRuns]
    rw [alone_perform hrelease]
    cases last with
    | false => exact ih h₁
    | true =>
      have hremove : ∀ (name : Text) (v : World), ∃ r v', exec t (.remove name) .ok v = some (r, v') := by
        intro name v
        simp only [exec]
        split
        · exact ⟨_, _, rfl⟩
        · exact ⟨_, _, rfl⟩
      obtain ⟨r₂, w₂, hfile⟩ := hremove table.name w₁
      obtain ⟨r₃, w₃, hside⟩ := hremove (sidecarPath table.name) w₂
      obtain ⟨w', hw', hrest⟩ := ih ((h₁.dropped rfl hfile).dropped rfl hside)
      refine ⟨w', hw', ?_⟩
      rw [if_pos rfl, alone_bind (alone_perform hfile _), alone_perform hside]
      exact hrest

/-- What `get` does with its snapshot. -/
def getFrom (key : Bytes) (snap : MemTable × List SsTable) : P (Except Error (Option Bytes)) :=
  match snap.1.get key with
  | some (.value v) => pure (.ok (some v))
  | some .tombstone => pure (.ok none)
  | none => (searchRuns key snap.2).run >>= fun r => dropRuns snap.2 >>= fun _ => pure r

theorem get_run (key : Bytes) :
    (get key).run = perform (.snapshot fun m _ => (m.get key).isNone) >>= getFrom key := rfl

/-- A `get` by itself. -/
theorem alone_get {w : World} {m : MemTable} {runs : List SsTable} {ess : List (List Entry)}
    (h : Serving w m runs ess) (key : Bytes) :
    ∃ w', Serving w' m runs ess ∧ alone t allOk (get key).run w =
      some (.ok (((m.get key).or (search key ((runs.map SsTable.filter).zip ess))).bind Record.live), w') := by
  let w₁ : World := { w with
    held := (if (m.get key).isNone then runs.map (t, ·) else []) ++ w.held
    spec := { w.spec with seen := Function.update w.spec.seen t ⟨w.spec.cur, w.memtable, w.runs⟩ } }
  have hx : exec t (.snapshot fun m _ => (m.get key).isNone) .ok w = some ((m, runs), w₁) := by
    simp [exec, h.lock, h.memtable, h.runs_eq, w₁]
  have h₁ : Serving w₁ m runs ess := { h with }
  rw [get_run, alone_perform hx, getFrom]
  cases hm : m.get key with
  | some r =>
    cases r with
    | value v => exact ⟨w₁, h₁, rfl⟩
    | tombstone => exact ⟨w₁, h₁, rfl⟩
  | none =>
    obtain ⟨cache, hcache, hrun⟩ := alone_searchRuns (t := t) h₁.serves rfl h₁.cached h₁.numbered key
    have h₂ : Serving { w₁ with cache := cache } m runs ess := { h₁ with cached := hcache }
    obtain ⟨w₃, h₃, hdrop⟩ := h₂.alone_dropRuns (t := t) runs
    refine ⟨w₃, h₃, ?_⟩
    simp only
    rw [alone_bind hrun, alone_bind hdrop]
    rfl

/-! ## Opening the runs -/

/-- The filter a run gets from its sidecar. -/
def sideOf (dir : SortedMap Text Data) (s : ℕ) : Option RunFilter :=
  match look dir (.side s) with
  | some (.bin bytes) => RunFilter.decode bytes
  | _ => none

/-- A run this crate wrote, installed under its number; a sidecar, if there is one, is some file of
bytes. -/
structure OnDisk (dir : SortedMap Text Data) (s : ℕ) (es : List Entry) : Prop where
  file : ∃ file, writeRun es = .ok file ∧ look dir (.run s) = some (.bin file)
  blocks : ∀ file bs, RunLayout es file bs → bs.length ≤ 2 ^ 32
  ascending : Ascending es
  sized : ∀ x ∈ es, x.Sized
  side : ∀ d, look dir (.side s) = some d → ∃ bytes, d = .bin bytes

theorem OnDisk.same {dir dir' : SortedMap Text Data} {s : ℕ} {es : List Entry} (h : OnDisk dir s es)
    (hrun : look dir' (.run s) = look dir (.run s)) (hside : look dir' (.side s) = look dir (.side s)) :
    OnDisk dir' s es := by
  obtain ⟨file, hwrite, hlook⟩ := h.file
  exact { h with
    file := ⟨file, hwrite, hrun.trans hlook⟩
    side := fun d hd => h.side d (by rw [← hside, hd]) }

/-- The files of the other runs stay as they are. -/
def Untouched (s : ℕ) (dir dir' : SortedMap Text Data) : Prop := ∀ n : Name, n ≠ .side s → look dir' n = look dir n

theorem alone_loadFilter {w : World} {features : Features} (hb : features.bloom = true) {s : ℕ}
    (hside : ∀ d, look w.dir (.side s) = some d → ∃ bytes, d = .bin bytes) :
    ∃ dir, Untouched s w.dir dir ∧ alone t allOk (loadFilter features (runFilename s)).run w =
      some (.ok (sideOf w.dir s), { w with dir := dir }) := by
  have hname : sidecarPath (runFilename s) = (Name.side s).text := rfl
  unfold loadFilter
  rw [if_pos hb]
  cases hlook : look w.dir (.side s) with
  | none =>
    have hx : exec t (.read (sidecarPath (runFilename s))) .ok w = some (.error .notFound, w) := by
      have hget : w.dir.get? (sidecarPath (runFilename s)) = none := hlook
      simp [exec, hget]
    refine ⟨w.dir, fun _ _ => rfl, ?_⟩
    rw [alone_lift hx]
    simp only [sideOf, hlook]
    rfl
  | some d =>
    obtain ⟨bytes, rfl⟩ := hside d hlook
    have hget : w.dir.get? (sidecarPath (runFilename s)) = some (.bin bytes) := hlook
    have hx : exec t (.read (sidecarPath (runFilename s))) .ok w = some (.ok bytes, w) := by simp [exec, hget]
    rw [alone_lift hx]
    simp only [sideOf, hlook]
    cases hdec : RunFilter.decode bytes with
    | some f => exact ⟨w.dir, fun _ _ => rfl, rfl⟩
    | none =>
      have hrm : exec t (.remove (sidecarPath (runFilename s))) .ok w =
          some (.ok (), { w with dir := w.dir.erase (sidecarPath (runFilename s)) }) := by simp [exec, hget]
      refine ⟨_, ?_, by
        simp only
        rw [alone_lift hrm]
        rfl⟩
      intro n hn
      rw [hname, look_erase, Function.update_of_ne hn]

/-- The runs are open, with the filters their sidecars gave. -/
structure Opened (w w' : World) (filters : List (Option RunFilter)) (runs : List SsTable)
    (ess : List (List Entry)) : Prop where
  filters_eq : runs.map SsTable.filter = filters
  serves : List.Forall₂ (Serves w'.known) runs ess
  numbered : Numbered w'.known w'.nextRunId
  small : ∀ r ∈ w'.known, r.runId < 2 ^ 64 ∧ r.index.length ≤ 2 ^ 32
  keeps : ∀ r ∈ w.known, r ∈ w'.known
  wal : w'.wal = w.wal

theorem Opened.cons {w w₁ w' : World} {filters : List (Option RunFilter)} {runs : List SsTable}
    {ess : List (List Entry)} {table : SsTable} {es : List Entry} (h : Opened w₁ w' filters runs ess)
    (hk : w₁.known = table :: w.known) (hwal : w₁.wal = w.wal) (htable : ∃ bs, TableOf table es bs) (hsized : ∀ x ∈ es, x.Sized) :
    Opened w w' (table.filter :: filters) (table :: runs) (es :: ess) where
  filters_eq := by rw [List.map_cons, h.filters_eq]
  serves := List.Forall₂.cons ⟨h.keeps table (by rw [hk]; simp), htable, hsized⟩ h.serves
  numbered := h.numbered
  small := h.small
  keeps r hr := h.keeps r (by rw [hk]; exact List.mem_cons_of_mem _ hr)
  wal := h.wal.trans hwal

theorem alone_openRuns {features : Features} (hb : features.bloom = true) (disk : List (ℕ × List Entry))
    {w : World} (hdisk : ∀ x ∈ disk, OnDisk w.dir x.1 x.2) (hnd : (disk.map Prod.fst).Nodup)
    (hn : Numbered w.known w.nextRunId) (hsmall : ∀ r ∈ w.known, r.runId < 2 ^ 64 ∧ r.index.length ≤ 2 ^ 32)
    (hids : w.nextRunId + disk.length ≤ 2 ^ 64) :
    ∃ runs w', alone t allOk (openRuns features (disk.map fun x => runFilename x.1)).run w = some (.ok runs, w') ∧
      Opened w w' (disk.map fun x => sideOf w.dir x.1) runs (disk.map Prod.snd) := by
  induction disk generalizing w with
  | nil => exact ⟨[], w, rfl, rfl, List.Forall₂.nil, hn, hsmall, fun _ h => h, rfl⟩
  | cons x disk ih =>
    obtain ⟨s, es⟩ := x
    have hx := hdisk (s, es) (by simp)
    obtain ⟨file, hwrite, hlook⟩ := hx.file
    obtain ⟨bs, hl⟩ := writeRun_layout hwrite
    have hkeys : ∀ x ∈ handlesFrom 8 bs, x.lastKey.length ≤ MAX_RECORD_LEN := by
      intro h hh
      obtain ⟨y, hy, hkey⟩ := hl.exists_entry hh
      rw [hkey]
      exact (hx.sized y hy).1
    have hread := hl.readIndex_ok hx.ascending hkeys
    have hget : w.dir.get? (runFilename s) = some (.bin file) := hlook
    have hexists : exec t (.exists (runFilename s)) .ok w = some (true, w) := by simp [exec, hget]
    have hopen : exec t (.openRun (runFilename s)) .ok w = some (.ok ⟨file, handlesFrom 8 bs, es.length⟩, w) := by
      simp [exec, hget, openFile, hread]
    obtain ⟨dir, huntouched, hfilter⟩ := alone_loadFilter (t := t) (w := w) hb hx.side
    let table : SsTable := ⟨file, runFilename s, handlesFrom 8 bs, es.length, sideOf w.dir s, w.nextRunId⟩
    have htable : TableOf table es bs := ⟨hl, hx.ascending, rfl, rfl⟩
    have hlen : table.index.length ≤ 2 ^ 32 := by
      rw [htable.index_length]
      exact hx.blocks file bs hl
    let w₁ : World := { w with dir := dir, nextRunId := w.nextRunId + 1, known := table :: w.known }
    have hreg : exec t (.register (runFilename s) ⟨file, handlesFrom 8 bs, es.length⟩ (sideOf w.dir s)) .ok
        { w with dir := dir } = some (table, w₁) := rfl
    -- the other runs' files are where they were
    have hrest : ∀ x ∈ disk, x.1 ≠ s := by
      intro y hy heq
      have hnot := (List.nodup_cons.mp hnd).1
      exact hnot (List.mem_map.mpr ⟨y, hy, heq⟩)
    have hsides : (disk.map fun x => sideOf dir x.1) = disk.map fun x => sideOf w.dir x.1 := by
      refine List.map_congr_left fun y hy => ?_
      unfold sideOf
      rw [huntouched _ (by simpa using hrest y hy)]
    obtain ⟨runs, w', hrun, hopened⟩ := ih (w := w₁)
      (fun y hy => (hdisk y (by simp [hy])).same (huntouched _ (by simp))
        (huntouched _ (by simpa using hrest y hy)))
      (List.nodup_cons.mp hnd).2 (hn.open rfl)
      (fun r hr => by
        rcases List.mem_cons.mp hr with rfl | hr
        · refine ⟨?_, hlen⟩
          show w.nextRunId < 2 ^ 64
          simp only [List.length_cons] at hids
          omega
        · exact hsmall r hr)
      (by simp only [List.length_cons] at hids; show w.nextRunId + 1 + disk.length ≤ 2 ^ 64; omega)
    have hdir : w₁.dir = dir := rfl
    rw [hdir, hsides] at hopened
    refine ⟨table :: runs, w', ?_, hopened.cons rfl rfl ⟨bs, htable⟩ hx.sized⟩
    simp only [List.map_cons, openRuns]
    rw [alone_lift hexists, if_pos rfl]
    rw [alone_bind_ok (alone_mk hopen), alone_bind_ok hfilter, alone_lift hreg, alone_bind_ok hrun]
    rfl

/-! ## An engine over given files -/

def gets : List Bytes → M Unit
  | [] => pure ()
  | key :: keys => do
    let _ ← get key
    gets keys

/-- `open_with` from the run list on, with the memtable `m`, then any number of reads, then one more. -/
def reopenGet (config : LsmConfig) (features : Features) (live : List Text) (m : MemTable)
    (earlier : List Bytes) (key : Bytes) : M (Option Bytes) := do
  let runs ← openRuns features live
  perform (.startEngine config features m runs features.durability 0)
  gets earlier
  get key

theorem alone_gets {w : World} {m : MemTable} {runs : List SsTable} {ess : List (List Entry)}
    (h : Serving w m runs ess) (keys : List Bytes) :
    ∃ w', Serving w' m runs ess ∧ alone t allOk (gets keys).run w = some (.ok (), w') := by
  induction keys generalizing w with
  | nil => exact ⟨w, h, rfl⟩
  | cons key keys ih =>
    obtain ⟨w₁, h₁, hrun⟩ := alone_get (t := t) h key
    obtain ⟨w₂, h₂, hrest⟩ := ih h₁
    exact ⟨w₂, h₂, by rw [gets, alone_bind_ok hrun]; exact hrest⟩

/-- The directory and the process before the open. -/
structure Closed (w : World) (disk : List (ℕ × List Entry)) : Prop where
  files : ∀ x ∈ disk, OnDisk w.dir x.1 x.2
  nodup : (disk.map Prod.fst).Nodup
  known : w.known = []
  ids : w.nextRunId + disk.length ≤ 2 ^ 64

/-- What a `get` answers from the memtable and from the runs, each behind its filter. -/
def filtered (m : MemTable) (key : Bytes) (layers : List (Option RunFilter × List Entry)) : Option Bytes :=
  ((m.get key).or (search key layers)).bind Record.live

/-- An engine that was just started over them. -/
theorem Opened.serving {w w₁ v : World} {filters : List (Option RunFilter)} {runs : List SsTable}
    {ess : List (List Entry)} (h : Opened w w₁ filters runs ess) {m : MemTable} {n : ℕ} (hlock : v.lock = none)
    (hmem : v.memtable = m) (hruns : v.runs = runs) (hcache : v.cache = BlockCache.new n)
    (hknown : v.known = w₁.known) (hid : v.nextRunId = w₁.nextRunId) : Serving v m runs ess where
  lock := hlock
  memtable := hmem
  runs_eq := hruns
  cached := by
    rw [hcache, hknown]
    exact ⟨fun r hr => (h.small r hr).1, BlockCache.coherent_new _ _, fun _ r hr => (h.small r hr).2⟩
  numbered := by
    rw [hknown, hid]
    exact h.numbered
  serves := by
    rw [hknown]
    exact h.serves

theorem Closed.openRuns {w : World} {disk : List (ℕ × List Entry)} (h : Closed w disk) {features : Features}
    (hb : features.bloom = true) :
    ∃ runs w', alone t allOk (LsmDb.openRuns features (disk.map fun x => runFilename x.1)).run w = some (.ok runs, w') ∧
      Opened w w' (disk.map fun x => sideOf w.dir x.1) runs (disk.map Prod.snd) :=
  alone_openRuns hb disk h.files h.nodup (by rw [h.known]; exact ⟨by simp, List.Pairwise.nil⟩) (by simp [h.known]) h.ids

/-- Any number of reads and then one more, from an engine over opened runs. -/
theorem Serving.alone_reads {w v w₁ : World} {disk : List (ℕ × List Entry)} {m : MemTable} {runs : List SsTable}
    (hopened : Opened w w₁ (disk.map fun x => sideOf w.dir x.1) runs (disk.map Prod.snd))
    (h : Serving v m runs (disk.map Prod.snd)) (earlier : List Bytes) (key : Bytes) :
    ∃ w', alone t allOk (do gets earlier; get key : M (Option Bytes)).run v =
      some (.ok (filtered m key (disk.map fun x => (sideOf w.dir x.1, x.2))), w') := by
  obtain ⟨v₁, h₁, hgets⟩ := alone_gets (t := t) h earlier
  obtain ⟨v₂, _, hget⟩ := alone_get (t := t) h₁ key
  have hzip : (runs.map SsTable.filter).zip (disk.map Prod.snd) = disk.map fun x => (sideOf w.dir x.1, x.2) := by
    rw [hopened.filters_eq, List.zip_map']
  rw [hzip] at hget
  rw [alone_bind_ok hgets]
  exact ⟨v₂, hget⟩

theorem alone_reopenGet {w : World} {disk : List (ℕ × List Entry)} (h : Closed w disk) (config : LsmConfig)
    {features : Features} (hb : features.bloom = true) (m : MemTable) (earlier : List Bytes) (key : Bytes) :
    ∃ w', alone t allOk
        (reopenGet config features (disk.map fun x => runFilename x.1) m earlier key).run w =
      some (.ok (filtered m key (disk.map fun x => (sideOf w.dir x.1, x.2))), w') := by
  obtain ⟨runs, w₁, hrun, hopened⟩ := h.openRuns (t := t) hb
  let w₂ : World := { w₁ with
    live := true
    config := config
    features := features
    memtable := m
    runs := runs
    walOpen := features.durability
    lock := none
    nextSeq := 0
    cache := BlockCache.new config.blockCacheCapacity }
  have hstart : exec t (.startEngine config features m runs features.durability 0) .ok w₁ = some ((), w₂) := rfl
  have hserving : Serving w₂ m runs (disk.map Prod.snd) := hopened.serving rfl rfl rfl rfl rfl rfl
  rw [reopenGet, alone_bind_ok hrun, alone_lift hstart]
  exact hserving.alone_reads hopened earlier key

/-! ## `open_with` as a whole -/

/-- Recovery gets through the directory when what it wants to remove is there. -/
theorem alone_reclaim {live : List Text} {names : List Text} (hnd : (names.filter (garbage live)).Nodup) {w : World}
    (hthere : ∀ n ∈ names, garbage live n = true → w.dir.get? n ≠ none) (q : ℕ) :
    ∃ q' dir, alone t allOk (reclaim live q names).run w = some (.ok q', { w with dir := dir }) := by
  induction names generalizing w q with
  | nil => exact ⟨q, w.dir, rfl⟩
  | cons name names ih =>
    obtain ⟨context, heq⟩ := reclaim_cons live q name names
    have hrest : ∀ n ∈ names, garbage live n = true → w.dir.get? n ≠ none := fun n hn =>
      hthere n (List.mem_cons_of_mem _ hn)
    rw [heq]
    by_cases hg : garbage live name = true
    · rw [List.filter_cons_of_pos hg, List.nodup_cons] at hnd
      obtain ⟨d, hd⟩ := Option.ne_none_iff_exists'.mp (hthere name List.mem_cons_self hg)
      have hx : exec t (.remove name) .ok w = some (.ok (), { w with dir := w.dir.erase name }) := by simp [exec, hd]
      have hleft : ∀ n ∈ names, garbage live n = true → (w.dir.erase name).get? n ≠ none := by
        intro n hn hgn
        have hne : n ≠ name := by
          rintro rfl
          exact hnd.1 (List.mem_filter.mpr ⟨hn, hgn⟩)
        rw [SortedMap.get?_erase_ne _ hne]
        exact hrest n hn hgn
      rw [if_pos hg, alone_bind_ok (alone_io_ok (x := perform (.remove name)) (alone_mk hx))]
      exact ih hnd.2 hleft (passed q name)
    · rw [List.filter_cons_of_neg hg] at hnd
      rw [if_neg hg]
      exact ih hnd hrest (passed q name)

/-- The manifest lists the runs, and there is nothing to replay. -/
structure Recorded (w : World) (features : Features) (disk : List (ℕ × List Entry)) : Prop where
  manifest : ∃ q < 2 ^ 64, w.dir.get? MANIFEST = some (.text (manifestText q (disk.map fun x => runFilename x.1)))
  log : features.durability = true → logRecords w.wal = []

theorem alone_openLog_empty {w : World} {features : Features} (h : features.durability = true → logRecords w.wal = []) :
    ∃ wal, alone t allOk (openLog features).run w = some (.ok MemTable.new, { w with wal := wal }) := by
  cases hd : features.durability with
  | true =>
    refine ⟨_, alone_openLog hd ?_⟩
    rw [h hd]
    rfl
  | false =>
    refine ⟨w.wal, ?_⟩
    rw [openLog, hd]
    rfl

/-- The database opened, then any number of reads, then one more. -/
def openGet (config : LsmConfig) (features : Features) (earlier : List Bytes) (key : Bytes) : M (Option Bytes) := do
  openWith config features
  gets earlier
  get key

theorem alone_openGet {w : World} {disk : List (ℕ × List Entry)} (h : Closed w disk) (config : LsmConfig)
    {features : Features} (hlisted : Recorded w features disk) (hb : features.bloom = true) (earlier : List Bytes)
    (key : Bytes) :
    ∃ w', alone t allOk (openGet config features earlier key).run w =
      some (.ok (filtered MemTable.new key (disk.map fun x => (sideOf w.dir x.1, x.2))), w') := by
  let live := disk.map fun x => runFilename x.1
  obtain ⟨q, hq, hmanifest⟩ := hlisted.manifest
  have hnames : ∀ run ∈ live, ∃ n, run = runFilename n := by
    intro run hrun
    obtain ⟨x, _, rfl⟩ := List.mem_map.mp hrun
    exact ⟨x.1, rfl⟩
  have hload := alone_loadManifest (t := t) hq hnames hmanifest
  obtain ⟨runs, w₁, hruns, hopened⟩ := h.openRuns (t := t) hb
  have hdir : exec t .readDir .ok w₁ = some (.ok (w₁.listing, false), w₁) := rfl
  obtain ⟨q', dir, hreclaim⟩ := alone_reclaim (t := t) (nodup_garbage w₁ live) (fun n hn => mem_dir_of_garbage hn) q
  have hempty : features.durability = true → logRecords ({ w₁ with dir := dir } : World).wal = [] := by
    rw [hopened.wal]
    exact hlisted.log
  obtain ⟨wal, hlog⟩ := alone_openLog_empty (t := t) hempty
  let w₂ : World := { w₁ with
    dir := dir
    wal := wal
    live := true
    config := config
    features := features
    memtable := MemTable.new
    runs := runs
    walOpen := features.durability
    lock := none
    nextSeq := q'
    cache := BlockCache.new config.blockCacheCapacity }
  have hstart : exec t (.startEngine config features MemTable.new runs features.durability q') .ok
      { w₁ with dir := dir, wal := wal } = some ((), w₂) := rfl
  have hflush : alone t allOk (flush config features).run w₂ = some (.ok (), w₂) := alone_flush_empty rfl rfl
  have hspawn : exec t .spawn .ok w₂ = some (.ok (), w₂) := rfl
  have hboot : alone t allOk (do
      flush config features
      io "spawn compaction thread" (perform .spawn) : M Unit).run w₂ = some (.ok (), w₂) := by
    rw [alone_bind_ok hflush]
    exact alone_io_ok (alone_mk hspawn)
  have hopen : alone t allOk (openWith config features).run w = some (.ok (), w₂) := by
    unfold openWith
    rw [alone_bind_ok (alone_io_ok (x := perform .createDir) (alone_mk (show exec t .createDir .ok w = some (.ok (), w)
      from rfl))), alone_bind_ok hload]
    dsimp only
    rw [alone_bind_ok hruns, alone_bind_ok (alone_io_ok (x := perform .readDir) (alone_mk hdir))]
    dsimp only
    rw [alone_bind_ok hreclaim]
    simp only [Bool.false_eq_true, if_false]
    rw [alone_bind_ok hlog, alone_lift hstart]
    exact alone_bind hboot _
  have hserving : Serving w₂ MemTable.new runs (disk.map Prod.snd) := hopened.serving rfl rfl rfl rfl rfl rfl
  rw [openGet, alone_bind_ok hopen]
  exact hserving.alone_reads hopened earlier key

/-! ## A sidecar of another run -/

theorem search_append (key : Bytes) (xs ys : List (Option RunFilter × List Entry)) :
    search key (xs ++ ys) = (search key xs).or (search key ys) := by
  induction xs with
  | nil => rfl
  | cons x xs ih =>
    obtain ⟨filter, es⟩ := x
    simp only [List.cons_append, search]
    split_ifs
    · rw [ih, Option.or_assoc]
    · exact ih

/-- Skipping a run changes the answer only where the run would have been asked, holds the key, and says
something else than the runs below it. -/
theorem filtered_eq_iff (m : MemTable) (key : Bytes) (f : RunFilter) (es : List Entry)
    (newer older : List (Option RunFilter × List Entry)) :
    filtered m key (newer ++ (some f, es) :: older) = filtered m key (newer ++ (none, es) :: older) ↔
      m.get key = none → search key newer = none → ∀ r, find es key = some r →
        f.mightContain key = true ∨ r.live = (search key older).bind Record.live := by
  unfold filtered
  rw [search_append, search_append]
  cases hm : m.get key with
  | some r => simp
  | none =>
    cases hs : search key newer with
    | some r => simp
    | none =>
      simp only [Option.none_or, search, mightContain, if_true, forall_const]
      by_cases hf : f.mightContain key = true
      · simp [hf]
      · cases hfind : find es key with
        | none => simp [hf]
        | some r =>
          simp only [hf, Bool.false_eq_true, if_false, Option.some_or, Option.bind_some, false_or,
            Option.some.injEq, forall_eq']
          exact eq_comm

theorem Closed.put_side {w : World} {disk : List (ℕ × List Entry)} (h : Closed w disk) {s : ℕ}
    {dir : SortedMap Text Data} {d : Option Data} (hd : ∀ x, d = some x → ∃ bytes, x = .bin bytes)
    (hlook : look dir = Function.update (look w.dir) (.side s) d) : Closed { w with dir := dir } disk := by
  refine { h with files := fun x hx => ?_ }
  have hrun : look dir (.run x.1) = look w.dir (.run x.1) := by rw [hlook, Function.update_of_ne (by simp)]
  by_cases hs : x.1 = s
  · obtain ⟨file, hwrite, hfile⟩ := (h.files x hx).file
    refine { h.files x hx with file := ⟨file, hwrite, hrun.trans hfile⟩, side := fun y hy => hd y ?_ }
    rw [← hy, hlook, hs, Function.update_self]
  · exact (h.files x hx).same hrun (by rw [hlook, Function.update_of_ne (by simpa using hs)])

/-- The answers of an engine opened over a directory. -/
def answersOf (t : Tid) (config : LsmConfig) (features : Features) (disk : List (ℕ × List Entry)) (m : MemTable)
    (earlier : List Bytes) (key : Bytes) (w : World) : Option (Except Error (Option Bytes)) :=
  (alone t allOk (reopenGet config features (disk.map fun x => runFilename x.1) m earlier key).run w).map Prod.fst

/-- The directory with these bytes as the sidecar of run `s`, or with none. -/
def withSidecar (w : World) (s : ℕ) (bytes : Bytes) : World :=
  { w with dir := w.dir.insert (sidecarPath (runFilename s)) (.bin bytes) }

def withoutSidecar (w : World) (s : ℕ) : World :=
  { w with dir := w.dir.erase (sidecarPath (runFilename s)) }

/-- The layers an engine sees when only the sidecar of `s` differs. -/
theorem layers_put_side {w : World} {newer older : List (ℕ × List Entry)} {s : ℕ} {es : List Entry}
    (hclosed : Closed w (newer ++ (s, es) :: older)) {dir : SortedMap Text Data} {d : Option Data}
    (hlook : look dir = Function.update (look w.dir) (.side s) d) :
    ((newer ++ (s, es) :: older).map fun x => (sideOf dir x.1, x.2)) =
      (newer.map fun x => (sideOf w.dir x.1, x.2)) ++ (sideOf dir s, es) ::
        older.map fun x => (sideOf w.dir x.1, x.2) := by
  have hnd := hclosed.nodup
  simp only [List.map_append, List.map_cons, List.nodup_append, List.nodup_cons] at hnd
  have hkeep : ∀ l : List (ℕ × List Entry), (∀ x ∈ l, x.1 ≠ s) →
      (l.map fun x => (sideOf dir x.1, x.2)) = l.map fun x => (sideOf w.dir x.1, x.2) := by
    intro l hl
    refine List.map_congr_left fun x hx => ?_
    have hside : look dir (.side x.1) = look w.dir (.side x.1) := by
      rw [hlook, Function.update_of_ne (by simpa using hl x hx)]
    simp only [sideOf, hside]
  rw [List.map_append, List.map_cons, hkeep newer, hkeep older]
  · exact fun x hx heq => hnd.2.1.1 (List.mem_map.mpr ⟨x, hx, heq⟩)
  · exact fun x hx heq => hnd.2.2 _ (List.mem_map_of_mem hx) s (by simp) heq

/-- The answers when the sidecar of `s` is the one of filter `f`. -/
theorem answersOf_withSidecar (laws : BloomLaws) {features : Features} (hbloom : features.bloom = true)
    {w : World} {newer older : List (ℕ × List Entry)} {s : ℕ} {es : List Entry}
    (hclosed : Closed w (newer ++ (s, es) :: older)) {f : RunFilter} {bytes : Bytes}
    (hbytes : f.sidecarBytes = .ok bytes) (config : LsmConfig) (m : MemTable) (earlier : List Bytes) (key : Bytes) :
    ∃ g : RunFilter, g.mightContain key = f.mightContain key ∧
      answersOf t config features (newer ++ (s, es) :: older) m earlier key (withSidecar w s bytes) =
        some (.ok (filtered m key ((newer.map fun x => (sideOf w.dir x.1, x.2)) ++ (some g, es) ::
          older.map fun x => (sideOf w.dir x.1, x.2)))) := by
  obtain ⟨g, hdec, hsame⟩ := decode_sidecarBytes laws hbytes
  have hlook : look (withSidecar w s bytes).dir = Function.update (look w.dir) (.side s) (some (.bin bytes)) :=
    look_insert w.dir (.side s) (.bin bytes)
  have hside : sideOf (withSidecar w s bytes).dir s = some g := by
    simp only [sideOf, hlook, Function.update_self, hdec]
  have h : Closed (withSidecar w s bytes) _ := hclosed.put_side (by simp) hlook
  obtain ⟨w', hrun⟩ := alone_reopenGet (t := t) h config hbloom m earlier key
  refine ⟨g, hsame key, ?_⟩
  rw [answersOf, hrun, layers_put_side hclosed hlook, hside]
  rfl

theorem answersOf_withoutSidecar {features : Features} (hbloom : features.bloom = true)
    {w : World} {newer older : List (ℕ × List Entry)} {s : ℕ} {es : List Entry}
    (hclosed : Closed w (newer ++ (s, es) :: older)) (config : LsmConfig) (m : MemTable) (earlier : List Bytes)
    (key : Bytes) :
    answersOf t config features (newer ++ (s, es) :: older) m earlier key (withoutSidecar w s) =
      some (.ok (filtered m key ((newer.map fun x => (sideOf w.dir x.1, x.2)) ++ (none, es) ::
        older.map fun x => (sideOf w.dir x.1, x.2)))) := by
  have hlook : look (withoutSidecar w s).dir = Function.update (look w.dir) (.side s) none :=
    look_erase w.dir (.side s)
  have hside : sideOf (withoutSidecar w s).dir s = none := by
    simp only [sideOf, hlook, Function.update_self]
  have h : Closed (withoutSidecar w s) _ := hclosed.put_side (by simp) hlook
  obtain ⟨w', hrun⟩ := alone_reopenGet (t := t) h config hbloom m earlier key
  rw [answersOf, hrun, layers_put_side hclosed hlook, hside]
  rfl

/-- The answers of a database that is opened. -/
def openAnswers (t : Tid) (config : LsmConfig) (features : Features) (earlier : List Bytes) (key : Bytes) (w : World) :
    Option (Except Error (Option Bytes)) := (alone t allOk (openGet config features earlier key).run w).map Prod.fst

theorem openAnswers_eq {w : World} {disk : List (ℕ × List Entry)} (h : Closed w disk) (config : LsmConfig)
    {features : Features} (hrec : Recorded w features disk) (hb : features.bloom = true) (earlier : List Bytes)
    (key : Bytes) :
    openAnswers t config features earlier key w = answersOf t config features disk MemTable.new earlier key w := by
  obtain ⟨w₁, hopen⟩ := alone_openGet (t := t) h config hrec hb earlier key
  obtain ⟨w₂, hreopen⟩ := alone_reopenGet (t := t) h config hb MemTable.new earlier key
  rw [openAnswers, answersOf, hopen, hreopen]
  rfl

theorem Recorded.put_side {w : World} {features : Features} {disk : List (ℕ × List Entry)} (h : Recorded w features disk)
    {s : ℕ} {dir : SortedMap Text Data} {d : Option Data}
    (hlook : look dir = Function.update (look w.dir) (.side s) d) : Recorded { w with dir := dir } features disk := by
  obtain ⟨q, hq, hmanifest⟩ := h.manifest
  refine ⟨⟨q, hq, ?_⟩, h.log⟩
  have hsame : look dir .manifest = look w.dir .manifest := by rw [hlook, Function.update_of_ne (by simp)]
  exact hsame.trans hmanifest

/-- Every key of a run that reads get down to is in the filter, or reads the same further down. -/
def Harmless (f : RunFilter) (m : MemTable) (newer : List (Option RunFilter × List Entry)) (es : List Entry)
    (older : List (Option RunFilter × List Entry)) : Prop :=
  ∀ key, m.get key = none → search key newer = none → ∀ r, find es key = some r →
    f.mightContain key = true ∨ r.live = (search key older).bind Record.live

/-- What the sidecar of another run does to the answers: nothing, exactly when every key of the run that
reads get down to is in the other run's filter, or reads the same further down. The memtable may hold anything; it is
empty when the database was just opened with nothing to replay. -/
theorem foreign_sidecar_iff (laws : BloomLaws) (t : Tid) (config : LsmConfig) (features : Features)
    (hbloom : features.bloom = true) (w : World) (newer older : List (ℕ × List Entry)) (s : ℕ)
    (es : List Entry) (hclosed : Closed w (newer ++ (s, es) :: older)) (m : MemTable) (f : RunFilter)
    (bytes : Bytes) (hbytes : f.sidecarBytes = .ok bytes) :
    ((∀ earlier key,
      answersOf t config features (newer ++ (s, es) :: older) m earlier key (withSidecar w s bytes) =
        answersOf t config features (newer ++ (s, es) :: older) m earlier key (withoutSidecar w s)) ↔
      Harmless f m (newer.map fun x => (sideOf w.dir x.1, x.2)) es (older.map fun x => (sideOf w.dir x.1, x.2))) ∧
    (Recorded w features (newer ++ (s, es) :: older) →
      ((∀ earlier key, openAnswers t config features earlier key (withSidecar w s bytes) =
          openAnswers t config features earlier key (withoutSidecar w s)) ↔
        Harmless f MemTable.new (newer.map fun x => (sideOf w.dir x.1, x.2)) es
          (older.map fun x => (sideOf w.dir x.1, x.2)))) := by
  have hiff : ∀ m : MemTable, (∀ earlier key,
      answersOf t config features (newer ++ (s, es) :: older) m earlier key (withSidecar w s bytes) =
        answersOf t config features (newer ++ (s, es) :: older) m earlier key (withoutSidecar w s)) ↔
      Harmless f m (newer.map fun x => (sideOf w.dir x.1, x.2)) es (older.map fun x => (sideOf w.dir x.1, x.2)) := by
    intro m
    constructor
    · intro h key
      obtain ⟨g, hsame, hwith⟩ := answersOf_withSidecar (t := t) laws hbloom hclosed hbytes config m [] key
      have heq := h [] key
      rw [hwith, answersOf_withoutSidecar hbloom hclosed, Option.some.injEq, Except.ok.injEq, filtered_eq_iff,
        hsame] at heq
      exact heq
    · intro h earlier key
      obtain ⟨g, hsame, hwith⟩ := answersOf_withSidecar (t := t) laws hbloom hclosed hbytes config m earlier key
      rw [hwith, answersOf_withoutSidecar hbloom hclosed, Option.some.injEq, Except.ok.injEq, filtered_eq_iff, hsame]
      exact h key
  refine ⟨hiff m, fun hrec => ?_⟩
  have hwith := look_insert w.dir (.side s) (.bin bytes)
  have hwithout := look_erase w.dir (.side s)
  have hclosed₁ : Closed (withSidecar w s bytes) _ := hclosed.put_side (by simp) hwith
  have hclosed₂ : Closed (withoutSidecar w s) _ := hclosed.put_side (by simp) hwithout
  have hrec₁ : Recorded (withSidecar w s bytes) features _ := hrec.put_side hwith
  have hrec₂ : Recorded (withoutSidecar w s) features _ := hrec.put_side hwithout
  simp only [openAnswers_eq hclosed₁ config hrec₁ hbloom, openAnswers_eq hclosed₂ config hrec₂ hbloom]
  exact hiff MemTable.new

omit [Deps] in
theorem length_le_flatten {bs : List (List Entry)} (h : ∀ b ∈ bs, b ≠ []) : bs.length ≤ bs.flatten.length := by
  induction bs with
  | nil => simp
  | cons b bs ih =>
    have hb := List.length_pos_of_ne_nil (h b (by simp))
    have hrest := ih fun x hx => h x (by simp [hx])
    simp only [List.length_cons, List.flatten_cons, List.length_append]
    omega

/-- A directory that holds one run, and the manifest that lists it. -/
def oneRun (s : ℕ) (file : Bytes) : World :=
  { World.initial with
    dir := (SortedMap.empty.insert (runFilename s) (.bin file)).insert MANIFEST (.text (manifestText 1 [runFilename s])) }

theorem look_oneRun (s : ℕ) (file : Bytes) : look (oneRun s file).dir =
    Function.update (Function.update (look SortedMap.empty) (.run s) (some (.bin file))) .manifest
      (some (.text (manifestText 1 [runFilename s]))) := by
  have hrun : look (SortedMap.empty.insert (runFilename s) (.bin file)) =
      Function.update (look SortedMap.empty) (.run s) (some (.bin file)) := look_insert _ (.run s) _
  rw [← hrun]
  exact look_insert _ .manifest _

theorem closed_oneRun {s : ℕ} {es : List Entry} {file : Bytes} (hwrite : writeRun es = .ok file)
    (ha : Ascending es) (hs : ∀ x ∈ es, x.Sized) (hlen : es.length ≤ 2 ^ 32) : Closed (oneRun s file) [(s, es)] where
  files x hx := by
    obtain rfl : x = (s, es) := by simpa using hx
    refine ⟨⟨file, hwrite, ?_⟩, fun file' bs hl => ?_, ha, hs, fun d hd => ?_⟩
    · rw [look_oneRun, Function.update_of_ne (by simp), Function.update_self]
    · have hle := length_le_flatten hl.nonempty
      rw [hl.entries] at hle
      exact hle.trans hlen
    · rw [look_oneRun, Function.update_of_ne (by simp), Function.update_of_ne (by simp)] at hd
      simp [look, SortedMap.get?, SortedMap.empty] at hd
  nodup := by simp
  known := rfl
  ids := by show 0 + 1 ≤ 2 ^ 64; decide

theorem recorded_oneRun (s : ℕ) (file : Bytes) (features : Features) (es : List Entry) :
    Recorded (oneRun s file) features [(s, es)] := by
  refine ⟨⟨1, by norm_num, ?_⟩, fun _ => rfl⟩
  exact SortedMap.get?_insert_self ..

end Reading

/-- A database of one run, of key 1, is opened with the sidecar of a run of key 5 beside it: key 1 is gone. -/
theorem foreign_sidecar_hides : letI := Deps.concrete
    ∃ file f bytes, writeRun [([1], .value [7])] = .ok file ∧
      ((builder true 1).addAll [[5]]).finish = some f ∧ f.sidecarBytes = .ok bytes ∧
      openAnswers 1 LsmConfig.default ⟨false, true⟩ [] [1] (withSidecar (oneRun 0 file) 0 bytes) = some (.ok none) ∧
      openAnswers 1 LsmConfig.default ⟨false, true⟩ [] [1] (withoutSidecar (oneRun 0 file) 0) = some (.ok (some [7])) := by
  let _ := Deps.concrete
  have hsized : ∀ x ∈ ([([1], .value [7])] : List Entry), x.Sized := by decide
  obtain ⟨file, hfile⟩ := (writeRun_cases fun e he => (hsized e he).flushable).2 (by decide)
  have hclosed : Closed (oneRun 0 file) ([] ++ (0, [([1], .value [7])]) :: []) :=
    closed_oneRun hfile (by decide) (by decide) (by decide)
  have hbloom : (⟨false, true⟩ : Features).bloom = true := rfl
  have hrec : Recorded (oneRun 0 file) ⟨false, true⟩ ([] ++ (0, [([1], .value [7])]) :: []) :=
    recorded_oneRun 0 file ⟨false, true⟩ _
  let f : RunFilter := ⟨([5] : Bytes)⟩
  obtain ⟨bytes, hbytes⟩ : ∃ bytes, f.sidecarBytes = .ok bytes := ⟨_, rfl⟩
  have hskip : f.mightContain [1] = false := by decide
  have hwith := look_insert (oneRun 0 file).dir (.side 0) (.bin bytes)
  have hwithout := look_erase (oneRun 0 file).dir (.side 0)
  refine ⟨file, f, bytes, hfile, rfl, hbytes, ?_, ?_⟩
  · obtain ⟨g, hsame, hanswer⟩ := answersOf_withSidecar (t := 1) concrete_laws hbloom hclosed hbytes
      LsmConfig.default MemTable.new [] [1]
    rw [hskip] at hsame
    have hnone : filtered MemTable.new [1] ([] ++ (some g, [([1], .value [7])]) :: []) = none := by
      simp [filtered, search, mightContain, hsame, MemTable.get, MemTable.new, SortedMap.get?, SortedMap.empty]
    have hopen := openAnswers_eq (t := 1) (hclosed.put_side (by simp) hwith) LsmConfig.default
      (hrec.put_side hwith) hbloom [] [1]
    exact hopen.trans (hanswer.trans (congrArg (fun o => some (Except.ok o)) hnone))
  · have hsome : filtered MemTable.new [1] ([] ++ (none, [([1], .value [7])]) :: []) = some [7] := by
      simp [filtered, search, mightContain, MemTable.get, MemTable.new, SortedMap.get?, SortedMap.empty]
    have hopen := openAnswers_eq (t := 1) (hclosed.put_side (by simp) hwithout) LsmConfig.default
      (hrec.put_side hwithout) hbloom [] [1]
    have hanswer := answersOf_withoutSidecar (t := 1) hbloom hclosed LsmConfig.default MemTable.new [] [1]
    exact hopen.trans (hanswer.trans (congrArg (fun o => some (Except.ok o)) hsome))

/-- The sidecar of a run that holds key 1 as well changes nothing. -/
theorem foreign_sidecar_shared_key : letI := Deps.concrete
    ∃ file f bytes, writeRun [([1], .value [7])] = .ok file ∧
      ((builder true 2).addAll [[1], [5]]).finish = some f ∧ f.sidecarBytes = .ok bytes ∧
      ∀ earlier key,
        openAnswers 1 LsmConfig.default ⟨false, true⟩ earlier key (withSidecar (oneRun 0 file) 0 bytes) =
        openAnswers 1 LsmConfig.default ⟨false, true⟩ earlier key (withoutSidecar (oneRun 0 file) 0) := by
  let _ := Deps.concrete
  have hsized : ∀ x ∈ ([([1], .value [7])] : List Entry), x.Sized := by decide
  obtain ⟨file, hfile⟩ := (writeRun_cases fun e he => (hsized e he).flushable).2 (by decide)
  have hclosed : Closed (oneRun 0 file) ([] ++ (0, [([1], .value [7])]) :: []) :=
    closed_oneRun hfile (by decide) (by decide) (by decide)
  let f : RunFilter := ⟨([5, 1] : Bytes)⟩
  obtain ⟨bytes, hbytes⟩ : ∃ bytes, f.sidecarBytes = .ok bytes := ⟨_, rfl⟩
  refine ⟨file, f, bytes, hfile, rfl, hbytes, ?_⟩
  refine ((foreign_sidecar_iff concrete_laws 1 LsmConfig.default ⟨false, true⟩ rfl (oneRun 0 file) [] [] 0
    [([1], .value [7])] hclosed MemTable.new f bytes hbytes).2 (recorded_oneRun 0 file ⟨false, true⟩ _)).mpr ?_
  intro key _ _ r hfind
  have hmem := mem_of_find hfind
  simp only [List.mem_singleton, Prod.mk.injEq] at hmem
  rw [hmem.1]
  exact Or.inl (by decide)

end LsmDb
