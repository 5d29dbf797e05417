import LsmDb.Proof.Directory
import LsmDb.Proof.Extremes
import LsmDb.Proof.Written

/-! Filters hide no key. Whatever has failed before, a filter of a run in the run list contains every key of the run; and
as long as the runs can be read at all, a `get` that asks the filters answers as one of an engine that has none. -/
namespace LsmDb
open Lib
set_option autoImplicit false

section Filters
variable [Deps] {e : Env} {c : Config} {t : Tid}

/-! ## An engine without filters -/

def SsTable.unfiltered (r : SsTable) : SsTable := { r with filter := none }

/-- The engine with every filter taken away. -/
def World.unfiltered (w : World) : World :=
  { w with
    runs := w.runs.map SsTable.unfiltered
    known := w.known.map SsTable.unfiltered }

theorem TableOf.unfiltered {r : SsTable} {es : List Entry} {bs : List (List Entry)} (h : TableOf r es bs) :
    TableOf r.unfiltered es bs := ⟨h.layout, h.ascending, h.index_eq, h.count_eq⟩

theorem Cached.unfiltered {cache : BlockCache} {known : List SsTable} (h : Cached cache known) :
    Cached cache (known.map SsTable.unfiltered) where
  ids := by
    intro r hr
    obtain ⟨x, hx, rfl⟩ := List.mem_map.mp hr
    exact h.ids x hx
  coherent := h.coherent.mono fun key block hkb => by
    obtain ⟨x, hx, hrest⟩ := hkb
    exact ⟨x.unfiltered, List.mem_map_of_mem hx, hrest⟩
  small := by
    intro hen r hr
    obtain ⟨x, hx, rfl⟩ := List.mem_map.mp hr
    exact h.small hen x hx

theorem Numbered.unfiltered {known : List SsTable} {n : ℕ} (h : Numbered known n) :
    Numbered (known.map SsTable.unfiltered) n where
  id_lt := by
    intro r hr
    obtain ⟨x, hx, rfl⟩ := List.mem_map.mp hr
    exact h.id_lt x hx
  id_ne := List.pairwise_map.mpr h.id_ne

theorem Serving.unfiltered {w : World} {m : MemTable} {runs : List SsTable} {ess : List (List Entry)}
    (h : Serving w m runs ess) : Serving w.unfiltered m (runs.map SsTable.unfiltered) ess where
  lock := h.lock
  memtable := h.memtable
  runs_eq := congrArg (List.map SsTable.unfiltered) h.runs_eq
  cached := h.cached.unfiltered
  numbered := h.numbered.unfiltered
  serves := by
    refine List.forall₂_map_left_iff.mpr (h.serves.imp fun r es hs => ?_)
    obtain ⟨bs, htable⟩ := hs.table
    exact ⟨List.mem_map_of_mem hs.known, ⟨bs, htable.unfiltered⟩, hs.sized⟩

/-- Filters that cover their runs skip only runs that do not hold the key. -/
theorem search_covered {runs : List SsTable} {ess : List (List Entry)}
    (h : List.Forall₂ (fun r es => Covers r.filter es) runs ess) (key : Bytes) :
    search key ((runs.map SsTable.filter).zip ess) =
      search key (((runs.map SsTable.unfiltered).map SsTable.filter).zip ess) := by
  induction h with
  | nil => rfl
  | @cons r es runs ess hcover _ ih =>
    have hnone : mightContain r.unfiltered.filter key = true := rfl
    simp only [List.map_cons, List.zip_cons_cons, search, hnone, if_true]
    split_ifs with hpass
    · rw [ih]
    · cases hfind : find es key with
      | none => exact ih
      | some rec => exact absurd (hcover (key, rec) (mem_of_find hfind)) hpass

/-! ## Runs that can be read -/

/-- Every call of the run writes entries that the reader accepts. -/
theorem Reach.runs_sized (h : Reach e c) {l : ℕ} (hl : e.limit = some l) (hle : l ≤ MAX_RECORD_LEN) :
    Runs e (fun _ call => ∀ x ∈ call.ops, x.Sized) c := by
  induction h with
  | initial => exact .initial
  | @step c c' lab hr ha hs ih =>
    refine ih.step (fun t call hstart => ?_) ha hs
    subst hstart
    by_cases ht : t = compactorTid
    · simp only [LsmDb.step] at hs
      split_ifs at hs with hcan
      obtain rfl := (canStart_cases hcan).2.mp ht
      simp [Call.ops]
    · intro x hx
      obtain ⟨hkey, hvalue⟩ := (ha ht).1 l hl x hx
      exact ⟨hkey, hvalue.trans hle⟩

/-- Within the limits of the reader and of the block cache, a live engine can serve every read, and its filters cover
its runs. -/
theorem Reach.serving (laws : BloomLaws) (h : Reach e c) (hsmall : e.small = true) {l : ℕ} (hl : e.limit = some l)
    (hle : l ≤ MAX_RECORD_LEN) (hlive : c.world.live = true) (hlock : c.world.lock = none) :
    ∃ ess, Serving c.world c.world.memtable c.world.runs ess ∧
      List.Forall₂ (fun r es => Covers r.filter es) c.world.runs ess := by
  obtain ⟨g, A, hrun⟩ := h.running hlive
  obtain ⟨S, hholds⟩ := (originProtocol_sound (e := e) fun x hx => hx.fitsU32).at_runs (h.runs_sized hl hle)
  have hdata : c.world.From Entry.Sized := Honest.data hholds.inv
  have hrow : ∀ r ∈ c.world.runs, ∃ es, Serves c.world.known r es ∧ Covers r.filter es := by
    intro r hr
    obtain ⟨s, _, hof⟩ := hrun.session.known r (hrun.session.runs_known r hr)
    obtain ⟨_, es, bs, htable, hsized⟩ := hdata.runs r hr
    obtain ⟨bs', htable'⟩ := hof.table
    have hsame := htable.unique hsized htable'
    refine ⟨es, ⟨hrun.session.runs_known r hr, ⟨bs, htable⟩, hsized⟩, ?_⟩
    rw [← hsame]
    exact hof.covers laws
  obtain ⟨ess, hess⟩ : ∃ ess, List.Forall₂ (fun r es => Serves c.world.known r es ∧ Covers r.filter es) c.world.runs ess := by
    generalize c.world.runs = runs at hrow
    induction runs with
    | nil => exact ⟨[], .nil⟩
    | cons r runs ih =>
      obtain ⟨es, hes⟩ := hrow r (by simp)
      obtain ⟨ess, hess⟩ := ih fun x hx => hrow x (by simp [hx])
      exact ⟨es :: ess, .cons hes hess⟩
  refine ⟨ess, ⟨hlock, rfl, rfl, hrun.session.cached hsmall, ⟨hrun.session.id_lt, hrun.session.id_ne⟩,
    hess.imp fun _ _ hx => hx.1⟩, hess.imp fun _ _ hx => hx.2⟩

/-- A filter of a run in the run list contains every key of the run, whatever fails. Within the sizes the reader accepts
and the blocks the cache can tell apart, a `get` of a live engine succeeds, and answers as it would if no run had a
filter. -/
theorem filters_hide_nothing (laws : BloomLaws) (h : Reach e c) :
    (∀ r ∈ c.world.runs, ∃ es bs, TableOf r es bs ∧ ∀ x ∈ es, r.mightContain x.1 = true) ∧
      (e.small = true → (∃ l, e.limit = some l ∧ l ≤ MAX_RECORD_LEN) → c.world.live = true → c.world.lock = none →
        ∀ t key, ∃ v w w', alone t allOk (get key).run c.world = some (.ok v, w) ∧
          alone t allOk (get key).run c.world.unfiltered = some (.ok v, w')) := by
  constructor
  · intro r hr
    obtain ⟨g, A, hrun⟩ := h.running (h.live_of_run hr)
    obtain ⟨s, _, hof⟩ := hrun.session.known r (hrun.session.runs_known r hr)
    obtain ⟨bs, htable⟩ := hof.table
    exact ⟨g.content s, bs, htable, hof.covers laws⟩
  · rintro hsmall ⟨l, hl, hle⟩ hlive hlock t key
    obtain ⟨ess, hserving, hcovers⟩ := h.serving laws hsmall hl hle hlive hlock
    obtain ⟨w, _, hwith⟩ := alone_get (t := t) hserving key
    obtain ⟨w', _, hwithout⟩ := alone_get (t := t) hserving.unfiltered key
    rw [search_covered hcovers] at hwith
    exact ⟨_, w, w', hwith, hwithout⟩

omit [Deps] in
/-- Two flushed runs, a crash that leaves the older one's sidecar unreadable, and a reopen: one run has its filter. -/
theorem filters_hide_nothing_reopened : letI := Deps.concrete
    ∃ c, Reach (Env.calm false) c ∧ (c.world.runs.map fun r => r.filter.isSome) = [true, false] ∧
      (∀ r ∈ c.world.runs, ∃ es bs, TableOf r es bs ∧ ∀ x ∈ es, r.mightContain x.1 = true) ∧
      ∃ v w w', alone 2 allOk (get [1]).run c.world = some (.ok v, w) ∧
        alone 2 allOk (get [1]).run c.world.unfiltered = some (.ok v, w') := by
  let _ := Deps.concrete
  have hplay : (Env.calm false).leads [.alone 1 allOk (.openWith LsmConfig.default ⟨false, true⟩),
      .alone 1 allOk (.put [1] [2]), .alone 1 allOk .flush, .alone 1 allOk (.put [3] [4]), .alone 1 allOk .flush,
      .crash [(0, some [7])], .alone 1 allOk (.openWith LsmConfig.default ⟨false, true⟩)]
      (fun c => (c.world.runs.map fun r => r.filter.isSome) = [true, false] ∧ c.world.live = true ∧
        c.world.lock = none) = true := by decide +kernel
  obtain ⟨c, hreach, hc⟩ := Env.reach_leads hplay
  obtain ⟨hfilters, hlive, hlock⟩ := of_decide_eq_true hc
  have hall := filters_hide_nothing concrete_laws hreach
  exact ⟨c, hreach, hfilters, hall.1, hall.2 rfl ⟨_, rfl, le_rfl⟩ hlive hlock 2 [1]⟩

/-! ## A run that cannot be read -/

/-- The only run is skipped. -/
theorem OneRun.get_skipped {w : World} {table : SsTable} {key : Bytes} (h : OneRun w table) (hrest : AtRest w)
    (hskip : table.mightContain key = false) : ∃ w', callAlone 1 allOk (.get key) w = some (.value (.ok none), w') := by
  let w₀ : World := readerWorld (started w 1 (.get key)) 1
  have hmiss : w.memtable.get key = none := by rw [MemTable.get_eq_find, h.memtable]; rfl
  have hx : exec 1 (.snapshot fun m _ => (m.get key).isNone) .ok (started w 1 (.get key)) =
      some ((w.memtable, [table]), { w₀ with held := [(1, table)] }) := by
    simp [exec, started, w₀, readerWorld, h.lock, h.held, h.runs, hmiss]
  have hsearch : alone 1 allOk (searchRuns key [table]).run { w₀ with held := [(1, table)] } =
      some (.ok none, { w₀ with held := [(1, table)] }) := by
    simp only [searchRuns, if_pos hskip]
    rfl
  have hdrop : alone 1 allOk (dropRuns [table]) { w₀ with held := [(1, table)] } = some ((), { w₀ with held := [] }) :=
    alone_dropRuns_one (w := w₀) h.obsolete table
  have hget : alone 1 allOk (get key).run (started w 1 (.get key)) = some (.ok none, { w₀ with held := [] }) := by
    rw [get_run, alone_perform hx, getFrom]
    simp only [hmiss]
    rw [alone_bind hsearch, alone_bind hdrop]
    rfl
  exact ⟨_, callAlone_eq (hrest.canStart_get key) (alone_bind hget _)⟩

theorem OneRun.unfiltered {w : World} {table : SsTable} (h : OneRun w table) : Single w.unfiltered table.unfiltered :=
  { h with
    runs := congrArg (List.map SsTable.unfiltered) h.runs
    filter := rfl }

omit [Deps] in
/-- A value that is too long for the reader is flushed with its filter. A smaller key that the filter rules out is
absent; without the filter the block has to be read, and that fails. -/
theorem filter_hides_refusal : letI := Deps.concrete
    ∃ w₁ w₂ w₃ w₄ err, callAlone 1 allOk (.openWith eager ⟨false, true⟩) World.initial = some (.unit (.ok ()), w₁) ∧
      callAlone 1 allOk (.write (longPut (2 ^ 30 + 1))) w₁ = some (.unit (.ok ()), w₂) ∧
      callAlone 1 allOk (.get [0]) w₂ = some (.value (.ok none), w₃) ∧
      callAlone 1 allOk (.get [0]) w₂.unfiltered = some (.value (.error err), w₄) := by
  let _ := Deps.concrete
  let f : RunFilter := ⟨([1] : Bytes)⟩
  have hf : filterOf true (longPut (2 ^ 30 + 1)).entries = some f := rfl
  have hstorable : Storable (filterOf true (longPut (2 ^ 30 + 1)).entries) := by
    rw [hf]
    intro g hg
    obtain rfl := Option.some.inj hg
    exact ⟨_, rfl, by decide⟩
  obtain ⟨w₁, table, hopen, hw, htable, _, _, hfilter, hwrite⟩ :=
    (bulky_longPut (n := 2 ^ 30 + 1) (by omega) (by omega)).wrote hstorable
  obtain ⟨hone, hrest, hcache⟩ := hw.wrote (longPut (2 ^ 30 + 1)) table
  have hskip : table.mightContain [0] = false := by
    unfold SsTable.mightContain
    rw [hfilter, hf]
    rfl
  obtain ⟨w₃, hwith⟩ := hone.get_skipped hrest hskip
  have hkey : ([0] : Bytes) ≤ [1] := by decide
  obtain ⟨err, w₄, hwithout⟩ := hone.unfiltered.get_refused hkey ⟨hrest.ready, hrest.idle⟩ htable.unfiltered
    (longPut_unsized (by omega)) hcache
  exact ⟨w₁, _, w₃, w₄, err, hopen, hwrite, hwith, hwithout⟩

end Filters
end LsmDb
