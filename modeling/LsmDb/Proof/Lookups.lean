import LsmDb.Proof.Invariant
import Mathlib.Data.List.Pairwise

/-! Point lookups that share the block cache. Any number of lookups run at once, and in between runs are
opened and everything else about the world may change: each lookup returns what decoding the block from
the file would. -/
namespace LsmDb
open Lib
set_option autoImplicit false

section Lookups
variable [Deps]

def cacheKey (table : SsTable) (i : ℕ) : BlockKey := ⟨table.runId % 2 ^ 64, i % 2 ^ 32⟩

/-- No two opened runs share an identifier. -/
structure Numbered (known : List SsTable) (nextRunId : ℕ) : Prop where
  id_lt : ∀ r ∈ known, r.runId < nextRunId
  id_ne : known.Pairwise fun a b => a.runId ≠ b.runId

variable {known : List SsTable} {nextRunId : ℕ} {c : BlockCache} {table : SsTable} {i : ℕ}
  {block : DecodedBlock}

theorem Numbered.unique (hn : Numbered known nextRunId) {r r' : SsTable} (hr : r ∈ known) (hr' : r' ∈ known)
    (h : r.runId = r'.runId) : r = r' := by
  by_contra hne
  have hsymm : Std.Symm fun a b : SsTable => a.runId ≠ b.runId := ⟨fun _ _ hxy => Ne.symm hxy⟩
  exact hn.id_ne.forall hr hr' hne h

/-- A hit is the block that was asked for. -/
theorem Cached.hit (hc : Cached c known) (hn : Numbered known nextRunId) (hk : table ∈ known)
    (hi : i < table.index.length) (h : (c.get (cacheKey table i)).1 = some block) :
    table.readBlock i = .ok block := by
  have hen : c.enabled = true := by
    by_contra hne
    rw [BlockCache.get_disabled (by simpa using hne)] at h
    simp at h
  have hle := hc.small hen table hk
  obtain ⟨r, hr, hid, hblock⟩ := (BlockCache.get_spec hc.coherent (cacheKey table i)).2 block h
  have hid' : table.runId = r.runId := by
    have hlt := hc.ids table hk
    simp only [cacheKey] at hid
    rwa [Nat.mod_eq_of_lt hlt] at hid
  have hidx : i % 2 ^ 32 = i := Nat.mod_eq_of_lt (by omega)
  rw [← hn.unique hk hr hid'] at hblock
  simp only [cacheKey, hidx] at hblock
  exact hblock

theorem Cached.get (hc : Cached c known) (key : BlockKey) : Cached (c.get key).2 known where
  ids := hc.ids
  coherent := (BlockCache.get_spec hc.coherent key).1
  small := by
    rw [BlockCache.enabled_get]
    exact hc.small

theorem Cached.insert (hc : Cached c known) (hk : table ∈ known)
    (hi : i < table.index.length) (hb : table.readBlock i = .ok block) :
    Cached (c.insert (cacheKey table i) block) known := by
  by_cases hen : c.enabled = true
  · refine ⟨hc.ids, BlockCache.insert_spec hc.coherent ⟨table, hk, ?_, ?_⟩, fun _ => hc.small hen⟩
    · exact Nat.mod_eq_of_lt (hc.ids table hk)
    · have hle := hc.small hen table hk
      have hidx : i % 2 ^ 32 = i := Nat.mod_eq_of_lt (by omega)
      simp only [cacheKey, hidx]
      exact hb
  · rw [BlockCache.insert_disabled (by simpa using hen)]
    exact hc

theorem Cached.open (hc : Cached c known) (hid : table.runId < 2 ^ 64) (hsmall : c.enabled = true → table.index.length ≤ 2 ^ 32) :
    Cached c (table :: known) where
  ids x hmem := by
    rcases List.mem_cons.mp hmem with rfl | hmem
    · exact hid
    · exact hc.ids x hmem
  coherent := hc.coherent.mono fun key block hkb => by
    obtain ⟨x, hmem, hrest⟩ := hkb
    exact ⟨x, List.mem_cons_of_mem _ hmem, hrest⟩
  small hen x hmem := by
    rcases List.mem_cons.mp hmem with rfl | hmem
    · exact hsmall hen
    · exact hc.small hen x hmem

theorem Numbered.open (hn : Numbered known nextRunId) (hid : table.runId = nextRunId) :
    Numbered (table :: known) (nextRunId + 1) where
  id_lt x hmem := by
    rcases List.mem_cons.mp hmem with rfl | hmem
    · omega
    · have hx := hn.id_lt x hmem
      omega
  id_ne := by
    refine List.pairwise_cons.mpr ⟨fun x hmem heq => ?_, hn.id_ne⟩
    have hx := hn.id_lt x hmem
    omega

/-! ## The logic of lookups -/

/-- A lookup in progress relies on its table being open, and on the cache. -/
structure Shares (w : World) (A : Tid → Option SsTable) : Prop where
  cached : Cached w.cache w.known
  numbered : Numbered w.known w.nextRunId
  opened : ∀ t table, A t = some table → table ∈ w.known

/-- What a lookup does: it asks the cache, reads a block, and hands it to the cache. -/
def Act.reads : Act → Bool
  | .cacheGet _ | .cacheInsert _ _ | .readBlock _ _ => true
  | _ => false

theorem exec_reads {t : Tid} {o : Act} (h : o.reads = true) (c : Choice) (w : World) :
    ∃ r cache, exec t o c w = some (r, { w with cache := cache }) := by
  cases o <;> simp only [Act.reads, Bool.false_eq_true] at h
  · exact ⟨_, _, rfl⟩
  · exact ⟨_, _, rfl⟩
  · cases c with
    | fail n => cases n <;> exact ⟨_, w.cache, rfl⟩
    | ok | order _ _ | faults _ => exact ⟨_, w.cache, rfl⟩

def lookups : Logic Act Res where
  toMachine := machine
  Ann := Option SsTable
  allows _ _ c _ := c = .ok
  guard _ o _ := o.reads = true
  Inv := Shares

theorem Shares.cache {w : World} {A : Tid → Option SsTable} {cache : BlockCache} (h : Shares w A)
    (hc : Cached cache w.known) (t : Tid) : Shares { w with cache := cache } (Function.update A t (A t)) where
  cached := hc
  numbered := h.numbered
  opened := by
    rw [Function.update_eq_self]
    exact h.opened

/-- One lookup, whatever the others do in between. -/
theorem safe_lookup (t : Tid) (table : SsTable) (key : Bytes) :
    lookups.Safe t (fun _ r => r = table.lookup key) (lookup table key).run (some table) := by
  unfold lookup SsTable.lookup
  by_cases hle : table.index.length ≤ table.candidate key
  · simp only [if_pos hle]
    exact rfl
  · simp only [if_neg hle]
    have hi : table.candidate key < table.index.length := not_le.mp hle
    intro w A hinv ha
    have hinv' : Shares w A := hinv
    have hk := hinv'.opened t table ha
    refine ⟨rfl, fun c r w' _ hx => ?_⟩
    have hx' : some ((w.cache.get (cacheKey table (table.candidate key))).1,
        { w with cache := (w.cache.get (cacheKey table (table.candidate key))).2 }) = some (r, w') := hx
    obtain ⟨hr, rfl⟩ := Prod.mk.inj (Option.some.inj hx')
    refine ⟨A t, hinv'.cache (hinv'.cached.get _) t, ?_⟩
    rw [ha]
    cases r with
    | some block =>
      rw [hinv'.cached.hit hinv'.numbered hk hi hr]
      exact rfl
    | none =>
      intro w A hinv ha
      have hinv' : Shares w A := hinv
      refine ⟨rfl, fun c r w' hc hx => ?_⟩
      subst hc
      have hx' : some (table.readBlock (table.candidate key), w) = some (r, w') := hx
      obtain ⟨rfl, rfl⟩ := Prod.mk.inj (Option.some.inj hx')
      refine ⟨A t, by rw [Function.update_eq_self]; exact hinv, ?_⟩
      rw [ha]
      cases hread : table.readBlock (table.candidate key) with
      | error err => exact rfl
      | ok block =>
        intro w A hinv ha
        have hinv' : Shares w A := hinv
        refine ⟨rfl, fun c r w' _ hx => ?_⟩
        have hx' : some ((), { w with
            cache := w.cache.insert (cacheKey table (table.candidate key)) block }) = some (r, w') := hx
        obtain ⟨_, rfl⟩ := Prod.mk.inj (Option.some.inj hx')
        exact ⟨A t, hinv'.cache (hinv'.cached.insert (hinv'.opened t table ha) hi hread) t, rfl⟩

/-- Nothing but the cache has changed. -/
def SameButCache (w w' : World) : Prop := ∃ cache, w' = { w with cache := cache }

/-- A lookup by itself returns what its table returns, and touches nothing but the cache. -/
theorem run_lookup {w : World} (hc : Cached w.cache w.known) (hn : Numbered w.known w.nextRunId)
    {table : SsTable} (hk : table ∈ w.known) (t : Tid) (key : Bytes) :
    ∃ cache, Cached cache w.known ∧
      machine.runAlone t (fun _ _ => .ok) (lookup table key).run w =
        some (table.lookup key, { w with cache := cache }) := by
  have hshares : Shares w fun _ => some table := ⟨hc, hn, fun _ r hr => by rwa [← Option.some.inj hr]⟩
  have hclean : lookups.Clean t (fun _ _ => Choice.ok) (lookup table key).run w :=
    Logic.clean_of_forall fun _ _ => rfl
  have hgo : ∀ o w', o.reads = true → exec t o .ok w' ≠ none := by
    intro o w' ho
    obtain ⟨r, cache, hx⟩ := exec_reads (t := t) ho .ok w'
    simp [hx]
  have hkeep : ∀ o c w₁ r w₂, SameButCache w w₁ → o.reads = true → exec t o c w₁ = some (r, w₂) →
      SameButCache w w₂ := by
    intro o c w₁ r w₂ hw₁ ho hx
    obtain ⟨cache, rfl⟩ := hw₁
    obtain ⟨r', cache', hx'⟩ := exec_reads (t := t) ho c { w with cache := cache }
    rw [hx'] at hx
    exact ⟨cache', (Prod.mk.inj (Option.some.inj hx)).2.symm⟩
  have hself : SameButCache w w := ⟨w.cache, rfl⟩
  obtain ⟨r, w', _, hrun, hinv, ⟨cache, rfl⟩, rfl⟩ := Logic.Safe.run
    (L := lookups) (S := SameButCache w) (safe_lookup t table key) hshares hclean hself hkeep
    fun o w' _ ho => hgo o w' ho
  have hinv' : Shares { w with cache := cache } _ := hinv
  exact ⟨cache, hinv'.cached, hrun⟩

/-! ## Any number of lookups -/

/-- A lookup and what it has still to do. -/
structure Lookup where
  table : SsTable
  key : Bytes
  prog : P (Except Error (Option Record))

structure Pool where
  world : World
  lookups : Tid → Option Lookup

/-- An engine that has just been built, before it opens a run. -/
def Pool.start (w : World) (capacity : ℕ) : Pool :=
  ⟨{ w with cache := BlockCache.new capacity, known := [] }, fun _ => none⟩

inductive Pool.Step : Pool → Pool → Prop
  /-- A run is opened: by recovery, a flush or a compaction. -/
  | opened {p : Pool} {t : Tid} {name : Text} {run : OpenedRun} {filter : Option RunFilter} {c : Choice}
      {table : SsTable} {w : World} (hid : p.world.nextRunId < 2 ^ 64) (hblocks : run.index.length ≤ 2 ^ 32)
      (hx : exec t (.register name run filter) c p.world = some (table, w)) : Step p { p with world := w }
  /-- Anything that neither opens a run nor reads a block: the run list, the files, the memtable. -/
  | other {p : Pool} {w : World} (hcache : w.cache = p.world.cache) (hknown : w.known = p.world.known)
      (hid : w.nextRunId = p.world.nextRunId) : Step p { p with world := w }
  /-- A thread starts a lookup in a run that is open, retired or not. -/
  | started {p : Pool} {t : Tid} {table : SsTable} {key : Bytes} (hk : table ∈ p.world.known) :
      Step p { p with lookups := Function.update p.lookups t (some ⟨table, key, (lookup table key).run⟩) }
  /-- A thread performs the next operation of its lookup. -/
  | moved {p : Pool} {t : Tid} {table : SsTable} {key : Bytes} {o : Act}
      {k : Res o → P (Except Error (Option Record))} {r : Res o} {w : World}
      (hl : p.lookups t = some ⟨table, key, .op o k⟩) (hx : exec t o .ok p.world = some (r, w)) :
      Step p ⟨w, Function.update p.lookups t (some ⟨table, key, k r⟩)⟩

/-- Every lookup in progress will return what its table returns by itself. -/
structure Pool.Inv (p : Pool) (A : Tid → Option SsTable) : Prop where
  shares : Shares p.world A
  safe : ∀ t l, p.lookups t = some l →
    LsmDb.lookups.Safe t (fun _ r => r = l.table.lookup l.key) l.prog (A t)

theorem Pool.inv_start (w : World) (capacity : ℕ) : (Pool.start w capacity).Inv fun _ => none where
  shares := {
    cached := ⟨fun r hr => by simp [Pool.start] at hr, BlockCache.coherent_new _ capacity,
      fun _ r hr => by simp [Pool.start] at hr⟩
    numbered := ⟨fun r hr => by simp [Pool.start] at hr, List.Pairwise.nil⟩
    opened := fun t table h => by simp at h }
  safe t l h := by simp [Pool.start] at h

/-- The other lookups keep theirs when one thread is set to a new lookup. -/
theorem Pool.safe_update {p : Pool} {A : Tid → Option SsTable} (h : p.Inv A) {t : Tid} {l : Lookup}
    {a : Option SsTable}
    (hl : LsmDb.lookups.Safe t (fun _ r => r = l.table.lookup l.key) l.prog a) (t' : Tid) (l' : Lookup)
    (hl' : Function.update p.lookups t (some l) t' = some l') :
    LsmDb.lookups.Safe t' (fun _ r => r = l'.table.lookup l'.key) l'.prog (Function.update A t a t') := by
  by_cases ht : t' = t
  · subst ht
    rw [Function.update_self, Option.some.injEq] at hl'
    subst hl'
    rw [Function.update_self]
    exact hl
  · rw [Function.update_of_ne ht] at hl' ⊢
    exact h.safe t' l' hl'

theorem Pool.Step.inv {p p' : Pool} {A : Tid → Option SsTable} (hs : Pool.Step p p') (h : p.Inv A) :
    ∃ A', p'.Inv A' := by
  cases hs with
  | @opened _ name run filter c table w hid hblocks hx =>
    simp only [exec, Option.some.injEq, Prod.mk.injEq] at hx
    obtain ⟨rfl, rfl⟩ := hx
    refine ⟨A, ⟨h.shares.cached.open hid fun _ => hblocks, h.shares.numbered.open rfl, ?_⟩, h.safe⟩
    exact fun t r hr => List.mem_cons_of_mem _ (h.shares.opened t r hr)
  | @other w hcache hknown hid =>
    refine ⟨A, ⟨by rw [hcache, hknown]; exact h.shares.cached, by rw [hknown, hid]; exact h.shares.numbered, ?_⟩,
      h.safe⟩
    rw [hknown]
    exact h.shares.opened
  | @started t table key hk =>
    refine ⟨Function.update A t (some table), ⟨h.shares.cached, h.shares.numbered, ?_⟩,
      Pool.safe_update h (l := ⟨table, key, _⟩) (safe_lookup t table key)⟩
    intro t' r hr
    by_cases ht : t' = t
    · subst ht
      rw [Function.update_self, Option.some.injEq] at hr
      rwa [← hr]
    · rw [Function.update_of_ne ht] at hr
      exact h.shares.opened t' r hr
  | @moved t table key o k r w hl hx =>
    obtain ⟨a, hshares, hrest⟩ := (h.safe t _ hl p.world A h.shares rfl).2 .ok r w rfl hx
    exact ⟨Function.update A t a, hshares, Pool.safe_update h (l := ⟨table, key, k r⟩) hrest⟩

theorem Pool.inv_of_steps {w : World} {capacity : ℕ} {p : Pool}
    (hr : Relation.ReflTransGen Pool.Step (Pool.start w capacity) p) : ∃ A, p.Inv A := by
  induction hr with
  | refl => exact ⟨_, Pool.inv_start w capacity⟩
  | tail _ hs ih =>
    obtain ⟨A, h⟩ := ih
    exact hs.inv h

/-- A lookup that the others leave alone. -/
theorem Pool.steps_alone {p : Pool} {t : Tid} {table : SsTable} {key : Bytes}
    {prog : P (Except Error (Option Record))} {r : Except Error (Option Record)} {w : World}
    (hl : p.lookups t = some ⟨table, key, prog⟩)
    (hrun : machine.runAlone t (fun _ _ => .ok) prog p.world = some (r, w)) :
    Relation.ReflTransGen Pool.Step p ⟨w, Function.update p.lookups t (some ⟨table, key, .done r⟩)⟩ := by
  induction prog generalizing p with
  | done v =>
    obtain ⟨rfl, rfl⟩ := Prod.mk.inj (Option.some.inj hrun)
    rw [← hl, Function.update_eq_self]
  | op o k ih =>
    simp only [Machine.runAlone] at hrun
    split at hrun
    · simp at hrun
    · rename_i res w₁ hx
      have hnext := ih res (p := ⟨w₁, Function.update p.lookups t (some ⟨table, key, k res⟩)⟩)
        (Function.update_self ..) hrun
      rw [Function.update_idem] at hnext
      exact .head (.moved hl hx) hnext

/-- Whatever has happened, a lookup that has returned gave what its table gives by itself, and one that is
started now returns. -/
theorem lookup_through_cache (w : World) (capacity : ℕ) {p : Pool}
    (hr : Relation.ReflTransGen Pool.Step (Pool.start w capacity) p) :
    (∀ t table key r, p.lookups t = some ⟨table, key, .done r⟩ → r = table.lookup key) ∧
    ∀ t table key, table ∈ p.world.known →
      ∃ w', machine.runAlone t (fun _ _ => .ok) (lookup table key).run p.world = some (table.lookup key, w') := by
  obtain ⟨A, h⟩ := Pool.inv_of_steps hr
  refine ⟨fun t table key r hl => h.safe t _ hl, fun t table key hk => ?_⟩
  obtain ⟨cache, _, hrun⟩ := run_lookup h.shares.cached h.shares.numbered hk t key
  exact ⟨_, hrun⟩

end Lookups

/-- A second lookup finds the block that the first one left in the cache. -/
theorem lookup_through_cache_hit : letI := Deps.concrete
    ∃ p table, Relation.ReflTransGen Pool.Step (Pool.start World.initial 65536) p ∧
      (∃ r, p.lookups 1 = some ⟨table, [1], .done r⟩ ∧ r = table.lookup [1]) ∧
      (p.world.cache.get (cacheKey table 0)).1 = some [([1], .value [7])] ∧
      ∃ w', machine.runAlone 2 (fun _ _ => .ok) (lookup table [1]).run p.world =
        some (.ok (some (.value [7])), w') := by
  let _ := Deps.concrete
  let file := encodeBlock [([1], .value [7])]
  let run : OpenedRun := ⟨file, [⟨[1], 0, file.length, crc32c file⟩], 1⟩
  let table : SsTable := ⟨run.file, [], run.index, 1, none, 0⟩
  let p₁ : Pool := ⟨{ (Pool.start World.initial 65536).world with nextRunId := 1, known := [table] }, fun _ => none⟩
  have hfound : table.lookup [1] = .ok (some (.value [7])) := by decide +kernel
  have hregister : exec 0 (.register [] run none) .ok (Pool.start World.initial 65536).world =
      some (table, p₁.world) := rfl
  have hopen : Pool.Step (Pool.start World.initial 65536) p₁ := .opened (by decide) (by decide) hregister
  let p₂ : Pool := { p₁ with
    lookups := Function.update p₁.lookups 1 (some ⟨table, [1], (lookup table [1]).run⟩) }
  have hmem : table ∈ p₁.world.known := List.mem_cons_self
  have hstart : Pool.Step p₁ p₂ := .started hmem
  have hcheck : (machine.runAlone 1 (fun _ _ => .ok) (lookup table [1]).run p₁.world).any (fun r =>
      (r.2.cache.get (cacheKey table 0)).1 = some [([1], .value [7])]) = true := by decide +kernel
  obtain ⟨⟨r, w⟩, hrun, hcached⟩ := (Option.any_eq_true _ _).mp hcheck
  have hl : p₂.lookups 1 = some ⟨table, [1], (lookup table [1]).run⟩ :=
    Function.update_self 1 _ p₁.lookups
  have hsteps := ((Relation.ReflTransGen.single hopen).tail hstart).trans (Pool.steps_alone hl hrun)
  -- the run is still open
  obtain ⟨A, hinv⟩ := Pool.inv_of_steps (Relation.ReflTransGen.single hopen)
  obtain ⟨cache, _, hsame⟩ := run_lookup hinv.shares.cached hinv.shares.numbered hmem 1 [1]
  have hw : w = { p₁.world with cache := cache } := (Prod.mk.inj (Option.some.inj (hrun.symm.trans hsame))).2
  have hknown : table ∈ w.known := by
    rw [hw]
    exact hmem
  have hall := lookup_through_cache World.initial 65536 hsteps
  have hdone := Function.update_self (1 : Tid) (some (⟨table, [1], .done r⟩ : Lookup)) p₂.lookups
  obtain ⟨w', hagain⟩ := hall.2 2 table [1] hknown
  rw [hfound] at hagain
  exact ⟨_, table, hsteps, ⟨r, hdone, hall.1 1 table [1] r hdone⟩, of_decide_eq_true hcached, w', hagain⟩

end LsmDb
