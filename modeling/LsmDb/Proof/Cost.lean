import LsmDb.Proof.Compaction
import LsmDb.Proof.Lookups

/-! What a point lookup reads: blocks of runs whose filter admits the key, newest first, one of each run at most, each
after a miss of the cache, and none once the key is found. -/
namespace LsmDb
open Lib
set_option autoImplicit false

section Cost
variable [Deps] {e : Env} {t : Tid} {c c' : Config} {key : Bytes} {log : List Event} {runs left : List SsTable}

/-- The data blocks read so far (`block_reads`). -/
def blockReads (log : List Event) : List (SsTable × ℕ) := log.filterMap fun ev =>
  match ev.op with
  | .readBlock table i => some (table, i)
  | _ => none

/-- The run may have the key: neither its filter nor its index rules it out. -/
def SsTable.Admits (table : SsTable) (key : Bytes) : Prop :=
  table.mightContain key = true ∧ table.candidate key < table.index.length

instance SsTable.decidableAdmits (table : SsTable) (key : Bytes) : Decidable (table.Admits key) :=
  inferInstanceAs (Decidable (_ ∧ _))

/-- The one block of each run that may have the key. -/
def candidates (key : Bytes) (runs : List SsTable) : List (SsTable × ℕ) :=
  (runs.filter fun r => r.Admits key).map fun r => (r, r.candidate key)

/-- The operation turned up the key. -/
def Event.Finds (key : Bytes) : Event → Prop
  | ⟨.cacheGet _, some block, _, _⟩ => find block key ≠ none
  | ⟨.readBlock _ _, .ok block, _, _⟩ => find block key ≠ none
  | _ => False

/-- The cache did not have the block. -/
def Event.Misses (table : SsTable) (i : ℕ) (ev : Event) : Prop :=
  ∃ w w', ev = ⟨.cacheGet (cacheKey table i), none, w, w'⟩

/-! ## The order of its steps -/

/-- Before the snapshot; the runs that are still to be searched; a run whose block the cache did not have; the rest,
when all that is left is to give up the handles. -/
inductive LookupStage where
  | start
  | searching (runs left : List SsTable)
  | reading (runs : List SsTable) (table : SsTable) (left : List SsTable)
  | done (runs : List SsTable)

/-- Storing a block, and giving up handles. -/
def Act.offside : Act → Bool
  | .cacheInsert _ _ | .release _ | .remove _ => true
  | _ => false

inductive LookupStep (key : Bytes) : LookupStage → (o : Act) → Res o → LookupStage → Prop
  | offside {s : LookupStage} {o : Act} {r : Res o} (hs : s ≠ .start) (ho : o.offside = true) : LookupStep key s o r s
  | memory {want : MemTable → List SsTable → Bool} {m : MemTable} {runs : List SsTable} (h : m.get key ≠ none) :
      LookupStep key .start (.snapshot want) (m, runs) (.done [])
  | snapshot {want : MemTable → List SsTable → Bool} {m : MemTable} {runs : List SsTable} (h : m.get key = none) :
      LookupStep key .start (.snapshot want) (m, runs) (.searching runs runs)
  -- runs the key cannot be in are passed over
  | hit {runs left rest : List SsTable} {table : SsTable} {block : DecodedBlock} (hl : table :: rest <:+ left)
      (h : table.Admits key) (hf : find block key = none) :
      LookupStep key (.searching runs left) (.cacheGet (cacheKey table (table.candidate key))) (some block)
        (.searching runs rest)
  | found {runs left rest : List SsTable} {table : SsTable} {block : DecodedBlock} (hl : table :: rest <:+ left)
      (h : table.Admits key) (hf : find block key ≠ none) :
      LookupStep key (.searching runs left) (.cacheGet (cacheKey table (table.candidate key))) (some block) (.done runs)
  | miss {runs left rest : List SsTable} {table : SsTable} (hl : table :: rest <:+ left) (h : table.Admits key) :
      LookupStep key (.searching runs left) (.cacheGet (cacheKey table (table.candidate key))) none
        (.reading runs table rest)
  | failed {runs rest : List SsTable} {table : SsTable} {err : Error} :
      LookupStep key (.reading runs table rest) (.readBlock table (table.candidate key)) (.error err) (.done runs)
  | read {runs rest : List SsTable} {table : SsTable} {block : DecodedBlock} (hf : find block key = none) :
      LookupStep key (.reading runs table rest) (.readBlock table (table.candidate key)) (.ok block)
        (.searching runs rest)
  | readFound {runs rest : List SsTable} {table : SsTable} {block : DecodedBlock} (hf : find block key ≠ none) :
      LookupStep key (.reading runs table rest) (.readBlock table (table.candidate key)) (.ok block) (.done runs)

theorem lookup_dropRuns {Q : LookupStage → Unit → Prop} {s : LookupStage} (tables : List SsTable) (hs : s ≠ .start)
    (hq : Q s ()) :
    (dropRuns tables).Follows (LookupStep key) Q s := by
  have huses : (dropRuns tables).Uses fun o => o.offside = true := by
    induction tables with
    | nil => trivial
    | cons table tables ih =>
      unfold dropRuns
      refine ⟨rfl, fun last => ?_⟩
      cases last with
      | true => exact ⟨rfl, fun _ => ⟨rfl, fun _ => ih⟩⟩
      | false => exact ih
  exact huses.follows (fun _ _ ho => .offside hs ho) fun _ => hq

/-- A search is over, or has runs left. -/
def LookupStage.Ended (runs : List SsTable) (s : LookupStage) : Prop :=
  s = .done runs ∨ ∃ left, s = .searching runs left

/-- One run: the search goes on behind it if it does not have the key. -/
theorem lookup_table {table : SsTable} {rest : List SsTable} (hl : table :: rest <:+ left)
    (hfilter : table.mightContain key = true) :
    FollowsM (LookupStep key)
      (fun s r => (r = none → ∃ left, s = .searching runs left ∧ rest <:+ left) ∧ (r ≠ none → s = .done runs))
      (fun s _ => s.Ended runs) (lookup table key) (.searching runs left) := by
  unfold lookup
  dsimp only
  split_ifs with hindex
  · exact ⟨fun _ => ⟨left, rfl, (List.suffix_cons table rest).trans hl⟩, fun hr => absurd rfl hr⟩
  have hadmits : table.Admits key := ⟨hfilter, not_le.mp hindex⟩
  -- where the search stands once it has the block
  have hblock : ∀ block : DecodedBlock, ∃ s, s = (if find block key = none then LookupStage.searching runs rest else .done runs) ∧
      s ≠ .start ∧ (find block key = none → ∃ left, s = .searching runs left ∧ rest <:+ left) ∧
      (find block key ≠ none → s = .done runs) := by
    intro block
    by_cases hf : find block key = none
    · exact ⟨_, rfl, by rw [if_pos hf]; simp, fun _ => ⟨rest, if_pos hf, List.suffix_rfl⟩, fun hr => absurd hf hr⟩
    · exact ⟨_, rfl, by rw [if_neg hf]; simp, fun hr => absurd hr hf, fun _ => if_neg hf⟩
  refine FollowsM.bind ?_
  unfold cachedBlock
  refine FollowsM.perform fun cached => ?_
  cases cached with
  | some block =>
    obtain ⟨s, hs, _, hend⟩ := hblock block
    refine ⟨s, ?_, hend⟩
    rw [hs]
    split_ifs with hf
    · exact .hit hl hadmits hf
    · exact .found hl hadmits hf
  | none =>
    refine ⟨_, .miss hl hadmits, FollowsM.bind fun r => ?_⟩
    cases r with
    | error err => exact ⟨_, .failed, Or.inl rfl⟩
    | ok block =>
      obtain ⟨s, hs, hstart, hend⟩ := hblock block
      refine ⟨s, ?_, FollowsM.perform fun _ => ⟨s, .offside hstart rfl, hend⟩⟩
      rw [hs]
      split_ifs with hf
      · exact .read hf
      · exact .readFound hf

theorem lookup_searchRuns (tables : List SsTable) (hl : tables <:+ left) :
    FollowsM (LookupStep key) (fun s _ => s.Ended runs) (fun s _ => s.Ended runs) (searchRuns key tables)
      (.searching runs left) := by
  induction tables generalizing left with
  | nil => exact Or.inr ⟨left, rfl⟩
  | cons table tables ih =>
    unfold searchRuns
    split_ifs with hfilter
    · exact ih ((List.suffix_cons table tables).trans hl)
    refine FollowsM.bind (Prog.Follows.mono (lookup_table hl (by simpa using hfilter)) fun s r hr => ?_)
    cases r with
    | error err => exact hr
    | ok record =>
      obtain ⟨hnone, hsome⟩ := hr
      rcases record with _ | ⟨_ | _⟩
      · obtain ⟨left, rfl, hrest⟩ := hnone rfl
        exact ih hrest
      · exact Or.inl (hsome (by simp))
      · exact Or.inl (hsome (by simp))

/-- How a lookup ends that found the key in the memtable, or had to go through the runs. -/
def LookupStage.Over (s : LookupStage) : Prop := (∃ runs, s = .done runs) ∨ ∃ runs left, s = .searching runs left

theorem lookup_get : (get key).run.Follows (LookupStep key) (fun s _ => s.Over) .start := by
  unfold get
  refine follows_perform fun snap => ?_
  obtain ⟨m, runs⟩ := snap
  dsimp only
  cases hget : m.get key with
  | some record =>
    refine ⟨_, .memory (by simp [hget]), ?_⟩
    cases record with
    | value v => exact Or.inl ⟨_, rfl⟩
    | tombstone => exact Or.inl ⟨_, rfl⟩
  | none =>
    refine ⟨_, .snapshot hget, Prog.Follows.bind (Prog.Follows.mono (lookup_searchRuns runs List.suffix_rfl) fun s r hr => ?_)⟩
    have hended : s.Ended runs := by
      cases r with
      | ok v => exact hr
      | error err => exact hr
    rcases hended with rfl | ⟨left, rfl⟩
    · exact Prog.Follows.bind (lookup_dropRuns runs (by simp) (Or.inl ⟨_, rfl⟩))
    · exact Prog.Follows.bind (lookup_dropRuns runs (by simp) (Or.inr ⟨_, _, rfl⟩))

/-! ## What its steps read -/

/-- A lookup took its snapshot of this memtable and these runs. -/
def Snapshotted (log : List Event) (m : MemTable) (runs : List SsTable) : Prop :=
  ∃ ev ∈ log, (∃ want, ev.op = .snapshot want) ∧ ev.before.memtable = m ∧ ev.before.runs = runs

/-- The runs a lookup has to go through. -/
def consulted (key : Bytes) (m : MemTable) (runs : List SsTable) : List SsTable := if m.get key = none then runs else []

/-- What a lookup has read when it may read no more. -/
structure LookedUp (key : Bytes) (log : List Event) (runs : List SsTable) : Prop where
  once : (blockReads log).Sublist (candidates key runs)
  missed : ∀ table i, (table, i) ∈ blockReads log → ∃ ev ∈ log, ev.Misses table i
  stops : ∀ before ev after, log = before ++ ev :: after → ev.Finds key → blockReads after = []

/-- What it has read so far, with what it may read yet. -/
structure Searching (key : Bytes) (log : List Event) (runs : List SsTable) (ahead : List (SsTable × ℕ)) : Prop where
  once : (blockReads log ++ ahead).Sublist (candidates key runs)
  missed : ∀ table i, (table, i) ∈ blockReads log → ∃ ev ∈ log, ev.Misses table i
  clean : ∀ ev ∈ log, ¬ ev.Finds key

variable {ahead : List (SsTable × ℕ)} {ev : Event}

theorem blockReads_append (log log' : List Event) : blockReads (log ++ log') = blockReads log ++ blockReads log' :=
  List.filterMap_append

theorem missed_append (h : ∀ table i, (table, i) ∈ blockReads log → ∃ ev ∈ log, ev.Misses table i)
    (hev : ∀ table i, (table, i) ∈ blockReads [ev] → ∃ x ∈ log ++ [ev], x.Misses table i) :
    ∀ table i, (table, i) ∈ blockReads (log ++ [ev]) → ∃ x ∈ log ++ [ev], x.Misses table i := by
  intro table i hin
  rw [blockReads_append, List.mem_append] at hin
  rcases hin with hin | hin
  · obtain ⟨x, hx, hmiss⟩ := h table i hin
    exact ⟨x, List.mem_append_left _ hx, hmiss⟩
  · exact hev table i hin

/-- An operation that reads nothing and finds nothing. -/
theorem Searching.pass (h : Searching key log runs ahead) (hread : blockReads [ev] = []) (hf : ¬ ev.Finds key) :
    Searching key (log ++ [ev]) runs ahead := by
  refine ⟨?_, missed_append h.missed (by simp [hread]), fun x hx => ?_⟩
  · rw [blockReads_append, hread, List.append_nil]
    exact h.once
  · rcases List.mem_append.mp hx with hx | hx
    · exact h.clean x hx
    · rw [List.mem_singleton.mp hx]
      exact hf

theorem Searching.fewer {ahead' : List (SsTable × ℕ)} (h : Searching key log runs ahead) (hs : ahead'.Sublist ahead) :
    Searching key log runs ahead' :=
  { h with once := (List.Sublist.append_left hs _).trans h.once }

/-- A block that does not have the key. -/
theorem Searching.read {table : SsTable} {i : ℕ} {w w' : World} {r : Except Error DecodedBlock}
    (h : Searching key log runs ((table, i) :: ahead)) (hmiss : ∃ x ∈ log, x.Misses table i)
    (hf : ¬ Event.Finds key ⟨.readBlock table i, r, w, w'⟩) :
    Searching key (log ++ [⟨.readBlock table i, r, w, w'⟩]) runs ahead := by
  refine ⟨?_, missed_append h.missed fun table' i' hin => ?_, fun x hx => ?_⟩
  · rw [blockReads_append, List.append_assoc]
    exact h.once
  · obtain ⟨rfl, rfl⟩ := Prod.mk.inj (List.mem_singleton.mp hin)
    obtain ⟨x, hx, hmiss⟩ := hmiss
    exact ⟨x, List.mem_append_left _ hx, hmiss⟩
  · rcases List.mem_append.mp hx with hx | hx
    · exact h.clean x hx
    · rw [List.mem_singleton.mp hx]
      exact hf

theorem Searching.ended (h : Searching key log runs ahead) : LookedUp key log runs :=
  ⟨(List.sublist_append_left _ _).trans h.once, h.missed, fun before x after hlog hfinds =>
    absurd hfinds (h.clean x (by rw [hlog]; simp))⟩

/-- The last block that is read, found or not. -/
theorem Searching.over (h : Searching key log runs ahead) (hread : (blockReads [ev]).Sublist ahead)
    (hmiss : ∀ table i, (table, i) ∈ blockReads [ev] → ∃ x ∈ log, x.Misses table i) :
    LookedUp key (log ++ [ev]) runs := by
  refine ⟨?_, missed_append h.missed fun table i hin => ?_, fun before x after hlog hfinds => ?_⟩
  · rw [blockReads_append]
    exact (List.Sublist.append_left hread _).trans h.once
  · obtain ⟨x, hx, hx'⟩ := hmiss table i hin
    exact ⟨x, List.mem_append_left _ hx, hx'⟩
  · rcases List.eq_nil_or_concat after with rfl | ⟨after, last, rfl⟩
    · rfl
    · rw [List.concat_eq_append, ← List.cons_append, ← List.append_assoc] at hlog
      obtain ⟨rfl, _⟩ := List.append_inj' hlog rfl
      exact absurd hfinds (h.clean x (List.mem_append_right _ List.mem_cons_self))

theorem LookedUp.pass (h : LookedUp key log runs) (hread : blockReads [ev] = []) : LookedUp key (log ++ [ev]) runs := by
  refine ⟨?_, missed_append h.missed (by simp [hread]), fun before x after hlog hfinds => ?_⟩
  · rw [blockReads_append, hread, List.append_nil]
    exact h.once
  · rcases List.eq_nil_or_concat after with rfl | ⟨after, last, rfl⟩
    · rfl
    · rw [List.concat_eq_append, ← List.cons_append, ← List.append_assoc] at hlog
      obtain ⟨rfl, hlast⟩ := List.append_inj' hlog rfl
      rw [List.concat_eq_append, blockReads_append, h.stops before x after rfl hfinds, ← hlast, hread]
      rfl

theorem candidates_suffix {table : SsTable} {rest : List SsTable} (hl : table :: rest <:+ left) (h : table.Admits key) :
    ((table, table.candidate key) :: candidates key rest).Sublist (candidates key left) := by
  have hcons : candidates key (table :: rest) = (table, table.candidate key) :: candidates key rest := by
    rw [candidates, List.filter_cons_of_pos (by simpa using h)]
    rfl
  rw [← hcons]
  exact (hl.sublist.filter _).map _

/-- The runs come from the snapshot. -/
def Consults (key : Bytes) (log : List Event) (runs : List SsTable) : Prop :=
  ∃ m all, Snapshotted log m all ∧ runs = consulted key m all

theorem Consults.append (h : Consults key log runs) (ev : Event) : Consults key (log ++ [ev]) runs := by
  obtain ⟨m, all, ⟨x, hx, hsnap⟩, hruns⟩ := h
  exact ⟨m, all, ⟨x, List.mem_append_left _ hx, hsnap⟩, hruns⟩

def LookupLog (key : Bytes) (log : List Event) : LookupStage → Prop
  | .start => log = []
  | .searching runs left => Consults key log runs ∧ Searching key log runs (candidates key left)
  | .reading runs table left => Consults key log runs ∧
      Searching key log runs ((table, table.candidate key) :: candidates key left) ∧
      ∃ ev ∈ log, ev.Misses table (table.candidate key)
  | .done runs => Consults key log runs ∧ LookedUp key log runs

theorem snapshotted_first {want : MemTable → List SsTable → Bool} {m : MemTable} {all : List SsTable} {ch : Choice} {w w' : World}
    (hx : exec t (.snapshot want) ch w = some ((m, all), w')) : Snapshotted [⟨.snapshot want, (m, all), w, w'⟩] m all := by
  simp only [exec] at hx
  split at hx
  · obtain ⟨hres, _⟩ := Prod.mk.inj (Option.some.inj hx)
    obtain ⟨rfl, rfl⟩ := Prod.mk.inj hres
    exact ⟨_, List.mem_cons_self, ⟨want, rfl⟩, rfl, rfl⟩
  · simp at hx

theorem LookupLog.step {s s' : LookupStage} {o : Act} {ch : Choice} {r : Res o} {w w' : World} (h : LookupLog key log s)
    (hx : exec t o ch w = some (r, w')) (hn : LookupStep key s o r s') : LookupLog key (log ++ [⟨o, r, w, w'⟩]) s' := by
  cases hn with
  | offside hs ho =>
    have hplain : blockReads [⟨o, r, w, w'⟩] = [] ∧ ¬ Event.Finds key ⟨o, r, w, w'⟩ := by
      cases o with
      | cacheInsert | release | remove => exact ⟨rfl, id⟩
      | _ => cases ho
    cases s with
    | start => exact absurd rfl hs
    | searching runs left => exact ⟨h.1.append _, h.2.pass hplain.1 hplain.2⟩
    | reading runs table left =>
      obtain ⟨hcon, hsearch, x, hin, hmiss⟩ := h
      exact ⟨hcon.append _, hsearch.pass hplain.1 hplain.2, x, List.mem_append_left _ hin, hmiss⟩
    | done runs => exact ⟨h.1.append _, h.2.pass hplain.1⟩
  | @memory want m all hget =>
    obtain rfl : log = [] := h
    refine ⟨⟨m, all, snapshotted_first hx, ?_⟩, ⟨List.nil_sublist _, nofun, ?_⟩⟩
    · rw [consulted, if_neg hget]
    · intro before ev after hlog hfinds
      rw [List.nil_append, eq_comm, List.append_eq_singleton_iff] at hlog
      rcases hlog with ⟨_, hcons⟩ | ⟨_, hcons⟩
      · obtain ⟨_, rfl⟩ := List.cons.inj hcons
        rfl
      · cases hcons
  | @snapshot want m all hget =>
    obtain rfl : log = [] := h
    refine ⟨⟨m, all, snapshotted_first hx, ?_⟩, ⟨List.Sublist.refl _, nofun, ?_⟩⟩
    · rw [consulted, if_pos hget]
    · intro ev hev hfinds
      rw [List.nil_append, List.mem_singleton] at hev
      subst hev
      exact hfinds
  | hit hl hadmits hf =>
    obtain ⟨hcon, hsearch⟩ := h
    refine ⟨hcon.append _, (hsearch.fewer ?_).pass rfl fun hfinds => hfinds hf⟩
    exact (List.sublist_cons_self _ _).trans (candidates_suffix hl hadmits)
  | found hl hadmits hf =>
    obtain ⟨hcon, hsearch⟩ := h
    exact ⟨hcon.append _, hsearch.over (List.nil_sublist _) (by simp [blockReads])⟩
  | miss hl hadmits =>
    obtain ⟨hcon, hsearch⟩ := h
    refine ⟨hcon.append _, (hsearch.fewer (candidates_suffix hl hadmits)).pass rfl id, ?_⟩
    exact ⟨_, List.mem_append_right _ List.mem_cons_self, w, w', rfl⟩
  | failed | readFound =>
    obtain ⟨hcon, hsearch, x, hin, hmiss⟩ := h
    refine ⟨hcon.append _, hsearch.over (List.singleton_sublist.mpr List.mem_cons_self) fun table i hread => ?_⟩
    obtain ⟨rfl, rfl⟩ := Prod.mk.inj (List.mem_singleton.mp hread)
    exact ⟨x, hin, hmiss⟩
  | read hf =>
    obtain ⟨hcon, hsearch, x, hin, hmiss⟩ := h
    exact ⟨hcon.append _, hsearch.read ⟨x, hin, hmiss⟩ fun hfinds => hfinds hf⟩

/-! ## Every lookup -/

/-- Whatever the other threads do meanwhile and whichever reads fail, a get reads nothing if its key is in the
memtable; else it reads at most one block of each run of its snapshot, newest first, only of runs whose filter and index
admit the key, only blocks that the cache did not have, and none once the key has turned up. -/
theorem lookup_cost (hr : Reach e c) {config : LsmConfig} {features : Features}
    (hth : c.threads t = .running (.get key) ((Call.get key).program config features)) (hd : During e t c log c')
    {reply : Reply} (hdone : c'.threads t = .running (.get key) (.done reply)) :
    ∃ m runs, Snapshotted log m runs ∧ LookedUp key log (consulted key m runs) := by
  have hget : ((Call.get key).program config features).Follows (LookupStep key) (fun s _ => s.Over) .start :=
    Prog.Follows.bind (Prog.Follows.mono lookup_get fun s _ hs => hs)
  obtain ⟨prog, s, hrun, hend, hlog⟩ := hd.track hr hth hget (R := LookupLog key) rfl
    fun log s s' o ch r w w' _ hx hn hl => hl.step hx hn
  obtain ⟨_, rfl⟩ := Thread.running.inj (hrun.symm.trans hdone)
  rcases hend with ⟨runs, rfl⟩ | ⟨runs, left, rfl⟩
  · obtain ⟨⟨m, all, hsnap, rfl⟩, hlook⟩ := hlog
    exact ⟨m, all, hsnap, hlook⟩
  · obtain ⟨⟨m, all, hsnap, rfl⟩, hsearch⟩ := hlog
    exact ⟨m, all, hsnap, hsearch.ended⟩

omit [Deps] in
/-- Two runs with filters, and a lookup of a key that only the older one has. -/
theorem lookup_cost_of_two : letI := Deps.concrete
    ∃ c c' log, Reach Env.wild c ∧ c.world.runs.length = 2 ∧ During Env.wild 1 c log c' ∧
      c'.threads 1 = .running (.get [1]) (.done (.value (.ok (some [2])))) ∧
      ∃ m runs, Snapshotted log m runs ∧ LookedUp [1] log (consulted [1] m runs) := by
  let _ := Deps.concrete
  have hplay : Env.wild.leads [
      .alone 1 allOk (.openWith LsmConfig.default ⟨false, true⟩), .alone 1 allOk (.put [1] [2]), .alone 1 allOk .flush,
      .alone 1 allOk (.put [3] [4]), .alone 1 allOk .flush]
      (fun c => c.world.runs.length = 2 ∧ canStart c.world 1 (.get [1]) = true ∧
        Env.wild.permitsCall c.world (.get [1]) = true ∧
        (playProg Env.wild 1 allOk ((Call.get [1]).program c.world.config c.world.features)
          (started c.world 1 (.get [1]))).any (fun r => r.1 = .value (.ok (some [2]))) = true) = true := by
    decide +kernel
  obtain ⟨c, hreach, hc⟩ := Env.reach_leads hplay
  obtain ⟨hlen, hcan, hallow, hrun⟩ := of_decide_eq_true hc
  obtain ⟨⟨reply, w⟩, hprog, hok⟩ := (Option.any_eq_true _ _).mp hrun
  obtain rfl : reply = .value (.ok (some [2])) := of_decide_eq_true hok
  obtain ⟨c₁, log, c₂, hc₁, hw₁, hth, hd, hw₂, hdone⟩ :=
    hreach.playCall hcan (fun _ => Env.allowsCall_of_permits hallow) hprog
  exact ⟨c₁, c₂, log, hc₁, by rw [hw₁]; exact hlen, hd, hdone, lookup_cost hc₁ hth hd hdone⟩

end Cost
end LsmDb
