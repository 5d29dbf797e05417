import LsmDb.Engine.Schedule
import LsmDb.Proof.Stages

/-! A compaction is all or nothing, whatever flushes land between its snapshot and its swap and whichever
of its steps fails. What a failed one leaves behind is a number: it has been taken from the sequence that
flushes take theirs from. -/
namespace LsmDb
open Lib
set_option autoImplicit false

section Compaction
variable [Deps] {e : Env} {t : Tid} {c c' : Config}

/-- Neither the memtable, nor the run list, nor the manifest changed. -/
def Event.Silent (ev : Event) : Prop :=
  ev.after.memtable = ev.before.memtable ∧ ev.after.runs = ev.before.runs ∧
    ev.after.dir.get? MANIFEST = ev.before.dir.get? MANIFEST

/-- The manifest was replaced, the memtable and the run list stay. -/
def Event.Commits (ev : Event) : Prop :=
  ∃ source, ev.op = .rename source MANIFEST ∧ ev.after.memtable = ev.before.memtable ∧ ev.after.runs = ev.before.runs

/-- The swap of the inputs for one output; the manifest already lists the new runs. -/
def Event.Swaps (ev : Event) (inputs : List SsTable) : Prop :=
  Swap ev.before inputs ev.after.runs ∧ ev.after.memtable = ev.before.memtable ∧
    ev.after.dir.get? MANIFEST = ev.before.dir.get? MANIFEST

/-- The inputs were the run list at the compaction's snapshot. -/
def Snapped (log : List Event) (inputs : List SsTable) : Prop :=
  ∃ ev ∈ log, (∃ want, ev.op = .snapshot want) ∧ ev.before.runs = inputs

/-- The steps that moved the sequence number on. -/
def spent (log : List Event) : ℕ := log.countP fun ev => ev.after.nextSeq ≠ ev.before.nextSeq

/-! ## The order of its steps -/

inductive CompactStage where
  | start
  | busy
  | few (inputs : List SsTable)
  | chosen (inputs : List SsTable)
  | merging (inputs : List SsTable)
  | committed (inputs : List SsTable)
  | swapped (inputs : List SsTable)

/-- The lock and the compactor's own flags. -/
def Act.flag : Act → Bool
  | .lock | .unlock | .awaitWork | .storeCompacting | .finishWork _ => true
  | _ => false

inductive CompactStep : CompactStage → (o : Act) → Res o → CompactStage → Prop
  | quiet {s : CompactStage} {o : Act} {r : Res o} (h : o.quiet = true) : CompactStep s o r s
  | flag {s : CompactStage} {o : Act} {r : Res o} (h : o.flag = true) : CompactStep s o r s
  | idle : CompactStep .start .swapCompacting false .start
  | busy : CompactStep .start .swapCompacting true .busy
  | few {want : MemTable → List SsTable → Bool} {m : MemTable} {runs : List SsTable} (h : runs.length < 2) :
      CompactStep .start (.snapshot want) (m, runs) (.few runs)
  | many {want : MemTable → List SsTable → Bool} {m : MemTable} {runs : List SsTable} (h : 2 ≤ runs.length) :
      CompactStep .start (.snapshot want) (m, runs) (.chosen runs)
  | number {inputs : List SsTable} {seq : ℕ} : CompactStep (.chosen inputs) .fetchAdd seq (.merging inputs)
  | failed {inputs : List SsTable} {source : Text} {err : IoError} :
      CompactStep (.merging inputs) (.rename source MANIFEST) (.error err) (.merging inputs)
  | commit {inputs : List SsTable} {source : Text} :
      CompactStep (.merging inputs) (.rename source MANIFEST) (.ok ()) (.committed inputs)
  | swap {inputs runs : List SsTable} : CompactStep (.committed inputs) (.install inputs runs) () (.swapped inputs)

/-- Where a compaction ends. -/
def CompactEnd (s : CompactStage) : Except Error Unit → Prop
  | .ok _ => s = .busy ∨ (∃ inputs, s = .few inputs) ∨ ∃ inputs, s = .swapped inputs
  | .error _ => ∃ inputs, s = .merging inputs

theorem follows_quiet {α : Type} {Q : CompactStage → α → Prop} {E : CompactStage → Error → Prop} {x : M α}
    {s : CompactStage} (h : Quiet x.run) (hq : ∀ v, Q s v) (he : ∀ err, E s err) : FollowsM CompactStep Q E x s :=
  FollowsM.still h (fun _ _ ho => .quiet ho) hq he

theorem follows_mergeRuns (features : Features) (inputs : List SsTable) :
    FollowsM CompactStep (fun s _ => s = .swapped inputs) (fun s _ => s = .merging inputs)
      (mergeRuns features inputs) (.chosen inputs) := by
  unfold mergeRuns
  refine FollowsM.perform fun seq => ⟨_, .number, ?_⟩
  refine FollowsM.perform fun faults => ⟨_, .quiet rfl, ?_⟩
  refine FollowsM.bind (follows_quiet (quiet_buildRun ..) (fun output => ?_) fun _ => rfl)
  refine FollowsM.withGuard (.flag rfl) ?_
  refine FollowsM.perform fun inner => ⟨_, .quiet rfl, ?_⟩
  refine FollowsM.perform fun q => ⟨_, .quiet rfl, ?_⟩
  refine FollowsM.bind (FollowsM.storeManifest (fun _ _ ho => .quiet ho) (fun _ => ⟨_, .flag rfl, rfl⟩) fun r => ?_)
  cases r with
  | ok v => exact ⟨_, .commit, FollowsM.last fun _ => ⟨_, .swap, _, .flag rfl, rfl⟩⟩
  | error err => exact ⟨_, .failed, _, .flag rfl, rfl⟩

theorem follows_compactInner (features : Features) :
    (compactInner features).run.Follows CompactStep CompactEnd .start := by
  refine follows_perform fun r => ?_
  obtain ⟨m, inputs⟩ := r
  by_cases hlen : inputs.length < 2
  · refine ⟨_, .few hlen, ?_⟩
    simp only [if_pos hlen]
    exact Or.inr (Or.inl ⟨inputs, rfl⟩)
  · refine ⟨_, .many (not_lt.mp hlen), ?_⟩
    simp only [if_neg hlen]
    refine Prog.Follows.bind (Prog.Follows.mono (follows_mergeRuns features inputs) ?_)
    intro s r hr
    refine Prog.Follows.bind ((quiet_dropRuns inputs).follows (fun _ _ ho => .quiet ho) fun _ => ?_)
    cases r with
    | ok v => exact Or.inr (Or.inr ⟨inputs, hr⟩)
    | error err => exact ⟨inputs, hr⟩

theorem follows_compact (config : LsmConfig) (features : Features) :
    (Call.compact.program config features).Follows CompactStep
      (fun s reply => ∃ r, reply = .unit r ∧ CompactEnd s r) .start := by
  refine Prog.Follows.bind (Prog.Follows.mono (Q := CompactEnd) ?_ fun s r hr => ⟨r, rfl, hr⟩)
  refine follows_perform fun _ => ⟨_, .flag rfl, ?_⟩
  refine Prog.Follows.bind (Prog.Follows.mono (Q := CompactEnd) ?_ ?_)
  · refine follows_perform fun busy => ?_
    cases busy with
    | true => exact ⟨_, .busy, Or.inl rfl⟩
    | false =>
      refine ⟨_, .idle, Prog.Follows.bind (Prog.Follows.mono (follows_compactInner features) ?_)⟩
      exact fun s r hr => follows_perform fun _ => ⟨_, .flag rfl, hr⟩
  · exact fun s r hr => follows_perform fun _ => ⟨_, .flag rfl, hr⟩

/-! ## What its steps change -/

variable {w w' : World}

theorem silent_of_reading {o : Act} {ch : Choice} {r : Res o} (hg : guardAct e t o w) (ho : o.reading = true)
    (hx : exec t o ch w = some (r, w')) : Event.Silent ⟨o, r, w, w'⟩ := by
  have hs : Still w w' := by
    refine exec_reading ho (fun name hname => ?_) hx
    subst hname
    exact hg.1
  exact ⟨hs.memtable, hs.runs, hs.manifest⟩

theorem silent_of_flag {o : Act} {ch : Choice} {r : Res o} (ho : o.flag = true) (hx : exec t o ch w = some (r, w')) :
    Event.Silent ⟨o, r, w, w'⟩ := by
  have hd := exec_differ hx
  have hno : ∀ f ∈ [Field.memtable, .runs], f ∉ o.touches := by
    cases o <;> simp [Act.flag, Act.touches] at ho ⊢
  have hfile : MANIFEST ∉ o.files := by
    cases o <;> simp [Act.flag, Act.files] at ho ⊢
  exact ⟨hd .memtable (hno _ (by simp)), hd .runs (hno _ (by simp)), exec_files hx hfile⟩

theorem exec_rename_error {source target : Text} {ch : Choice} {err : IoError}
    (hx : exec t (.rename source target) ch w = some (.error err, w')) : w' = w := by
  simp only [exec] at hx
  split at hx
  · exact (Prod.mk.inj (Option.some.inj hx)).2.symm
  · split at hx
    · exact (Prod.mk.inj (Option.some.inj hx)).2.symm
    · simp at hx

theorem exec_rename_ok {source target : Text} {ch : Choice} {v : Unit}
    (hx : exec t (.rename source target) ch w = some (.ok v, w')) : w'.memtable = w.memtable ∧ w'.runs = w.runs := by
  exact ⟨exec_differ hx .memtable (by simp [Act.touches]), exec_differ hx .runs (by simp [Act.touches])⟩

/-- What the operations so far have changed, by stage. -/
def CompactLog (log : List Event) : CompactStage → Prop
  | .start => ∀ ev ∈ log, ev.Silent
  | .busy => (∃ ev ∈ log, ev.op = .swapCompacting ∧ ev.before.compacting = true) ∧ ∀ ev ∈ log, ev.Silent
  | .few inputs => Snapped log inputs ∧ inputs.length < 2 ∧ ∀ ev ∈ log, ev.Silent
  | .chosen inputs | .merging inputs => Snapped log inputs ∧ 2 ≤ inputs.length ∧ ∀ ev ∈ log, ev.Silent
  | .committed inputs => Snapped log inputs ∧ 2 ≤ inputs.length ∧ ∃ before commit between,
      log = before ++ commit :: between ∧ commit.Commits ∧ ∀ ev ∈ before ++ between, ev.Silent
  | .swapped inputs => Snapped log inputs ∧ 2 ≤ inputs.length ∧ ∃ before commit between swap after,
      log = before ++ commit :: (between ++ swap :: after) ∧ commit.Commits ∧ swap.Swaps inputs ∧
        ∀ ev ∈ before ++ between ++ after, ev.Silent

theorem Snapped.append {log : List Event} {inputs : List SsTable} (h : Snapped log inputs) (ev : Event) :
    Snapped (log ++ [ev]) inputs := by
  obtain ⟨x, hx, hrest⟩ := h
  exact ⟨x, List.mem_append_left _ hx, hrest⟩

theorem forall_append {log : List Event} {ev : Event} (h : ∀ x ∈ log, x.Silent) (hev : ev.Silent) :
    ∀ x ∈ log ++ [ev], x.Silent := by
  intro x hx
  rcases List.mem_append.mp hx with hx | hx
  · exact h x hx
  · rwa [List.mem_singleton.mp hx]

/-- A silent operation keeps the stage. -/
theorem CompactLog.silent {log : List Event} {s : CompactStage} {ev : Event} (h : CompactLog log s) (hev : ev.Silent) :
    CompactLog (log ++ [ev]) s := by
  cases s with
  | start => exact forall_append h hev
  | busy =>
    obtain ⟨⟨x, hx, hbusy⟩, hall⟩ := h
    exact ⟨⟨x, List.mem_append_left _ hx, hbusy⟩, forall_append hall hev⟩
  | few inputs => exact ⟨h.1.append ev, h.2.1, forall_append h.2.2 hev⟩
  | chosen inputs | merging inputs => exact ⟨h.1.append ev, h.2.1, forall_append h.2.2 hev⟩
  | committed inputs =>
    obtain ⟨hsnap, hlen, before, commit, between, rfl, hc, hall⟩ := h
    refine ⟨hsnap.append ev, hlen, before, commit, between ++ [ev], by simp, hc, ?_⟩
    rw [← List.append_assoc]
    exact forall_append hall hev
  | swapped inputs =>
    obtain ⟨hsnap, hlen, before, commit, between, swap, after, rfl, hc, hw, hall⟩ := h
    refine ⟨hsnap.append ev, hlen, before, commit, between, swap, after ++ [ev], by simp, hc, hw, ?_⟩
    rw [← List.append_assoc]
    exact forall_append hall hev

theorem CompactLog.step {log : List Event} {s s' : CompactStage} {o : Act} {ch : Choice} {r : Res o}
    (h : CompactLog log s) (hg : guardAct e compactorTid o w) (hx : exec compactorTid o ch w = some (r, w'))
    (hn : CompactStep s o r s') : CompactLog (log ++ [⟨o, r, w, w'⟩]) s' := by
  have hsnap : ∀ {want : MemTable → List SsTable → Bool} {m : MemTable} {runs : List SsTable},
      exec compactorTid (.snapshot want) ch w = some ((m, runs), w') →
      Snapped (log ++ [⟨.snapshot want, (m, runs), w, w'⟩]) runs := by
    intro want m runs hx
    refine ⟨_, List.mem_append_right _ (List.mem_singleton_self _), ⟨want, rfl⟩, ?_⟩
    simp only [exec] at hx
    split at hx
    · exact (Prod.mk.inj (Prod.mk.inj (Option.some.inj hx)).1).2
    · simp at hx
  cases hn with
  | quiet ho => exact h.silent (silent_of_reading hg (Act.reading_of_quiet ho) hx)
  | flag ho => exact h.silent (silent_of_flag ho hx)
  | idle =>
    obtain ⟨_, rfl⟩ := Prod.mk.inj (Option.some.inj hx)
    exact h.silent ⟨rfl, rfl, rfl⟩
  | busy =>
    obtain ⟨hbusy, rfl⟩ := Prod.mk.inj (Option.some.inj hx)
    exact ⟨⟨_, List.mem_append_right _ (List.mem_singleton_self _), rfl, hbusy⟩, forall_append h ⟨rfl, rfl, rfl⟩⟩
  | few hlen => exact ⟨hsnap hx, hlen, forall_append h (silent_of_reading hg rfl hx)⟩
  | many hlen => exact ⟨hsnap hx, hlen, forall_append h (silent_of_reading hg rfl hx)⟩
  | number =>
    obtain ⟨_, rfl⟩ := Prod.mk.inj (Option.some.inj hx)
    exact h.silent ⟨rfl, rfl, rfl⟩
  | failed =>
    obtain rfl := exec_rename_error hx
    exact h.silent ⟨rfl, rfl, rfl⟩
  | commit =>
    refine ⟨h.1.append _, h.2.1, log, _, [], rfl, ⟨_, rfl, exec_rename_ok hx⟩, ?_⟩
    rw [List.append_nil]
    exact h.2.2
  | swap =>
    obtain ⟨_, rfl⟩ := Prod.mk.inj (Option.some.inj hx)
    obtain ⟨hs, hlen, before, commit, between, rfl, hc, hall⟩ := h
    refine ⟨hs.append _, hlen, before, commit, between, _, [], List.append_assoc .., hc, ⟨hg rfl, rfl, rfl⟩, ?_⟩
    rw [List.append_nil]
    exact hall

/-! ## The number it takes -/

/-- The numbers a compaction has taken, by stage. -/
def CompactStage.numbers : CompactStage → ℕ
  | .start | .busy | .few _ | .chosen _ => 0
  | .merging _ | .committed _ | .swapped _ => 1

theorem spent_append (log : List Event) (ev : Event) :
    spent (log ++ [ev]) = spent log + if ev.after.nextSeq = ev.before.nextSeq then 0 else 1 := by
  unfold spent
  rw [List.countP_append, List.countP_singleton]
  by_cases h : ev.after.nextSeq = ev.before.nextSeq <;> simp [h]

theorem CompactStep.spends {s s' : CompactStage} {o : Act} {ch : Choice} {r : Res o} (hn : CompactStep s o r s')
    (hx : exec compactorTid o ch w = some (r, w')) :
    s'.numbers = s.numbers + if w'.nextSeq = w.nextSeq then 0 else 1 := by
  have hkeep : Field.nextSeq ∉ o.touches → w'.nextSeq = w.nextSeq := exec_differ hx .nextSeq
  cases hn with
  | quiet ho =>
    have hno : Field.nextSeq ∉ o.touches := by cases o <;> simp [Act.quiet, Act.touches] at ho ⊢
    simp [hkeep hno]
  | flag ho =>
    have hno : Field.nextSeq ∉ o.touches := by cases o <;> simp [Act.flag, Act.touches] at ho ⊢
    simp [hkeep hno]
  | number =>
    obtain ⟨_, rfl⟩ := Prod.mk.inj (Option.some.inj hx)
    have hne : (w.nextSeq + 1) % 2 ^ 64 ≠ w.nextSeq := by omega
    simp only [CompactStage.numbers, if_neg hne]
  | idle | busy | few | many | failed | commit | swap =>
    simp [CompactStage.numbers, hkeep (by simp [Act.touches])]

/-- Where a compaction got to when it is about to return, and what it has done on the way. -/
theorem Reach.compactEnd (hr : Reach e c) {config : LsmConfig} {features : Features} {log : List Event} {reply : Reply}
    (hth : c.threads compactorTid = .running .compact (Call.compact.program config features))
    (hd : During e compactorTid c log c') (hdone : c'.threads compactorTid = .running .compact (.done reply)) :
    ∃ s r, reply = .unit r ∧ CompactEnd s r ∧ CompactLog log s ∧ spent log = s.numbers := by
  have h0 : CompactLog [] .start ∧ spent [] = CompactStage.start.numbers := ⟨by simp [CompactLog], rfl⟩
  obtain ⟨prog, s, hrun, hend, hlog, hspent⟩ := hd.track
    (R := fun log s => CompactLog log s ∧ spent log = s.numbers) hr hth (follows_compact config features) h0
    fun log s s' o ch r w w' hg hx hn ⟨hl, hs⟩ => ⟨hl.step hg hx hn, by rw [spent_append, hs, hn.spends hx]⟩
  obtain ⟨_, rfl⟩ := Thread.running.inj (hrun.symm.trans hdone)
  obtain ⟨r, hreply, hr⟩ := hend
  exact ⟨s, r, hreply, hr, hlog, hspent⟩

/-- How a compaction ended, against what it did. -/
inductive Compacted (log : List Event) : Reply → Prop
  /-- An error: nothing was changed, and a number is gone. -/
  | failed (err : Error) (h : ∀ ev ∈ log, ev.Silent) (hspent : spent log = 1) : Compacted log (.unit (.error err))
  /-- Another compaction was running, and this one did nothing. -/
  | busy (hb : ∃ ev ∈ log, ev.op = .swapCompacting ∧ ev.before.compacting = true) (h : ∀ ev ∈ log, ev.Silent)
      (hspent : spent log = 0) : Compacted log (.unit (.ok ()))
  /-- Fewer than two runs: nothing was changed. -/
  | few (inputs : List SsTable) (hs : Snapped log inputs) (hlen : inputs.length < 2) (h : ∀ ev ∈ log, ev.Silent)
      (hspent : spent log = 0) : Compacted log (.unit (.ok ()))
  /-- The manifest was replaced, and then the run list. -/
  | swapped (inputs : List SsTable) (hs : Snapped log inputs) (hlen : 2 ≤ inputs.length) (before : List Event)
      (commit : Event) (between : List Event) (swap : Event) (after : List Event)
      (hlog : log = before ++ commit :: (between ++ swap :: after)) (hc : commit.Commits) (hw : swap.Swaps inputs)
      (h : ∀ ev ∈ before ++ between ++ after, ev.Silent) (hspent : spent log = 1) : Compacted log (.unit (.ok ()))

/-- Whatever the other threads do meanwhile and whichever operation fails, a compaction either changes nothing
or replaces its inputs by one run that holds exactly their live records. It takes a number from the sequence as soon
as it has two runs to merge, and keeps it. -/
theorem compaction_all_or_nothing (hr : Reach e c) {config : LsmConfig} {features : Features} {log : List Event}
    {reply : Reply} (hth : c.threads compactorTid = .running .compact (Call.compact.program config features))
    (hd : During e compactorTid c log c') (hdone : c'.threads compactorTid = .running .compact (.done reply)) :
    Compacted log reply := by
  obtain ⟨s, r, rfl, hend, hlog, hspent⟩ := hr.compactEnd hth hd hdone
  cases r with
  | error err =>
    obtain ⟨inputs, rfl⟩ := hend
    exact .failed err hlog.2.2 hspent
  | ok v =>
    rcases hend with rfl | ⟨inputs, rfl⟩ | ⟨inputs, rfl⟩
    · exact .busy hlog.1 hlog.2 hspent
    · exact .few inputs hlog.1 hlog.2.1 hlog.2.2 hspent
    · obtain ⟨hsnap, hlen, before, commit, between, swap, after, hsplit, hc, hw, hall⟩ := hlog
      exact .swapped inputs hsnap hlen before commit between swap after hsplit hc hw hall hspent

/-- Two runs to merge, and a background thread that may start. -/
def twoRuns : List Move :=
  [.alone 1 allOk (.openWith (LsmConfig.default.withCompactionTrigger 2) ⟨false, true⟩), .alone 1 allOk (.put [1] [2]),
    .alone 1 allOk .flush, .alone 1 allOk (.delete [1]), .alone 1 allOk .flush]

/-- A third run. -/
def thirdRun : List Move := [.alone 1 allOk (.put [3] [4]), .alone 1 allOk .flush]

/-- A compaction that is overtaken by a flush after its snapshot. -/
def overtaken (rest : List Choice) : List Move :=
  .acts compactorTid (List.replicate 4 .ok) :: thirdRun ++ [.acts compactorTid rest]

omit [Deps] in
/-- Overtaken by a flush, once a compaction succeeds and once the file of its output cannot be created. -/
theorem compaction_overtaken : letI := Deps.concrete
    (∃ c c' log, Reach Env.wild c ∧ c.world.runs.length = 2 ∧ During Env.wild compactorTid c log c' ∧
      c'.world.runs.length = 2 ∧ Compacted log (.unit (.ok ()))) ∧
    ∃ c c' log err, Reach Env.wild c ∧ c.world.runs.length = 2 ∧ During Env.wild compactorTid c log c' ∧
      c'.world.runs.length = 3 ∧ Compacted log (.unit (.error err)) := by
  let _ := Deps.concrete
  have hok : Env.wild.spans twoRuns compactorTid .compact (overtaken (List.replicate 29 .ok))
      (fun c c' => c.world.runs.length = 2 ∧ c'.world.runs.length = 2 ∧
        c'.returning compactorTid = some (.compact, .unit (.ok ()))) = true := by decide +kernel
  have herr : Env.wild.spans twoRuns compactorTid .compact (overtaken (.ok :: .fail 0 :: List.replicate 4 .ok))
      (fun c c' => c.world.runs.length = 2 ∧ c'.world.runs.length = 3 ∧
        c'.returning compactorTid = some (.compact, .unit (.error (.io "create sorted run" .other)))) = true := by
    decide +kernel
  constructor
  · obtain ⟨c, config, features, log, c', hreach, hth, hd, hcheck⟩ := Env.during_spans hok
    obtain ⟨hbefore, hafter, hdone⟩ := of_decide_eq_true hcheck
    exact ⟨c, c', log, hreach, hbefore, hd, hafter,
      compaction_all_or_nothing hreach hth hd (Config.returning_eq hdone)⟩
  · obtain ⟨c, config, features, log, c', hreach, hth, hd, hcheck⟩ := Env.during_spans herr
    obtain ⟨hbefore, hafter, hdone⟩ := of_decide_eq_true hcheck
    exact ⟨c, c', log, _, hreach, hbefore, hd, hafter,
      compaction_all_or_nothing hreach hth hd (Config.returning_eq hdone)⟩

omit [Deps] in
/-- The same calls with and without a compaction that fails: its number is missing from the flush that overtakes it, so
the run has another name, in the run list as in the manifest. -/
theorem failed_compaction_spends_number : letI := Deps.concrete
    ∃ without failed err, Env.wild.play (twoRuns ++ thirdRun) = some without ∧
      Env.wild.play (twoRuns ++ .start compactorTid .compact ::
        overtaken (.ok :: .fail 0 :: List.replicate 4 .ok)) = some failed ∧
      failed.threads compactorTid = .running .compact (.done (.unit (.error err))) ∧
      names without.world.runs = [runFilename 2, runFilename 1, runFilename 0] ∧
      names failed.world.runs = [runFilename 3, runFilename 1, runFilename 0] ∧
      failed.world.dir.get? MANIFEST ≠ without.world.dir.get? MANIFEST := by
  let _ := Deps.concrete
  have hplay : (Env.wild.play (twoRuns ++ thirdRun)).any (fun without => (Env.wild.play (twoRuns ++
      .start compactorTid .compact :: overtaken (.ok :: .fail 0 :: List.replicate 4 .ok))).any fun failed =>
        failed.returning compactorTid = some (.compact, .unit (.error (.io "create sorted run" .other))) ∧
        names without.world.runs = [runFilename 2, runFilename 1, runFilename 0] ∧
        names failed.world.runs = [runFilename 3, runFilename 1, runFilename 0] ∧
        failed.world.dir.get? MANIFEST ≠ without.world.dir.get? MANIFEST) = true := by decide +kernel
  obtain ⟨without, hwithout, hrest⟩ := (Option.any_eq_true _ _).mp hplay
  obtain ⟨failed, hfailed, hcheck⟩ := (Option.any_eq_true _ _).mp hrest
  obtain ⟨hdone, hold, hnew, hmanifest⟩ := of_decide_eq_true hcheck
  exact ⟨without, failed, _, hwithout, hfailed, Config.returning_eq hdone, hold, hnew, hmanifest⟩

end Compaction
end LsmDb
