import LsmDb.Engine.During
import LsmDb.Proof.Reachable

/-! What a program can do to the parts of the world that matter to everybody, read off its text: most
operations touch neither the memtable, the run list, the manifest, the lock, the flags nor the history,
and those that do come in a fixed order. -/
namespace LsmDb
open Lib
set_option autoImplicit false

section Stages
variable [Deps] {α β : Type} {t : Tid} {w w' : World}

theorem res_nonempty (o : Act) : Nonempty (Res o) := by
  have hm : Nonempty MemTable := ⟨MemTable.new⟩
  have ht : Nonempty SsTable := ⟨⟨[], [], [], 0, none, 0⟩⟩
  cases o with
  | openRun name => exact ⟨.ok ⟨[], [], 0⟩⟩
  | _ => infer_instance

/-! ## Quiet operations -/

def Act.quiet : Act → Bool
  | .inner | .register _ _ _ | .release _ | .loadSeq | .cacheGet _ | .cacheInsert _ _
  | .readBlock _ _ | .readFaults | .createDir | .exists _ | .readText _ | .read _ | .openRun _ | .sync _
  | .remove _ | .readDir | .walIter | .spawn => true
  | .create name _ | .append name _ => name ≠ MANIFEST
  | .rename source target => source ≠ MANIFEST ∧ target ≠ MANIFEST
  | _ => false

/-- A quiet operation, or the snapshot of a reader. -/
def Act.reading : Act → Bool
  | .snapshot _ => true
  | o => o.quiet

theorem Act.reading_of_quiet {o : Act} (h : o.quiet = true) : o.reading = true := by
  cases o <;> first | rfl | exact h

theorem quiet_rename {source target : Text} (hs : source ≠ MANIFEST) (ht : target ≠ MANIFEST) :
    (Act.rename source target).quiet = true := by simp [Act.quiet, hs, ht]

/-- What a quiet operation leaves as it is. -/
structure Still (w w' : World) : Prop where
  memtable : w'.memtable = w.memtable
  runs : w'.runs = w.runs
  manifest : w'.dir.get? MANIFEST = w.dir.get? MANIFEST
  wal : w'.wal = w.wal
  lock : w'.lock = w.lock
  compacting : w'.compacting = w.compacting
  pending : w'.pending = w.pending
  running : w'.running = w.running
  live : w'.live = w.live
  config : w'.config = w.config
  features : w'.features = w.features
  cur : w'.spec.cur = w.spec.cur
  flushed : w'.spec.flushed = w.spec.flushed
  logged : w'.spec.logged = w.spec.logged

theorem exec_reading {o : Act} {ch : Choice} {r : Res o} (hq : o.reading = true)
    (hrm : ∀ name, o = .remove name → name ≠ MANIFEST) (h : exec t o ch w = some (r, w')) : Still w w' := by
  have hd := exec_differ h
  have hno : ∀ f ∈ [Field.memtable, .runs, .wal, .lock, .compacting, .pending, .running, .live, .config, .features, .cur,
      .logged], f ∉ o.touches := by
    cases o <;> simp [Act.reading, Act.quiet, Act.touches] at hq ⊢
  have hflushed : Field.flushed ∉ o.touches := by
    cases o <;> simp [Act.reading, Act.quiet, Act.touches] at hq ⊢
    exact hq.2
  have hfile : MANIFEST ∉ o.files := by
    cases o with
    | remove name => simpa [Act.files] using (hrm name rfl).symm
    | create name data | append name data =>
      have hne : name ≠ MANIFEST := by simpa [Act.reading, Act.quiet] using hq
      simpa [Act.files] using hne.symm
    | rename source target =>
      have hne := of_decide_eq_true hq
      simpa [Act.files] using ⟨Ne.symm hne.1, Ne.symm hne.2⟩
    | _ => simp [Act.files]
  exact {
    memtable := hd .memtable (hno _ (by simp))
    runs := hd .runs (hno _ (by simp))
    manifest := exec_files h hfile
    wal := hd .wal (hno _ (by simp))
    lock := hd .lock (hno _ (by simp))
    compacting := hd .compacting (hno _ (by simp))
    pending := hd .pending (hno _ (by simp))
    running := hd .running (hno _ (by simp))
    live := hd .live (hno _ (by simp))
    config := hd .config (hno _ (by simp))
    features := hd .features (hno _ (by simp))
    cur := hd .cur (hno _ (by simp))
    flushed := hd .flushed hflushed
    logged := hd .logged (hno _ (by simp)) }

/-! ## Programs with early returns -/

section Rules
variable {p : Act → Prop} {σ : Type} {next : σ → (o : Act) → Res o → σ → Prop} {s : σ} {E : σ → Error → Prop}

theorem uses_bind {x : M α} {f : α → M β} (hx : x.run.Uses p) (hf : ∀ v, (f v).run.Uses p) : (x >>= f).run.Uses p := by
  refine Prog.Uses.bind hx fun r => ?_
  cases r with
  | ok v => exact hf v
  | error err => trivial

theorem uses_perform {o : Act} {f : Res o → M β} (ho : p o) (hf : ∀ r, (f r).run.Uses p) :
    ((perform o : P (Res o)) >>= f : M β).run.Uses p :=
  uses_bind (x := ((perform o : P (Res o)) : M (Res o))) ⟨ho, fun _ => trivial⟩ hf

theorem uses_last {o : Act} (ho : p o) : ((perform o : P (Res o)) : M (Res o)).run.Uses p := ⟨ho, fun _ => trivial⟩

theorem uses_io {context : String} {x : P (Except IoError α)} (hx : x.Uses p) : (io context x).run.Uses p :=
  Prog.Uses.bind hx fun _ => trivial

theorem uses_op {o : Act} (ho : p o) : (perform o).Uses p := ⟨ho, fun _ => trivial⟩

/-- `Follows`, apart for the two ways a program ends. -/
def FollowsM (next : σ → (o : Act) → Res o → σ → Prop) (Q : σ → α → Prop) (E : σ → Error → Prop) (x : M α) (s : σ) :
    Prop := x.run.Follows next (fun s r => match r with
      | .ok v => Q s v
      | .error err => E s err) s

theorem FollowsM.bind {Q : σ → β → Prop} {x : M α} {f : α → M β}
    (h : FollowsM next (fun s v => FollowsM next Q E (f v) s) E x s) : FollowsM next Q E (x >>= f) s := by
  refine Prog.Follows.bind (Prog.Follows.mono h ?_)
  intro s r hr
  cases r with
  | ok v => exact hr
  | error err => exact hr

theorem FollowsM.perform {o : Act} {Q : σ → β → Prop} {f : Res o → M β}
    (h : ∀ r, ∃ s', next s o r s' ∧ FollowsM next Q E (f r) s') :
    FollowsM next Q E ((perform o : P (Res o)) >>= f) s := h

theorem FollowsM.last {o : Act} {Q : σ → Res o → Prop} (h : ∀ r, ∃ s', next s o r s' ∧ Q s' r) :
    FollowsM next Q E (LsmDb.perform o : P (Res o)) s := h

theorem FollowsM.io {context : String} {x : P (Except IoError α)} {Q : σ → α → Prop}
    (h : x.Follows next (fun s r => match r with
      | .ok v => Q s v
      | .error err => E s (.io context err)) s) : FollowsM next Q E (io context x) s := by
  refine Prog.Follows.bind (Prog.Follows.mono h ?_)
  intro s r hr
  cases r with
  | ok v => exact hr
  | error err => exact hr

theorem follows_perform {o : Act} {Q : σ → β → Prop} {f : Res o → P β}
    (h : ∀ r, ∃ s', next s o r s' ∧ (f r).Follows next Q s') : (perform o >>= f).Follows next Q s := h

/-- A critical section. -/
theorem FollowsM.withGuard {Q : σ → α → Prop} {body : M α} {s₁ : σ} (hlock : next s .lock () s₁)
    (h : FollowsM next (fun s v => ∃ s', next s .unlock () s' ∧ Q s' v)
      (fun s err => ∃ s', next s .unlock () s' ∧ E s' err) body s₁) :
    FollowsM next Q E (LsmDb.withGuard body) s := by
  refine follows_perform fun _ => ⟨s₁, hlock, ?_⟩
  refine Prog.Follows.bind (Prog.Follows.mono h ?_)
  intro s r hr
  cases r with
  | ok v =>
    obtain ⟨s', hnext, hq⟩ := hr
    exact follows_perform fun _ => ⟨s', hnext, hq⟩
  | error err =>
    obtain ⟨s', hnext, hq⟩ := hr
    exact follows_perform fun _ => ⟨s', hnext, hq⟩

/-- A stretch that does not move the stage. -/
theorem FollowsM.still {Q : σ → α → Prop} {x : M α} (h : x.run.Uses p) (hn : ∀ o r, p o → next s o r s)
    (hq : ∀ v, Q s v) (he : ∀ err, E s err) : FollowsM next Q E x s := by
  refine h.follows hn fun r => ?_
  cases r with
  | ok v => exact hq v
  | error err => exact he err

/-- A call among everything else: what holds of its operations so far moves with its stage. -/
theorem During.track {e : Env} {c c' : Config} {log : List Event} {call : Call} {prog : P Reply} {Q : σ → Reply → Prop}
    {R : List Event → σ → Prop} (hd : During e t c log c') (hr : Reach e c) (hth : c.threads t = .running call prog)
    (hf : prog.Follows next Q s) (h0 : R [] s)
    (hstep : ∀ log s s' o choice (r : Res o) w w', guardAct e t o w → exec t o choice w = some (r, w') →
      next s o r s' → R log s → R (log ++ [⟨o, r, w, w'⟩]) s') :
    ∃ prog' s', c'.threads t = .running call prog' ∧ prog'.Follows next Q s' ∧ R log s' := by
  induction hd with
  | here => exact ⟨prog, s, hth, hf, h0⟩
  | @own log c₁ call' o k choice r w hbefore hth' ha hx ih =>
    obtain ⟨prog', s', hrun, hfol, hR⟩ := ih
    obtain ⟨rfl, rfl⟩ := Thread.running.inj (hrun.symm.trans hth')
    obtain ⟨s'', hnext, hrest⟩ := hfol r
    have hguard : guardAct e t o c₁.world := (hbefore.reach hr).guard (by rw [hth']; rfl)
    exact ⟨k r, s'', Function.update_self .., hrest, hstep log s' s'' o choice r _ w hguard hx hnext hR⟩
  | other _ hl _ hs ih =>
    obtain ⟨prog', s', hrun, hrest⟩ := ih
    exact ⟨prog', s', (step_spares hl hs).trans hrun, hrest⟩

end Rules

/-! ## Quiet programs -/

/-- A program of quiet operations. -/
abbrev Quiet (x : P α) : Prop := x.Uses fun o => o.quiet = true

theorem quiet_writeChunksTo {name : Text} (hn : name ≠ MANIFEST) (chunks : List Chunk) :
    Quiet (writeChunksTo name chunks).run := by
  induction chunks with
  | nil => trivial
  | cons c cs ih => exact uses_bind (uses_io (uses_op (by simpa [Act.quiet] using hn))) fun _ => ih

theorem quiet_pushEntries {name : Text} (hn : name ≠ MANIFEST) (es : List Entry) (w : SsTableWriter) :
    Quiet (pushEntries name w es).run := by
  induction es generalizing w with
  | nil => trivial
  | cons x es ih =>
    refine uses_bind (x := lift _) trivial fun y => ?_
    exact uses_bind (quiet_writeChunksTo hn _) fun _ => ih _

theorem quiet_writeRunFile {name : Text} (hn : name ≠ MANIFEST) (es : List Entry) (readErr : Option Error) :
    Quiet (writeRunFile name es readErr).run := by
  unfold writeRunFile
  refine uses_bind (uses_io (uses_op (by simpa [Act.quiet] using hn))) fun _ => ?_
  refine uses_bind (quiet_writeChunksTo hn _) fun _ => ?_
  refine uses_bind (quiet_pushEntries hn es _) fun w => ?_
  cases readErr with
  | some err => trivial
  | none =>
    refine uses_bind (x := lift _) trivial fun chunks => ?_
    refine uses_bind (quiet_writeChunksTo hn _) fun _ => ?_
    exact uses_io (uses_op rfl)

theorem quiet_writeSidecar (filter : RunFilter) (s : ℕ) : Quiet (writeSidecar filter (runFilename s)).run := by
  have htmp : (Name.sideTmp s).text ≠ Name.manifest.text := by simp
  have hside : (Name.side s).text ≠ Name.manifest.text := by simp
  unfold writeSidecar
  refine uses_bind (x := lift _) trivial fun bytes => ?_
  refine uses_bind (uses_io (uses_op (decide_eq_true htmp))) fun _ => ?_
  refine uses_bind (uses_io (uses_op (decide_eq_true htmp))) fun _ => ?_
  exact uses_io (uses_op (quiet_rename htmp hside))

theorem quiet_buildRun (context : String) (s : ℕ) (es : List Entry) (readErr : Option Error)
    (filter : Option RunFilter) : Quiet (buildRun context (runFilename s) es readErr filter).run := by
  have htmp : (Name.runTmp s).text ≠ Name.manifest.text := by simp
  have hrun : (Name.run s).text ≠ Name.manifest.text := by simp
  have hopen : Quiet (do
      let opened ← ExceptT.mk (perform (.openRun (runFilename s)))
      perform (.register (runFilename s) opened filter) : M SsTable).run :=
    uses_bind (uses_op (o := .openRun (runFilename s)) rfl) fun _ => uses_last rfl
  unfold buildRun
  refine uses_bind (quiet_writeRunFile htmp es readErr) fun _ => ?_
  refine uses_bind (uses_io (uses_op (quiet_rename htmp hrun))) fun _ => ?_
  cases filter with
  | none => exact hopen
  | some f => exact uses_bind (quiet_writeSidecar f s) fun _ => hopen

/-- The manifest is written quietly and then renamed. -/
theorem FollowsM.storeManifest {σ : Type} {next : σ → (o : Act) → Res o → σ → Prop} {Q : σ → Unit → Prop}
    {E : σ → Error → Prop} {s : σ} {q : ℕ} {l : List Text} (hquiet : ∀ o r, o.quiet = true → next s o r s)
    (herr : ∀ err, E s err)
    (hren : ∀ r, ∃ s', next s (.rename MANIFEST_TMP MANIFEST) r s' ∧ (match r with
      | .ok v => Q s' v
      | .error err => E s' (.io "install manifest" err))) : FollowsM next Q E (LsmDb.storeManifest q l) s := by
  have hne : MANIFEST_TMP ≠ MANIFEST := by decide
  unfold LsmDb.storeManifest
  refine FollowsM.bind (FollowsM.still (uses_io (uses_op (decide_eq_true hne))) hquiet (fun _ => ?_) herr)
  refine FollowsM.bind (FollowsM.still (uses_io (uses_op (decide_eq_true hne))) hquiet (fun _ => ?_) herr)
  refine FollowsM.bind (FollowsM.still (p := fun o => o.quiet = true) (uses_io (uses_op rfl)) hquiet (fun _ => ?_) herr)
  refine FollowsM.io fun r => ?_
  obtain ⟨s', hnext, hrest⟩ := hren r
  refine ⟨s', hnext, ?_⟩
  cases r with
  | ok v => exact hrest
  | error err => exact hrest

theorem quiet_dropRuns (tables : List SsTable) : Quiet (dropRuns tables) := by
  induction tables with
  | nil => trivial
  | cons table tables ih =>
    refine Prog.Uses.bind (uses_op (o := .release table) rfl) fun last => ?_
    cases last with
    | false => exact ih
    | true =>
      refine Prog.Uses.bind (uses_op (o := .remove table.name) rfl) fun _ => ?_
      exact Prog.Uses.bind (uses_op (o := .remove (sidecarPath table.name)) rfl) fun _ => ih

theorem quiet_lookup (table : SsTable) (key : Bytes) : Quiet (lookup table key).run := by
  unfold lookup
  by_cases hlen : table.index.length ≤ table.candidate key
  · simp only [if_pos hlen]
    trivial
  · simp only [if_neg hlen]
    refine uses_bind ?_ fun _ => trivial
    unfold cachedBlock
    refine uses_perform rfl fun r => ?_
    cases r with
    | some block => trivial
    | none => exact uses_bind (uses_op (o := .readBlock table _) rfl) fun _ => uses_perform rfl fun _ => trivial

theorem quiet_searchRuns (key : Bytes) (tables : List SsTable) : Quiet (searchRuns key tables).run := by
  induction tables with
  | nil => trivial
  | cons table tables ih =>
    unfold searchRuns
    by_cases hm : table.mightContain key = false
    · rw [if_pos hm]
      exact ih
    · rw [if_neg hm]
      refine uses_bind (quiet_lookup table key) fun r => ?_
      rcases r with _ | (v | _)
      · exact ih
      · trivial
      · trivial

/-- A snapshot, and then nothing but quiet operations. -/
def Reader (x : P α) : Prop := ∃ want k, x = .op (.snapshot want) k ∧ ∀ r, Quiet (k r)

theorem Reader.map {x : P α} (h : Reader x) (f : α → β) : Reader (f <$> x) := by
  obtain ⟨want, k, rfl, hk⟩ := h
  exact ⟨want, fun r => f <$> k r, rfl, fun r => Prog.Uses.bind (hk r) fun _ => trivial⟩

theorem Reader.reading {x : P α} (h : Reader x) : x.Uses fun o => o.reading = true := by
  obtain ⟨want, k, rfl, hk⟩ := h
  exact ⟨rfl, fun r => (hk r).mono fun _ => Act.reading_of_quiet⟩

theorem Reader.snapshot {want : MemTable → List SsTable → Bool} {f : MemTable × List SsTable → P α}
    (h : ∀ r, Quiet (f r)) : Reader (perform (.snapshot want) >>= f) := ⟨want, f, rfl, h⟩

theorem reader_get (key : Bytes) : Reader (get key).run := by
  refine Reader.snapshot fun r => ?_
  obtain ⟨memtable, runs⟩ := r
  dsimp only
  split
  · trivial
  · trivial
  · refine Prog.Uses.bind (quiet_searchRuns key runs) fun _ => ?_
    exact Prog.Uses.bind (quiet_dropRuns runs) fun _ => trivial

theorem reader_scan (range : Range) : Reader (scan range).run := by
  refine Reader.snapshot fun r => ?_
  obtain ⟨memtable, runs⟩ := r
  refine Prog.Uses.bind (uses_op (o := .readFaults) rfl) fun faults => ?_
  exact Prog.Uses.bind (quiet_dropRuns runs) fun _ => trivial

/-! ## Programs that leave the buffer alone -/

/-- Neither the lock, nor the memtable, nor the engine as a whole is touched. -/
def Act.aside : Act → Bool
  | .lock | .unlock | .apply _ | .take | .startEngine _ _ _ _ _ _ | .dropEngine => false
  | _ => true

abbrev AsideP {α : Type} (x : P α) : Prop := x.Uses fun o => o.aside = true

theorem Act.aside_of_quiet {o : Act} (h : o.quiet = true) : o.aside = true := by
  cases o <;> first | rfl | simp [Act.quiet] at h

theorem Quiet.aside {α : Type} {x : P α} (h : Quiet x) : AsideP x := h.mono fun _ => Act.aside_of_quiet

theorem uses_storeManifest {p : Act → Prop} (hquiet : ∀ o, o.quiet = true → p o)
    (hren : p (.rename MANIFEST_TMP MANIFEST)) (q : ℕ) (l : List Text) : (storeManifest q l).run.Uses p := by
  have hne : MANIFEST_TMP ≠ MANIFEST := by decide
  unfold storeManifest
  refine uses_bind (uses_io (uses_op (hquiet _ (decide_eq_true hne)))) fun _ => ?_
  refine uses_bind (uses_io (uses_op (hquiet _ (decide_eq_true hne)))) fun _ => ?_
  exact uses_bind (uses_io (uses_op (hquiet _ rfl))) fun _ => uses_io (uses_op hren)

theorem aside_storeManifest (q : ℕ) (l : List Text) : AsideP (storeManifest q l).run :=
  uses_storeManifest (p := fun o => o.aside = true) (fun _ => Act.aside_of_quiet) rfl q l

theorem uses_rotate {p : Act → Prop} (hset : ∀ b, p (.setWal b)) (hremove : p .walRemove) (hopen : p .walOpen)
    (features : Features) : (rotate features).run.Uses p := by
  have hrest : (do
      io "reopen write-ahead log" (perform .walOpen)
      perform (.setWal true) : M Unit).run.Uses p :=
    uses_bind (uses_io (uses_op hopen)) fun _ => uses_last (hset true)
  unfold rotate
  split_ifs
  · refine uses_perform (hset false) fun _ => uses_perform hremove fun r => ?_
    rcases r with (_ | _) | _
    · exact hrest
    · trivial
    · exact hrest
  · trivial

theorem aside_rotate (features : Features) : AsideP (rotate features).run :=
  uses_rotate (p := fun o => o.aside = true) (fun _ => rfl) rfl rfl features

theorem aside_logOps (features : Features) (ops : List Entry) : AsideP (logOps features ops).run := by
  unfold logOps
  split_ifs
  · refine uses_perform rfl fun inner => ?_
    split_ifs
    · trivial
    · exact uses_io (uses_op rfl)
  · trivial

end Stages
end LsmDb
