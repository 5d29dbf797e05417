import LsmDb.Engine.Naming
import LsmDb.Proof.Origins

/-! What a thread puts into the database comes from its call or from the database: every program of the engine is
followed once through the runs it writes. -/
namespace LsmDb
open Lib
set_option autoImplicit false

section Scribes
variable [Deps] {V : Entry → Prop}

/-! ## Runs being written -/

/-- A run that is being written: its number, and the bytes of its temporary if they are known. -/
structure Draft where
  seq : ℕ
  file : Option Bytes

/-- A thread without a call; an open without an engine; a call on an engine, which it may be opening, with the run it
writes; an open that dropped its engine. `misled` is where results lead that the world never gives. -/
inductive Scribe where
  | idle
  | opening
  | serving (opens : Bool) (draft : Option Draft)
  | gone
  | misled

inductive OriginStep (V : Entry → Prop) : Scribe → (o : Act) → Res o → Scribe → Prop
  | keep {s : Scribe} {o : Act} {r : Res o} (ho : o.From V) : OriginStep V s o r s
  | mislead {s : Scribe} {o : Act} {r : Res o} (ho : o.From V) (h : ¬ o.Gives V r) : OriginStep V s o r .misled
  | misled {o : Act} {r : Res o} : OriginStep V .misled o r .misled
  -- opening
  | sweep {name : Text} {r : Except IoError Unit} : OriginStep V .opening (.remove name) r .opening
  | start {config : LsmConfig} {features : Features} {m : MemTable} {runs : List SsTable} {b : Bool} {q : ℕ} {r : Unit}
      (hm : ∀ x ∈ m.iter, V x) (hruns : ∀ table ∈ runs, table.From V) :
      OriginStep V .opening (.startEngine config features m runs b q) r (.serving true none)
  | drop {d : Option Draft} {r : Unit} : OriginStep V (.serving true d) .dropEngine r .gone
  -- a run
  | reserve {b : Bool} {d : Option Draft} {q : ℕ} : OriginStep V (.serving b d) .fetchAdd q (.serving b (some ⟨q, none⟩))
  | create {b : Bool} {q : ℕ} {file : Option Bytes} {r : Except IoError Unit} (h : r = .ok ()) :
      OriginStep V (.serving b (some ⟨q, file⟩)) (.create (tmpPath (runFilename q)) (.bin [])) r
        (.serving b (some ⟨q, some []⟩))
  | append {b : Bool} {q : ℕ} {file bytes : Bytes} {r : Except IoError Unit} (h : r = .ok ())
      (hfits : file.length + bytes.length ≤ MAX_FILE_LEN) :
      OriginStep V (.serving b (some ⟨q, some file⟩)) (.append (tmpPath (runFilename q)) (.bin bytes)) r
        (.serving b (some ⟨q, some (file ++ bytes)⟩))
  | overlong {b : Bool} {q : ℕ} {file bytes : Bytes} {r : Except IoError Unit} (h : r = .ok ())
      (hfits : ¬ file.length + bytes.length ≤ MAX_FILE_LEN) :
      OriginStep V (.serving b (some ⟨q, some file⟩)) (.append (tmpPath (runFilename q)) (.bin bytes)) r .misled
  | unwritten {b : Bool} {q : ℕ} {file : Option Bytes} {o : Act} {r : Res o} (ho : (∃ d, o = .create (tmpPath (runFilename q)) d) ∨
      ∃ d, o = .append (tmpPath (runFilename q)) d) :
      OriginStep V (.serving b (some ⟨q, file⟩)) o r (.serving b (some ⟨q, none⟩))
  | install {b : Bool} {q : ℕ} {file : Bytes} {r : Except IoError Unit} (h : FileFrom V file) :
      OriginStep V (.serving b (some ⟨q, some file⟩)) (.rename (tmpPath (runFilename q)) (runFilename q)) r
        (.serving b (some ⟨q, none⟩))

/-! ## Programs that follow -/

section Programs
variable {α β : Type} {s : Scribe} {b : Bool} {features : Features} {config : LsmConfig}

theorem follows_misled {x : P α} {Q : Scribe → α → Prop} (h : ∀ v, Q .misled v) : x.Follows (OriginStep V) Q .misled := by
  induction x with
  | done v => exact h v
  | op o k ih => exact fun r => ⟨.misled, .misled, ih r⟩

/-- A program that keeps to `V` as long as it is given nothing else. -/
def TracesP (V : Entry → Prop) (Q : Scribe → α → Prop) (x : P α) (s : Scribe) : Prop :=
  x.Follows (OriginStep V) (fun s v => s = .misled ∨ Q s v) s

def Ending (Q : Scribe → α → Prop) (E : Scribe → Error → Prop) (s : Scribe) : Except Error α → Prop
  | .ok v => Q s v
  | .error err => E s err

def Traces (V : Entry → Prop) (Q : Scribe → α → Prop) (E : Scribe → Error → Prop) (x : M α) (s : Scribe) : Prop :=
  TracesP V (fun s r => Ending Q E s r) x.run s

variable {Q : Scribe → α → Prop} {E : Scribe → Error → Prop}

theorem TracesP.mono {Q' : Scribe → α → Prop} {x : P α} (h : TracesP V Q x s) (hq : ∀ s v, Q s v → Q' s v) :
    TracesP V Q' x s :=
  Prog.Follows.mono h fun s v hv => hv.imp id (hq s v)

theorem TracesP.bind {Q : Scribe → β → Prop} {x : P α} {f : α → P β} (h : TracesP V (fun s v => TracesP V Q (f v) s) x s) :
    TracesP V Q (x >>= f) s := by
  refine Prog.Follows.bind (Prog.Follows.mono h fun s v hv => ?_)
  rcases hv with rfl | hv
  · exact follows_misled fun _ => Or.inl rfl
  · exact hv

theorem TracesP.op {o : Act} {Q : Scribe → Res o → Prop} (ho : o.From V) (h : ∀ r, o.Gives V r → Q s r) :
    TracesP V Q (perform o) s := by
  intro r
  by_cases hr : o.Gives V r
  · exact ⟨s, .keep ho, Or.inr (h r hr)⟩
  · exact ⟨.misled, .mislead ho hr, Or.inl rfl⟩

theorem TracesP.perform {o : Act} {Q : Scribe → β → Prop} {f : Res o → P β} (ho : o.From V)
    (h : ∀ r, o.Gives V r → TracesP V Q (f r) s) : TracesP V Q (LsmDb.perform o >>= f) s := (TracesP.op ho h).bind

theorem Traces.mono {Q' : Scribe → α → Prop} {E' : Scribe → Error → Prop} {x : M α} (h : Traces V Q E x s)
    (hq : ∀ s v, Q s v → Q' s v) (he : ∀ s err, E s err → E' s err) : Traces V Q' E' x s := by
  refine TracesP.mono h fun s r hr => ?_
  cases r with
  | ok v => exact hq s v hr
  | error err => exact he s err hr

theorem Traces.pure {v : α} (h : Q s v) : Traces V Q E (Pure.pure v) s := Or.inr h

theorem Traces.throw {err : Error} (h : E s err) : Traces V Q E (MonadExcept.throw err) s := Or.inr h

theorem Traces.bind {Q : Scribe → β → Prop} {x : M α} {f : α → M β} (h : Traces V (fun s v => Traces V Q E (f v) s) E x s) :
    Traces V Q E (x >>= f) s := by
  refine TracesP.bind (TracesP.mono h fun s r hr => ?_)
  cases r with
  | ok v => exact hr
  | error err => exact Or.inr hr

theorem Traces.perform {o : Act} {Q : Scribe → β → Prop} {f : Res o → M β} (ho : o.From V)
    (h : ∀ r, o.Gives V r → Traces V Q E (f r) s) : Traces V Q E ((LsmDb.perform o : P (Res o)) >>= f) s :=
  Traces.bind (TracesP.bind (TracesP.op ho fun r hr => Or.inr (h r hr)))

theorem Traces.last {o : Act} {Q : Scribe → Res o → Prop} (ho : o.From V) (h : ∀ r, o.Gives V r → Q s r) :
    Traces V Q E (LsmDb.perform o : P (Res o)) s :=
  TracesP.bind (TracesP.op ho fun r hr => Or.inr (h r hr))

theorem Traces.io {context : String} {x : P (Except IoError α)}
    (h : TracesP V (fun s r => Ending Q E s (ioResult context r)) x s) : Traces V Q E (LsmDb.io context x) s :=
  TracesP.bind (TracesP.mono h fun _ _ hr => Or.inr hr)

theorem Traces.lift {r : Except Error α} (hok : ∀ v, r = .ok v → Q s v) (herr : ∀ err, E s err) :
    Traces V Q E (LsmDb.lift r) s := by
  cases r with
  | ok v => exact Or.inr (hok v rfl)
  | error err => exact Or.inr (herr err)

theorem Traces.withGuard {body : M α} (h : Traces V Q E body s) : Traces V Q E (LsmDb.withGuard body) s := by
  refine TracesP.perform (o := .lock) trivial fun _ _ => TracesP.bind (TracesP.mono h fun s r hr => ?_)
  exact TracesP.perform (o := .unlock) trivial fun _ _ => Or.inr hr

/-! ## Writing a run -/

/-- On an engine, whatever run it writes. -/
def OnEngine (b : Bool) (s : Scribe) : Prop := ∃ d, s = .serving b d

theorem traces_writeChunksTo {q : ℕ} {file : Bytes} (cs : List Chunk) :
    Traces V (fun s _ => ∃ out, writeChunks file cs = .ok out ∧ s = .serving b (some ⟨q, some out⟩)) (fun s _ => OnEngine b s)
      (writeChunksTo (tmpPath (runFilename q)) cs) (.serving b (some ⟨q, some file⟩)) := by
  induction cs generalizing file with
  | nil => exact Traces.pure ⟨file, rfl, rfl⟩
  | cons c cs ih =>
    refine Traces.bind (Traces.io fun r => ?_)
    cases r with
    | error err => exact ⟨_, .unwritten (Or.inr ⟨_, rfl⟩), Or.inr ⟨_, rfl⟩⟩
    | ok v =>
      by_cases hfits : file.length + c.bytes.length ≤ MAX_FILE_LEN
      · refine ⟨_, .append rfl hfits, Or.inr ?_⟩
        rw [writeChunks_cons hfits]
        exact ih
      · exact ⟨_, .overlong rfl hfits, Or.inl rfl⟩

theorem traces_pushEntries {q : ℕ} {file : Bytes} {w : SsTableWriter} (es : List Entry) :
    Traces V (fun s w' => ∃ out, pushAll w file es = .ok (w', out) ∧ s = .serving b (some ⟨q, some out⟩))
      (fun s _ => OnEngine b s) (pushEntries (tmpPath (runFilename q)) w es) (.serving b (some ⟨q, some file⟩)) := by
  induction es generalizing file w with
  | nil => exact Traces.pure ⟨file, rfl, rfl⟩
  | cons x es ih =>
    refine Traces.bind (Traces.lift (fun y hy => ?_) fun _ => ⟨_, rfl⟩)
    obtain ⟨w', chunks⟩ := y
    refine Traces.bind ((traces_writeChunksTo chunks).mono (fun s _ hs => ?_) fun _ _ hs => hs)
    obtain ⟨mid, hmid, rfl⟩ := hs
    refine ih.mono (fun s w'' hs => ?_) fun _ _ hs => hs
    obtain ⟨out, hout, rfl⟩ := hs
    refine ⟨out, ?_, rfl⟩
    simp only [pushAll, hy, bind, Except.bind, hmid]
    exact hout

/-- The temporary holds the complete run, or the run is given up. -/
theorem traces_writeRunFile {q : ℕ} {file : Option Bytes} {es : List Entry} {readErr : Option Error} :
    Traces V (fun s _ => ∃ out, writeRun es = .ok out ∧ readErr = none ∧ s = .serving b (some ⟨q, some out⟩))
      (fun s _ => OnEngine b s) (writeRunFile (tmpPath (runFilename q)) es readErr) (.serving b (some ⟨q, file⟩)) := by
  unfold writeRunFile
  refine Traces.bind (Traces.io fun r => ?_)
  cases r with
  | error err => exact ⟨_, .unwritten (Or.inl ⟨_, rfl⟩), Or.inr ⟨_, rfl⟩⟩
  | ok v =>
    refine ⟨_, .create rfl, Or.inr (Traces.bind ((traces_writeChunksTo _).mono (fun s _ hs => ?_) fun _ _ hs => hs))⟩
    obtain ⟨head, hhead, rfl⟩ := hs
    refine Traces.bind ((traces_pushEntries es).mono (fun s w hs => ?_) fun _ _ hs => hs)
    obtain ⟨mid, hmid, rfl⟩ := hs
    cases readErr with
    | some err => exact Traces.bind (Traces.throw ⟨_, rfl⟩)
    | none =>
      refine Traces.bind (Traces.lift (fun chunks hfin => ?_) fun _ => ⟨_, rfl⟩)
      refine Traces.bind ((traces_writeChunksTo chunks).mono (fun s _ hs => ?_) fun _ _ hs => hs)
      obtain ⟨out, hout, rfl⟩ := hs
      refine Traces.io (TracesP.op (o := .sync _) trivial fun r _ => ?_)
      cases r with
      | error err => exact ⟨_, rfl⟩
      | ok v =>
        refine ⟨out, ?_, rfl, rfl⟩
        have hmagic : writeAll [] SsTableWriter.header = .ok head := by
          simpa [writeChunks] using hhead
        simp only [writeRun, hmagic, hmid, hfin, bind, Except.bind]
        exact hout

theorem traces_writeSidecar {d : Option Draft} {filter : RunFilter} {q : ℕ} :
    Traces V (fun s _ => s = .serving b d) (fun s _ => OnEngine b s) (writeSidecar filter (runFilename q)) (.serving b d) := by
  unfold writeSidecar
  refine Traces.bind (Traces.lift (fun bytes _ => ?_) fun _ => ⟨_, rfl⟩)
  refine Traces.bind (Traces.io (TracesP.op (o := .create _ _) ⟨.sideTmp q, rfl, rfl⟩ fun r _ => ?_))
  cases r with
  | error err => exact ⟨_, rfl⟩
  | ok v =>
    refine Traces.bind (Traces.io (TracesP.op (o := .append _ _) ⟨.sideTmp q, rfl, rfl⟩ fun r _ => ?_))
    cases r with
    | error err => exact ⟨_, rfl⟩
    | ok v =>
      refine Traces.io (TracesP.op (o := .rename _ _) ⟨.sideTmp q, .side q, rfl, rfl, rfl, rfl⟩ fun r _ => ?_)
      cases r with
      | error err => exact ⟨_, rfl⟩
      | ok v => exact rfl

theorem fileFrom_writeRun {es : List Entry} {file : Bytes} (h : writeRun es = .ok file) (hasc : Ascending es)
    (hes : ∀ x ∈ es, V x) : FileFrom V file := by
  obtain ⟨bs, hlayout⟩ := writeRun_layout h
  exact ⟨es, bs, hlayout, hasc, hes⟩

theorem traces_reopen {d : Option Draft} {q : ℕ} {filter : Option RunFilter} :
    Traces V (fun s table => OnEngine b s ∧ table.From V) (fun s _ => OnEngine b s) (do
      let opened ← ExceptT.mk (perform (.openRun (runFilename q)))
      perform (.register (runFilename q) opened filter) : M SsTable) (.serving b d) := by
  refine Traces.bind (TracesP.op (o := .openRun _) ⟨q, rfl⟩ fun r hr => ?_)
  cases r with
  | error err => exact ⟨_, rfl⟩
  | ok opened => exact Traces.last ⟨⟨q, rfl⟩, hr opened rfl⟩ fun table htable => ⟨⟨_, rfl⟩, htable⟩

/-- A run of entries of `V`. -/
theorem traces_buildRun {context : String} {q : ℕ} {file : Option Bytes} {es : List Entry} {readErr : Option Error}
    {filter : Option RunFilter} (hes : readErr = none → Ascending es ∧ ∀ x ∈ es, V x) :
    Traces V (fun s table => OnEngine b s ∧ table.From V) (fun s _ => OnEngine b s)
      (buildRun context (runFilename q) es readErr filter) (.serving b (some ⟨q, file⟩)) := by
  unfold buildRun
  refine Traces.bind (traces_writeRunFile.mono (fun s _ hs => ?_) fun _ _ hs => hs)
  obtain ⟨out, hout, hread, rfl⟩ := hs
  obtain ⟨hasc, hV⟩ := hes hread
  refine Traces.bind (Traces.io fun r => ⟨_, .install (fileFrom_writeRun hout hasc hV), Or.inr ?_⟩)
  cases r with
  | error err => exact ⟨_, rfl⟩
  | ok v =>
    cases filter with
    | none => exact traces_reopen
    | some f =>
      refine Traces.bind (traces_writeSidecar.mono (fun s _ hs => ?_) fun _ _ hs => hs)
      obtain rfl : s = _ := hs
      exact traces_reopen

/-! ## Writes and flushes -/

theorem traces_storeManifest {n : ℕ} {l : List Text} (h : OnEngine b s) :
    Traces V (fun s _ => OnEngine b s) (fun s _ => OnEngine b s) (storeManifest n l) s := by
  unfold storeManifest
  refine Traces.bind (Traces.io (TracesP.op (o := .create _ _) ⟨.manifestTmp, rfl, rfl⟩ fun r _ => ?_))
  cases r with
  | error err => exact h
  | ok v =>
    refine Traces.bind (Traces.io (TracesP.op (o := .append _ _) ⟨.manifestTmp, rfl, rfl⟩ fun r _ => ?_))
    cases r with
    | error err => exact h
    | ok v =>
      refine Traces.bind (Traces.io (TracesP.op (o := .sync _) trivial fun r _ => ?_))
      cases r with
      | error err => exact h
      | ok v =>
        refine Traces.io (TracesP.op (o := .rename _ _) ⟨.manifestTmp, .manifest, rfl, rfl, rfl, rfl⟩ fun r _ => ?_)
        cases r with
        | error err => exact h
        | ok v => exact h

/-- A stretch of operations that bring nothing in. -/
theorem Traces.still {x : M α} (hx : x.run.Uses fun o => o.From V) (hq : ∀ v, Q s v) (he : ∀ err, E s err) :
    Traces V Q E x s := by
  refine hx.follows (fun o r ho => .keep ho) fun r => Or.inr ?_
  cases r with
  | ok v => exact hq v
  | error err => exact he err

theorem uses_from_rotate (features : Features) : (rotate features).run.Uses fun o => o.From V :=
  uses_rotate (p := fun o => o.From V) (fun _ => trivial) trivial trivial features

theorem traces_flushLocked (h : OnEngine b s) :
    Traces V (fun s _ => OnEngine b s) (fun s _ => OnEngine b s) (flushLocked config features) s := by
  obtain ⟨d, rfl⟩ := h
  unfold flushLocked
  refine Traces.perform (o := .take) trivial fun entries hentries => Traces.bind (TracesP.bind fun seq => ?_)
  refine ⟨_, .reserve, Or.inr (Or.inr ?_)⟩
  refine Traces.bind ((traces_buildRun fun _ => hentries).mono (fun s table hs => ?_) fun _ _ hs => hs)
  obtain ⟨hs, htable⟩ := hs
  refine Traces.perform (o := .inner) trivial fun inner hinner => Traces.perform (o := .loadSeq) trivial fun nextSeq _ => ?_
  refine Traces.bind ((traces_storeManifest hs).mono (fun s _ hs => ?_) fun _ _ hs => hs)
  refine Traces.perform (o := .install _ _) ?_ fun _ _ => Traces.still (uses_bind (uses_from_rotate features) fun _ => ?_)
    (fun _ => hs) fun _ => hs
  · intro r hr
    rcases List.mem_cons.mp hr with rfl | hr
    · exact htable
    · exact hinner r hr
  · split_ifs
    · exact uses_last (o := .signal) trivial
    · trivial

theorem traces_flush (h : OnEngine b s) :
    Traces V (fun s _ => OnEngine b s) (fun s _ => OnEngine b s) (flush config features) s := by
  refine Traces.withGuard (Traces.perform (o := .inner) trivial fun inner _ => ?_)
  split_ifs
  · exact Traces.pure h
  · exact traces_flushLocked h

theorem traces_writeOps {ops : List Entry} (hV : ∀ x, V x → x.FitsU32) (hops : ∀ x ∈ ops, V x) (h : OnEngine b s) :
    Traces V (fun s _ => OnEngine b s) (fun s _ => OnEngine b s) (writeOps config features ops) s := by
  have hlog : (logOps features ops).run.Uses fun o => o.From V := by
    unfold logOps
    cases features.durability with
    | false => trivial
    | true =>
      refine uses_perform (o := .inner) trivial fun inner => ?_
      by_cases hopen : inner.2.2 = false
      · simp only [hopen, if_true]
        trivial
      · simp only [hopen]
        exact uses_io (uses_op (o := .walAppend ops) (logFrom_encode hV hops))
  refine Traces.withGuard (Traces.bind (Traces.still hlog (fun _ => ?_) fun _ => h))
  refine Traces.perform (o := .apply ops) hops fun _ _ => Traces.perform (o := .inner) trivial fun inner _ => ?_
  split_ifs
  · exact traces_flushLocked h
  · exact Traces.pure h

/-! ## Reads -/

theorem traces_dropRuns {Q : Scribe → Unit → Prop} {tables : List SsTable} (ht : ∀ table ∈ tables, table.From V) (hq : Q s ()) :
    TracesP V Q (dropRuns tables) s := by
  have huses : (dropRuns tables).Uses fun o => o.From V := by
    induction tables with
    | nil => trivial
    | cons table tables ih =>
      obtain ⟨⟨q, hname⟩, _⟩ := ht table List.mem_cons_self
      have hrest := ih fun x hx => ht x (List.mem_cons_of_mem _ hx)
      unfold dropRuns
      refine ⟨trivial, fun last => ?_⟩
      cases last with
      | false => exact hrest
      | true =>
        refine ⟨⟨.run q, hname, by simp⟩, fun _ => ⟨⟨.side q, ?_, by simp⟩, fun _ => hrest⟩⟩
        rw [hname]
        rfl
  exact huses.follows (fun _ _ ho => .keep ho) fun _ => Or.inr hq

theorem traces_lookup {table : SsTable} {key : Bytes} (ht : table.From V) :
    Traces V (fun s' r => s' = s ∧ ∀ record, r = some record → V (key, record)) (fun s' _ => s' = s) (lookup table key) s := by
  have hblock : Traces V (fun s' block => s' = s ∧ ∀ x ∈ block, V x) (fun s' _ => s' = s)
      (cachedBlock table (table.candidate key)) s := by
    unfold cachedBlock
    refine Traces.perform (o := .cacheGet _) trivial fun cached hcached => ?_
    cases cached with
    | some block => exact Traces.pure ⟨rfl, hcached block rfl⟩
    | none =>
      refine Traces.bind (TracesP.op (o := .readBlock _ _) ht fun r hr => ?_)
      cases r with
      | error err => exact rfl
      | ok block =>
        refine Traces.perform (o := .cacheInsert _ _) (hr block rfl) fun _ _ => ?_
        exact Traces.pure ⟨rfl, hr block rfl⟩
  unfold lookup
  dsimp only
  split_ifs
  · exact Traces.pure ⟨rfl, by simp⟩
  · refine Traces.bind (hblock.mono (fun s' block hs => ?_) fun _ _ hs => hs)
    obtain ⟨rfl, hV⟩ := hs
    exact Traces.pure ⟨rfl, fun record hrec => hV _ (mem_of_find hrec)⟩

theorem traces_searchRuns {key : Bytes} {tables : List SsTable} (ht : ∀ table ∈ tables, table.From V) :
    Traces V (fun s' r => s' = s ∧ ∀ v, r = some v → V (key, .value v)) (fun s' _ => s' = s) (searchRuns key tables) s := by
  induction tables with
  | nil => exact Traces.pure ⟨rfl, by simp⟩
  | cons table tables ih =>
    have hrest := ih fun x hx => ht x (List.mem_cons_of_mem _ hx)
    unfold searchRuns
    split_ifs
    · exact hrest
    · refine Traces.bind ((traces_lookup (ht table List.mem_cons_self)).mono (fun s' r hs => ?_) fun _ _ hs => hs)
      obtain ⟨rfl, hV⟩ := hs
      rcases r with _ | ⟨v | _⟩
      · exact hrest
      · exact Traces.pure ⟨rfl, fun v' hv => by rw [← Option.some.inj hv]; exact hV _ rfl⟩
      · exact Traces.pure ⟨rfl, by simp⟩

/-- The keys and values that a reply tells of. -/
def Reply.tells : Call → Reply → List (Bytes × Bytes)
  | .get key, .value (.ok (some v)) => [(key, v)]
  | .scan _, .pairs (.ok items) => items
  | _, _ => []

def Reply.From (V : Entry → Prop) (call : Call) (reply : Reply) : Prop := ∀ p ∈ reply.tells call, V (p.1, .value p.2)

omit [Deps] in
theorem Reply.from_nil {call : Call} {reply : Reply} (h : reply.tells call = []) : Reply.From V call reply := by
  intro p hp
  rw [h] at hp
  cases hp

omit [Deps] in
theorem Reply.from_value {key v : Bytes} (h : V (key, .value v)) : Reply.From V (.get key) (.value (.ok (some v))) := by
  intro p hp
  rw [List.mem_singleton.mp hp]
  exact h

theorem traces_get {key : Bytes} : TracesP V (fun _ r => Reply.From V (.get key) (.value r)) (get key).run s := by
  unfold get
  refine TracesP.perform (o := .snapshot _) trivial fun snap hsnap => ?_
  obtain ⟨m, runs⟩ := snap
  obtain ⟨hm, hruns⟩ := hsnap
  dsimp only
  cases hget : m.get key with
  | some record =>
    have hV : V (key, record) := hm _ (mem_of_find hget)
    cases record with
    | value v => exact Or.inr (Reply.from_value hV)
    | tombstone => exact Or.inr (Reply.from_nil rfl)
  | none =>
    refine TracesP.bind (TracesP.mono (traces_searchRuns hruns) fun s' r hr => TracesP.bind (traces_dropRuns hruns ?_))
    rcases r with err | _ | v
    · exact Or.inr (Reply.from_nil rfl)
    · exact Or.inr (Reply.from_nil rfl)
    · exact Or.inr (Reply.from_value (hr.2 v rfl))

/-- A table apart from its filter. -/
def SsTable.bare (table : SsTable) : SsTable := { table with filter := none }

theorem reads_bare {tables : List SsTable} (ht : ∀ table ∈ tables, table.From V) :
    ∃ ess, List.Forall₂ Reads (tables.map SsTable.bare) ess ∧ ∀ es ∈ ess, ∀ x ∈ es, V x := by
  induction tables with
  | nil => exact ⟨[], List.Forall₂.nil, by simp⟩
  | cons table tables ih =>
    obtain ⟨ess, hreads, hess⟩ := ih fun x hx => ht x (List.mem_cons_of_mem _ hx)
    obtain ⟨_, es, bs, htable, hes⟩ := ht table List.mem_cons_self
    refine ⟨es :: ess, List.Forall₂.cons ⟨⟨bs, htable.layout, htable.ascending, htable.index_eq, htable.count_eq⟩, ?_⟩ hreads, ?_⟩
    · exact fun _ => covers_none es
    · intro l hl
      rcases List.mem_cons.mp hl with rfl | hl
      · exact hes
      · exact hess l hl

theorem cursors_bare (faults : Faults) (tables : List SsTable) :
    (tables.map SsTable.bare).map (faultyCursor faults) = tables.map (faultyCursor faults) := by
  rw [List.map_map]
  rfl

omit [Deps] in
theorem answer_from {layers : List (List Entry)} {k v : Bytes} (hl : ∀ l ∈ layers, ∀ x ∈ l, V x)
    (h : answer layers k = some v) : V (k, .value v) := by
  obtain ⟨l, hin, r, hr, hlive⟩ := exists_of_resolve h
  cases r with
  | tombstone => cases hlive
  | value v' =>
    obtain rfl := Option.some.inj hlive
    exact hl l hin _ hr

theorem traces_scan {range : Range} : TracesP V (fun _ r => Reply.From V (.scan range) (.pairs r)) (scan range).run s := by
  unfold scan
  refine TracesP.perform (o := .snapshot _) trivial fun snap hsnap => ?_
  obtain ⟨m, runs⟩ := snap
  obtain ⟨hm, hruns⟩ := hsnap
  refine TracesP.perform (o := .readFaults) trivial fun faults _ => TracesP.bind (traces_dropRuns hruns (Or.inr ?_))
  obtain ⟨ess, hreads, hess⟩ := reads_bare hruns
  obtain ⟨hspec, _⟩ := @scanMerge_spec range _ _ _ m.iter_ascending (forall₂_delivers hreads faults) (forall₂_ascending hreads)
  rw [cursors_bare] at hspec
  cases hres : scanMerge range (m.iter.filter fun x => position range x.1 = .within) (runs.map (faultyCursor faults)) with
  | error err => exact Reply.from_nil rfl
  | ok items =>
    intro p hp
    have hscan := hspec items hres
    have hfind := hscan.find_eq p.1
    rw [hscan.ascending.find_of_mem hp] at hfind
    split_ifs at hfind
    refine answer_from (fun l hl => ?_) hfind.symm
    rcases List.mem_cons.mp hl with rfl | hl
    · exact hm
    · exact hess l hl

/-! ## Compaction -/

theorem merged_from {inputs : List SsTable} (ht : ∀ table ∈ inputs, table.From V) {faults : Faults}
    {items : List (Bytes × Bytes)} (h : (Merge.new [] (inputs.map (faultyCursor faults))).collect = (items, none)) :
    Ascending (valueEntries items) ∧ ∀ x ∈ valueEntries items, V x := by
  obtain ⟨ess, hreads, hess⟩ := reads_bare ht
  rw [← cursors_bare] at h
  have hmerge := Reads.merge hreads faults h
  refine ⟨ascending_valueEntries hmerge.ascending, fun x hx => ?_⟩
  obtain ⟨p, hp, rfl⟩ := List.mem_map.mp hx
  have hfind := hmerge.find_eq p.1
  rw [hmerge.ascending.find_of_mem hp] at hfind
  exact answer_from hess hfind.symm

theorem traces_mergeRuns {inputs : List SsTable} (ht : ∀ table ∈ inputs, table.From V) (h : OnEngine b s) :
    Traces V (fun s _ => OnEngine b s) (fun s _ => OnEngine b s) (mergeRuns features inputs) s := by
  obtain ⟨d, rfl⟩ := h
  unfold mergeRuns
  refine Traces.bind (TracesP.bind fun seq => ⟨_, .reserve, Or.inr (Or.inr ?_)⟩)
  refine Traces.perform (o := .readFaults) trivial fun faults _ => ?_
  have hitems : (Merge.new [] (inputs.map (faultyCursor faults))).collect.2 = none →
      Ascending (valueEntries (Merge.new [] (inputs.map (faultyCursor faults))).collect.1) ∧
        ∀ x ∈ valueEntries (Merge.new [] (inputs.map (faultyCursor faults))).collect.1, V x :=
    fun hnone => merged_from ht (Prod.ext rfl hnone)
  refine Traces.bind ((traces_buildRun hitems).mono (fun s output hs => ?_) fun _ _ hs => hs)
  obtain ⟨hs, houtput⟩ := hs
  refine Traces.withGuard (Traces.perform (o := .inner) trivial fun inner hinner => ?_)
  refine Traces.perform (o := .loadSeq) trivial fun nextSeq _ => ?_
  refine Traces.bind ((traces_storeManifest hs).mono (fun s _ hs => ?_) fun _ _ hs => hs)
  refine Traces.last (o := .install _ _) (fun r hr => ?_) fun _ _ => hs
  rcases List.mem_append.mp hr with hr | hr
  · exact hinner r (List.mem_filter.mp hr).1
  · rw [List.mem_singleton.mp hr]
    exact houtput

theorem traces_compactorRound (h : OnEngine b s) : TracesP V (fun _ _ => True) (compactorRound features).run s := by
  refine TracesP.perform (o := .awaitWork) trivial fun _ _ => TracesP.bind ?_
  have hend : ∀ (s : Scribe) (r : Except Error Unit), TracesP V (fun _ (_ : Except Error Unit) => True) (do
      let _ ← perform (.finishWork r)
      pure r : P (Except Error Unit)) s :=
    fun s r => TracesP.perform (o := .finishWork r) trivial fun _ _ => Or.inr trivial
  refine TracesP.perform (o := .swapCompacting) trivial fun busy _ => ?_
  cases busy with
  | true => exact Or.inr (hend s _)
  | false =>
    refine TracesP.bind (TracesP.perform (o := .snapshot _) trivial fun snap hsnap => ?_)
    have hstore : ∀ (s : Scribe) (r : Except Error Unit), TracesP V (fun s r => TracesP V (fun _ (_ : Except Error Unit) => True) (do
        let _ ← perform (.finishWork r)
        pure r : P (Except Error Unit)) s) (do
        perform .storeCompacting
        pure r : P (Except Error Unit)) s :=
      fun s r => TracesP.perform (o := .storeCompacting) trivial fun _ _ => Or.inr (hend s r)
    dsimp only
    split_ifs
    · exact Or.inr (hstore s _)
    · refine TracesP.bind (TracesP.mono (traces_mergeRuns hsnap.2 h) fun s r _ => TracesP.bind (traces_dropRuns hsnap.2 ?_))
      exact Or.inr (hstore s r)

/-! ## Opening -/

theorem traces_loadManifest :
    Traces V (fun s' m => s' = s ∧ ∀ x, m = some x → ∀ n ∈ x.runs, ∃ q, n = runFilename q) (fun _ _ => True) loadManifest s := by
  unfold loadManifest
  refine Traces.perform (o := .exists _) trivial fun found _ => ?_
  cases found with
  | false => exact Traces.pure ⟨rfl, by simp⟩
  | true =>
    refine Traces.bind (Traces.io (TracesP.op (o := .readText _) rfl fun r hr => ?_))
    cases r with
    | error err => exact trivial
    | ok text =>
      refine Traces.bind (Traces.lift (fun m hm => Traces.pure ⟨rfl, fun x hx => ?_⟩) fun _ => trivial)
      obtain rfl := Option.some.inj hx
      exact hr text rfl m hm

theorem traces_loadFilter {name : Text} :
    Traces V (fun s _ => s = .opening) (fun _ _ => True) (loadFilter features name) .opening := by
  unfold loadFilter
  cases features.bloom with
  | false => exact Traces.pure rfl
  | true =>
    rw [if_pos rfl]
    refine Traces.perform (o := .read _) trivial fun r _ => ?_
    rcases r with (_ | _) | bytes
    · exact Traces.pure rfl
    · exact Traces.throw trivial
    · dsimp only
      cases RunFilter.decode bytes with
      | some f => exact Traces.pure rfl
      | none => exact Traces.bind (TracesP.bind fun r => ⟨_, .sweep, Or.inr (Or.inr (Traces.pure rfl))⟩)

theorem traces_openRuns {live : List Text} (hlive : ∀ n ∈ live, ∃ q, n = runFilename q) :
    Traces V (fun s tables => s = .opening ∧ ∀ table ∈ tables, table.From V) (fun _ _ => True) (openRuns features live)
      .opening := by
  induction live with
  | nil => exact Traces.pure ⟨rfl, by simp⟩
  | cons name rest ih =>
    obtain ⟨q, rfl⟩ := hlive name List.mem_cons_self
    unfold openRuns
    refine Traces.perform (o := .exists _) trivial fun found _ => ?_
    cases found with
    | false => exact Traces.throw trivial
    | true =>
      refine Traces.bind (TracesP.op (o := .openRun _) ⟨q, rfl⟩ fun r hr => ?_)
      cases r with
      | error err => exact trivial
      | ok opened =>
        refine Traces.bind (traces_loadFilter.mono (fun s filter hs => ?_) fun _ _ hs => hs)
        obtain rfl : s = _ := hs
        refine Traces.perform (o := .register _ _ _) ⟨⟨q, rfl⟩, hr opened rfl⟩ fun table htable => ?_
        refine Traces.bind ((ih fun n hn => hlive n (List.mem_cons_of_mem _ hn)).mono (fun s tables hs => ?_) fun _ _ hs => hs)
        obtain ⟨rfl, htables⟩ := hs
        refine Traces.pure ⟨rfl, fun x hx => ?_⟩
        rcases List.mem_cons.mp hx with rfl | hx
        · exact htable
        · exact htables x hx

theorem traces_reclaim {live : List Text} (found : List Text) : ∀ nextSeq : ℕ,
    Traces V (fun s _ => s = .opening) (fun _ _ => True) (reclaim live nextSeq found) .opening := by
  induction found with
  | nil => exact fun _ => Traces.pure rfl
  | cons name rest ih =>
    have hremove : ∀ (context : String) (q : ℕ), Traces V (fun s _ => s = .opening) (fun _ _ => True) (do
        io context (perform (.remove name))
        reclaim live q rest : M ℕ) .opening := by
      intro context q
      refine Traces.bind (Traces.io fun r => ⟨_, .sweep, Or.inr ?_⟩)
      cases r with
      | error err => exact trivial
      | ok v => exact ih q
    intro nextSeq
    rw [reclaim_classify]
    cases classify name with
    | temporary => exact hremove _ _
    | sidecar run =>
      simp only [reclaimAs]
      split_ifs
      · exact ih _
      · exact hremove _ _
    | run seq =>
      simp only [reclaimAs]
      split_ifs
      · exact ih _
      · exact hremove _ _
    | other => exact ih _

theorem traces_openLog :
    Traces V (fun s' m => s' = s ∧ ∀ x ∈ m.iter, V x) (fun _ _ => True) (openLog features) s := by
  unfold openLog
  cases features.durability with
  | false => exact Traces.pure ⟨rfl, by simp⟩
  | true =>
    rw [if_pos rfl]
    refine Traces.bind (Traces.io (TracesP.op (o := .walOpen) trivial fun r _ => ?_))
    cases r with
    | error err => exact trivial
    | ok v =>
      refine Traces.bind (TracesP.op (o := .walIter) trivial fun r hr => ?_)
      cases r with
      | error err => exact trivial
      | ok records =>
        exact Traces.lift (fun m hm => ⟨rfl, replayLog_from (by simp) (hr records rfl) hm⟩) fun _ => trivial

theorem traces_openWith :
    Traces V (fun _ _ => True) (fun _ _ => True) (openWith config features) .opening := by
  have hbuilt : Traces V (fun _ _ => True) (fun _ _ => True) (orDrop do
      flush config features
      io "spawn compaction thread" (perform .spawn) : M Unit) (.serving true none) := by
    have hflush : Traces V (fun s _ => OnEngine true s) (fun s _ => OnEngine true s) (do
        flush config features
        io "spawn compaction thread" (perform .spawn) : M Unit) (.serving true none) := by
      refine Traces.bind ((traces_flush ⟨none, rfl⟩).mono (fun s _ hs => ?_) fun _ _ hs => hs)
      refine Traces.io (TracesP.op (o := .spawn) trivial fun r _ => ?_)
      cases r with
      | error err => exact hs
      | ok v => exact hs
    refine TracesP.bind (TracesP.mono hflush fun s r hs => ?_)
    cases r with
    | ok v => exact Or.inr trivial
    | error err =>
      obtain ⟨d, rfl⟩ : OnEngine true s := hs
      exact fun r => ⟨_, .drop, Or.inr trivial⟩
  unfold openWith
  refine Traces.bind (Traces.io (TracesP.op (o := .createDir) trivial fun r _ => ?_))
  cases r with
  | error err => exact trivial
  | ok v =>
    refine Traces.bind (traces_loadManifest.mono (fun s manifest hs => ?_) fun _ _ hs => hs)
    obtain ⟨rfl, hlive⟩ := hs
    refine Traces.bind ((traces_openRuns ?_).mono (fun s runs hs => ?_) fun _ _ hs => hs)
    · cases manifest with
      | none => simp
      | some m => exact hlive m rfl
    obtain ⟨rfl, hruns⟩ := hs
    refine Traces.bind (Traces.io (TracesP.op (o := .readDir) trivial fun r _ => ?_))
    cases r with
    | error err => exact trivial
    | ok listing =>
      refine Traces.bind ((traces_reclaim listing.1 _).mono (fun s nextSeq hs => ?_) fun _ _ hs => hs)
      obtain rfl : s = _ := hs
      dsimp only
      split_ifs
      · exact Traces.bind (Traces.throw trivial)
      · refine Traces.bind (traces_openLog.mono (fun s m hs => ?_) fun _ _ hs => hs)
        obtain ⟨rfl, hm⟩ := hs
        exact Traces.bind (TracesP.bind fun r => ⟨_, .start hm hruns, Or.inr (Or.inr hbuilt)⟩)

/-! ## Calls -/

def Call.scribe : Call → Scribe
  | .openWith _ _ => .opening
  | _ => .serving false none

/-- Every program of the engine keeps to `V` when its call does. -/
theorem traces_program (hV : ∀ x, V x → x.FitsU32) (config : LsmConfig) (features : Features) {call : Call}
    (hcall : ∀ x ∈ call.ops, V x) :
    TracesP V (fun _ reply => Reply.From V call reply) (call.program config features) call.scribe := by
  have hserves : OnEngine false (.serving false none) := ⟨none, rfl⟩
  have hunit : ∀ {x : M Unit} {s : Scribe} {Q E} (call : Call), Traces V Q E x s →
      TracesP V (fun _ reply => Reply.From V call reply) (Reply.unit <$> x.run : P Reply) s := by
    intro x s Q E call hx
    refine TracesP.bind (TracesP.mono hx fun s r _ => Or.inr ?_)
    cases call <;> exact Reply.from_nil rfl
  cases call with
  | put key value => exact hunit _ (traces_writeOps hV hcall hserves)
  | delete key => exact hunit _ (traces_writeOps hV hcall hserves)
  | write batch => exact hunit _ (traces_writeOps hV hcall hserves)
  | flush => exact hunit _ (traces_flush hserves)
  | openWith config features => exact hunit _ traces_openWith
  | get key => exact TracesP.bind (TracesP.mono traces_get fun _ _ hr => Or.inr hr)
  | scan range => exact TracesP.bind (TracesP.mono traces_scan fun _ _ hr => Or.inr hr)
  | compact =>
    refine TracesP.bind (TracesP.mono (traces_compactorRound hserves) fun s r _ => Or.inr ?_)
    cases r <;> exact Reply.from_nil rfl

end Programs
end Scribes
end LsmDb
