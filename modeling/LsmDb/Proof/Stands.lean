import LsmDb.Proof.Crashes
import LsmDb.Proof.Protocol

/-! Where a thread stands: outside or inside the write lock, with the memtable taken or not, and how far the effect
of its call has come. Every program of the engine is followed once through these stages. -/
namespace LsmDb
open Lib
set_option autoImplicit false

/-- How far the effect of a call has come: nothing yet, in the log, in the memtable. -/
inductive Mark where
  | before
  | ahead
  | after
deriving DecidableEq

/-- Where a thread is to the write lock. `taken` has emptied the memtable and not yet committed its run, `renamed`
has not yet emptied the log. -/
inductive Zone where
  | out
  | inside
  | taken
  | renamed
deriving DecidableEq

/-- What a call is for. An open flushes what it has read from the log. -/
inductive Aim where
  | writes (ops : List Entry)
  | flushes
  | reads

def Aim.ops : Aim → List Entry
  | writes ops => ops
  | _ => []

def Call.aim : Call → Aim
  | .put key value => .writes [(key, .value value)]
  | .delete key => .writes [(key, .tombstone)]
  | .write batch => .writes batch.entries
  | .flush | .openWith _ _ => .flushes
  | .get _ | .scan _ | .compact => .reads

theorem Call.aim_ops (call : Call) : call.aim.ops = call.ops := by
  cases call <;> rfl

/-- A thread without a call; an open without an engine, with the records it read from the log; a call of a client or
of an open on an engine; a round of the compactor; a call that gave up. -/
inductive Stand where
  | idle
  | opening (d : Bool) (records : Option (List Bytes))
  | at (d : Bool) (aim : Aim) (mark : Mark) (zone : Zone)
  | merging (locked : Bool)
  | failed

namespace Stand

def locked : Stand → Bool
  | .at _ _ _ zone => zone ≠ .out
  | merging b => b
  | _ => false

/-- The call still has operations of its own to make. -/
def acts : Stand → Bool
  | opening _ _ | .at _ _ _ _ | merging _ => true
  | _ => false

end Stand

section Steps
variable [Deps]

/-- Operations that leave the lock, the memtable, the records of the log and the history's stores alone, and never
have to wait. -/
def Act.bare : Act → Bool
  | .lock | .unlock | .apply _ | .take | .snapshot _ | .awaitWork | .walAppend _ | .walRemove
  | .startEngine _ _ _ _ _ _ | .dropEngine => false
  | .rename _ target => target ≠ MANIFEST
  | _ => true

inductive StandStep : Stand → (o : Act) → Res o → Stand → Prop
  | keep {s : Stand} {o : Act} {r : Res o} (hs : s.acts = true) (ho : o.bare = true) : StandStep s o r s
  -- opening
  | read {d : Bool} {r : Except Error (List Bytes)} {records : List Bytes} (h : r = .ok records) :
      StandStep (.opening d none) .walIter r (.opening d (some records))
  | start {config : LsmConfig} {features : Features} {records : Option (List Bytes)} {m : MemTable}
      {runs : List SsTable} {q : ℕ} {r : Unit}
      (hlog : features.durability = true → ∃ l, records = some l ∧ replayLog MemTable.new l = .ok m)
      (hnew : features.durability = false → m = MemTable.new) :
      StandStep (.opening features.durability records)
        (.startEngine config features m runs features.durability q) r (.at features.durability .flushes .before .out)
  -- the lock
  | lock {d : Bool} {aim : Aim} {m : Mark} {r : Unit} (hm : m ≠ .ahead) :
      StandStep (.at d aim m .out) .lock r (.at d aim m .inside)
  | unlock {d : Bool} {aim : Aim} {m : Mark} {zone : Zone} {r : Unit} (hm : m ≠ .ahead)
      (hr : zone = .inside ∨ zone = .renamed ∧ d = false) :
      StandStep (.at d aim m zone) .unlock r (.at d aim m .out)
  | giveUp {d : Bool} {aim : Aim} {m : Mark} {zone : Zone} {r : Unit} :
      StandStep (.at d aim m zone) .unlock r .failed
  -- writes
  | append {ops : List Entry} {r : Except IoError Unit} (h : r = .ok ()) :
      StandStep (.at true (.writes ops) .before .inside) (.walAppend ops) r (.at true (.writes ops) .ahead .inside)
  | unappended {ops : List Entry} {r : Except IoError Unit} {err : IoError} (h : r = .error err) :
      StandStep (.at true (.writes ops) .before .inside) (.walAppend ops) r (.at true (.writes ops) .before .inside)
  | applyLogged {ops : List Entry} {r : Unit} :
      StandStep (.at true (.writes ops) .ahead .inside) (.apply ops) r (.at true (.writes ops) .after .inside)
  | apply {ops : List Entry} {r : Unit} :
      StandStep (.at false (.writes ops) .before .inside) (.apply ops) r (.at false (.writes ops) .after .inside)
  -- flushes
  | empty {d : Bool} {r : MemTable × List SsTable × Bool} (h : r.1.isEmpty = true) :
      StandStep (.at d .flushes .before .inside) .inner r (.at d .flushes .after .inside)
  | take {d : Bool} {aim : Aim} {m : Mark} {r : List Entry} (hm : m = .after ∨ m = .before ∧ aim = .flushes) :
      StandStep (.at d aim m .inside) .take r (.at d aim m .taken)
  | commit {d : Bool} {aim : Aim} {m : Mark} {r : Except IoError Unit}
      (hm : m = .after ∨ m = .before ∧ aim = .flushes) (h : r = .ok ()) :
      StandStep (.at d aim m .taken) (.rename MANIFEST_TMP MANIFEST) r (.at d aim .after .renamed)
  | uncommitted {d : Bool} {aim : Aim} {m : Mark} {r : Except IoError Unit} {err : IoError} (h : r = .error err) :
      StandStep (.at d aim m .taken) (.rename MANIFEST_TMP MANIFEST) r (.at d aim m .taken)
  | rotate {aim : Aim} {r : Except IoError Unit} (h : r ≠ .error .other) :
      StandStep (.at true aim .after .renamed) .walRemove r (.at true aim .after .inside)
  | unrotated {aim : Aim} {r : Except IoError Unit} (h : r = .error .other) :
      StandStep (.at true aim .after .renamed) .walRemove r (.at true aim .after .renamed)
  -- reads
  | snapshot {d : Bool} {want : MemTable → List SsTable → Bool} {r : MemTable × List SsTable} :
      StandStep (.at d .reads .before .out) (.snapshot want) r (.at d .reads .after .out)
  -- compaction
  | await {r : Unit} : StandStep (.merging false) .awaitWork r (.merging false)
  | inputs {want : MemTable → List SsTable → Bool} {r : MemTable × List SsTable} :
      StandStep (.merging false) (.snapshot want) r (.merging false)
  | enter {r : Unit} : StandStep (.merging false) .lock r (.merging true)
  | swap {r : Except IoError Unit} : StandStep (.merging true) (.rename MANIFEST_TMP MANIFEST) r (.merging true)
  | leave {r : Unit} : StandStep (.merging true) .unlock r (.merging false)
  -- an open that fails after it has built its engine
  | drop {s : Stand} {r : Unit} (h : s.locked = false) : StandStep s .dropEngine r .failed

/-- Where a call may end. -/
def StandEnds (call : Call) (s : Stand) (reply : Reply) : Prop :=
  match call with
  | .openWith _ features => if reply.isOk then s = .at features.durability .flushes .after .out
      else s = .failed ∨ ∃ d records, s = .opening d records
  | .compact => s = .merging false
  | call => (∃ d, s = .at d call.aim .after .out) ∨ s = .failed ∧ call.reads = false ∧ reply.isOk = false

/-! ## Programs -/

theorem Act.bare_of_quiet {o : Act} (h : o.quiet = true) : o.bare = true := by
  cases o with
  | rename source target => exact decide_eq_true (of_decide_eq_true h).2
  | _ => first | rfl | simp [Act.quiet] at h

theorem Quiet.bare {α : Type} {x : P α} (h : Quiet x) : x.Uses fun o => o.bare = true := h.mono fun _ => Act.bare_of_quiet

section Programs
variable {α : Type} {config : LsmConfig} {features : Features} {ops : List Entry} {aim : Aim} {s : Stand}

/-- A stretch of operations that change nothing a stage speaks of. -/
theorem FollowsM.bare {x : M α} {Q : Stand → α → Prop} {E : Stand → Error → Prop} (hs : s.acts = true)
    (hx : x.run.Uses fun o => o.bare = true) (hq : ∀ v, Q s v) (he : ∀ err, E s err) : FollowsM StandStep Q E x s :=
  FollowsM.still hx (fun _ _ ho => .keep hs ho) hq he

theorem FollowsM.perform_bare {β : Type} {o : Act} {Q : Stand → β → Prop} {E : Stand → Error → Prop} {f : Res o → M β}
    (hs : s.acts = true) (ho : o.bare = true) (h : ∀ r, FollowsM StandStep Q E (f r) s) :
    FollowsM StandStep Q E ((LsmDb.perform o : P (Res o)) >>= f) s :=
  FollowsM.perform fun r => ⟨s, .keep hs ho, h r⟩

/-- The manifest is written, and then renamed into place. -/
theorem stand_storeManifest {Q : Stand → Unit → Prop} {E : Stand → Error → Prop} {s' : Stand} {q : ℕ} {l : List Text}
    (hs : s.acts = true)
    (hok : StandStep s (.rename MANIFEST_TMP MANIFEST) (.ok () : Except IoError Unit) s')
    (hfail : ∀ err, StandStep s (.rename MANIFEST_TMP MANIFEST) (.error err : Except IoError Unit) s)
    (hq : Q s' ()) (he : ∀ err, E s err) : FollowsM StandStep Q E (storeManifest q l) s := by
  refine FollowsM.storeManifest (fun _ _ ho => .keep hs (Act.bare_of_quiet ho)) he fun r => ?_
  cases r with
  | ok v => exact ⟨s', hok, hq⟩
  | error err => exact ⟨s, hfail err, he _⟩

/-- The stage after a flush has committed and rotated the log. -/
def Stand.flushed (d : Bool) (aim : Aim) : Stand := .at d aim .after (if d then .inside else .renamed)

theorem stand_rotate :
    FollowsM StandStep (fun s _ => s = .flushed features.durability aim)
      (fun s _ => ∃ m zone, s = .at features.durability aim m zone) (rotate features)
      (.at features.durability aim .after .renamed) := by
  cases hd : features.durability with
  | false =>
    unfold rotate
    rw [hd]
    exact rfl
  | true =>
    have hopen : FollowsM StandStep (fun s _ => s = .flushed true aim) (fun s _ => ∃ m zone, s = .at true aim m zone) (do
        io "reopen write-ahead log" (perform .walOpen)
        perform (.setWal true) : M Unit) (.at true aim .after .inside) := by
      refine FollowsM.bind (FollowsM.bare rfl (uses_io (uses_op rfl)) (fun _ => ?_) fun _ => ⟨_, _, rfl⟩)
      exact FollowsM.last fun _ => ⟨_, .keep rfl rfl, rfl⟩
    unfold rotate
    simp only [hd, if_true]
    refine FollowsM.perform_bare rfl rfl fun _ => FollowsM.perform fun r => ?_
    rcases r with (_ | _) | _
    · exact ⟨_, .rotate (by simp), hopen⟩
    · exact ⟨_, .unrotated rfl, ⟨_, _, rfl⟩⟩
    · exact ⟨_, .rotate (by simp), hopen⟩

theorem stand_flushLocked {m : Mark} (hm : m = .after ∨ m = .before ∧ aim = .flushes) :
    FollowsM StandStep (fun s _ => s = .flushed features.durability aim)
      (fun s _ => ∃ m zone, s = .at features.durability aim m zone) (flushLocked config features)
      (.at features.durability aim m .inside) := by
  refine FollowsM.perform fun entries => ⟨_, .take hm, FollowsM.perform_bare rfl rfl fun seq => ?_⟩
  refine FollowsM.bind (FollowsM.bare rfl (quiet_buildRun ..).bare (fun table => ?_) fun _ => ⟨_, _, rfl⟩)
  refine FollowsM.perform_bare rfl rfl fun inner => FollowsM.perform_bare rfl rfl fun nextSeq => ?_
  refine FollowsM.bind (stand_storeManifest rfl (.commit hm rfl) (fun _ => .uncommitted rfl) ?_ fun _ => ⟨_, _, rfl⟩)
  refine FollowsM.perform_bare rfl rfl fun _ => ?_
  refine FollowsM.bind (Prog.Follows.mono stand_rotate fun s r hr => ?_)
  cases r with
  | error err => exact hr
  | ok v =>
    obtain rfl : s = _ := hr
    split_ifs
    · exact FollowsM.last fun _ => ⟨_, .keep rfl rfl, rfl⟩
    · exact rfl

/-- Leaving the critical section after a flush, or after giving up. -/
theorem stand_unlock {d : Bool} {x : M Unit} (h : FollowsM StandStep
      (fun s _ => s = .flushed d aim ∨ s = .at d aim .after .inside)
      (fun s _ => ∃ m zone, s = .at d aim m zone) x s) :
    FollowsM StandStep (fun s _ => ∃ s', StandStep s .unlock () s' ∧ s' = .at d aim .after .out)
      (fun s _ => ∃ s', StandStep s .unlock () s' ∧ s' = .failed) x s := by
  refine Prog.Follows.mono h fun s r hr => ?_
  cases r with
  | ok v =>
    rcases hr with rfl | rfl
    · refine ⟨_, .unlock (by simp) ?_, rfl⟩
      cases d with
      | true => exact Or.inl rfl
      | false => exact Or.inr ⟨rfl, rfl⟩
    · exact ⟨_, .unlock (by simp) (Or.inl rfl), rfl⟩
  | error err =>
    obtain ⟨m, zone, rfl⟩ := hr
    exact ⟨_, .giveUp, rfl⟩

theorem stand_flush :
    FollowsM StandStep (fun s _ => s = .at features.durability .flushes .after .out) (fun s _ => s = .failed)
      (flush config features) (.at features.durability .flushes .before .out) := by
  have hlock : StandStep (.at features.durability .flushes .before .out) .lock () (.at features.durability .flushes .before .inside) :=
    .lock (by simp)
  refine FollowsM.withGuard hlock (stand_unlock (FollowsM.perform fun inner => ?_))
  cases hempty : inner.1.isEmpty with
  | true =>
    refine ⟨_, .empty hempty, ?_⟩
    rw [if_pos rfl]
    exact Or.inr rfl
  | false =>
    refine ⟨_, .keep rfl rfl, ?_⟩
    rw [if_neg (by simp)]
    refine Prog.Follows.mono (stand_flushLocked (Or.inr ⟨rfl, rfl⟩)) fun s r hr => ?_
    cases r with
    | ok v => exact Or.inl hr
    | error err => exact hr

/-- The records are in the log, if there is one. -/
theorem stand_logOps :
    FollowsM StandStep (fun s _ => s = .at features.durability (.writes ops) (if features.durability then .ahead else .before) .inside)
      (fun s _ => ∃ m zone, s = .at features.durability (.writes ops) m zone) (logOps features ops)
      (.at features.durability (.writes ops) .before .inside) := by
  unfold logOps
  cases hd : features.durability with
  | false => exact rfl
  | true =>
    simp only [if_true]
    refine FollowsM.perform_bare rfl rfl fun inner => ?_
    split_ifs
    · exact ⟨_, _, rfl⟩
    · refine FollowsM.io fun r => ?_
      cases r with
      | ok v => exact ⟨_, .append rfl, rfl⟩
      | error err => exact ⟨_, .unappended rfl, ⟨_, _, rfl⟩⟩

theorem stand_writeOps :
    FollowsM StandStep (fun s _ => s = .at features.durability (.writes ops) .after .out) (fun s _ => s = .failed)
      (writeOps config features ops) (.at features.durability (.writes ops) .before .out) := by
  have hlock : StandStep (.at features.durability (.writes ops) .before .out) .lock () (.at features.durability (.writes ops) .before .inside) :=
    .lock (by simp)
  refine FollowsM.withGuard hlock (stand_unlock (FollowsM.bind (Prog.Follows.mono stand_logOps fun s r hr => ?_)))
  cases r with
  | error err => exact hr
  | ok v =>
    obtain rfl : s = _ := hr
    refine FollowsM.perform fun _ => ⟨.at features.durability (.writes ops) .after .inside, ?_, ?_⟩
    · cases features.durability with
      | true => exact .applyLogged
      | false => exact .apply
    · refine FollowsM.perform_bare rfl rfl fun inner => ?_
      split_ifs
      · refine Prog.Follows.mono (stand_flushLocked (Or.inl rfl)) fun s r hr => ?_
        cases r with
        | ok v => exact Or.inl hr
        | error err => exact hr
      · exact Or.inr rfl

theorem Reader.stand {x : P α} {d : Bool} (h : Reader x) :
    x.Follows StandStep (fun s _ => s = .at d .reads .after .out) (.at d .reads .before .out) := by
  obtain ⟨want, k, rfl, hk⟩ := h
  exact fun r => ⟨_, .snapshot, (hk r).bare.follows (fun _ _ ho => .keep rfl ho) fun _ => rfl⟩

theorem stand_mergeRuns (inputs : List SsTable) :
    FollowsM StandStep (fun s _ => s = .merging false) (fun s _ => s = .merging false) (mergeRuns features inputs)
      (.merging false) := by
  have hleave : StandStep (.merging true) .unlock () (.merging false) := .leave
  unfold mergeRuns
  refine FollowsM.perform_bare rfl rfl fun seq => FollowsM.perform_bare rfl rfl fun faults => ?_
  refine FollowsM.bind (FollowsM.bare rfl (quiet_buildRun ..).bare (fun output => ?_) fun _ => rfl)
  refine FollowsM.withGuard .enter (FollowsM.perform_bare rfl rfl fun inner => FollowsM.perform_bare rfl rfl fun nextSeq => ?_)
  refine FollowsM.bind (stand_storeManifest rfl .swap (fun _ => .swap) ?_ fun _ => ⟨_, hleave, rfl⟩)
  exact FollowsM.last fun _ => ⟨_, .keep rfl rfl, _, hleave, rfl⟩

theorem stand_compactorRound :
    (compactorRound features).run.Follows StandStep (fun s _ => s = .merging false) (.merging false) := by
  have hrest : ∀ {β : Type} {x : P β}, (x.Uses fun o => o.bare = true) →
      x.Follows StandStep (fun s _ => s = .merging false) (.merging false) := fun hx =>
    hx.follows (fun _ _ ho => .keep rfl ho) fun _ => rfl
  have hinner : (compactInner features).run.Follows StandStep (fun s _ => s = .merging false) (.merging false) := by
    refine follows_perform fun snap => ⟨_, .inputs, ?_⟩
    dsimp only
    split_ifs
    · exact rfl
    · refine Prog.Follows.bind (Prog.Follows.mono (stand_mergeRuns snap.2) fun s r hr => ?_)
      obtain rfl : s = .merging false := by
        cases r with
        | ok v => exact hr
        | error err => exact hr
      exact hrest (Prog.Uses.bind (quiet_dropRuns snap.2).bare fun _ => trivial)
  refine follows_perform fun _ => ⟨_, .await, Prog.Follows.bind ?_⟩
  refine follows_perform fun busy => ⟨_, .keep rfl rfl, ?_⟩
  cases busy with
  | true => exact hrest (Prog.Uses.bind (uses_op (o := .finishWork _) rfl) fun _ => trivial)
  | false =>
    refine Prog.Follows.bind (Prog.Follows.mono hinner fun s r hr => ?_)
    obtain rfl : s = _ := hr
    refine follows_perform fun _ => ⟨_, .keep rfl rfl, ?_⟩
    exact hrest (Prog.Uses.bind (uses_op (o := .finishWork r) rfl) fun _ => trivial)

/-- The log is opened and read, if there is one. -/
theorem stand_openLog :
    FollowsM StandStep (fun s m => ∃ records, s = .opening features.durability records ∧
        (features.durability = true → ∃ l, records = some l ∧ replayLog MemTable.new l = .ok m) ∧
        (features.durability = false → m = MemTable.new))
      (fun s _ => ∃ records, s = .opening features.durability records) (openLog features)
      (.opening features.durability none) := by
  unfold openLog
  cases hd : features.durability with
  | false => exact ⟨none, rfl, by simp, fun _ => rfl⟩
  | true =>
    have hreplay : ∀ records : List Bytes, FollowsM StandStep (fun s m => ∃ records, s = .opening true records ∧
        (true = true → ∃ l, records = some l ∧ replayLog MemTable.new l = .ok m) ∧ (true = false → m = MemTable.new))
        (fun s _ => ∃ records, s = .opening true records) (lift (replayLog MemTable.new records))
        (.opening true (some records)) := by
      intro records
      cases hm : replayLog MemTable.new records with
      | error err => exact ⟨_, rfl⟩
      | ok m => exact ⟨_, rfl, fun _ => ⟨_, rfl, hm⟩, by simp⟩
    rw [if_pos rfl]
    refine FollowsM.bind (FollowsM.bare rfl (uses_io (uses_op rfl)) (fun _ => ?_) fun _ => ⟨_, rfl⟩)
    refine FollowsM.bind fun r => ?_
    cases r with
    | error err => exact ⟨_, .keep rfl rfl, ⟨_, rfl⟩⟩
    | ok records => exact ⟨_, .read rfl, hreplay records⟩

theorem stand_openWith :
    FollowsM StandStep (fun s _ => s = .at features.durability .flushes .after .out)
      (fun s _ => s = .failed ∨ ∃ d records, s = .opening d records) (openWith config features)
      (.opening features.durability none) := by
  have hbare : ∀ {β : Type} {x : M β} {Q : Stand → β → Prop}, (x.run.Uses fun o => o.bare = true) →
      (∀ v, Q (.opening features.durability none) v) →
      FollowsM StandStep Q (fun s _ => s = .failed ∨ ∃ d records, s = .opening d records) x
        (.opening features.durability none) := fun hx hq =>
    FollowsM.bare rfl hx hq fun _ => Or.inr ⟨_, _, rfl⟩
  unfold openWith
  refine FollowsM.bind (hbare (uses_io (uses_op rfl)) fun _ => ?_)
  refine FollowsM.bind (hbare quiet_loadManifest.bare fun manifest => ?_)
  refine FollowsM.bind (hbare (quiet_openRuns ..).bare fun runs => ?_)
  refine FollowsM.bind (hbare (uses_io (uses_op rfl)) fun found => ?_)
  refine FollowsM.bind (hbare (quiet_reclaim ..).bare fun nextSeq => ?_)
  dsimp only
  split_ifs
  · exact Or.inr ⟨_, _, rfl⟩
  · refine FollowsM.bind (Prog.Follows.mono stand_openLog fun s r hr => ?_)
    cases r with
    | error err => exact Or.inr ⟨_, hr⟩
    | ok m =>
      obtain ⟨records, rfl, hlog, hnew⟩ := hr
      refine FollowsM.perform fun _ => ⟨_, .start hlog hnew, ?_⟩
      have hbuilt : FollowsM StandStep (fun s _ => s = .at features.durability .flushes .after .out)
          (fun s _ => s.locked = false) (do
            flush config features
            io "spawn compaction thread" (perform .spawn) : M Unit) (.at features.durability .flushes .before .out) := by
        refine FollowsM.bind (Prog.Follows.mono stand_flush fun s r hr => ?_)
        cases r with
        | error err =>
          obtain rfl : s = _ := hr
          exact rfl
        | ok v =>
          obtain rfl : s = _ := hr
          exact FollowsM.bare rfl (uses_io (uses_op rfl)) (fun _ => rfl) fun _ => rfl
      refine Prog.Follows.bind (Prog.Follows.mono hbuilt fun s r hr => ?_)
      cases r with
      | ok v => exact hr
      | error err => exact follows_perform fun _ => ⟨_, .drop hr, Or.inl rfl⟩

/-- The stage a call starts in. -/
def Call.stand (features : Features) : Call → Stand
  | .openWith _ features => .opening features.durability none
  | .compact => .merging false
  | call => .at features.durability call.aim .before .out

/-- Every program of the engine keeps to its stages. -/
theorem stand_program (config : LsmConfig) (features : Features) (call : Call) :
    (call.program config features).Follows StandStep (StandEnds call) (call.stand features) := by
  have hwrite : ∀ {aim : Aim} {x : M Unit} {Q : Stand → Reply → Prop},
      FollowsM StandStep (fun s _ => s = .at features.durability aim .after .out) (fun s _ => s = .failed) x
        (.at features.durability aim .before .out) →
      (Q (.at features.durability aim .after .out) (.unit (.ok ()))) → (∀ err, Q .failed (.unit (.error err))) →
      (Reply.unit <$> x.run : P Reply).Follows StandStep Q (.at features.durability aim .before .out) := by
    intro aim x Q hx hok herr
    refine Prog.Follows.bind (Prog.Follows.mono hx fun s r hr => ?_)
    cases r with
    | ok v =>
      obtain rfl : s = _ := hr
      exact hok
    | error err =>
      obtain rfl : s = _ := hr
      exact herr err
  cases call with
  | put key value => exact hwrite stand_writeOps (Or.inl ⟨_, rfl⟩) fun _ => Or.inr ⟨rfl, rfl, rfl⟩
  | delete key => exact hwrite stand_writeOps (Or.inl ⟨_, rfl⟩) fun _ => Or.inr ⟨rfl, rfl, rfl⟩
  | write batch => exact hwrite stand_writeOps (Or.inl ⟨_, rfl⟩) fun _ => Or.inr ⟨rfl, rfl, rfl⟩
  | flush => exact hwrite stand_flush (Or.inl ⟨_, rfl⟩) fun _ => Or.inr ⟨rfl, rfl, rfl⟩
  | get key => exact Prog.Follows.mono ((reader_get key).map _).stand fun s _ hs => Or.inl ⟨_, hs⟩
  | scan range => exact Prog.Follows.mono ((reader_scan range).map _).stand fun s _ hs => Or.inl ⟨_, hs⟩
  | compact => exact Prog.Follows.bind (Prog.Follows.mono stand_compactorRound fun s _ hs => hs)
  | openWith config features =>
    refine Prog.Follows.bind (Prog.Follows.mono stand_openWith fun s r hr => ?_)
    cases r with
    | ok v => exact hr
    | error err => exact hr

end Programs
end Steps
end LsmDb
