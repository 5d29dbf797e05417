import LsmDb.Proof.Crashes
import LsmDb.Proof.Protocol

/-! Requests for compaction. A flush that leaves as many runs as the trigger asks the compactor for a round, and the
request is still there, or being served, whenever the write lock is free. An open makes the check only if it has
writes to checkpoint. -/
namespace LsmDb
open Lib
set_option autoImplicit false

section Requests
variable [Deps] {e : Env} {c c' : Config} {t : Tid} {w w' : World} {config : LsmConfig} {features : Features}

/-- Replaying the records gives a memtable that is not empty. -/
def Fills (records : List Bytes) : Prop := ∃ m, replayLog MemTable.new records = .ok m ∧ m.isEmpty = false

/-- The manifest lists fewer runs than the trigger, or the log holds writes to checkpoint. -/
def Prompt (w : World) (config : LsmConfig) (features : Features) : Prop :=
  (listed w).length < config.compactionTrigger ∨ features.durability = true ∧ Fills (logRecords w.wal)

/-! ## The stages of a thread -/

/-- Where a thread of an engine is: after the start of an engine, before its first check of the run list; bound to
check; owing nothing; with a new run list it has not checked; and the way of the compactor through a round. -/
inductive Spot where
  | fresh (locked : Bool)
  | due (locked : Bool)
  | clear (locked : Bool)
  | owing (runs : ℕ)
  | woken
  | taken
  | merging (inputs : ℕ) (locked : Bool)
  | settled (locked : Bool)
  | stored
  | refused
  | broken

namespace Spot

def locked : Spot → Bool
  | fresh b | due b | clear b | merging _ b | settled b => b
  | owing _ => true
  | _ => false

/-- A thread may take the lock here. -/
def free : Spot → Bool
  | fresh b | clear b | merging _ b => !b
  | _ => false

def enter : Spot → Spot
  | fresh _ => fresh true
  | clear _ => clear true
  | merging n _ => merging n true
  | p => p

def leave : Spot → Spot
  | fresh _ => fresh false
  | due _ => due false
  | clear _ => clear false
  | owing _ => clear false
  | merging n _ => merging n false
  | settled _ => settled false
  | p => p

/-- Places at which a thread does other things. -/
def steady : Spot → Bool
  | fresh _ | refused | broken => false
  | _ => true

end Spot

/-- An open before the manifest is read, with the number of runs it lists, with the records of the log, and when its
engine is gone; and a thread of an engine, which opened it or not. -/
inductive Duty where
  | rest
  | starting (config : LsmConfig) (features : Features)
  | listing (config : LsmConfig) (features : Features) (runs : ℕ)
  | replaying (config : LsmConfig) (runs : ℕ) (records : List Bytes)
  | gone
  | at (trigger : ℕ) (opener : Bool) (spot : Spot)

/-- Operations that leave the run list, the lock and the compactor's flags alone. -/
def Act.plain : Act → Bool
  | .lock | .unlock | .install _ _ | .swapCompacting | .storeCompacting | .signal | .awaitWork | .finishWork _
  | .startEngine _ _ _ _ _ _ | .dropEngine => false
  | _ => true

/-- Stages that quiet operations do not move. -/
def Duty.still : Duty → Bool
  | .listing _ _ _ | .replaying _ _ _ | .gone | .at _ _ (.fresh _) => true
  | _ => false

inductive DutyStep : Duty → (o : Act) → Res o → Duty → Prop
  | plain {T : ℕ} {b : Bool} {p : Spot} {o : Act} {r : Res o} (hp : p.steady = true) (ho : o.plain = true) :
      DutyStep (.at T b p) o r (.at T b p)
  | quiet {s : Duty} {o : Act} {r : Res o} (hs : s.still = true) (ho : o.quiet = true) : DutyStep s o r s
  | broken {T : ℕ} {b : Bool} {o : Act} {r : Res o} : DutyStep (.at T b .broken) o r (.at T b .broken)
  -- opening
  | mkdir {config : LsmConfig} {features : Features} {r : Except IoError Unit} :
      DutyStep (.starting config features) .createDir r (.starting config features)
  | found {config : LsmConfig} {features : Features} {r : Bool} (h : r = true) :
      DutyStep (.starting config features) (.exists MANIFEST) r (.starting config features)
  | missing {config : LsmConfig} {features : Features} {r : Bool} (h : r = false) :
      DutyStep (.starting config features) (.exists MANIFEST) r (.listing config features 0)
  | read {config : LsmConfig} {features : Features} {r : Except IoError Text} {text : Text} {m : Manifest}
      (h : r = .ok text) (hm : parseManifest text = .ok m) :
      DutyStep (.starting config features) (.readText MANIFEST) r (.listing config features m.runs.length)
  | unread {config : LsmConfig} {features : Features} {r : Except IoError Text} :
      DutyStep (.starting config features) (.readText MANIFEST) r .gone
  | walOpen {config : LsmConfig} {features : Features} {n : ℕ} {r : Except IoError Unit} :
      DutyStep (.listing config features n) .walOpen r (.listing config features n)
  | replay {config : LsmConfig} {features : Features} {n : ℕ} {r : Except Error (List Bytes)} {records : List Bytes}
      (h : r = .ok records) : DutyStep (.listing config features n) .walIter r (.replaying config n records)
  | startPlain {config : LsmConfig} {features : Features} {n : ℕ} {m : MemTable} {runs : List SsTable} {q : ℕ}
      {r : Unit} (hd : features.durability = false) (hn : runs.length = n) :
      DutyStep (.listing config features n) (.startEngine config features m runs features.durability q) r
        (.at config.compactionTrigger true (.fresh false))
  | startLogged {config : LsmConfig} {features : Features} {n : ℕ} {records : List Bytes} {m : MemTable}
      {runs : List SsTable} {q : ℕ} {r : Unit} (hm : replayLog MemTable.new records = .ok m) (hn : runs.length = n) :
      DutyStep (.replaying config n records) (.startEngine config features m runs features.durability q) r
        (.at config.compactionTrigger true (.fresh false))
  | drop {T : ℕ} {p : Spot} {r : Unit} (h : p.locked = false) : DutyStep (.at T true p) .dropEngine r .gone
  -- the lock, and what is done under it
  | lock {T : ℕ} {b : Bool} {p : Spot} {r : Unit} (h : p.free = true) :
      DutyStep (.at T b p) .lock r (.at T b p.enter)
  | unlock {T : ℕ} {b : Bool} {p : Spot} {r : Unit} (h : p.locked = true) (ho : ∀ n, p = .owing n → n < T)
      (hf : ∀ b, p ≠ .fresh b) : DutyStep (.at T b p) .unlock r (.at T b p.leave)
  | empty {T : ℕ} {b : Bool} {r : MemTable × List SsTable × Bool} (h : r.1.isEmpty = true) :
      DutyStep (.at T b (.fresh true)) .inner r (.at T b (.clear true))
  | full {T : ℕ} {b : Bool} {r : MemTable × List SsTable × Bool} :
      DutyStep (.at T b (.fresh true)) .inner r (.at T b (.due true))
  | install {T : ℕ} {b : Bool} {p : Spot} {runs : List SsTable} {r : Unit} (hp : p = .due true ∨ p = .clear true) :
      DutyStep (.at T b p) (.install [] runs) r (.at T b (.owing runs.length))
  | signal {T : ℕ} {b : Bool} {n : ℕ} {r : Unit} : DutyStep (.at T b (.owing n)) .signal r (.at T b (.clear true))
  | unrotated {T : ℕ} {b : Bool} {n : ℕ} {r : Except IoError Unit} (h : r = .error .other) :
      DutyStep (.at T b (.owing n)) .walRemove r (.at T b .broken)
  | unopened {T : ℕ} {b : Bool} {n : ℕ} {r : Except IoError Unit} {err : IoError} (h : r = .error err) :
      DutyStep (.at T b (.owing n)) .walOpen r (.at T b .broken)
  -- a round of the compactor
  | await {T : ℕ} {r : Unit} : DutyStep (.at T false (.clear false)) .awaitWork r (.at T false .woken)
  | busy {T : ℕ} {b : Bool} {r : Bool} (h : r = true) : DutyStep (.at T b .woken) .swapCompacting r (.at T b .broken)
  | seize {T : ℕ} {b : Bool} {r : Bool} (h : r = false) : DutyStep (.at T b .woken) .swapCompacting r (.at T b .taken)
  | few {T : ℕ} {b : Bool} {want : MemTable → List SsTable → Bool} {r : MemTable × List SsTable}
      (h : r.2.length < 2) : DutyStep (.at T b .taken) (.snapshot want) r (.at T b (.settled false))
  | snap {T : ℕ} {b : Bool} {want : MemTable → List SsTable → Bool} {r : MemTable × List SsTable} :
      DutyStep (.at T b .taken) (.snapshot want) r (.at T b (.merging r.2.length false))
  | swap {T : ℕ} {b : Bool} {inputs runs : List SsTable} {r : Unit} (h : 2 ≤ inputs.length) :
      DutyStep (.at T b (.merging inputs.length true)) (.install inputs runs) r (.at T b (.settled true))
  | store {T : ℕ} {b : Bool} {r : Unit} : DutyStep (.at T b (.settled false)) .storeCompacting r (.at T b .stored)
  | storeFailed {T : ℕ} {b : Bool} {n : ℕ} {r : Unit} :
      DutyStep (.at T b (.merging n false)) .storeCompacting r (.at T b (.merging n false))
  | finish {T : ℕ} {b : Bool} {r : Unit} : DutyStep (.at T b .stored) (.finishWork (.ok ())) r (.at T b (.clear false))
  | refuse {T : ℕ} {b : Bool} {n : ℕ} {err : Error} {r : Unit} :
      DutyStep (.at T b (.merging n false)) (.finishWork (.error err)) r (.at T b .refused)

/-- An open whose engine is not there. -/
def Duty.closed : Duty → Bool
  | .starting _ _ | .listing _ _ _ | .replaying _ _ _ | .gone => true
  | _ => false

def DutyEnds (call : Call) (s : Duty) (reply : Reply) : Prop :=
  match call with
  | .openWith _ _ => (∃ T, s = .at T true .broken) ∨
      if reply.isOk then ∃ T, s = .at T true (.clear false) else s.closed = true
  | .compact => (∃ T, s = .at T false .broken) ∨ (∃ T, s = .at T false (.clear false)) ∨
      ∃ T, s = .at T false .refused ∧ reply.isOk = false
  | _ => (∃ T, s = .at T false .broken) ∨ ∃ T, s = .at T false (.clear false)

/-! ## The programs -/

theorem Act.plain_of_reading {o : Act} (h : o.reading = true) : o.plain = true := by
  cases o <;> first | rfl | simp [Act.reading, Act.quiet] at h

theorem Quiet.plain {α : Type} {x : P α} (h : Quiet x) : x.Uses fun o => o.plain = true :=
  h.mono fun _ ho => Act.plain_of_reading (Act.reading_of_quiet ho)

section Programs
variable {α : Type} {T n : ℕ} {b : Bool} {p : Spot} {E : Duty → Error → Prop}

theorem FollowsM.steady {x : M α} {Q : Duty → α → Prop} (hp : p.steady = true) (hx : x.run.Uses fun o => o.plain = true)
    (hq : ∀ v, Q (.at T b p) v) (he : ∀ err, E (.at T b p) err) : FollowsM DutyStep Q E x (.at T b p) :=
  FollowsM.still hx (fun _ _ ho => .plain hp ho) hq he

theorem duty_rotate {Q : Duty → Unit → Prop} (hq : Q (.at T b (.owing n)) ()) (he : ∀ err, E (.at T b .broken) err)
    (features : Features) : FollowsM DutyStep Q E (rotate features) (.at T b (.owing n)) := by
  have hplain : ∀ {o : Act} {r : Res o}, o.plain = true → DutyStep (.at T b (.owing n)) o r (.at T b (.owing n)) :=
    fun ho => .plain rfl ho
  have hopen : FollowsM DutyStep Q E (do
      io "reopen write-ahead log" (perform .walOpen)
      perform (.setWal true) : M Unit) (.at T b (.owing n)) := by
    refine FollowsM.bind (FollowsM.io fun r => ?_)
    cases r with
    | error err => exact ⟨_, .unopened rfl, he _⟩
    | ok v => exact ⟨_, hplain rfl, FollowsM.last fun _ => ⟨_, hplain rfl, hq⟩⟩
  unfold rotate
  split_ifs
  · refine FollowsM.perform fun _ => ⟨_, hplain rfl, FollowsM.perform fun r => ?_⟩
    rcases r with (_ | _) | _
    · exact ⟨_, hplain rfl, hopen⟩
    · exact ⟨_, .unrotated rfl, he _⟩
    · exact ⟨_, hplain rfl, hopen⟩
  · exact hq

/-- A flush checks the list it installs. -/
theorem duty_flushLocked (hp : p = .due true ∨ p = .clear true) :
    FollowsM DutyStep (fun s _ => s = .at config.compactionTrigger b (.clear true) ∨
        ∃ n < config.compactionTrigger, s = .at config.compactionTrigger b (.owing n))
      (fun s _ => s = .at config.compactionTrigger b p ∨ s = .at config.compactionTrigger b .broken)
      (flushLocked config features) (.at config.compactionTrigger b p) := by
  have hp' : p.steady = true := by rcases hp with rfl | rfl <;> rfl
  have hplain : ∀ {o : Act} {r : Res o}, o.plain = true →
      DutyStep (.at config.compactionTrigger b p) o r (.at config.compactionTrigger b p) := fun ho => .plain hp' ho
  refine FollowsM.perform fun entries => ⟨_, hplain rfl, FollowsM.perform fun seq => ⟨_, hplain rfl, ?_⟩⟩
  refine FollowsM.bind (FollowsM.steady hp' (quiet_buildRun ..).plain (fun table => ?_) fun _ => Or.inl rfl)
  refine FollowsM.perform fun inner => ⟨_, hplain rfl, FollowsM.perform fun nextSeq => ⟨_, hplain rfl, ?_⟩⟩
  refine FollowsM.bind (FollowsM.steady hp' (uses_storeManifest (p := fun o => o.plain = true)
    (fun _ ho => Act.plain_of_reading (Act.reading_of_quiet ho)) rfl _ _) (fun _ => ?_) fun _ => Or.inl rfl)
  refine FollowsM.perform fun _ => ⟨_, .install hp, ?_⟩
  refine FollowsM.bind (duty_rotate ?_ (fun _ => Or.inr rfl) features)
  by_cases hmany : config.compactionTrigger ≤ (table :: inner.2.1).length
  · rw [if_pos hmany]
    exact FollowsM.last fun _ => ⟨_, .signal, Or.inl rfl⟩
  · rw [if_neg hmany]
    exact Or.inr ⟨_, not_le.mp hmany, rfl⟩

/-- Releasing the lock after a flush. -/
theorem duty_unlock {x : M Unit} {s : Duty} (hp : p = .due true ∨ p = .clear true)
    (h : FollowsM DutyStep (fun s _ => s = .at T b (.clear true) ∨ ∃ n < T, s = .at T b (.owing n))
      (fun s _ => s = .at T b p ∨ s = .at T b .broken) x s)
    {E : Duty → Prop} (hleave : E (.at T b p.leave)) (hbroken : E (.at T b .broken)) :
    FollowsM DutyStep (fun s _ => ∃ s', DutyStep s .unlock () s' ∧ s' = .at T b (.clear false))
      (fun s _ => ∃ s', DutyStep s .unlock () s' ∧ E s') x s := by
  refine Prog.Follows.mono h fun s r hr => ?_
  cases r with
  | ok v =>
    rcases hr with rfl | ⟨n, hn, rfl⟩
    · exact ⟨_, .unlock rfl (by simp) (by simp), rfl⟩
    · refine ⟨_, .unlock rfl ?_ (by simp), rfl⟩
      intro n' hn'
      cases hn'
      exact hn
  | error err =>
    rcases hr with rfl | rfl
    · refine ⟨_, .unlock ?_ ?_ ?_, hleave⟩
      · rcases hp with rfl | rfl <;> rfl
      · rcases hp with rfl | rfl <;> simp
      · rcases hp with rfl | rfl <;> simp
    · exact ⟨_, .broken, hbroken⟩

/-- A client's flush. -/
theorem duty_flush :
    FollowsM DutyStep (fun s _ => s = .at config.compactionTrigger b (.clear false))
      (fun s _ => s = .at config.compactionTrigger b (.clear false) ∨ s = .at config.compactionTrigger b .broken)
      (flush config features) (.at config.compactionTrigger b (.clear false)) := by
  have hlock : DutyStep (.at config.compactionTrigger b (.clear false)) .lock ()
      (.at config.compactionTrigger b (.clear true)) := .lock rfl
  refine FollowsM.withGuard hlock (FollowsM.perform fun inner => ⟨_, .plain rfl rfl, ?_⟩)
  cases hempty : inner.1.isEmpty with
  | true =>
    rw [if_pos rfl]
    exact ⟨_, .unlock rfl (by simp) (by simp), rfl⟩
  | false =>
    rw [if_neg (by simp)]
    exact duty_unlock (Or.inr rfl) (duty_flushLocked (Or.inr rfl)) (Or.inl rfl) (Or.inr rfl)

/-- The first flush of an engine: it checks the run list, unless there is nothing to flush. -/
theorem duty_flush_first :
    FollowsM DutyStep (fun s _ => s = .at config.compactionTrigger b (.clear false))
      (fun s _ => s = .at config.compactionTrigger b (.due false) ∨ s = .at config.compactionTrigger b .broken)
      (flush config features) (.at config.compactionTrigger b (.fresh false)) := by
  have hlock : DutyStep (.at config.compactionTrigger b (.fresh false)) .lock ()
      (.at config.compactionTrigger b (.fresh true)) := .lock rfl
  refine FollowsM.withGuard hlock (FollowsM.perform fun inner => ?_)
  cases hempty : inner.1.isEmpty with
  | true =>
    refine ⟨_, .empty hempty, ?_⟩
    rw [if_pos rfl]
    exact ⟨_, .unlock rfl (by simp) (by simp), rfl⟩
  | false =>
    refine ⟨_, .full, ?_⟩
    rw [if_neg (by simp)]
    exact duty_unlock (Or.inl rfl) (duty_flushLocked (Or.inl rfl)) (Or.inl rfl) (Or.inr rfl)

theorem duty_writeOps (ops : List Entry) :
    FollowsM DutyStep (fun s _ => s = .at config.compactionTrigger b (.clear false))
      (fun s _ => s = .at config.compactionTrigger b (.clear false) ∨ s = .at config.compactionTrigger b .broken)
      (writeOps config features ops) (.at config.compactionTrigger b (.clear false)) := by
  have hunlock : ∀ {T : ℕ}, DutyStep (.at T b (.clear true)) .unlock () (.at T b (.clear false)) :=
    .unlock rfl (by simp) (by simp)
  have hlog : (logOps features ops).run.Uses fun o => o.plain = true := by
    unfold logOps
    split_ifs
    · refine uses_perform rfl fun inner => ?_
      split_ifs
      · trivial
      · exact uses_io (uses_op rfl)
    · trivial
  have hlock : DutyStep (.at config.compactionTrigger b (.clear false)) .lock ()
      (.at config.compactionTrigger b (.clear true)) := .lock rfl
  refine FollowsM.withGuard hlock ?_
  refine FollowsM.bind (FollowsM.steady rfl hlog (fun _ => ?_) fun _ => ⟨_, hunlock, Or.inl rfl⟩)
  refine FollowsM.perform fun _ => ⟨_, .plain rfl rfl, FollowsM.perform fun inner => ⟨_, .plain rfl rfl, ?_⟩⟩
  split_ifs
  · exact duty_unlock (Or.inr rfl) (duty_flushLocked (Or.inr rfl)) (Or.inl rfl) (Or.inr rfl)
  · exact ⟨_, hunlock, rfl⟩

/-! ## A round of the compactor -/

theorem duty_mergeRuns {inputs : List SsTable} (h : 2 ≤ inputs.length) :
    FollowsM DutyStep (fun s _ => s = .at T b (.settled false)) (fun s _ => s = .at T b (.merging inputs.length false))
      (mergeRuns features inputs) (.at T b (.merging inputs.length false)) := by
  have hunlock : DutyStep (.at T b (.merging inputs.length true)) .unlock () (.at T b (.merging inputs.length false)) :=
    .unlock rfl (by simp) (by simp)
  unfold mergeRuns
  refine FollowsM.perform fun seq => ⟨_, .plain rfl rfl, FollowsM.perform fun faults => ⟨_, .plain rfl rfl, ?_⟩⟩
  refine FollowsM.bind (FollowsM.steady rfl (quiet_buildRun ..).plain (fun output => ?_) fun _ => rfl)
  have hlock : DutyStep (.at T b (.merging inputs.length false)) .lock () (.at T b (.merging inputs.length true)) :=
    .lock rfl
  refine FollowsM.withGuard hlock ?_
  refine FollowsM.perform fun inner => ⟨_, .plain rfl rfl, FollowsM.perform fun nextSeq => ⟨_, .plain rfl rfl, ?_⟩⟩
  refine FollowsM.bind (FollowsM.steady rfl (uses_storeManifest (p := fun o => o.plain = true)
    (fun _ ho => Act.plain_of_reading (Act.reading_of_quiet ho)) rfl _ _) (fun _ => ?_) fun _ => ⟨_, hunlock, rfl⟩)
  exact FollowsM.last fun _ => ⟨_, .swap h, _, .unlock rfl (by simp) (by simp), rfl⟩

/-- Where a round is when its result is known, by what it has come to if it succeeded. -/
def Rounded (T : ℕ) (b : Bool) (p : Spot) (s : Duty) (r : Except Error Unit) : Prop :=
  s = .at T b .broken ∨ (match r with
    | .ok _ => s = .at T b p
    | .error _ => ∃ n, s = .at T b (.merging n false))

theorem duty_compactInner : (compactInner features).run.Follows DutyStep (Rounded T b (.settled false)) (.at T b .taken) := by
  refine follows_perform fun snap => ?_
  dsimp only
  by_cases hfew : snap.2.length < 2
  · refine ⟨_, .few hfew, ?_⟩
    rw [if_pos hfew]
    exact Or.inr rfl
  · refine ⟨_, .snap, ?_⟩
    rw [if_neg hfew]
    refine Prog.Follows.bind (Prog.Follows.mono (duty_mergeRuns (not_lt.mp hfew)) fun s r hr => ?_)
    have hdrop : ∀ q : Spot, q.steady = true → Rounded T b (.settled false) (.at T b q) r →
        (dropRuns snap.2 >>= fun _ => pure r : P (Except Error Unit)).Follows DutyStep (Rounded T b (.settled false))
          (.at T b q) := fun q hq hround =>
      Prog.Follows.bind ((quiet_dropRuns snap.2).plain.follows (fun _ _ ho => .plain hq ho) fun _ => hround)
    cases r with
    | ok v =>
      obtain rfl : s = _ := hr
      exact hdrop _ rfl (Or.inr rfl)
    | error err =>
      obtain rfl : s = _ := hr
      exact hdrop _ rfl (Or.inr ⟨_, rfl⟩)

theorem duty_compactorRound :
    FollowsM DutyStep (fun s _ => s = .at T false .broken ∨ s = .at T false (.clear false))
      (fun s _ => s = .at T false .broken ∨ s = .at T false .refused) (compactorRound features)
      (.at T false (.clear false)) := by
  refine follows_perform fun _ => ⟨_, .await, Prog.Follows.bind (Prog.Follows.mono (Q := Rounded T false .stored) ?_ ?_)⟩
  · refine follows_perform fun busy => ?_
    cases busy with
    | true => exact ⟨_, .busy rfl, Or.inl rfl⟩
    | false =>
      refine ⟨_, .seize rfl, Prog.Follows.bind (Prog.Follows.mono duty_compactInner fun s r hr => ?_)⟩
      rcases hr with rfl | hs
      · exact follows_perform fun _ => ⟨_, .broken, Or.inl rfl⟩
      · cases r with
        | ok v =>
          obtain rfl : s = _ := hs
          exact follows_perform fun _ => ⟨_, .store, Or.inr rfl⟩
        | error err =>
          obtain ⟨n, rfl⟩ := hs
          exact follows_perform fun _ => ⟨_, .storeFailed, Or.inr ⟨n, rfl⟩⟩
  · rintro s r (rfl | hs)
    · refine follows_perform fun _ => ⟨_, .broken, ?_⟩
      cases r with
      | ok v => exact Or.inl rfl
      | error err => exact Or.inl rfl
    · cases r with
      | ok v =>
        obtain rfl : s = _ := hs
        exact follows_perform fun _ => ⟨_, .finish, Or.inr rfl⟩
      | error err =>
        obtain ⟨n, rfl⟩ := hs
        exact follows_perform fun _ => ⟨_, .refuse, Or.inr rfl⟩

/-! ## Opening -/

theorem FollowsM.opening {x : M α} {s : Duty} {Q : Duty → α → Prop} (hs : s.still = true) (hx : Quiet x.run)
    (hq : ∀ v, Q s v) (he : ∀ err, E s err) : FollowsM DutyStep Q E x s :=
  FollowsM.still hx (fun _ _ ho => .quiet hs ho) hq he

theorem duty_loadManifest :
    FollowsM DutyStep (fun s m => (m = none ∧ s = .listing config features 0) ∨
        ∃ m', m = some m' ∧ s = .listing config features m'.runs.length)
      (fun s _ => s.closed = true) loadManifest (.starting config features) := by
  unfold loadManifest
  refine FollowsM.perform fun found => ?_
  cases found with
  | false => exact ⟨_, .missing rfl, Or.inl ⟨rfl, rfl⟩⟩
  | true =>
    refine ⟨_, .found rfl, FollowsM.bind (FollowsM.io fun r => ?_)⟩
    cases r with
    | error err => exact ⟨_, .unread, rfl⟩
    | ok text =>
      cases hparse : parseManifest text with
      | error err =>
        refine ⟨_, .unread, ?_⟩
        show FollowsM DutyStep _ _ (lift (parseManifest text) >>= _) _
        rw [hparse]
        rfl
      | ok m =>
        refine ⟨_, .read rfl hparse, ?_⟩
        show FollowsM DutyStep _ _ (lift (parseManifest text) >>= _) _
        rw [hparse]
        exact Or.inr ⟨m, rfl, rfl⟩

theorem duty_openRuns {s : Duty} (hs : s.still = true) (names : List Text) :
    FollowsM DutyStep (fun s' runs => s' = s ∧ runs.length = names.length) (fun s' _ => s' = s)
      (openRuns features names) s := by
  induction names with
  | nil => exact ⟨rfl, rfl⟩
  | cons name rest ih =>
    unfold openRuns
    refine FollowsM.perform fun found => ⟨_, .quiet hs rfl, ?_⟩
    cases found with
    | false => exact rfl
    | true =>
      refine FollowsM.bind (x := ExceptT.mk (perform (.openRun name))) ?_
      refine FollowsM.opening hs (uses_op (o := .openRun name) rfl) (fun opened => ?_) fun _ => rfl
      refine FollowsM.bind (FollowsM.opening hs (quiet_loadFilter features name) (fun filter => ?_) fun _ => rfl)
      refine FollowsM.perform fun table => ⟨_, .quiet hs rfl, FollowsM.bind (Prog.Follows.mono ih fun s' r hr => ?_)⟩
      cases r with
      | ok tables =>
        obtain ⟨rfl, hlen⟩ := hr
        exact ⟨rfl, by rw [List.length_cons, List.length_cons, hlen]⟩
      | error err => exact hr

/-- The memtable an open starts with, and where it came from. -/
def Replayed (config : LsmConfig) (features : Features) (n : ℕ) (s : Duty) (m : MemTable) : Prop :=
  (features.durability = false ∧ s = .listing config features n) ∨
    ∃ records, replayLog MemTable.new records = .ok m ∧ s = .replaying config n records

theorem duty_openLog : FollowsM DutyStep (Replayed config features n) (fun s _ => s.closed = true) (openLog features)
    (.listing config features n) := by
  unfold openLog
  cases hd : features.durability with
  | false =>
    rw [if_neg (by simp)]
    exact Or.inl ⟨hd, rfl⟩
  | true =>
    rw [if_pos rfl]
    refine FollowsM.bind (FollowsM.io fun r => ⟨_, .walOpen, ?_⟩)
    cases r with
    | error err => exact rfl
    | ok v =>
      refine FollowsM.bind (x := ExceptT.mk (perform .walIter)) fun r => ?_
      cases r with
      | error err => exact ⟨_, .quiet rfl rfl, rfl⟩
      | ok records =>
        have hlift : FollowsM DutyStep (Replayed config features n) (fun s _ => s.closed = true)
            (lift (replayLog MemTable.new records)) (.replaying config n records) := by
          cases hreplay : replayLog MemTable.new records with
          | error err => exact rfl
          | ok m => exact Or.inr ⟨records, hreplay, rfl⟩
        exact ⟨_, .replay rfl, hlift⟩

theorem duty_startEngine {m : MemTable} {runs : List SsTable} {q : ℕ} {s : Duty} (hn : runs.length = n)
    (hs : Replayed config features n s m) :
    FollowsM DutyStep (fun s _ => s = .at config.compactionTrigger true (.clear false))
      (fun s _ => s = .at config.compactionTrigger true .broken ∨ s.closed = true) (do
        perform (.startEngine config features m runs features.durability q)
        orDrop do
          flush config features
          io "spawn compaction thread" (perform .spawn) : M Unit) s := by
  have hstart : DutyStep s (.startEngine config features m runs features.durability q) ()
      (.at config.compactionTrigger true (.fresh false)) := by
    rcases hs with ⟨hd, rfl⟩ | ⟨records, hm, rfl⟩
    · exact .startPlain hd hn
    · exact .startLogged hm hn
  have hflush : FollowsM DutyStep (fun s _ => s = .at config.compactionTrigger true (.clear false))
      (fun s _ => ∃ p, s = .at config.compactionTrigger true p ∧ (p.locked = false ∨ p = .broken)) (do
        flush config features
        io "spawn compaction thread" (perform .spawn) : M Unit) (.at config.compactionTrigger true (.fresh false)) := by
    refine FollowsM.bind (Prog.Follows.mono duty_flush_first fun s r hr => ?_)
    cases r with
    | error err =>
      rcases hr with rfl | rfl
      · exact ⟨_, rfl, Or.inl rfl⟩
      · exact ⟨_, rfl, Or.inr rfl⟩
    | ok v =>
      obtain rfl : s = _ := hr
      exact FollowsM.steady rfl (uses_io (uses_op rfl)) (fun _ => rfl) fun _ => ⟨_, rfl, Or.inl rfl⟩
  refine FollowsM.perform fun _ => ⟨_, hstart, Prog.Follows.bind (Prog.Follows.mono hflush fun s r hr => ?_)⟩
  cases r with
  | ok v => exact hr
  | error err =>
    obtain ⟨p, rfl, hp | rfl⟩ := hr
    · exact follows_perform fun _ => ⟨_, .drop hp, Or.inr rfl⟩
    · exact follows_perform fun _ => ⟨_, .broken, Or.inl rfl⟩

theorem duty_openWith :
    FollowsM DutyStep (fun s _ => s = .at config.compactionTrigger true (.clear false))
      (fun s _ => s = .at config.compactionTrigger true .broken ∨ s.closed = true) (openWith config features)
      (.starting config features) := by
  -- with the names the manifest lists
  have hrest : ∀ (live : List Text) (manifestSeq : ℕ), FollowsM DutyStep
      (fun s _ => s = .at config.compactionTrigger true (.clear false))
      (fun s _ => s = .at config.compactionTrigger true .broken ∨ s.closed = true) (do
        let runs ← openRuns features live
        let found ← io "scan database directory" (perform .readDir)
        let nextSeq ← reclaim live manifestSeq found.1
        if found.2 then throw (.io "read directory entry" .other)
        let memtable ← openLog features
        perform (.startEngine config features memtable runs features.durability nextSeq)
        orDrop do
          flush config features
          io "spawn compaction thread" (perform .spawn) : M Unit) (.listing config features live.length) := by
    intro live manifestSeq
    refine FollowsM.bind (Prog.Follows.mono (duty_openRuns rfl live) fun s r hr => ?_)
    cases r with
    | error err =>
      obtain rfl : s = _ := hr
      exact Or.inr rfl
    | ok runs =>
      obtain ⟨rfl, hlen⟩ := hr
      refine FollowsM.bind (FollowsM.opening rfl (uses_io (uses_op rfl)) (fun found => ?_) fun _ => Or.inr rfl)
      refine FollowsM.bind (FollowsM.opening rfl (quiet_reclaim ..) (fun nextSeq => ?_) fun _ => Or.inr rfl)
      dsimp only
      split_ifs
      · exact Or.inr rfl
      · refine FollowsM.bind (Prog.Follows.mono duty_openLog fun s r hr => ?_)
        cases r with
        | error err => exact Or.inr hr
        | ok m => exact duty_startEngine hlen hr
  unfold openWith
  refine FollowsM.bind (FollowsM.io fun r => ⟨_, .mkdir, ?_⟩)
  cases r with
  | error err => exact Or.inr rfl
  | ok v =>
    refine FollowsM.bind (Prog.Follows.mono duty_loadManifest fun s r hr => ?_)
    cases r with
    | error err => exact Or.inr hr
    | ok manifest =>
      rcases hr with ⟨rfl, rfl⟩ | ⟨m, rfl, rfl⟩
      · exact hrest [] 0
      · exact hrest m.runs m.nextSeq

/-- The stage a call starts in. -/
def startDuty (w : World) : Call → Duty
  | .openWith config features => .starting config features
  | _ => .at w.config.compactionTrigger false (.clear false)

theorem duty_call (call : Call) :
    (call.program w.config w.features).Follows DutyStep (DutyEnds call) (startDuty w call) := by
  have hread : ∀ {α : Type} {x : P α} {f : α → Reply} {call : Call}, Reader x →
      (∀ s reply, DutyEnds call s reply ↔ (∃ T, s = .at T false .broken) ∨ ∃ T, s = .at T false (.clear false)) →
      (f <$> x).Follows DutyStep (DutyEnds call) (.at w.config.compactionTrigger false (.clear false)) := by
    intro α x f call hx hends
    refine Prog.Follows.bind ((hx.reading.mono fun _ => Act.plain_of_reading).follows
      (fun _ _ ho => .plain rfl ho) fun v => ?_)
    exact (hends _ _).mpr (Or.inr ⟨_, rfl⟩)
  have hunit : ∀ {x : M Unit} {call : Call}, FollowsM DutyStep
      (fun s _ => s = .at w.config.compactionTrigger false (.clear false))
      (fun s _ => s = .at w.config.compactionTrigger false (.clear false) ∨
        s = .at w.config.compactionTrigger false .broken) x (.at w.config.compactionTrigger false (.clear false)) →
      (∀ s reply, DutyEnds call s reply ↔ (∃ T, s = .at T false .broken) ∨ ∃ T, s = .at T false (.clear false)) →
      (Reply.unit <$> x.run : P Reply).Follows DutyStep (DutyEnds call)
        (.at w.config.compactionTrigger false (.clear false)) := by
    intro x call hx hends
    refine Prog.Follows.bind (Prog.Follows.mono hx fun s r hr => (hends _ _).mpr ?_)
    cases r with
    | ok v => exact Or.inr ⟨_, hr⟩
    | error err =>
      rcases hr with rfl | rfl
      · exact Or.inr ⟨_, rfl⟩
      · exact Or.inl ⟨_, rfl⟩
  cases call with
  | put key value => exact hunit (duty_writeOps _) fun _ _ => Iff.rfl
  | delete key => exact hunit (duty_writeOps _) fun _ _ => Iff.rfl
  | write batch => exact hunit (duty_writeOps _) fun _ _ => Iff.rfl
  | get key => exact hread (reader_get key) fun _ _ => Iff.rfl
  | scan range => exact hread (reader_scan range) fun _ _ => Iff.rfl
  | flush => exact hunit duty_flush fun _ _ => Iff.rfl
  | compact =>
    refine Prog.Follows.bind (Prog.Follows.mono duty_compactorRound fun s r hr => ?_)
    cases r with
    | ok v =>
      rcases hr with rfl | rfl
      · exact Or.inl ⟨_, rfl⟩
      · exact Or.inr (Or.inl ⟨_, rfl⟩)
    | error err =>
      rcases hr with rfl | rfl
      · exact Or.inl ⟨_, rfl⟩
      · exact Or.inr (Or.inr ⟨_, rfl, rfl⟩)
  | openWith config features =>
    refine Prog.Follows.bind (Prog.Follows.mono duty_openWith fun s r hr => ?_)
    cases r with
    | ok v => exact Or.inr ⟨_, hr⟩
    | error err =>
      rcases hr with rfl | hclosed
      · exact Or.inl ⟨_, rfl⟩
      · exact Or.inr hclosed

end Programs
/-! ## The invariant -/

/-- A thread that is opening an engine. -/
structure Opens (w : World) (t : Tid) : Prop where
  live : w.live = false
  opener : w.opener = some t
  lock : w.lock ≠ some t

/-- What a thread knows of the run list and the flags, by where it is. -/
def Spot.Knows (w : World) (t : Tid) (T : ℕ) (b : Bool) : Spot → Prop
  | .fresh _ => b = true ∧ (w.runs.length < T ∨ w.memtable.isEmpty = false)
  | .due _ => b = true
  | .clear _ => True
  | .owing n => w.runs.length = n
  | .woken | .taken | .merging _ _ | .settled _ | .stored => b = false ∧ t = compactorTid ∧ w.running = true
  | .refused | .broken => False

def Duty.Knows (w : World) (t : Tid) : Duty → Prop
  | .rest => w.lock ≠ some t
  | .starting config features => Opens w t ∧ Prompt w config features
  | .listing config features n =>
    Opens w t ∧ (n < config.compactionTrigger ∨ features.durability = true ∧ Fills (logRecords w.wal))
  | .replaying config n records => Opens w t ∧ (n < config.compactionTrigger ∨ Fills records)
  | .gone => Opens w t
  | .at T b p => w.live = true ∧ w.config.compactionTrigger = T ∧ (b = true → w.opener = some t) ∧
      (w.lock = some t ↔ p.locked = true) ∧ p.Knows w t T b

/-- The thread has yet to check the run list. -/
def Duty.unchecked : Duty → Bool
  | .at _ _ (.fresh _) | .at _ _ (.due _) => true
  | .at T _ (.owing n) => T ≤ n
  | _ => false

/-- The compactor is on its way to merge that many runs. -/
def Duty.serves (runs : ℕ) : Duty → Bool
  | .at _ _ .woken | .at _ _ .taken => true
  | .at _ _ (.merging n _) => runs ≤ n
  | _ => false

/-- The compactor has the flag of a compaction. -/
def Duty.busy : Duty → Bool
  | .at _ _ .taken | .at _ _ (.merging _ _) | .at _ _ (.settled _) => true
  | _ => false

structure Dutiful (w : World) (S : Tid → Duty) : Prop where
  knows : ∀ t, (S t).Knows w t
  flag : w.compacting = true → (S compactorTid).busy = true
  met : w.live = true → (∀ t, (S t).unchecked = false) → w.config.compactionTrigger ≤ w.runs.length →
    w.pending = true ∨ (S compactorTid).serves w.runs.length = true

/-! ## Steps -/

/-- A step of thread `t`, as the other threads of the engine see it. -/
structure Moves (t : Tid) (w w' : World) : Prop where
  live : w'.live = w.live
  config : w'.config = w.config
  opener : w'.opener = w.opener
  lock : ∀ t', t' ≠ t → (w'.lock = some t' ↔ w.lock = some t')
  runs : w'.runs = w.runs ∨ w.lock = some t
  running : w'.running = w.running ∨ t = compactorTid

theorem Duty.Knows.other {s : Duty} {t' : Tid} (h : s.Knows w t') (hm : Moves t w w') (hne : t' ≠ t)
    (halone : w.opener ≠ some t') : s.Knows w' t' := by
  have hlock := hm.lock t' hne
  cases s with
  | rest => exact fun hl => h (hlock.mp hl)
  | starting | listing | replaying => exact absurd h.1.opener halone
  | gone => exact absurd h.opener halone
  | «at» T b p =>
    obtain ⟨hlive, htrig, hopen, hheld, hknows⟩ := h
    cases b with
    | true => exact absurd (hopen rfl) halone
    | false =>
      refine ⟨hm.live.trans hlive, by rw [hm.config]; exact htrig, by simp, hlock.trans hheld, ?_⟩
      have hflag : t' = compactorTid → w'.running = w.running := by
        intro ht
        rcases hm.running with hsame | hc
        · exact hsame
        · exact absurd (ht.trans hc.symm) hne
      cases p with
      | fresh | due => exact absurd hknows (by simp [Spot.Knows])
      | clear => trivial
      | owing n =>
        rcases hm.runs with hsame | hown
        · show w'.runs.length = n
          rw [hsame]
          exact hknows
        · have hmine := hheld.mpr rfl
          rw [hown] at hmine
          exact absurd (Option.some.inj hmine).symm hne
      | woken | taken | merging | settled | stored =>
        obtain ⟨hb, ht, hrun⟩ := hknows
        exact ⟨hb, ht, (hflag ht).trans hrun⟩
      | refused | broken => exact hknows

theorem Dutiful.move {S : Tid → Duty} {s : Duty} (h : Dutiful w S) (hm : Moves t w w')
    (halone : ∀ t', t' ≠ t → w.opener ≠ some t') (hs : s.Knows w' t)
    (hflag : w'.compacting = true → (Function.update S t s compactorTid).busy = true)
    (hmet : w'.live = true → (∀ t', (Function.update S t s t').unchecked = false) →
      w'.config.compactionTrigger ≤ w'.runs.length →
      w'.pending = true ∨ (Function.update S t s compactorTid).serves w'.runs.length = true) :
    Dutiful w' (Function.update S t s) := by
  refine ⟨fun t' => ?_, hflag, hmet⟩
  by_cases ht : t' = t
  · subst ht
    rw [Function.update_self]
    exact hs
  · rw [Function.update_of_ne ht]
    exact (h.knows t').other hm ht (halone t' ht)

omit [Deps] in
theorem update_apply_eq {α : Type} {S : Tid → Duty} {s : Duty} {f : Duty → α} (h : f s = f (S t)) (t' : Tid) :
    f (Function.update S t s t') = f (S t') := by
  by_cases ht : t' = t
  · subst ht
    rw [Function.update_self, h]
  · rw [Function.update_of_ne ht]

/-- A step that changes neither the run list nor a flag, to a stage with the same duties. -/
theorem Dutiful.keep {S : Tid → Duty} {s : Duty} (h : Dutiful w S) (hm : Moves t w w') (hruns : w'.runs = w.runs)
    (hpending : w'.pending = w.pending) (hcompacting : w'.compacting = true → w.compacting = true)
    (halone : ∀ t', t' ≠ t → w.opener ≠ some t') (hs : s.Knows w' t) (hun : s.unchecked = (S t).unchecked)
    (hserves : ∀ n, s.serves n = (S t).serves n) (hbusy : s.busy = (S t).busy ∨ w'.compacting = false) :
    Dutiful w' (Function.update S t s) := by
  refine h.move hm halone hs (fun hc => ?_) fun hlive hall hn => ?_
  · rcases hbusy with hbusy | hoff
    · rw [update_apply_eq (f := Duty.busy) hbusy]
      exact h.flag (hcompacting hc)
    · rw [hoff] at hc
      cases hc
  · rw [hpending, hruns, update_apply_eq (f := fun s => s.serves w.runs.length) (hserves _)]
    refine h.met (by rw [← hm.live]; exact hlive) (fun t' => ?_) (by rw [← hruns, ← hm.config]; exact hn)
    rw [← update_apply_eq (f := Duty.unchecked) hun]
    exact hall t'

structure Plainly (w w' : World) : Prop where
  runs : w'.runs = w.runs
  lock : w'.lock = w.lock
  pending : w'.pending = w.pending
  running : w'.running = w.running
  compacting : w'.compacting = w.compacting
  live : w'.live = w.live
  config : w'.config = w.config

theorem exec_plain {o : Act} {ch : Choice} {r : Res o} (ho : o.plain = true) (h : exec t o ch w = some (r, w')) :
    Plainly w w' := by
  have hd := exec_differ h
  have hno : ∀ f ∈ [Field.runs, .lock, .pending, .running, .compacting, .live, .config], f ∉ o.touches := by
    cases o <;> simp [Act.plain, Act.touches] at ho ⊢
  exact ⟨hd .runs (hno _ (by simp)), hd .lock (hno _ (by simp)), hd .pending (hno _ (by simp)),
    hd .running (hno _ (by simp)), hd .compacting (hno _ (by simp)), hd .live (hno _ (by simp)),
    hd .config (hno _ (by simp))⟩

theorem Plainly.moves (h : Plainly w w') (ho : w'.opener = w.opener) (t : Tid) : Moves t w w' :=
  ⟨h.live, h.config, ho, fun _ _ => by rw [h.lock], Or.inl h.runs, Or.inl h.running⟩

theorem Opens.same (h : Opens w t) (hlive : w'.live = w.live) (ho : w'.opener = w.opener) (hlock : w'.lock = w.lock) :
    Opens w' t := ⟨hlive.trans h.live, ho.trans h.opener, by rw [hlock]; exact h.lock⟩

theorem Duty.Knows.plain {T : ℕ} {b : Bool} {p : Spot} (h : (Duty.at T b p).Knows w t) (hp : p.steady = true)
    (hw : Plainly w w') (ho : w'.opener = w.opener) : (Duty.at T b p).Knows w' t := by
  obtain ⟨hlive, htrig, hopen, hheld, hknows⟩ := h
  refine ⟨hw.live.trans hlive, by rw [hw.config]; exact htrig, by rw [ho]; exact hopen, by rw [hw.lock]; exact hheld, ?_⟩
  cases p with
  | fresh | refused | broken => cases hp
  | due | clear => exact hknows
  | owing n =>
    show w'.runs.length = n
    rw [hw.runs]
    exact hknows
  | woken | taken | merging | settled | stored => exact ⟨hknows.1, hknows.2.1, hw.running.trans hknows.2.2⟩

theorem Duty.Knows.quiet {s : Duty} (h : s.Knows w t) (hs : s.still = true) (hw : Still w w')
    (ho : w'.opener = w.opener) : s.Knows w' t := by
  have hopens : Opens w t → Opens w' t := fun h => h.same hw.live ho hw.lock
  cases s with
  | rest | starting => cases hs
  | listing config features n =>
    refine ⟨hopens h.1, ?_⟩
    rw [hw.wal]
    exact h.2
  | replaying => exact ⟨hopens h.1, h.2⟩
  | gone => exact hopens h
  | «at» T b p =>
    obtain ⟨hlive, htrig, hopen, hheld, hknows⟩ := h
    refine ⟨hw.live.trans hlive, by rw [hw.config]; exact htrig, by rw [ho]; exact hopen, by rw [hw.lock]; exact hheld, ?_⟩
    cases p with
    | fresh =>
      refine ⟨hknows.1, ?_⟩
      rw [hw.runs, hw.memtable]
      exact hknows.2
    | _ => cases hs

/-- One thread alone, with an engine it has yet to check or none. -/
theorem dutiful_sole {S : Tid → Duty} {s : Duty} (hrest : ∀ t', t' ≠ t → S t' = .rest) (hs : s.Knows w t)
    (hlock : ∀ t', t' ≠ t → w.lock ≠ some t') (hc : w.compacting = false) (hun : w.live = false ∨ s.unchecked = true) :
    Dutiful w (Function.update S t s) := by
  refine ⟨fun t' => ?_, fun h => ?_, fun hlive hall => ?_⟩
  · by_cases ht : t' = t
    · subst ht
      rw [Function.update_self]
      exact hs
    · rw [Function.update_of_ne ht, hrest t' ht]
      exact hlock t' ht
  · rw [hc] at h
    cases h
  · rcases hun with hdead | hun
    · rw [hdead] at hlive
      cases hlive
    · have := hall t
      rw [Function.update_self, hun] at this
      cases this

/-- No compaction goes on while an open has no engine. -/
theorem Dutiful.not_compacting {S : Tid → Duty} (h : Dutiful w S) (hrest : ∀ t', t' ≠ t → S t' = .rest)
    (hs : (S t).busy = false) : w.compacting = false := by
  rw [Bool.eq_false_iff]
  intro hc
  have hbusy := h.flag hc
  by_cases ht : compactorTid = t
  · rw [ht, hs] at hbusy
    cases hbusy
  · rw [hrest _ ht] at hbusy
    cases hbusy

theorem Dutiful.startEngine {S : Tid → Duty} {ch : Choice} {m : MemTable} {runs : List SsTable} {x : Bool} {q : ℕ}
    {r : Unit} (h : Dutiful w S) (hrest : ∀ t', t' ≠ t → S t' = .rest) (hs : (S t).busy = false)
    (hopener : w.opener = some t)
    (hx : exec t (.startEngine config features m runs x q) ch w = some (r, w'))
    (hcheck : runs.length < config.compactionTrigger ∨ m.isEmpty = false) :
    Dutiful w' (Function.update S t (.at config.compactionTrigger true (.fresh false))) := by
  have hoff := h.not_compacting hrest hs
  obtain ⟨_, rfl⟩ := Prod.mk.inj (Option.some.inj hx)
  refine dutiful_sole hrest ⟨rfl, rfl, fun _ => hopener, ?_, rfl, hcheck⟩ (fun _ _ => by simp) hoff (Or.inr rfl)
  simp [Spot.locked]

/-- A step at which the world stays as it is, up to the log file's name. -/
theorem Dutiful.rename {S : Tid → Duty} {s : Duty} (h : Dutiful w S) (hw : Plainly w w') (ho : w'.opener = w.opener)
    (halone : ∀ t', t' ≠ t → w.opener ≠ some t') (hs : s.Knows w' t) (hun : s.unchecked = (S t).unchecked)
    (hserves : ∀ n, s.serves n = (S t).serves n) (hbusy : s.busy = (S t).busy) :
    Dutiful w' (Function.update S t s) :=
  h.keep (hw.moves ho t) hw.runs hw.pending (fun hc => hw.compacting.symm.trans hc) halone hs hun hserves (Or.inl hbusy)

omit [Deps] in
theorem Duty.idle_of_closed {s : Duty} (h : s.closed = true) :
    s.unchecked = false ∧ s.busy = false ∧ ∀ n, s.serves n = false := by
  cases s with
  | rest | «at» => simp [Duty.closed] at h
  | _ => exact ⟨rfl, rfl, fun _ => rfl⟩

/-- The steps of an open up to its engine. -/
theorem Dutiful.opening {S : Tid → Duty} {s : Duty} {o : Act} {ch : Choice} {r : Res o} (h : Dutiful w S)
    (hrest : w.opener = some t → ∀ t', t' ≠ t → S t' = .rest) (halone : ∀ t', t' ≠ t → w.opener ≠ some t')
    (hclosed : (S t).closed = true) (hguard : guardAct e t o w) (hx : exec t o ch w = some (r, w'))
    (hn : DutyStep (S t) o r s) : Dutiful w' (Function.update S t s) := by
  have hknows := h.knows t
  have ho := exec_opener hx
  generalize hst : S t = st at hn hclosed hknows
  have hmove : ∀ {s' : Duty}, Plainly w w' → s'.closed = true → s'.Knows w' t →
      Dutiful w' (Function.update S t s') := by
    intro s' hw hs' hk
    obtain ⟨hun, hbusy, hserves⟩ := Duty.idle_of_closed hclosed
    obtain ⟨hun', hbusy', hserves'⟩ := Duty.idle_of_closed hs'
    refine h.rename hw ho halone hk ?_ (fun n => ?_) ?_
    · rw [hst, hun, hun']
    · rw [hst, hserves, hserves']
    · rw [hst, hbusy, hbusy']
  cases hn with
  | plain | broken | drop | lock | unlock | empty | full | install | signal | unrotated | unopened | await | busy | seize
  | few | snap | swap | store | storeFailed | finish | refuse => cases hclosed
  | quiet hs hq =>
    have hstill := exec_reading (Act.reading_of_quiet hq) (fun name ho => by subst ho; exact hguard.1) hx
    exact hmove (exec_plain (Act.plain_of_reading (Act.reading_of_quiet hq)) hx) hclosed (hknows.quiet hs hstill ho)
  | mkdir =>
    have hw : w' = w := by
      simp only [exec] at hx
      split at hx <;> exact (Prod.mk.inj (Option.some.inj hx)).2.symm
    subst hw
    exact hmove (exec_plain rfl hx) rfl hknows
  | found hfound =>
    have hw : w' = w := by
      simp only [exec] at hx
      split at hx <;> exact (Prod.mk.inj (Option.some.inj hx)).2.symm
    subst hw
    exact hmove (exec_plain rfl hx) rfl hknows
  | @missing config features _ hmissing =>
    have hw : w' = w := by
      simp only [exec] at hx
      split at hx <;> exact (Prod.mk.inj (Option.some.inj hx)).2.symm
    subst hw
    exact hmove (exec_plain rfl hx) rfl ⟨hknows.1, Or.inl (lt_of_lt_of_le (by omega) config.two_le_trigger)⟩
  | @read config features _ text m hr hm =>
    subst hr
    obtain ⟨hget, rfl⟩ : w.dir.get? MANIFEST = some (.text text) ∧ w' = w := by
      simp only [exec] at hx
      split at hx
      · simp at hx
      · split at hx
        · rename_i hget
          obtain ⟨htext, hw⟩ := Prod.mk.inj (Option.some.inj hx)
          rw [Except.ok.inj htext] at hget
          exact ⟨hget, hw.symm⟩
        · simp at hx
        · simp at hx
    have hlisted : listed w' = m.runs := by simp only [listed, hget, hm]
    refine hmove (exec_plain rfl hx) rfl ⟨hknows.1, ?_⟩
    rw [← hlisted]
    exact hknows.2
  | unread =>
    have hw := exec_plain (o := .readText MANIFEST) rfl hx
    exact hmove hw rfl (hknows.1.same hw.live ho hw.lock)
  | walOpen =>
    have hw := exec_plain (o := .walOpen) rfl hx
    refine hmove hw rfl ⟨hknows.1.same hw.live ho hw.lock, ?_⟩
    rw [exec_walOpen hx]
    exact hknows.2
  | @replay config features n _ records hr =>
    subst hr
    obtain ⟨rfl, rfl⟩ : records = logRecords w.wal ∧ w' = w := by
      simp only [exec] at hx
      split at hx
      · simp at hx
      · simp at hx
      · obtain ⟨hrec, hw⟩ := Prod.mk.inj (Option.some.inj hx)
        exact ⟨(Except.ok.inj hrec).symm, hw.symm⟩
    exact hmove (exec_plain rfl hx) rfl ⟨hknows.1, hknows.2.imp_right fun hf => hf.2⟩
  | @startPlain config features n m runs q _ hd hn =>
    have hopener := hknows.1.opener
    refine h.startEngine (hrest hopener) (by rw [hst]; rfl) hopener hx (Or.inl ?_)
    rcases hknows.2 with hlt | ⟨hlog, _⟩
    · rw [hn]
      exact hlt
    · rw [hd] at hlog
      cases hlog
  | @startLogged config features n records m runs q _ hm hn =>
    have hopener := hknows.1.opener
    refine h.startEngine (hrest hopener) (by rw [hst]; rfl) hopener hx ?_
    rcases hknows.2 with hlt | ⟨m', hm', hfull⟩
    · rw [hn]
      exact Or.inl hlt
    · rw [hm] at hm'
      rw [Except.ok.inj hm']
      exact Or.inr hfull

theorem exec_snapshot_runs {want : MemTable → List SsTable → Bool} {ch : Choice} {r : Res (.snapshot want)}
    (h : exec t (.snapshot want) ch w = some (r, w')) : r.2 = w.runs := by
  simp only [exec] at h
  split at h
  · obtain ⟨rfl, _⟩ := Prod.mk.inj (Option.some.inj h)
    rfl
  · simp at h

/-- The steps of a thread of an engine, a compaction's failure apart. -/
theorem Dutiful.acting {S : Tid → Duty} {s : Duty} {o : Act} {ch : Choice} {r : Res o} {T : ℕ} {b : Bool} {p : Spot}
    (h : Dutiful w S) (hrest : w.opener = some t → ∀ t', t' ≠ t → S t' = .rest)
    (halone : ∀ t', t' ≠ t → w.opener ≠ some t') (hst : S t = .at T b p) (hguard : guardAct e t o w)
    (hio : e.ioFaults = false) (ha : e.allowsAct w t o ch) (hx : exec t o ch w = some (r, w'))
    (hn : DutyStep (.at T b p) o r s) (hok : s ≠ .at T b .refused) : Dutiful w' (Function.update S t s) := by
  have hknows := h.knows t
  rw [hst] at hknows
  have ho := exec_opener hx
  obtain ⟨hlive, htrig, hopen, hheld, hspot⟩ := hknows
  cases hn with
  | plain hp hplain =>
    have hw := exec_plain hplain hx
    have hk : (Duty.at T b p).Knows w' t := Duty.Knows.plain ⟨hlive, htrig, hopen, hheld, hspot⟩ hp hw ho
    exact h.rename hw ho halone hk (by rw [hst]) (fun _ => by rw [hst]) (by rw [hst])
  | quiet hs hq =>
    have hstill := exec_reading (Act.reading_of_quiet hq) (fun name ho => by subst ho; exact hguard.1) hx
    have hw := exec_plain (Act.plain_of_reading (Act.reading_of_quiet hq)) hx
    have hk : (Duty.at T b p).Knows w' t := Duty.Knows.quiet ⟨hlive, htrig, hopen, hheld, hspot⟩ hs hstill ho
    exact h.rename hw ho halone hk (by rw [hst]) (fun _ => by rw [hst]) (by rw [hst])
  | broken => exact absurd hspot id
  | drop hfree =>
    obtain ⟨_, rfl⟩ := Prod.mk.inj (Option.some.inj hx)
    have hopener := hopen rfl
    exact dutiful_sole (hrest hopener) ⟨rfl, hopener, by simp [World.dropEngine]⟩ (by simp [World.dropEngine]) rfl (Or.inl rfl)
  | lock hfree =>
    simp only [exec] at hx
    split_ifs at hx with hnone
    obtain ⟨_, rfl⟩ := Prod.mk.inj (Option.some.inj hx)
    have hm : Moves t w { w with lock := some t } :=
      ⟨rfl, rfl, rfl, fun t' ht => by simp [hnone, Ne.symm ht], Or.inl rfl, Or.inl rfl⟩
    refine h.keep hm rfl rfl id halone ⟨hlive, htrig, hopen, ?_, ?_⟩ ?_ (fun n => ?_) (Or.inl ?_)
    · cases p <;> simp [Spot.free] at hfree <;> simp [Spot.enter, Spot.locked]
    · cases p <;> simp [Spot.free] at hfree <;> exact hspot
    · rw [hst]
      cases p <;> simp [Spot.free] at hfree <;> rfl
    · rw [hst]
      cases p <;> simp [Spot.free] at hfree <;> rfl
    · rw [hst]
      cases p <;> simp [Spot.free] at hfree <;> rfl
  | unlock hlocked howing hfresh =>
    obtain ⟨_, rfl⟩ := Prod.mk.inj (Option.some.inj hx)
    have hmine := hheld.mpr hlocked
    have hm : Moves t w { w with lock := none } :=
      ⟨rfl, rfl, rfl, fun t' ht => by simp [hmine, Ne.symm ht], Or.inl rfl, Or.inl rfl⟩
    refine h.keep hm rfl rfl id halone ⟨hlive, htrig, hopen, ?_, ?_⟩ ?_ (fun n => ?_) (Or.inl ?_)
    · cases p <;> simp [Spot.leave, Spot.locked] at hlocked ⊢
    · cases p <;> simp [Spot.locked] at hlocked <;> first | exact hspot | trivial
    · rw [hst]
      cases p with
      | owing n =>
        have := howing n rfl
        simp [Spot.leave, Duty.unchecked, this]
      | _ => simp [Spot.locked] at hlocked <;> rfl
    · rw [hst]
      cases p <;> simp [Spot.locked] at hlocked <;> rfl
    · rw [hst]
      cases p <;> simp [Spot.locked] at hlocked <;> rfl
  | empty hempty =>
    obtain ⟨rfl, rfl⟩ := Prod.mk.inj (Option.some.inj hx)
    have hfew : w.runs.length < T := by
      rcases hspot.2 with hlt | hfull
      · exact hlt
      · rw [show w.memtable.isEmpty = true from hempty] at hfull
        cases hfull
    have hw : Plainly w w := exec_plain (o := .inner) rfl hx
    refine h.move (hw.moves rfl t) halone ⟨hlive, htrig, hopen, hheld, trivial⟩ (fun hc => ?_) fun _ _ hn => ?_
    · rw [update_apply_eq (f := Duty.busy) (by rw [hst]; rfl)]
      exact h.flag hc
    · rw [htrig] at hn
      omega
  | full =>
    obtain ⟨rfl, rfl⟩ := Prod.mk.inj (Option.some.inj hx)
    have hw : Plainly w w := exec_plain (o := .inner) rfl hx
    exact h.rename hw rfl halone ⟨hlive, htrig, hopen, hheld, hspot.1⟩ (by rw [hst]; rfl) (fun _ => by rw [hst]; rfl)
      (by rw [hst]; rfl)
  | @install _ _ _ runs _ hp =>
    obtain ⟨_, rfl⟩ := Prod.mk.inj (Option.some.inj hx)
    have hmine : w.lock = some t := hheld.mpr (by rcases hp with rfl | rfl <;> rfl)
    have hm : Moves t w { w with runs := runs, obsolete := [].map SsTable.runId ++ w.obsolete } :=
      ⟨rfl, rfl, rfl, fun _ _ => Iff.rfl, Or.inr hmine, Or.inl rfl⟩
    refine h.move hm halone ⟨hlive, htrig, hopen, by simp [hmine, Spot.locked], rfl⟩ (fun hc => ?_) fun _ hall hn => ?_
    · rw [update_apply_eq (f := Duty.busy) (by rw [hst]; rcases hp with rfl | rfl <;> rfl)]
      exact h.flag hc
    · have hun := hall t
      rw [Function.update_self] at hun
      simp only [Duty.unchecked, decide_eq_false_iff_not] at hun
      exact absurd (htrig ▸ hn) hun
  | signal =>
    obtain ⟨_, rfl⟩ := Prod.mk.inj (Option.some.inj hx)
    have hm : Moves t w { w with pending := true } := ⟨rfl, rfl, rfl, fun _ _ => Iff.rfl, Or.inl rfl, Or.inl rfl⟩
    refine h.move hm halone ⟨hlive, htrig, hopen, hheld, trivial⟩ (fun hc => ?_) fun _ _ _ => Or.inl rfl
    rw [update_apply_eq (f := Duty.busy) (by rw [hst]; rfl)]
    exact h.flag hc
  | unrotated hr =>
    subst hr
    have hcalm : ch.faulty = false := ha.resolve_left (by rw [hio]; simp)
    cases ch <;> simp only [exec, Choice.faulty] at hx hcalm <;> (try split at hx) <;> simp at hx hcalm
  | unopened hr =>
    subst hr
    have hcalm : ch.faulty = false := ha.resolve_left (by rw [hio]; simp)
    cases ch <;> simp only [exec, Choice.faulty] at hx hcalm <;> simp at hx hcalm
  | await =>
    have ht : t = compactorTid := hguard
    simp only [exec] at hx
    split_ifs at hx with hpending
    obtain ⟨_, rfl⟩ := Prod.mk.inj (Option.some.inj hx)
    have hm : Moves t w { w with pending := false, running := true } :=
      ⟨rfl, rfl, rfl, fun _ _ => Iff.rfl, Or.inl rfl, Or.inr ht⟩
    refine h.move hm halone ⟨hlive, htrig, hopen, hheld, rfl, ht, rfl⟩ (fun hc => ?_) fun _ _ _ => Or.inr ?_
    · rw [update_apply_eq (f := Duty.busy) (by rw [hst]; rfl)]
      exact h.flag hc
    · rw [← ht, Function.update_self]
      rfl
  | busy hr =>
    subst hr
    obtain ⟨hcomp, _⟩ := Prod.mk.inj (Option.some.inj hx)
    have hbusy := h.flag hcomp
    rw [← hspot.2.1, hst] at hbusy
    cases hbusy
  | seize hr =>
    obtain ⟨_, rfl⟩ := Prod.mk.inj (Option.some.inj hx)
    have hm : Moves t w { w with compacting := true } := ⟨rfl, rfl, rfl, fun _ _ => Iff.rfl, Or.inl rfl, Or.inl rfl⟩
    refine h.move hm halone ⟨hlive, htrig, hopen, hheld, hspot⟩ (fun _ => ?_) fun _ _ _ => Or.inr ?_
    · rw [← hspot.2.1, Function.update_self]
      rfl
    · rw [← hspot.2.1, Function.update_self]
      rfl
  | @few _ _ want _ hfew =>
    have hw := exec_plain (o := .snapshot want) rfl hx
    have hruns : w.runs.length < 2 := by
      rw [← exec_snapshot_runs hx]
      exact hfew
    have hk : (Duty.at T b .taken).Knows w' t := Duty.Knows.plain ⟨hlive, htrig, hopen, hheld, hspot⟩ rfl hw ho
    refine h.move (hw.moves ho t) halone hk (fun hc => ?_) fun _ _ hn => ?_
    · rw [hw.compacting] at hc
      rw [update_apply_eq (f := Duty.busy) (by rw [hst]; rfl)]
      exact h.flag hc
    · have := w'.config.two_le_trigger
      rw [hw.runs] at hn
      omega
  | @snap _ _ want x =>
    have hw := exec_plain (o := .snapshot want) rfl hx
    have hruns := exec_snapshot_runs hx
    have hk : (Duty.at T b .taken).Knows w' t := Duty.Knows.plain ⟨hlive, htrig, hopen, hheld, hspot⟩ rfl hw ho
    refine h.move (hw.moves ho t) halone hk (fun hc => ?_) fun _ _ _ => Or.inr ?_
    · rw [hw.compacting] at hc
      rw [update_apply_eq (f := Duty.busy) (by rw [hst]; rfl)]
      exact h.flag hc
    · rw [← hspot.2.1, Function.update_self, hw.runs, ← hruns]
      simp [Duty.serves]
  | @swap _ _ inputs runs _ hmany =>
    obtain ⟨fresh, output, _, _, hbefore, rfl, _⟩ := hguard hspot.2.1
    obtain ⟨_, rfl⟩ := Prod.mk.inj (Option.some.inj hx)
    have hmine := hheld.mpr rfl
    have hm : Moves t w { w with runs := fresh ++ [output], obsolete := inputs.map SsTable.runId ++ w.obsolete } :=
      ⟨rfl, rfl, rfl, fun _ _ => Iff.rfl, Or.inr hmine, Or.inl rfl⟩
    refine h.move hm halone ⟨hlive, htrig, hopen, hheld, hspot⟩ (fun hc => ?_) fun _ hall hn => Or.inl ?_
    · rw [update_apply_eq (f := Duty.busy) (by rw [hst]; rfl)]
      exact h.flag hc
    · -- the list has grown since the snapshot, so the request of the last flush is still there
      have htwo := w.config.two_le_trigger
      have hlen : w.runs.length = fresh.length + inputs.length := by rw [hbefore, List.length_append]
      have hnew : w.config.compactionTrigger ≤ fresh.length + 1 := by
        have := hn
        rwa [List.length_append] at this
      have hun : ∀ t', (S t').unchecked = false := by
        intro t'
        rw [← update_apply_eq (f := Duty.unchecked) (s := .at T b (.settled true)) (by rw [hst]; rfl)]
        exact hall t'
      rcases h.met hlive hun (by omega) with hpending | hserves
      · exact hpending
      · rw [← hspot.2.1, hst] at hserves
        have hle : w.runs.length ≤ inputs.length := of_decide_eq_true hserves
        omega
  | store =>
    obtain ⟨_, rfl⟩ := Prod.mk.inj (Option.some.inj hx)
    have hm : Moves t w { w with compacting := false } := ⟨rfl, rfl, rfl, fun _ _ => Iff.rfl, Or.inl rfl, Or.inl rfl⟩
    exact h.keep hm rfl rfl (by simp) halone ⟨hlive, htrig, hopen, hheld, hspot⟩ (by rw [hst]; rfl)
      (fun _ => by rw [hst]; rfl) (Or.inr rfl)
  | storeFailed =>
    obtain ⟨_, rfl⟩ := Prod.mk.inj (Option.some.inj hx)
    have hm : Moves t w { w with compacting := false } := ⟨rfl, rfl, rfl, fun _ _ => Iff.rfl, Or.inl rfl, Or.inl rfl⟩
    exact h.keep hm rfl rfl (by simp) halone ⟨hlive, htrig, hopen, hheld, hspot⟩ (by rw [hst])
      (fun _ => by rw [hst]) (Or.inr rfl)
  | finish =>
    have hw : w' = { w with running := false, generation := (w.generation + 1) % 2 ^ 64 } :=
      (Prod.mk.inj (Option.some.inj hx)).2.symm
    subst hw
    have hm : Moves t w { w with running := false, generation := (w.generation + 1) % 2 ^ 64 } :=
      ⟨rfl, rfl, rfl, fun _ _ => Iff.rfl, Or.inl rfl, Or.inr hspot.2.1⟩
    exact h.keep hm rfl rfl id halone ⟨hlive, htrig, hopen, hheld, trivial⟩ (by rw [hst]; rfl)
      (fun _ => by rw [hst]; rfl) (Or.inl (by rw [hst]; rfl))
  | refuse => exact absurd rfl hok

theorem DutyStep.from_merging {T : ℕ} {b : Bool} {p : Spot} {o : Act} {r : Res o} {s : Duty}
    (h : DutyStep (.at T b p) o r s) (hs : s = .at T b .refused) : ∃ n, p = .merging n false := by
  cases h with
  | refuse => exact ⟨_, rfl⟩
  | plain hp =>
    obtain rfl : p = .refused := by simpa using hs
    cases hp
  | quiet hst =>
    obtain rfl : p = .refused := by simpa using hs
    cases hst
  | lock hfree => cases p <;> simp [Spot.free, Spot.enter] at hfree hs
  | unlock hlocked => cases p <;> simp [Spot.locked, Spot.leave] at hlocked hs
  | _ => simp at hs

/-- A compaction that is told to have failed returns its failure next. -/
theorem follows_refused {T : ℕ} {call : Call} {prog : P Reply}
    (h : prog.Follows DutyStep (DutyEnds call) (.at T false .refused)) :
    ∃ reply, prog = .done reply ∧ call = .compact ∧ reply.isOk = false := by
  cases prog with
  | done reply =>
    refine ⟨reply, rfl, ?_⟩
    cases call with
    | compact =>
      rcases h with ⟨_, h⟩ | ⟨_, h⟩ | ⟨_, _, hfail⟩
      · cases h
      · cases h
      · exact ⟨rfl, hfail⟩
    | openWith config features =>
      rcases h with ⟨_, h⟩ | h
      · cases h
      · split_ifs at h
        · obtain ⟨_, h⟩ := h
          cases h
        · cases h
    | _ =>
      rcases h with ⟨_, h⟩ | ⟨_, h⟩
      · cases h
      · cases h
  | op o k =>
    obtain ⟨r⟩ := res_nonempty o
    obtain ⟨s, hn, _⟩ := h r
    cases hn with
    | plain hp => cases hp
    | quiet hs => cases hs
    | lock hfree => cases hfree
    | unlock hlocked => cases hlocked
    | install hp => rcases hp with hp | hp <;> cases hp

theorem Dutiful.refused {d : Bool} {S : Tid → Duty} {call : Call} {o : Act} {k : Res o → P Reply} {ch : Choice} {r : Res o}
    {T : ℕ} (hr : Reach e c) (hg : e.Good d) (hio : e.ioFaults = false) (hread : e.Readable)
    (hth : c.threads t = .running call (.op o k)) (ha : e.allowsAct c.world t o ch)
    (hx : exec t o ch c.world = some (r, w')) (hfol : (k r).Follows DutyStep (DutyEnds call) (.at T false .refused)) :
    Dutiful w' S := by
  obtain ⟨reply, hdone, rfl, hfail⟩ := follows_refused hfol
  have hnext := hr.step (allows_act hth ha) (step_act hth hx)
  rw [hdone] at hnext
  have hlast := @Reach.step _ e _ ⟨ended w' t .compact reply, Function.update c.threads t (.replied .compact reply)⟩
    (.finish t) hnext trivial (by simp only [LsmDb.step, Function.update_self, Function.update_idem])
  have hans := hlast.seen (t := t) (Function.update_self ..)
  rw [hans.ok (hg.no_trouble hio) hread] at hfail
  cases hfail

/-- A client or the compactor starts or ends a call. -/
theorem Dutiful.outside {S : Tid → Duty} {s : Duty} (h : Dutiful w S) (hruns : w'.runs = w.runs)
    (hpending : w'.pending = w.pending) (hcompacting : w'.compacting = w.compacting) (hrunning : w'.running = w.running)
    (hlive : w'.live = w.live) (hconf : w'.config = w.config) (hopener : w'.opener = w.opener) (hlock : w'.lock = w.lock)
    (halone : ∀ t', t' ≠ t → w.opener ≠ some t') (hs : s.Knows w' t) (hun : s.unchecked = (S t).unchecked)
    (hserves : ∀ n, s.serves n = (S t).serves n) (hbusy : s.busy = (S t).busy) : Dutiful w' (Function.update S t s) :=
  h.rename ⟨hruns, hlock, hpending, hrunning, hcompacting, hlive, hconf⟩ hopener halone hs hun hserves hbusy

/-- An open meets the condition on the directory it finds. -/
def PromptCall (w : World) (call : Call) : Prop :=
  ∀ config features, call = .openWith config features → Prompt w config features

theorem Dutiful.start {S : Tid → Duty} {call : Call} (h : Dutiful w S) (hidle : S t = .rest)
    (hrest : w.active = [] → ∀ t', S t' = .rest) (hready : w.ready = true → w.live = true ∧ w.opener = none)
    (hok : PromptCall w call) (hcan : canStart w t call = true) :
    Dutiful (started w t call) (Function.update S t (startDuty w call)) := by
  have hlock : w.lock ≠ some t := by
    have := h.knows t
    rwa [hidle] at this
  cases call with
  | openWith config features =>
    simp only [canStart, Bool.and_eq_true, Bool.not_eq_true', List.isEmpty_iff] at hcan
    obtain ⟨⟨hdead, hnone⟩, _⟩ := hcan
    have hall := hrest hnone
    have hoff := h.not_compacting (t := t) (fun t' _ => hall t') (by rw [hidle]; rfl)
    have hfree : ∀ t', t' ≠ t → w.lock ≠ some t' := by
      intro t' _
      have := h.knows t'
      rwa [hall t'] at this
    exact dutiful_sole (fun t' _ => hall t') ⟨⟨hdead, rfl, hlock⟩, hok config features rfl⟩ hfree hoff (Or.inl hdead)
  | _ =>
    simp only [canStart, Bool.and_eq_true] at hcan
    obtain ⟨hlive, hopener⟩ := hready hcan.1.1
    refine h.outside rfl rfl rfl rfl rfl rfl rfl rfl (fun t' _ => by rw [hopener]; simp)
      ⟨hlive, rfl, by simp, ?_, trivial⟩ (by rw [hidle]; rfl) (fun _ => by rw [hidle]; rfl) (by rw [hidle]; rfl)
    exact iff_of_false hlock (by simp [Spot.locked])

theorem Dutiful.finish {S : Tid → Duty} {call : Call} {reply : Reply} (h : Dutiful w S)
    (hrest : w.opener = some t → ∀ t', t' ≠ t → S t' = .rest) (halone : ∀ t', t' ≠ t → w.opener ≠ some t')
    (hend : DutyEnds call (S t) reply) : Dutiful (ended w t call reply) (Function.update S t .rest) := by
  have hknows := h.knows t
  -- a call that is through with its duties
  have hleave : ∀ {T : ℕ} {b : Bool} {w' : World}, S t = .at T b (.clear false) → w'.runs = w.runs →
      w'.pending = w.pending → w'.compacting = w.compacting → w'.running = w.running → w'.live = w.live →
      w'.config = w.config → w'.lock = w.lock → (w'.opener = w.opener ∨ b = true) →
      Dutiful w' (Function.update S t .rest) := by
    intro T b w' hst hruns hpending hcompacting hrunning hlive hconf hlock hopener
    rw [hst] at hknows
    obtain ⟨hl, htrig, hopen, hheld, _⟩ := hknows
    have hfree : w'.lock ≠ some t := by
      rw [hlock]
      exact fun hl => by simp [Spot.locked] at hheld; exact hheld hl
    rcases hopener with hopener | rfl
    · exact h.outside hruns hpending hcompacting hrunning hlive hconf hopener hlock halone hfree (by rw [hst]; rfl)
        (fun _ => by rw [hst]; rfl) (by rw [hst]; rfl)
    · have hall := hrest (hopen rfl)
      refine ⟨fun t' => ?_, fun hc => ?_, fun hlive' hun hn => ?_⟩
      · by_cases ht : t' = t
        · subst ht
          rw [Function.update_self]
          exact hfree
        · have hk := h.knows t'
          rw [hall t' ht] at hk
          rw [Function.update_of_ne ht, hall t' ht]
          show w'.lock ≠ some t'
          rw [hlock]
          exact hk
      · rw [update_apply_eq (f := Duty.busy) (by rw [hst]; rfl)]
        exact h.flag (hcompacting.symm.trans hc)
      · rw [hpending, hruns, update_apply_eq (f := fun s => s.serves w.runs.length) (by rw [hst]; rfl)]
        refine h.met hl (fun t' => ?_) (by rw [← hconf, ← hruns]; exact hn)
        rw [← update_apply_eq (f := Duty.unchecked) (s := .rest) (by rw [hst]; rfl)]
        exact hun t'
  have hnever : ∀ {T : ℕ} {b : Bool} {p : Spot}, S t = .at T b p → p = .broken ∨ p = .refused → False := by
    rintro T b p hst (rfl | rfl)
    · rw [hst] at hknows
      exact hknows.2.2.2.2
    · rw [hst] at hknows
      exact hknows.2.2.2.2
  cases call with
  | openWith config features =>
    rcases hend with ⟨T, hst⟩ | hend
    · exact absurd (Or.inl rfl) fun hb => hnever hst hb
    · split_ifs at hend
      · obtain ⟨T, hst⟩ := hend
        exact hleave hst rfl rfl rfl rfl rfl rfl rfl (Or.inr rfl)
      · have hopens : Opens w t := by
          generalize hst : S t = st at hend hknows
          cases st with
          | rest | «at» => simp [Duty.closed] at hend
          | starting | listing | replaying => exact hknows.1
          | gone => exact hknows
        have hall := hrest hopens.opener
        have hfree : ∀ t', w.lock ≠ some t' := by
          intro t'
          by_cases ht : t' = t
          · rw [ht]
            exact hopens.lock
          · have hk := h.knows t'
            rwa [hall t' ht] at hk
        have hoff := h.not_compacting hall (Duty.idle_of_closed hend).2.1
        exact dutiful_sole hall (hfree t) (fun t' _ => hfree t') hoff (Or.inl hopens.live)
  | compact =>
    rcases hend with ⟨T, hst⟩ | ⟨T, hst⟩ | ⟨T, hst, _⟩
    · exact absurd (Or.inl rfl) fun hb => hnever hst hb
    · simp only [ended]
      split_ifs <;> exact hleave hst rfl rfl rfl rfl rfl rfl rfl (Or.inl rfl)
    · exact absurd (Or.inr rfl) fun hb => hnever hst hb
  | _ =>
    rcases hend with ⟨T, hst⟩ | ⟨T, hst⟩
    · exact absurd (Or.inl rfl) fun hb => hnever hst hb
    · simp only [ended]
      split_ifs <;> exact hleave hst rfl rfl rfl rfl rfl rfl rfl (Or.inl rfl)

/-- The requests for compaction. -/
def dutyProtocol : Protocol := ⟨Duty, .rest, DutyStep, DutyEnds, Dutiful⟩

theorem dutiful_gone {S : Tid → Duty} (hall : ∀ t, S t = .rest) (hdead : w.live = false) (hlock : w.lock = none)
    (hc : w.compacting = false) : Dutiful w S := by
  have hfree : ∀ t, w.lock ≠ some t := by
    intro t
    rw [hlock]
    simp
  have hsole := dutiful_sole (t := 0) (s := .rest) (fun t' _ => hall t') (hfree 0) (fun t' _ => hfree t') hc (Or.inl hdead)
  rwa [← hall 0, Function.update_eq_self] at hsole

theorem dutyProtocol_sound {d : Bool} (hg : e.Good d) (hio : e.ioFaults = false) (hread : e.Readable) :
    dutyProtocol.Sound e PromptCall where
  initial := dutiful_gone (fun _ => rfl) rfl rfl rfl
  start c S t call h hok hcan := by
    have hrest : c.world.active = [] → ∀ t', S t' = .rest := fun hidle t' =>
      h.rest fun call prog hth => by
        have hin := h.reach.active hth
        rw [hidle] at hin
        cases hin
    have hidle : S t = .rest := h.rest fun call prog hth => (canStart_cases hcan).1 (h.reach.active hth)
    exact ⟨startDuty c.world call, duty_call call, Dutiful.start h.inv hidle hrest h.reach.ready hok hcan⟩
  act c S t call o k choice r w s h hth ha hx hn hfol := by
    have hinv : Dutiful c.world S := h.inv
    have halone : ∀ t', t' ≠ t → c.world.opener ≠ some t' := fun t' ht ho => ht (h.reach.alone ho hth).symm
    have hrest : c.world.opener = some t → ∀ t', t' ≠ t → S t' = .rest := fun ho t' ht =>
      h.rest fun call prog hth' => ht (h.reach.alone ho hth')
    have hguard : guardAct e t o c.world := h.reach.guard (by rw [hth]; rfl)
    have hn : DutyStep (S t) o r s := hn
    cases hst : S t with
    | rest =>
      rw [hst] at hn
      cases hn with
      | quiet hs => cases hs
    | «at» T b p =>
      rw [hst] at hn
      by_cases hfail : s = .at T b .refused
      · subst hfail
        have hb : b = false := by
          have hk := hinv.knows t
          rw [hst] at hk
          obtain ⟨n, rfl⟩ := hn.from_merging rfl
          exact hk.2.2.2.2.1
        subst hb
        exact Dutiful.refused h.reach hg hio hread hth ha hx hfol
      · exact hinv.acting hrest halone hst hguard hio ha hx hn hfail
    | _ => exact hinv.opening hrest halone (by rw [hst]; rfl) hguard hx hn
  finish c S t call reply h hth hend := by
    have halone : ∀ t', t' ≠ t → c.world.opener ≠ some t' := fun t' ht ho => ht (h.reach.alone ho hth).symm
    have hrest : c.world.opener = some t → ∀ t', t' ≠ t → S t' = .rest := fun ho t' ht =>
      h.rest fun call prog hth' => ht (h.reach.alone ho hth')
    exact Dutiful.finish h.inv hrest halone hend
  crash c S damage _ := dutiful_gone (fun _ => rfl) rfl rfl rfl
  close c S h _ hidle := by
    refine dutiful_gone (fun t => h.rest fun call prog hth => ?_) rfl rfl rfl
    have hin := h.reach.active hth
    rw [hidle] at hin
    cases hin

/-- When every open finds fewer runs than the trigger or writes to checkpoint, and nothing fails: whenever the write
lock of an open engine is free and there are as many runs as the trigger, a compaction is requested or running. -/
theorem no_request_lost (laws : BloomLaws) {d : Bool} (h : Runs { Env.calm d with small := false } PromptCall c)
    (hready : c.world.ready = true) (hlock : c.world.lock = none)
    (hmany : c.world.config.compactionTrigger ≤ c.world.runs.length) :
    c.world.pending = true ∨ c.world.running = true := by
  have hg : Env.Good { Env.calm d with small := false } d :=
    ⟨laws, rfl, rfl, rfl, ⟨_, rfl, by decide, fun _ => le_rfl⟩, fun hd => hd⟩
  obtain ⟨S, hholds⟩ := (dutyProtocol_sound hg rfl ⟨rfl, ⟨_, rfl, le_rfl⟩, d, hg⟩).at_runs h
  have hduty : Dutiful c.world S := hholds.inv
  obtain ⟨hlive, hopener⟩ := h.reach.ready hready
  have hun : ∀ t, (S t).unchecked = false := by
    intro t
    have hk := hduty.knows t
    generalize S t = s at hk
    cases s with
    | «at» T b p =>
      obtain ⟨_, _, hopen, hheld, hspot⟩ := hk
      cases p with
      | fresh =>
        rw [hopen hspot.1] at hopener
        cases hopener
      | due =>
        rw [hopen hspot] at hopener
        cases hopener
      | owing n =>
        rw [hlock] at hheld
        simp [Spot.locked] at hheld
      | _ => rfl
    | _ => rfl
  rcases hduty.met hlive hun hmany with hpending | hserves
  · exact Or.inl hpending
  · refine Or.inr ?_
    have hk := hduty.knows compactorTid
    generalize S compactorTid = s at hk hserves
    cases s with
    | «at» T b p =>
      cases p with
      | woken | taken | merging => exact hk.2.2.2.2.2.2
      | _ => cases hserves
    | _ => cases hserves

omit [Deps] in
/-- Two runs are flushed, the compactor takes its snapshot, and two more are flushed while it merges. -/
theorem no_request_lost_meanwhile : letI := Deps.concrete
    ∃ c, Runs { Env.calm false with small := false } PromptCall c ∧ c.world.ready = true ∧ c.world.lock = none ∧
      c.world.config.compactionTrigger ≤ c.world.runs.length ∧ (c.world.pending = true ∨ c.world.running = true) := by
  let _ := Deps.concrete
  let e : Env := { Env.calm false with small := false }
  let config := LsmConfig.default.withCompactionTrigger 2
  let flushes : List Move := [.alone 1 allOk (.put [1] [7]), .alone 1 allOk .flush, .alone 1 allOk (.put [1] [8]),
    .alone 1 allOk .flush, .start 0 .compact, .acts 0 [.ok, .ok, .ok], .alone 1 allOk (.put [1] [9]),
    .alone 1 allOk .flush]
  have hplay : (((Move.alone 1 allOk (.openWith config ⟨false, false⟩)).play e Config.initial).bind
      (flushes.foldlM (Move.play e))).any (fun c => c.world.ready = true ∧ c.world.lock = none ∧
        c.world.config.compactionTrigger ≤ c.world.runs.length) = true := by decide +kernel
  obtain ⟨c, hc, hcheck⟩ := (Option.any_eq_true _ _).mp hplay
  obtain ⟨hready, hlock, hmany⟩ := of_decide_eq_true hcheck
  obtain ⟨c₁, hopen, hrest⟩ := Option.bind_eq_some_iff.mp hc
  have hfirst : Runs e PromptCall c₁ := by
    refine Runs.initial.move (fun call hcall => ?_) hopen
    obtain rfl := Option.some.inj hcall
    rintro config' features ⟨⟩
    exact Or.inl (by decide)
  have hall : ∀ m ∈ flushes, ∀ w call, m.call = some call → PromptCall w call := by
    intro m hm w call hcall config' features heq
    subst heq
    simp only [flushes, List.mem_cons, List.not_mem_nil, or_false] at hm
    rcases hm with rfl | rfl | rfl | rfl | rfl | rfl | rfl | rfl <;> simp [Move.call] at hcall
  have hruns := hfirst.moves hall hrest
  exact ⟨c, hruns, hready, hlock, hmany, no_request_lost concrete_laws hruns hready hlock hmany⟩

omit [Deps] in
/-- An engine closed with two runs, and opened again with nothing in its log: as many runs as the trigger, and no
compaction is requested or running. -/
theorem reopened_without_request : letI := Deps.concrete
    ∃ c, Reach (Env.calm false) c ∧ c.world.ready = true ∧ c.world.lock = none ∧ c.world.active = [] ∧
      c.world.config.compactionTrigger ≤ c.world.runs.length ∧ c.world.pending = false ∧ c.world.running = false := by
  let _ := Deps.concrete
  have hplay : (Env.calm false).leads [
      .alone 1 allOk (.openWith (LsmConfig.default.withCompactionTrigger 2) ⟨false, false⟩),
      .alone 1 allOk (.put [1] [7]), .alone 1 allOk .flush, .alone 1 allOk (.put [1] [8]), .alone 1 allOk .flush, .close,
      .alone 1 allOk (.openWith (LsmConfig.default.withCompactionTrigger 2) ⟨false, false⟩)]
      (fun c => c.world.ready = true ∧ c.world.lock = none ∧ c.world.active = [] ∧
        c.world.config.compactionTrigger ≤ c.world.runs.length ∧ c.world.pending = false ∧ c.world.running = false) =
      true := by decide +kernel
  obtain ⟨c, hreach, hc⟩ := Env.reach_leads hplay
  exact ⟨c, hreach, of_decide_eq_true hc⟩

end Requests
end LsmDb
