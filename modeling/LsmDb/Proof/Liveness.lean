import LsmDb.Lib.Interleave
import LsmDb.Proof.Compaction
import LsmDb.Proof.Crashes
import LsmDb.Proof.Protocol

/-! Progress. Whoever holds the write lock is not itself waiting for anything, so whatever fails and in whatever order
the threads are scheduled, every call returns. -/
namespace LsmDb
open Lib
set_option autoImplicit false

section Liveness
variable [Deps] {e : Env} {c c' : Config} {t : Tid} {w w' : World}

/-! ## The lock -/

inductive Role where
  | client
  | opener
  | compactor

def Call.role : Call → Role
  | .openWith _ _ => .opener
  | .compact => .compactor
  | _ => .client

/-- A thread without a call; a thread outside or inside the write lock. -/
inductive Gate where
  | rest
  | at (role : Role) (inside : Bool)

/-- Operations that take or give back the lock, wait, or build and drop the engine. -/
def Act.gated : Act → Bool
  | .lock | .unlock | .snapshot _ | .awaitWork | .startEngine _ _ _ _ _ _ | .dropEngine => true
  | _ => false

inductive GateStep : Gate → (o : Act) → Res o → Gate → Prop
  | pass {role : Role} {b : Bool} {o : Act} {r : Res o} (ho : o.gated = false) : GateStep (.at role b) o r (.at role b)
  | lock {role : Role} {r : Unit} : GateStep (.at role false) .lock r (.at role true)
  | unlock {role : Role} {r : Unit} : GateStep (.at role true) .unlock r (.at role false)
  | snapshot {role : Role} {want : MemTable → List SsTable → Bool} {r : MemTable × List SsTable} :
      GateStep (.at role false) (.snapshot want) r (.at role false)
  | await {r : Unit} : GateStep (.at .compactor false) .awaitWork r (.at .compactor false)
  | start {config : LsmConfig} {features : Features} {m : MemTable} {runs : List SsTable} {isOpen : Bool} {q : ℕ}
      {r : Unit} : GateStep (.at .opener false) (.startEngine config features m runs isOpen q) r (.at .opener false)
  | drop {r : Unit} : GateStep (.at .opener false) .dropEngine r (.at .opener false)

/-! ## Programs -/

abbrev Passes {α : Type} (x : P α) : Prop := x.Uses fun o => o.gated = false

theorem Act.passes_of_quiet {o : Act} (h : o.quiet = true) : o.gated = false := by
  cases o <;> first | rfl | simp [Act.quiet] at h

theorem Quiet.passes {α : Type} {x : P α} (h : Quiet x) : Passes x := h.mono fun _ => Act.passes_of_quiet

section Programs
variable {α : Type} {config : LsmConfig} {features : Features} {role : Role} {b : Bool}

theorem passes_flushLocked : Passes (flushLocked config features).run := by
  unfold flushLocked
  refine uses_perform rfl fun entries => uses_perform rfl fun seq => ?_
  refine uses_bind (quiet_buildRun ..).passes fun table => ?_
  refine uses_perform rfl fun inner => uses_perform rfl fun nextSeq => ?_
  refine uses_bind (uses_storeManifest (p := fun o => o.gated = false) (fun _ => Act.passes_of_quiet) rfl _ _) fun _ => ?_
  refine uses_perform rfl fun _ =>
    uses_bind (uses_rotate (p := fun o => o.gated = false) (fun _ => rfl) rfl rfl features) fun _ => ?_
  split_ifs
  · exact uses_last rfl
  · trivial

theorem passes_logOps (ops : List Entry) : Passes (logOps features ops).run := by
  unfold logOps
  split_ifs
  · refine uses_perform rfl fun inner => ?_
    split_ifs
    · trivial
    · exact uses_io (uses_op rfl)
  · trivial

theorem FollowsM.passes {x : M α} {Q : Gate → α → Prop} {E : Gate → Error → Prop} (hx : Passes x.run)
    (hq : ∀ v, Q (.at role b) v) (he : ∀ err, E (.at role b) err) : FollowsM GateStep Q E x (.at role b) :=
  FollowsM.still hx (fun _ _ ho => .pass ho) hq he

/-- The guard is given back on every way out. -/
theorem gate_withGuard {body : M α} (h : Passes body.run) :
    FollowsM GateStep (fun s _ => s = .at role false) (fun s _ => s = .at role false) (withGuard body) (.at role false) := by
  have hlock : GateStep (.at role false) .lock () (.at role true) := .lock
  exact FollowsM.withGuard hlock (FollowsM.passes h (fun _ => ⟨_, .unlock, rfl⟩) fun _ => ⟨_, .unlock, rfl⟩)

theorem gate_flush :
    FollowsM GateStep (fun s _ => s = .at role false) (fun s _ => s = .at role false) (flush config features)
      (.at role false) := by
  refine gate_withGuard (uses_perform rfl fun inner => ?_)
  split_ifs
  · trivial
  · exact passes_flushLocked

theorem gate_writeOps (ops : List Entry) :
    FollowsM GateStep (fun s _ => s = .at role false) (fun s _ => s = .at role false) (writeOps config features ops)
      (.at role false) := by
  refine gate_withGuard (uses_bind (passes_logOps ops) fun _ => uses_perform rfl fun _ => uses_perform rfl fun inner => ?_)
  split_ifs
  · exact passes_flushLocked
  · trivial

theorem Reader.gate {x : P α} (h : Reader x) : x.Follows GateStep (fun s _ => s = .at role false) (.at role false) := by
  obtain ⟨want, k, rfl, hk⟩ := h
  exact fun r => ⟨_, .snapshot, (hk r).passes.follows (fun _ _ ho => .pass ho) fun _ => rfl⟩

theorem gate_mergeRuns (inputs : List SsTable) :
    FollowsM GateStep (fun s _ => s = .at role false) (fun s _ => s = .at role false) (mergeRuns features inputs)
      (.at role false) := by
  unfold mergeRuns
  refine FollowsM.perform fun seq => ⟨_, .pass rfl, FollowsM.perform fun faults => ⟨_, .pass rfl, ?_⟩⟩
  refine FollowsM.bind (FollowsM.passes (quiet_buildRun ..).passes (fun output => ?_) fun _ => rfl)
  refine gate_withGuard (uses_perform rfl fun inner => uses_perform rfl fun nextSeq => ?_)
  refine uses_bind (uses_storeManifest (p := fun o => o.gated = false) (fun _ => Act.passes_of_quiet) rfl _ _) fun _ => ?_
  exact uses_last rfl

theorem gate_compactorRound :
    (compactorRound features).run.Follows GateStep (fun s _ => s = .at .compactor false) (.at .compactor false) := by
  have hrest : ∀ {β : Type} {x : P β}, Passes x →
      x.Follows GateStep (fun s _ => s = .at .compactor false) (.at .compactor false) := fun hx =>
    hx.follows (fun _ _ ho => .pass ho) fun _ => rfl
  have hinner : (compactInner features).run.Follows GateStep (fun s _ => s = .at .compactor false)
      (.at .compactor false) := by
    refine follows_perform fun snap => ⟨_, .snapshot, ?_⟩
    dsimp only
    split_ifs
    · exact rfl
    · refine Prog.Follows.bind (Prog.Follows.mono (gate_mergeRuns snap.2) fun s r hr => ?_)
      obtain rfl : s = .at .compactor false := by
        cases r with
        | ok v => exact hr
        | error err => exact hr
      exact hrest (Prog.Uses.bind (quiet_dropRuns snap.2).passes fun _ => trivial)
  refine follows_perform fun _ => ⟨_, .await, Prog.Follows.bind ?_⟩
  refine follows_perform fun busy => ⟨_, .pass rfl, ?_⟩
  cases busy with
  | true => exact hrest (Prog.Uses.bind (uses_op (o := .finishWork _) rfl) fun _ => trivial)
  | false =>
    refine Prog.Follows.bind (Prog.Follows.mono hinner fun s r hr => ?_)
    obtain rfl : s = _ := hr
    refine follows_perform fun _ => ⟨_, .pass rfl, ?_⟩
    exact hrest (Prog.Uses.bind (uses_op (o := .finishWork r) rfl) fun _ => trivial)

theorem passes_openLog : Passes (openLog features).run := by
  unfold openLog
  split_ifs
  · refine uses_bind (uses_io (uses_op rfl)) fun _ => uses_bind (uses_op (o := .walIter) rfl) fun records => ?_
    cases replayLog MemTable.new records <;> trivial
  · trivial

theorem gate_openWith :
    FollowsM GateStep (fun s _ => s = .at .opener false) (fun s _ => s = .at .opener false) (openWith config features)
      (.at .opener false) := by
  have hpass : ∀ {β : Type} {x : M β} {Q : Gate → β → Prop}, Passes x.run → (∀ v, Q (.at .opener false) v) →
      FollowsM GateStep Q (fun s _ => s = .at .opener false) x (.at .opener false) := fun hx hq =>
    FollowsM.passes hx hq fun _ => rfl
  unfold openWith
  refine FollowsM.bind (hpass (uses_io (uses_op rfl)) fun _ => ?_)
  refine FollowsM.bind (hpass quiet_loadManifest.passes fun manifest => ?_)
  refine FollowsM.bind (hpass (quiet_openRuns ..).passes fun runs => ?_)
  refine FollowsM.bind (hpass (uses_io (uses_op rfl)) fun found => ?_)
  refine FollowsM.bind (hpass (quiet_reclaim ..).passes fun nextSeq => ?_)
  dsimp only
  split_ifs
  · exact rfl
  · refine FollowsM.bind (hpass passes_openLog fun m => FollowsM.perform fun _ => ⟨_, .start, ?_⟩)
    have hbuilt : FollowsM GateStep (fun s _ => s = .at .opener false) (fun s _ => s = .at .opener false) (do
        flush config features
        io "spawn compaction thread" (perform .spawn) : M Unit) (.at .opener false) := by
      refine FollowsM.bind (Prog.Follows.mono gate_flush fun s r hr => ?_)
      cases r with
      | error err => exact hr
      | ok v =>
        obtain rfl : s = _ := hr
        exact hpass (uses_io (uses_op rfl)) fun _ => rfl
    refine Prog.Follows.bind (Prog.Follows.mono hbuilt fun s r hr => ?_)
    cases r with
    | ok v => exact hr
    | error err =>
      obtain rfl : s = _ := hr
      exact follows_perform fun _ => ⟨_, .drop, rfl⟩

/-- Every program of the engine keeps to the lock's discipline. -/
theorem gate_program (config : LsmConfig) (features : Features) (call : Call) :
    (call.program config features).Follows GateStep (fun s _ => s = .at call.role false) (.at call.role false) := by
  have hunit : ∀ {x : M Unit},
      FollowsM GateStep (fun s _ => s = .at call.role false) (fun s _ => s = .at call.role false) x (.at call.role false) →
      (Reply.unit <$> x.run : P Reply).Follows GateStep (fun s _ => s = .at call.role false) (.at call.role false) := by
    intro x hx
    refine Prog.Follows.bind (Prog.Follows.mono hx fun s r hr => ?_)
    cases r with
    | ok v => exact hr
    | error err => exact hr
  cases call with
  | put key value => exact hunit (gate_writeOps _)
  | delete key => exact hunit (gate_writeOps _)
  | write batch => exact hunit (gate_writeOps _)
  | flush => exact hunit gate_flush
  | get key => exact ((reader_get key).map _).gate
  | scan range => exact ((reader_scan range).map _).gate
  | compact => exact Prog.Follows.bind (Prog.Follows.mono gate_compactorRound fun s _ hs => hs)
  | openWith config features => exact hunit gate_openWith

end Programs

/-! ## Who holds the lock -/

structure Gated (w : World) (S : Tid → Gate) : Prop where
  lock : ∀ t, w.lock = some t ↔ ∃ role, S t = .at role true
  opener : ∀ t b, S t = .at .opener b → w.opener = some t
  compactor : ∀ t b, S t = .at .compactor b → t = compactorTid

theorem exec_passes {o : Act} {ch : Choice} {r : Res o} (ho : o.gated = false) (h : exec t o ch w = some (r, w')) :
    w'.lock = w.lock :=
  exec_differ h .lock (by cases o <;> simp [Act.gated, Act.touches] at ho ⊢)

variable {S : Tid → Gate}

/-- A thread moves, the others stay where they are. -/
theorem Gated.move {role : Role} {b b' : Bool} (h : Gated w S) (hs : S t = .at role b) (ho : w'.opener = w.opener)
    (hmine : w'.lock = some t ↔ b' = true) (hothers : ∀ t', t' ≠ t → (w'.lock = some t' ↔ w.lock = some t')) :
    Gated w' (Function.update S t (.at role b')) := by
  refine ⟨fun t' => ?_, fun t' b₁ hb => ?_, fun t' b₁ hb => ?_⟩
  · by_cases ht : t' = t
    · subst ht
      rw [Function.update_self, hmine]
      exact ⟨fun hb => ⟨role, by rw [hb]⟩, fun ⟨_, hb⟩ => (Gate.at.inj hb).2⟩
    · rw [Function.update_of_ne ht, hothers t' ht]
      exact h.lock t'
  · rw [ho]
    by_cases ht : t' = t
    · subst ht
      rw [Function.update_self] at hb
      obtain ⟨rfl, _⟩ := Gate.at.inj hb
      exact h.opener t' b hs
    · rw [Function.update_of_ne ht] at hb
      exact h.opener t' b₁ hb
  · by_cases ht : t' = t
    · subst ht
      rw [Function.update_self] at hb
      obtain ⟨rfl, _⟩ := Gate.at.inj hb
      exact h.compactor t' b hs
    · rw [Function.update_of_ne ht] at hb
      exact h.compactor t' b₁ hb

theorem Gated.not_inside {role : Role} (h : Gated w S) (hs : S t = .at role false) : w.lock ≠ some t := by
  intro hl
  obtain ⟨role', hin⟩ := (h.lock t).mp hl
  cases hs.symm.trans hin

theorem Gated.act {o : Act} {ch : Choice} {r : Res o} {s : Gate} (h : Gated w S) (hx : exec t o ch w = some (r, w'))
    (hn : GateStep (S t) o r s) (halone : w.opener = some t → ∀ t', t' ≠ t → S t' = .rest) :
    Gated w' (Function.update S t s) := by
  have ho := exec_opener hx
  -- the engine is built or dropped, and nobody else is around
  have hsole : ∀ {b : Bool}, S t = .at .opener b → w'.lock = none → Gated w' (Function.update S t (.at .opener false)) := by
    intro b hs hfree
    refine h.move hs ho (by simp [hfree]) fun t' ht => ?_
    rw [hfree, h.lock t', halone (h.opener t b hs) t' ht]
    simp
  generalize hst : S t = st at hn
  cases hn with
  | @pass role b o r hpass =>
    have hsame := exec_passes hpass hx
    refine h.move hst ho ?_ fun t' _ => by rw [hsame]
    rw [hsame, h.lock t, hst]
    exact ⟨fun ⟨_, hb⟩ => (Gate.at.inj hb).2, fun hb => ⟨role, by rw [hb]⟩⟩
  | lock =>
    simp only [exec] at hx
    split_ifs at hx with hfree
    obtain ⟨_, rfl⟩ := Prod.mk.inj (Option.some.inj hx)
    exact h.move hst rfl (by simp) fun t' ht => by simp [hfree, Ne.symm ht]
  | @unlock role =>
    have hmine : w.lock = some t := (h.lock t).mpr ⟨role, hst⟩
    obtain ⟨_, rfl⟩ := Prod.mk.inj (Option.some.inj hx)
    exact h.move hst rfl (by simp) fun t' ht => by simp [hmine, Ne.symm ht]
  | snapshot =>
    have hfree : w.lock = none := by
      by_contra hbusy
      simp [exec, hbusy] at hx
    simp only [exec, if_pos hfree] at hx
    obtain ⟨_, rfl⟩ := Prod.mk.inj (Option.some.inj hx)
    exact h.move hst rfl (by simp [hfree]) fun t' ht => Iff.rfl
  | await =>
    simp only [exec] at hx
    split_ifs at hx
    obtain ⟨_, rfl⟩ := Prod.mk.inj (Option.some.inj hx)
    exact h.move hst rfl (by simpa using h.not_inside hst) fun t' ht => Iff.rfl
  | start =>
    obtain ⟨_, rfl⟩ := Prod.mk.inj (Option.some.inj hx)
    exact hsole hst rfl
  | drop =>
    obtain ⟨_, rfl⟩ := Prod.mk.inj (Option.some.inj hx)
    exact hsole hst rfl

theorem gated_gone (hfree : w.lock = none) (S : Tid → Gate) (hrest : ∀ t, S t = .rest) : Gated w S := by
  refine ⟨fun t => ?_, fun t b hs => ?_, fun t b hs => ?_⟩
  · rw [hfree, hrest t]
    simp
  · cases (hrest t).symm.trans hs
  · cases (hrest t).symm.trans hs

theorem Gated.start {call : Call} (h : Gated w S) (hcan : canStart w t call = true) (hrest : S t = .rest)
    (hopen : w.active = [] → ∀ t', S t' = .rest) : Gated (started w t call) (Function.update S t (.at call.role false)) := by
  have hlock : (started w t call).lock = w.lock := by cases call <;> rfl
  refine ⟨fun t' => ?_, fun t' b hs => ?_, fun t' b hs => ?_⟩
  · rw [hlock]
    by_cases ht : t' = t
    · subst ht
      rw [Function.update_self, h.lock, hrest]
      simp
    · rw [Function.update_of_ne ht]
      exact h.lock t'
  · by_cases ht : t' = t
    · subst ht
      rw [Function.update_self] at hs
      cases call with
      | openWith config features => rfl
      | _ => cases (Gate.at.inj hs).1
    · rw [Function.update_of_ne ht] at hs
      cases call with
      | openWith config features =>
        -- an open starts when nothing runs
        simp only [canStart, Bool.and_eq_true, List.isEmpty_iff] at hcan
        cases (hopen hcan.1.2 t').symm.trans hs
      | _ => exact h.opener t' b hs
  · by_cases ht : t' = t
    · subst ht
      rw [Function.update_self] at hs
      cases call with
      | compact => exact (canStart_cases hcan).2.mpr rfl
      | _ => cases (Gate.at.inj hs).1
    · rw [Function.update_of_ne ht] at hs
      exact h.compactor t' b hs

theorem Gated.finish {call : Call} {reply : Reply} {role : Role} (h : Gated w S) (hst : S t = .at role false)
    (halone : ∀ t', t' ≠ t → w.opener ≠ some t') : Gated (ended w t call reply) (Function.update S t .rest) := by
  have hlock : (ended w t call reply).lock = w.lock := by
    cases call with
    | openWith config features => rfl
    | _ => simp only [ended]; split_ifs <;> rfl
  refine ⟨fun t' => ?_, fun t' b hs => ?_, fun t' b hs => ?_⟩
  · rw [hlock]
    by_cases ht : t' = t
    · subst ht
      rw [Function.update_self, h.lock, hst]
      simp
    · rw [Function.update_of_ne ht]
      exact h.lock t'
  · by_cases ht : t' = t
    · subst ht
      rw [Function.update_self] at hs
      cases hs
    · rw [Function.update_of_ne ht] at hs
      exact absurd (h.opener t' b hs) (halone t' ht)
  · by_cases ht : t' = t
    · subst ht
      rw [Function.update_self] at hs
      cases hs
    · rw [Function.update_of_ne ht] at hs
      exact h.compactor t' b hs

def gateProtocol : Protocol := ⟨Gate, .rest, GateStep, fun call s _ => s = .at call.role false, Gated⟩

theorem gateProtocol_sound (e : Env) : gateProtocol.Sound e fun _ _ => True where
  initial := gated_gone rfl _ fun _ => rfl
  start := by
    intro c S t call h _ hcan
    have hinv : Gated c.world S := h.inv
    have hidle : ∀ t', t' ∉ c.world.active → S t' = Gate.rest := fun t' hin =>
      h.rest fun _ _ hth => hin (h.reach.active hth)
    refine ⟨.at call.role false, gate_program _ _ call, hinv.start hcan (hidle t (canStart_cases hcan).1) ?_⟩
    intro hnone t'
    exact hidle t' (by simp [hnone])
  act := by
    intro c S t call o k choice r w s h hth _ hx hn _
    have hinv : Gated c.world S := h.inv
    exact hinv.act hx hn fun ho t' ht => h.rest fun _ _ hrun => ht (h.reach.alone ho hrun)
  finish := by
    intro c S t call reply h hth hend
    have hinv : Gated c.world S := h.inv
    exact hinv.finish hend fun t' ht ho => ht (h.reach.alone ho hth).symm
  crash := fun _ _ _ _ => gated_gone rfl _ fun _ => rfl
  close := by
    intro c S h _ hidle
    refine gated_gone rfl S fun t => h.rest fun _ _ hth => ?_
    have hin := h.reach.active hth
    rw [hidle] at hin
    cases hin

/-! ## No deadlock -/

/-- The operations that may have to wait. -/
def Act.waits : Act → Bool
  | .lock | .snapshot _ | .awaitWork => true
  | _ => false

theorem exec_waits {o : Act} (h : exec t o .ok w = none) :
    o.waits = true ∧ (w.lock ≠ none ∨ o = .awaitWork ∧ w.pending = false) := by
  cases o with
  | lock | snapshot =>
    refine ⟨rfl, Or.inl fun hfree => ?_⟩
    simp [exec, hfree] at h
  | awaitWork =>
    refine ⟨rfl, Or.inr ⟨rfl, ?_⟩⟩
    by_contra hp
    simp [exec, hp] at h
  | _ =>
    simp only [exec] at h
    (try split at h) <;> (try split at h) <;> simp at h

/-- A step of a thread that runs: its next operation, however it turns out, or its return. -/
def Env.Goes (e : Env) (c c' : Config) : Prop :=
  ∃ t, (∃ ch, e.allows c (.act t ch) ∧ step c (.act t ch) = some c') ∨ step c (.finish t) = some c'

theorem Env.Goes.reach (h : e.Goes c c') (hr : Reach e c) : Reach e c' := by
  obtain ⟨t, ⟨ch, ha, hs⟩ | hs⟩ := h
  · exact hr.step ha hs
  · exact hr.step (l := .finish t) trivial hs

/-- A thread whose next operation does not wait can go on. -/
theorem goes_of_running {call : Call} {prog : P Reply} (hth : c.threads t = .running call prog)
    (hok : ∀ o k, prog = .op o k → e.allowsAct c.world t o .ok ∧ exec t o .ok c.world ≠ none) : ∃ c', e.Goes c c' := by
  cases prog with
  | done reply => exact ⟨_, t, Or.inr (by simp only [step, hth]; rfl)⟩
  | op o k =>
    obtain ⟨hallow, hgo⟩ := hok o k rfl
    obtain ⟨⟨r, w⟩, hx⟩ := Option.ne_none_iff_exists'.mp hgo
    exact ⟨_, t, Or.inl ⟨.ok, allows_act hth hallow, step_act hth hx⟩⟩

/-- Unless it runs out of run numbers, the engine can go on while anything but the compactor's wait for work is under
way. -/
theorem Reach.goes {call : Call} {prog : P Reply} (h : Reach Env.wild c) (hseq : c.world.nextSeq + 1 < 2 ^ 64)
    (hth : c.threads t = .running call prog) (hstuck : ∀ c', ¬ Env.wild.Goes c c') :
    c.world.lock = none ∧ t = compactorTid ∧ c.world.pending = false ∧ ∃ k, prog = .op .awaitWork k := by
  obtain ⟨S, hholds⟩ := (gateProtocol_sound Env.wild).at_runs h.runs
  have hinv : Gated c.world S := hholds.inv
  have hallow : ∀ (t : Tid) (o : Act), Env.wild.allowsAct c.world t o .ok := by
    intro t o
    cases o with
    | fetchAdd => exact hseq
    | register => exact fun hsmall => by cases hsmall
    | startEngine => exact fun hsmall => by cases hsmall
    | _ => simp [Env.allowsAct, Env.wild]
  have hwaits : ∀ {t call prog}, c.threads t = .running call prog → ∃ o k, prog = .op o k ∧
      exec t o .ok c.world = none := by
    intro t call prog hth
    by_contra hno
    obtain ⟨c', hgo⟩ := goes_of_running hth fun o k hprog => ⟨hallow t o, fun hx => hno ⟨o, k, hprog, hx⟩⟩
    exact hstuck c' hgo
  -- whoever is inside the lock can go on
  have hfree : c.world.lock = none := by
    by_contra hbusy
    obtain ⟨t', hlock⟩ := Option.ne_none_iff_exists'.mp hbusy
    obtain ⟨role, hin⟩ := (hinv.lock t').mp hlock
    have hat := hholds.at_stage t'
    rw [hin] at hat
    cases hth' : c.threads t' with
    | idle | replied =>
      rw [hth'] at hat
      cases hat
    | running call' prog' =>
      rw [hth'] at hat
      obtain ⟨o, k, rfl, hx⟩ := hwaits hth'
      obtain ⟨r⟩ := res_nonempty o
      obtain ⟨s, hn, _⟩ := hat r
      have hw := (exec_waits hx).1
      cases hn with
      | pass ho => cases o <;> simp [Act.gated, Act.waits] at ho hw
      | unlock => cases hw
  obtain ⟨o, k, rfl, hx⟩ := hwaits hth
  obtain ⟨_, hbusy | ⟨rfl, hpending⟩⟩ := exec_waits hx
  · exact absurd hfree hbusy
  · have hat := hholds.at_stage t
    rw [hth] at hat
    obtain ⟨s, hn, _⟩ := hat ()
    refine ⟨hfree, ?_, hpending, k, rfl⟩
    generalize hst : S t = st at hn
    cases hn with
    | pass ho => cases ho
    | await => exact hinv.compactor t _ hst

/-! ## Every call returns -/

/-- A step in which no client makes a call: of a thread that runs, or the start of a round of the compactor's loop. -/
def Env.GoesOn (e : Env) (c c' : Config) : Prop :=
  e.Goes c c' ∨ step c (.start compactorTid .compact) = some c'

theorem Env.GoesOn.reach (h : e.GoesOn c c') (hr : Reach e c) : Reach e c' := by
  rcases h with h | hs
  · exact h.reach hr
  · exact hr.step (l := .start compactorTid .compact) (fun ht => absurd rfl ht) hs

theorem Reach.all_goes (hr : Reach e c) (h : Relation.ReflTransGen e.GoesOn c c') : Reach e c' := by
  induction h with
  | refl => exact hr
  | tail _ hgo ih => exact hgo.reach ih

/-- What a thread is left with by one step of its own. -/
inductive Thread.Less : Thread → Thread → Prop
  | act {call : Call} {o : Act} {k : Res o → P Reply} (r : Res o) : Less (.running call (k r)) (.running call (.op o k))
  | finish {call : Call} {reply : Reply} : Less (.replied call reply) (.running call (.done reply))

theorem Thread.wellFounded_less : WellFounded Thread.Less := by
  refine ⟨fun th => ?_⟩
  cases th with
  | idle => exact ⟨_, fun _ h => by cases h⟩
  | replied => exact ⟨_, fun _ h => by cases h⟩
  | running call prog =>
    induction prog using Prog.wellFounded_left.induction with
    | _ prog ih =>
      refine ⟨_, fun th h => ?_⟩
      cases h with
      | act r => exact ih _ (.op r)
      | finish => exact ⟨_, fun _ h => by cases h⟩

/-- The compactor between two requests: it works off the one it has, returns, and starts the round in which it waits for
the next. -/
inductive Thread.Round : Thread → Thread → Prop
  | act {call : Call} {o : Act} {k : Res o → P Reply} (r : Res o) (ho : o ≠ .awaitWork) :
      Round (.running call (k r)) (.running call (.op o k))
  | finish {call : Call} {reply : Reply} : Round (.replied call reply) (.running call (.done reply))
  | start {th : Thread} {call : Call} {k : Unit → P Reply} (hth : ∀ call prog, th ≠ .running call prog) :
      Round (.running call (.op .awaitWork k)) th

theorem Thread.wellFounded_round : WellFounded Thread.Round := by
  have hwaits : ∀ call (k : Unit → P Reply), Acc Thread.Round (.running call (.op .awaitWork k)) := by
    refine fun call k => ⟨_, fun th h => ?_⟩
    generalize hx : Thread.running call (.op .awaitWork k) = x at h
    cases h with
    | act r ho =>
      obtain ⟨_, hprog⟩ := Thread.running.inj hx
      exact absurd (Prog.op.inj hprog).1.symm ho
    | finish => cases hx
    | start hth => exact absurd hx.symm (hth call _)
  have hreplied : ∀ call reply, Acc Thread.Round (.replied call reply) := by
    refine fun call reply => ⟨_, fun th h => ?_⟩
    cases h with
    | start hth => exact hwaits _ _
  refine ⟨fun th => ?_⟩
  cases th with
  | idle =>
    refine ⟨_, fun _ h => ?_⟩
    cases h with
    | start hth => exact hwaits _ _
  | replied call reply => exact hreplied call reply
  | running call prog =>
    induction prog using Prog.wellFounded_left.induction with
    | _ prog ih =>
      refine ⟨_, fun th h => ?_⟩
      cases h with
      | act r ho => exact ih _ (.op r)
      | finish => exact hreplied _ _
      | start hth => exact absurd rfl (hth call prog)

/-- What a step takes away: from what clients have left to do, or else from the requests, or else from what the compactor
has left to do with the request it has. -/
def Config.left (c : Config) : (Tid → Thread) × Bool × Thread :=
  (Function.update c.threads compactorTid .idle, c.world.pending, c.threads compactorTid)

def Shrinks (F : Finset Tid) : (Tid → Thread) × Bool × Thread → (Tid → Thread) × Bool × Thread → Prop :=
  Prod.Lex (Interleaved Thread.Less F) (Prod.Lex (· < ·) Thread.Round)

theorem wellFounded_shrinks (F : Finset Tid) : WellFounded (Shrinks F) :=
  WellFounded.prod_lex (wellFounded_interleaved Thread.wellFounded_less F)
    (WellFounded.prod_lex wellFounded_lt Thread.wellFounded_round)

/-- The compactor makes no requests. -/
def Act.unasked (o : Act) : Prop := o = .awaitWork ∨ Field.pending ∉ o.touches

theorem unasked_compact (config : LsmConfig) (features : Features) :
    (Call.compact.program config features).Uses Act.unasked := by
  refine (follows_compact config features).uses res_nonempty fun s o r s' hn => ?_
  cases hn with
  | quiet ho => exact Or.inr (by cases o <;> simp [Act.quiet, Act.touches] at ho ⊢)
  | flag ho => cases o <;> simp [Act.flag, Act.unasked, Act.touches] at ho ⊢
  | idle | busy | few | many | number | failed | commit | swap => exact Or.inr (by simp [Act.touches])

theorem Reach.unasked (h : Reach e c) {call : Call} {prog : P Reply}
    (hth : c.threads compactorTid = .running call prog) : prog.Uses Act.unasked := by
  induction h generalizing call prog with
  | initial => cases hth
  | @step c c' l hr ha hs ih =>
    cases l with
    | start t call' =>
      simp only [LsmDb.step] at hs
      split_ifs at hs with hcan
      obtain rfl := Option.some.inj hs
      rcases running_update hth with ⟨ht, hprog⟩ | ⟨_, hold⟩
      · obtain rfl := (canStart_cases hcan).2.mp ht.symm
        obtain ⟨_, rfl⟩ := Thread.running.inj hprog
        exact unasked_compact _ _
      · exact ih hold
    | act t choice =>
      simp only [LsmDb.step] at hs
      split at hs
      · rename_i call' o k hold
        split at hs
        · obtain rfl := Option.some.inj hs
          rcases running_update hth with ⟨rfl, hprog⟩ | ⟨_, hsame⟩
          · obtain ⟨_, rfl⟩ := Thread.running.inj hprog
            exact (ih hold).2 _
          · exact ih hsame
        · simp at hs
      · simp at hs
    | finish t =>
      simp only [LsmDb.step] at hs
      split at hs
      · obtain rfl := Option.some.inj hs
        rcases running_update hth with ⟨_, hprog⟩ | ⟨_, hsame⟩
        · cases hprog
        · exact ih hsame
      · simp at hs
    | crash damage =>
      obtain rfl := Option.some.inj hs
      cases hth
    | close =>
      simp only [LsmDb.step] at hs
      split_ifs at hs
      obtain rfl := Option.some.inj hs
      exact ih hth

/-- A step of a client. -/
theorem shrinks_client {F : Finset Tid} {th : Thread} (ht : t ≠ compactorTid) (hF : t ∈ F)
    (hless : Thread.Less th (c.threads t)) (hc' : c'.threads = Function.update c.threads t th) :
    Shrinks F c'.left c.left := by
  refine Prod.Lex.left _ _ ⟨t, hF, th, ?_, ?_⟩
  · rw [Function.update_of_ne ht]
    exact hless
  · rw [hc', Function.update_comm ht]

/-- A step of the compactor that takes no request. -/
theorem shrinks_compactor {F : Finset Tid} {th : Thread} (hround : Thread.Round th (c.threads compactorTid))
    (hpending : c'.world.pending = c.world.pending) (hc' : c'.threads = Function.update c.threads compactorTid th) :
    Shrinks F c'.left c.left := by
  unfold Config.left
  rw [hc', Function.update_idem, Function.update_self, hpending]
  exact Prod.Lex.right _ (Prod.Lex.right _ hround)

theorem Env.GoesOn.shrinks {F : Finset Tid} (h : e.GoesOn c c') (hr : Reach e c)
    (hF : ∀ t call prog, c.threads t = .running call prog → t ∈ F) : Shrinks F c'.left c.left := by
  obtain ⟨t, ⟨ch, _, hs⟩ | hs⟩ | hs := h
  · simp only [step] at hs
    split at hs
    · rename_i call o k hth
      split at hs
      · rename_i r w hx
        obtain rfl := Option.some.inj hs
        by_cases ht : t = compactorTid
        · subst ht
          rcases (hr.unasked hth).1 with rfl | hno
          · -- a request is taken
            simp only [exec] at hx
            split_ifs at hx with hp
            obtain ⟨_, rfl⟩ := Prod.mk.inj (Option.some.inj hx)
            have hless : false < true := by decide
            unfold Config.left
            rw [Function.update_idem, hp]
            exact Prod.Lex.right _ (Prod.Lex.left _ _ hless)
          · by_cases ho : o = .awaitWork
            · subst ho
              exact absurd (by simp [Act.touches]) hno
            · exact shrinks_compactor (by rw [hth]; exact .act r ho) (exec_differ hx .pending hno) rfl
        · exact shrinks_client ht (hF t call _ hth) (by rw [hth]; exact .act r) rfl
      · simp at hs
    · simp at hs
  · simp only [step] at hs
    split at hs
    · rename_i call reply hth
      obtain rfl := Option.some.inj hs
      by_cases ht : t = compactorTid
      · subst ht
        refine shrinks_compactor (by rw [hth]; exact .finish) ?_ rfl
        unfold ended
        split
        · rfl
        · split_ifs
          · rfl
          · rfl
      · exact shrinks_client ht (hF t call _ hth) (by rw [hth]; exact .finish) rfl
    · simp at hs
  · simp only [step] at hs
    split_ifs at hs with hcan
    obtain rfl := Option.some.inj hs
    refine shrinks_compactor (.start fun call prog hth => ?_) rfl rfl
    exact (canStart_cases hcan).1 (hr.active hth)

/-- Only threads of `F` come to run. -/
theorem Env.GoesOn.runs {F : Finset Tid} (h : e.GoesOn c c') (hcompactor : compactorTid ∈ F)
    (hF : ∀ t call prog, c.threads t = .running call prog → t ∈ F) :
    ∀ t call prog, c'.threads t = .running call prog → t ∈ F := by
  have hmove : ∀ (t : Tid) (th : Thread), t ∈ F → c'.threads = Function.update c.threads t th →
      ∀ t' call prog, c'.threads t' = .running call prog → t' ∈ F := by
    intro t th ht heq t' call prog hrun
    rw [heq] at hrun
    rcases running_update hrun with ⟨rfl, _⟩ | ⟨_, hold⟩
    · exact ht
    · exact hF t' call prog hold
  obtain ⟨t, ⟨ch, _, hs⟩ | hs⟩ | hs := h
  · simp only [step] at hs
    split at hs
    · rename_i call o k hth
      split at hs
      · obtain rfl := Option.some.inj hs
        exact hmove t _ (hF t call _ hth) rfl
      · simp at hs
    · simp at hs
  · simp only [step] at hs
    split at hs
    · rename_i call reply hth
      obtain rfl := Option.some.inj hs
      exact hmove t _ (hF t call _ hth) rfl
    · simp at hs
  · simp only [step] at hs
    split_ifs at hs
    obtain rfl := Option.some.inj hs
    exact hmove compactorTid _ hcompactor rfl

theorem acc_goesOn {F : Finset Tid} (hr : Reach e c) (hcompactor : compactorTid ∈ F)
    (hF : ∀ t call prog, c.threads t = .running call prog → t ∈ F) : Acc (fun c' c => e.GoesOn c c') c := by
  have hacc := (wellFounded_shrinks F).apply c.left
  generalize hleft : c.left = left at hacc
  induction hacc generalizing c with
  | intro left _ ih =>
    subst hleft
    refine ⟨_, fun c' hgo => ?_⟩
    exact ih c'.left (hgo.shrinks hr hF) (hgo.reach hr) (hgo.runs hcompactor hF) rfl

/-- Whatever fails, and in whatever order threads run: when clients make no new calls, the engine stops after finitely
many steps, whatever rounds of compaction it still starts; and unless it has run out of run numbers it stops with the
lock free, every call of a client returned, and the compactor, if it runs, waiting without a request. -/
theorem every_call_returns (h : Reach Env.wild c) :
    Acc (fun c' c => Env.wild.GoesOn c c') c ∧
      ∀ c', Relation.ReflTransGen Env.wild.GoesOn c c' → (∀ c'', ¬ Env.wild.GoesOn c' c'') →
        c'.world.nextSeq + 1 < 2 ^ 64 → ∀ t call prog, c'.threads t = .running call prog →
          c'.world.lock = none ∧ t = compactorTid ∧ c'.world.pending = false ∧ ∃ k, prog = .op .awaitWork k := by
  constructor
  · refine acc_goesOn (F := insert compactorTid c.world.active.toFinset) h (Finset.mem_insert_self ..) fun t call prog hth => ?_
    exact Finset.mem_insert_of_mem (List.mem_toFinset.mpr (h.active hth))
  · intro c' hgo hstuck hseq t call prog hth
    exact (h.all_goes hgo).goes hseq hth fun c'' hgo' => hstuck c'' (Or.inl hgo')

omit [Deps] in
/-- One client is inside the lock, another waits for it, and the compactor is about to merge two runs. -/
theorem every_call_returns_contended : letI := Deps.concrete
    ∃ c, Reach Env.wild c ∧ c.world.lock = some 1 ∧ step c (.act 2 .ok) = none ∧ c.world.pending = true ∧
      Acc (fun c' c => Env.wild.GoesOn c c') c ∧
      ∀ c', Relation.ReflTransGen Env.wild.GoesOn c c' → (∀ c'', ¬ Env.wild.GoesOn c' c'') →
        c'.world.nextSeq + 1 < 2 ^ 64 → ∀ t call prog, c'.threads t = .running call prog →
          c'.world.lock = none ∧ t = compactorTid ∧ c'.world.pending = false ∧ ∃ k, prog = .op .awaitWork k := by
  let _ := Deps.concrete
  have hplay : Env.wild.leads (twoRuns ++ [.start 1 (.put [1] [7]), .start 2 .flush, .acts 1 [.ok, .ok]])
      (fun c => c.world.lock = some 1 ∧ (step c (.act 2 .ok)).isNone = true ∧ c.world.pending = true) = true := by
    decide +kernel
  obtain ⟨c, hreach, hc⟩ := Env.reach_leads hplay
  obtain ⟨hlock, hwait, hpending⟩ := of_decide_eq_true hc
  exact ⟨c, hreach, hlock, Option.isNone_iff_eq_none.mp hwait, hpending, every_call_returns hreach⟩

end Liveness
end LsmDb
