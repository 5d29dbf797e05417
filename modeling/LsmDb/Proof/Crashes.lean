import LsmDb.Proof.Answers

/-! Recovery: after a crash at any point the next open succeeds, and reads find what was durable. -/
namespace LsmDb
open Lib
set_option autoImplicit false

section Crashes
variable [Deps] {e : Env} {t : Tid} {c c' : Config} {w w' : World} {d : Bool} {config : LsmConfig} {features : Features}

/-! ## What an open leaves alone -/

/-- Operations that write nothing and leave the engine alone. -/
def Act.keeps : Act → Bool
  | .apply _ | .dropEngine => false
  | _ => true

theorem exec_cur {o : Act} {ch : Choice} {r : Res o} (hk : o.keeps = true) (h : exec t o ch w = some (r, w')) :
    w'.spec.cur = w.spec.cur :=
  exec_differ h .cur (by cases o <;> simp [Act.keeps, Act.touches] at hk ⊢)

/-- A program of operations that write nothing. -/
abbrev Keeps {α : Type} (x : P α) : Prop := x.Uses fun o => o.keeps = true

theorem Act.keeps_of_aside {o : Act} (h : o.aside = true) : o.keeps = true := by
  cases o <;> first | rfl | cases h

theorem AsideP.keeps {α : Type} {x : P α} (h : AsideP x) : Keeps x := h.mono fun _ => Act.keeps_of_aside

theorem Quiet.keeps {α : Type} {x : P α} (h : Quiet x) : Keeps x := h.aside.keeps

/-- Operations that write nothing, to the log either. -/
def Act.unlogged : Act → Bool
  | .walAppend _ | .apply _ | .dropEngine => false
  | _ => true

/-- A program of operations that write nothing, to the log either. -/
abbrev Unlogged {α : Type} (x : P α) : Prop := x.Uses fun o => o.unlogged = true

theorem Act.unlogged_of_quiet {o : Act} (h : o.quiet = true) : o.unlogged = true := by
  cases o <;> first | rfl | simp [Act.quiet] at h

theorem Quiet.unlogged {α : Type} {x : P α} (h : Quiet x) : Unlogged x := h.mono fun _ => Act.unlogged_of_quiet

theorem Act.keeps_of_unlogged {o : Act} (h : o.unlogged = true) : o.keeps = true := by
  cases o <;> first | rfl | cases h

theorem Unlogged.keeps {α : Type} {x : P α} (h : Unlogged x) : Keeps x := h.mono fun _ => Act.keeps_of_unlogged

theorem unlogged_flushLocked (config : LsmConfig) (features : Features) :
    Unlogged (flushLocked config features).run := by
  unfold flushLocked
  refine uses_perform rfl fun entries => uses_perform rfl fun seq => ?_
  refine uses_bind (quiet_buildRun ..).unlogged fun table => ?_
  refine uses_perform rfl fun inner => uses_perform rfl fun nextSeq => ?_
  refine uses_bind (uses_storeManifest (p := fun o => o.unlogged = true) (fun _ => Act.unlogged_of_quiet) rfl _ _) fun _ => ?_
  refine uses_perform rfl fun _ => uses_bind (uses_rotate (p := fun o => o.unlogged = true) (fun _ => rfl) rfl rfl features) fun _ => ?_
  split_ifs
  · exact uses_last rfl
  · trivial

theorem unlogged_flush (config : LsmConfig) (features : Features) : Unlogged (flush config features).run := by
  refine Prog.Uses.bind (uses_op (o := .lock) rfl) fun _ => ?_
  refine Prog.Uses.bind (uses_perform rfl fun inner => ?_) fun r => ?_
  · split_ifs
    · trivial
    · exact unlogged_flushLocked config features
  · exact Prog.Uses.bind (uses_op (o := .unlock) rfl) fun _ => trivial

theorem keeps_flush (config : LsmConfig) (features : Features) : Keeps (flush config features).run :=
  (unlogged_flush config features).keeps

theorem quiet_loadManifest : Quiet loadManifest.run := by
  unfold loadManifest
  refine uses_perform rfl fun found => ?_
  cases found with
  | false => trivial
  | true =>
    refine uses_bind (uses_io (uses_op rfl)) fun text => ?_
    exact uses_bind (x := lift _) trivial fun _ => trivial

theorem quiet_loadFilter (features : Features) (name : Text) : Quiet (loadFilter features name).run := by
  unfold loadFilter
  split_ifs
  · refine uses_perform rfl fun r => ?_
    rcases r with (_ | _) | bytes
    · trivial
    · trivial
    · dsimp only
      split
      · trivial
      · exact uses_perform rfl fun _ => trivial
  · trivial

theorem quiet_openRuns (features : Features) (names : List Text) : Quiet (openRuns features names).run := by
  induction names with
  | nil => trivial
  | cons name rest ih =>
    unfold openRuns
    refine uses_perform rfl fun found => ?_
    cases found with
    | false => trivial
    | true =>
      refine uses_bind (uses_op (o := .openRun name) rfl) fun opened => ?_
      refine uses_bind (quiet_loadFilter features name) fun filter => ?_
      exact uses_perform rfl fun table => uses_bind ih fun _ => trivial

theorem quiet_reclaim (live : List Text) (nextSeq : ℕ) (found : List Text) : Quiet (reclaim live nextSeq found).run := by
  induction found generalizing nextSeq with
  | nil => trivial
  | cons name rest ih =>
    have hremove : ∀ context, Quiet (io context (perform (.remove name))).run := fun _ => uses_io (uses_op rfl)
    unfold reclaim
    split
    · exact uses_bind (hremove _) fun _ => ih nextSeq
    · split
      · split
        · exact uses_bind (hremove _) fun _ => ih nextSeq
        · exact ih nextSeq
      · split
        · split
          · exact uses_bind (hremove _) fun _ => ih _
          · exact ih _
        · exact ih nextSeq

theorem keeps_openLog (features : Features) : Keeps (openLog features).run := by
  unfold openLog
  split_ifs
  · refine uses_bind (uses_io (uses_op rfl)) fun _ => ?_
    exact uses_bind (uses_op (o := .walIter) rfl) fun records => trivial
  · trivial

/-- Whether an open has dropped its engine again. -/
inductive OpenStep : Bool → (o : Act) → Res o → Bool → Prop
  | keep {s : Bool} {o : Act} {r : Res o} (h : o.keeps = true) : OpenStep s o r s
  | drop {s : Bool} {r : Unit} : OpenStep s .dropEngine r true

theorem follows_openWith (config : LsmConfig) (features : Features) :
    FollowsM OpenStep (fun s _ => s = false) (fun _ _ => True) (openWith config features) false := by
  have hstill : ∀ {α : Type} {x : M α} {Q : Bool → α → Prop}, Keeps x.run → (∀ v, Q false v) →
      FollowsM OpenStep Q (fun _ _ => True) x false := fun hx hq =>
    FollowsM.still hx (fun _ _ ho => .keep ho) hq fun _ => trivial
  unfold openWith
  refine FollowsM.bind (hstill (uses_io (uses_op rfl)) fun _ => ?_)
  refine FollowsM.bind (hstill quiet_loadManifest.keeps fun manifest => ?_)
  refine FollowsM.bind (hstill (quiet_openRuns ..).keeps fun runs => ?_)
  refine FollowsM.bind (hstill (uses_io (uses_op rfl)) fun found => ?_)
  refine FollowsM.bind (hstill (quiet_reclaim ..).keeps fun nextSeq => ?_)
  have hrest : FollowsM OpenStep (fun s _ => s = false) (fun _ _ => True) (do
      let memtable ← openLog features
      perform (.startEngine config features memtable runs features.durability nextSeq)
      orDrop do
        flush config features
        io "spawn compaction thread" (perform .spawn) : M Unit) false := by
    refine FollowsM.bind (hstill (keeps_openLog features) fun memtable => ?_)
    refine FollowsM.perform fun _ => ⟨false, .keep rfl, ?_⟩
    refine Prog.Follows.bind (Prog.Follows.mono (hstill (Q := fun s _ => s = false)
      (uses_bind (keeps_flush config features) fun _ => uses_io (uses_op rfl)) fun _ => rfl) ?_)
    intro s r hr
    cases r with
    | ok v => exact hr
    | error err => exact follows_perform fun _ => ⟨true, .drop, trivial⟩
  dsimp only
  split_ifs
  · trivial
  · exact hrest

theorem follows_open_call (config₀ : LsmConfig) (features₀ : Features) :
    ((Call.openWith config features).program config₀ features₀).Follows OpenStep
      (fun s reply => reply.isOk = true → s = false) false := by
  refine Prog.Follows.bind (Prog.Follows.mono (follows_openWith config features) ?_)
  intro s r hr
  cases r with
  | ok v => exact fun _ => hr
  | error err => exact fun hok => by simp [Reply.isOk] at hok

theorem Env.Good.no_trouble (hg : e.Good d) (hio : e.ioFaults = false) : ¬ e.Trouble := by
  rintro (hf | hno)
  · rw [hio] at hf
    simp at hf
  · exact hno d hg

theorem Answered.unit_ok {seen : Sight} {call : Call} {reply : Reply} (h : Answered e seen call reply)
    (hno : ¬ e.Trouble) (hcall : call.reads = false) (hc : call ≠ .compact) : reply = .unit (.ok ()) := by
  rcases reply with (_ | ⟨⟨⟩⟩) | r | r
  · cases call with
    | compact => exact absurd rfl hc
    | get key => simp [Call.reads] at hcall
    | scan range => simp [Call.reads] at hcall
    | _ => exact absurd h hno
  · rfl
  · cases call with
    | get key => simp [Call.reads] at hcall
    | _ => exact absurd h id
  · cases call with
    | scan range => simp [Call.reads] at hcall
    | _ => exact absurd h id

/-- Every call succeeds when nothing fails and everything written can be read. -/
theorem Answered.ok {seen : Sight} {call : Call} {reply : Reply} (h : Answered e seen call reply) (hno : ¬ e.Trouble)
    (hread : e.Readable) : reply.isOk = true := by
  rcases reply with (_ | _) | (_ | _) | (_ | _)
  · cases call with
    | compact => exact absurd h (not_or.mpr ⟨hno, not_not.mpr hread⟩)
    | get key => exact absurd h id
    | scan range => exact absurd h id
    | _ => exact absurd h hno
  · rfl
  · cases call with
    | get key => exact absurd hread h
    | _ => exact absurd h id
  · rfl
  · cases call with
    | scan range => exact absurd hread h
    | _ => exact absurd h id
  · rfl

/-- An open made when nothing is running returns; it fails only if something does, and otherwise leaves the
reference store as it is. -/
theorem Reach.open_returns (h : Reach e c) (hg : e.Good d) (hlive : c.world.live = false)
    (hidle : c.world.active = []) (hf : features.durability = d) (ht : t ≠ compactorTid) :
    Returns e t (.openWith config features) c.world fun reply w => (e.ioFaults = false → reply = .unit (.ok ())) ∧
      (reply.isOk = true →
        ∃ c', Reach e c' ∧ c'.world = w ∧ w.ready = true ∧ w.active = [] ∧ w.spec.cur = c.world.spec.cur) := by
  have hcan : canStart c.world t (.openWith config features) = true := by simp [canStart, hlive, hidle, ht]
  have hallow : e.allowsCall c.world (.openWith config features) := by
    refine ⟨by simp [Call.ops], by simp [Call.ops], by simp [hidle], ?_⟩
    intro config' features' heq d' hd'
    have hd : d = d' := Option.some.inj (hg.durability.symm.trans hd')
    rw [← (Call.openWith.inj heq).2, hf, hd]
  refine h.returns (J := fun prog w => ∃ s, prog.Follows OpenStep (fun s reply => reply.isOk = true → s = false) s ∧
    (s = false → w.spec.cur = c.world.spec.cur)) hidle hcan ht hallow ⟨false, follows_open_call _ _, fun _ => rfl⟩ ?_ ?_
  · rintro o k ch r w w' _ _ hx ⟨s, hfol, hcur⟩
    obtain ⟨s', hnext, hrest⟩ := hfol r
    refine ⟨s', hrest, fun hs => ?_⟩
    cases hnext with
    | keep hk => rw [exec_cur hk hx, hcur hs]
    | drop => simp at hs
  · rintro c' hr' hidle' reply w' hth hw' ⟨s, hend, hcur⟩
    refine ⟨fun hio => (hr'.seen hth).unit_ok (hg.no_trouble hio) rfl (by simp), fun hok => ?_⟩
    refine ⟨c', hr', rfl, ?_, hidle', ?_⟩
    · rw [hw']
      exact hok
    · rw [hw']
      exact hcur (hend hok)

/-- A world no engine runs in, which the next session starts from. -/
structure Left (e : Env) (w : World) : Prop where
  reach : ∃ c, Reach e c ∧ c.world = w
  live : w.live = false
  idle : w.active = []

theorem Reach.crashed (h : Reach e c) (damage : List (ℕ × Option Bytes)) : Left e (LsmDb.crashed c.world damage) :=
  ⟨⟨_, h.step (l := .crash damage) trivial rfl, rfl⟩, rfl, rfl⟩

theorem Reach.closed (h : Reach e c) (hready : c.world.ready = true) (hidle : c.world.active = []) :
    Left e c.world.dropEngine :=
  ⟨⟨⟨c.world.dropEngine, c.threads⟩, h.step (l := .close) trivial (by simp only [LsmDb.step, hready, hidle, and_self,
    if_true]), rfl⟩, rfl, hidle⟩

theorem Reach.cur_dropEngine (h : Reach e c) (hg : e.Good d) :
    c.world.dropEngine.spec.cur = c.world.spec.durable d := by
  obtain ⟨A, hs⟩ := h.sound
  exact hs.inv.durable_eq hg

/-- An open succeeds, if nothing fails, and reads find what was left. -/
theorem Left.recovers (h : Left e w) (hg : e.Good d) (hsmall : e.small = true) (hread : e.Readable)
    (hf : features.durability = d) (ht : t ≠ compactorTid) :
    Returns e t (.openWith config features) w fun reply w' => (e.ioFaults = false → reply = .unit (.ok ())) ∧
      (reply.isOk = true → ∀ call : Call, call.reads = true →
        Returns e t call w' fun reply _ => Read w.spec.cur call reply) := by
  obtain ⟨⟨c, hr, rfl⟩, hlive, hidle⟩ := h
  refine (hr.open_returns hg hlive hidle hf ht).mono ?_
  rintro reply w' ⟨hok, hopen⟩
  refine ⟨hok, fun hisOk call hcall => ?_⟩
  obtain ⟨c', hr', rfl, hready, hidle', hsame⟩ := hopen hisOk
  rw [← hsame]
  exact hr'.read_returns hg hsmall hread hidle' hready ht (Call.reads_cases hcall)

/-- After a crash, wherever it fell, an open succeeds and reads find what was durable. -/
theorem Reach.recovers (h : Reach e c) (hg : e.Good d) (hio : e.ioFaults = false) (hsmall : e.small = true)
    (hread : e.Readable) (hf : features.durability = d) (ht : t ≠ compactorTid) (damage : List (ℕ × Option Bytes)) :
    Returns e t (.openWith config features) (LsmDb.crashed c.world damage) fun reply w => reply = .unit (.ok ()) ∧
      ∀ call : Call, call.reads = true →
        Returns e t call w fun reply _ => Read (c.world.spec.durable d) call reply := by
  refine ((h.crashed damage).recovers hg hsmall hread hf ht).mono ?_
  rintro reply w ⟨hok, hreads⟩
  obtain rfl := hok hio
  have hcur : (LsmDb.crashed c.world damage).spec.cur = c.world.spec.durable d := h.cur_dropEngine hg
  rw [hcur] at hreads
  exact ⟨rfl, hreads rfl⟩

/-- Without the log: a crash at any point, in any session, loses what came after the last flush whose manifest was
renamed into place, and nothing else. -/
theorem recovery_of_flushed (laws : BloomLaws) (h : Reach (Env.calm false) c) (damage : List (ℕ × Option Bytes))
    (ht : t ≠ compactorTid) (hf : features.durability = false) :
    Returns (Env.calm false) t (.openWith config features) (crashed c.world damage) fun reply w =>
      reply = .unit (.ok ()) ∧ ∀ call : Call, call.reads = true →
        Returns (Env.calm false) t call w fun reply _ => Read c.world.spec.flushed call reply :=
  h.recovers (Env.good_calm laws false) rfl rfl (Env.readable_calm laws false) hf ht damage

omit [Deps] in
/-- A write is flushed and overwritten, and the machine goes down. -/
theorem recovery_of_flushed_one : letI := Deps.concrete
    ∃ c, Reach (Env.calm false) c ∧ c.world.spec.flushed [1] = some [7] ∧ c.world.spec.cur [1] = some [8] ∧
      Returns (Env.calm false) 1 (.openWith LsmConfig.default ⟨false, true⟩) (crashed c.world [(0, none)]) fun reply w =>
        reply = .unit (.ok ()) ∧ ∀ call : Call, call.reads = true →
          Returns (Env.calm false) 1 call w fun reply _ => Read c.world.spec.flushed call reply := by
  let _ := Deps.concrete
  have hplay : (Env.calm false).leads [.alone 1 allOk (.openWith LsmConfig.default ⟨false, true⟩),
      .alone 1 allOk (.put [1] [7]), .alone 1 allOk .flush, .alone 1 allOk (.put [1] [8])]
      (fun c => c.world.spec.flushed [1] = some [7] ∧ c.world.spec.cur [1] = some [8]) = true := by
    decide +kernel
  obtain ⟨c, hreach, hc⟩ := Env.reach_leads hplay
  obtain ⟨hflushed, hcur⟩ := of_decide_eq_true hc
  exact ⟨c, hreach, hflushed, hcur, recovery_of_flushed concrete_laws hreach [(0, none)] (by decide) rfl⟩

/-! ## One call at a time -/

/-- At most one client runs, the compactor only compacts, and only the running client's writes are unsure. -/
structure Turns (c : Config) : Prop where
  active : ∀ t call prog, c.threads t = .running call prog → t ∈ c.world.active
  compactor : ∀ call prog, c.threads compactorTid = .running call prog → call = .compact
  single : ∀ t t' call call' prog prog', c.threads t = .running call prog → c.threads t' = .running call' prog' →
    t ≠ compactorTid → t' ≠ compactorTid → t = t'
  unsure : c.world.spec.unsure = [] ∨
    ∃ t call prog, c.threads t = .running call prog ∧ c.world.spec.unsure = call.ops

theorem exec_unsure {o : Act} {ch : Choice} {r : Res o} (h : exec t o ch w = some (r, w')) :
    w'.spec.unsure = w.spec.unsure ∨ w'.spec.unsure = [] := by
  cases o with
  | dropEngine =>
    obtain ⟨_, rfl⟩ := Prod.mk.inj (Option.some.inj h)
    exact Or.inr rfl
  | _ => exact Or.inl (exec_differ h .unsure (by simp [Act.touches]))

theorem canStart_cases {call : Call} (h : canStart w t call = true) :
    t ∉ w.active ∧ (t = compactorTid ↔ call = .compact) := by
  cases call with
  | openWith config features =>
    simp only [canStart, Bool.and_eq_true, Bool.not_eq_true', List.isEmpty_iff, bne_iff_ne, ne_eq] at h
    exact ⟨by simp [h.1.2], by simp [h.2]⟩
  | compact =>
    simp only [canStart, Bool.and_eq_true, Bool.not_eq_true', beq_iff_eq] at h
    exact ⟨by simpa using h.2, by simp [h.1.2]⟩
  | get _ | scan _ | flush | put _ _ | delete _ | write _ =>
    simp only [canStart, Bool.and_eq_true, Bool.not_eq_true', bne_iff_ne, ne_eq] at h
    exact ⟨by simpa using h.2, by simp [h.1.2]⟩

omit [Deps] in
theorem running_update [Deps] {threads : Tid → Thread} {t t' : Tid} {th : Thread} {call : Call} {prog : P Reply}
    (h : Function.update threads t th t' = .running call prog) :
    (t' = t ∧ th = .running call prog) ∨ (t' ≠ t ∧ threads t' = .running call prog) := by
  by_cases ht : t' = t
  · subst ht
    rw [Function.update_self] at h
    exact Or.inl ⟨rfl, h⟩
  · rw [Function.update_of_ne ht] at h
    exact Or.inr ⟨ht, h⟩

theorem Turns.start {call : Call} (h : Turns c) (hseq : e.sequential = true) (ha : e.allows c (.start t call))
    (hs : step c (.start t call) = some c') : Turns c' := by
  simp only [step] at hs
  split_ifs at hs with hcan
  obtain rfl := Option.some.inj hs
  obtain ⟨hfree, hcomp⟩ := canStart_cases hcan
  have hactive : (started c.world t call).active = t :: c.world.active := by cases call <;> rfl
  have hunsure : (started c.world t call).spec.unsure = call.ops ++ c.world.spec.unsure := by cases call <;> rfl
  have halone : t ≠ compactorTid → ∀ t' call' prog', c.threads t' = .running call' prog' → t' = compactorTid :=
    fun hne t' call' prog' hth => (ha hne).2.2.1 hseq t' (h.active t' call' prog' hth)
  refine ⟨fun t' call' prog' hth => ?_, fun call' prog' hth => ?_, ?_, ?_⟩
  · rw [hactive]
    rcases running_update hth with ⟨rfl, _⟩ | ⟨_, hth⟩
    · simp
    · exact List.mem_cons_of_mem _ (h.active t' call' prog' hth)
  · rcases running_update hth with ⟨ht, heq⟩ | ⟨_, hth⟩
    · rw [← (Thread.running.inj heq).1]
      exact hcomp.mp ht.symm
    · exact h.compactor call' prog' hth
  · intro t₁ t₂ call₁ call₂ prog₁ prog₂ h₁ h₂ hn₁ hn₂
    rcases running_update h₁ with ⟨rfl, _⟩ | ⟨_, hold₁⟩
    · rcases running_update h₂ with ⟨rfl, _⟩ | ⟨_, hold₂⟩
      · rfl
      · exact absurd (halone hn₁ t₂ _ _ hold₂) hn₂
    · rcases running_update h₂ with ⟨rfl, _⟩ | ⟨_, hold₂⟩
      · exact absurd (halone hn₂ t₁ _ _ hold₁) hn₁
      · exact h.single t₁ t₂ _ _ _ _ hold₁ hold₂ hn₁ hn₂
  · rw [hunsure]
    by_cases hc : t = compactorTid
    · -- a compaction writes nothing, and the client that runs goes on
      rw [hcomp.mp hc, show Call.compact.ops = [] from rfl, List.nil_append]
      rcases h.unsure with hnil | ⟨t', call', prog', hth, hops⟩
      · exact Or.inl hnil
      · have hne : t' ≠ t := fun heq => hfree (by rw [← heq]; exact h.active t' call' prog' hth)
        exact Or.inr ⟨t', call', prog', (Function.update_of_ne hne ..).trans hth, hops⟩
    · -- no client is running, so nothing was unsure
      have hnil : c.world.spec.unsure = [] := by
        rcases h.unsure with hnil | ⟨t', call', prog', hth, hops⟩
        · exact hnil
        · have ht' := halone hc t' call' prog' hth
          subst ht'
          rw [hops, h.compactor call' prog' hth]
          rfl
      exact Or.inr ⟨t, call, _, Function.update_self .., by rw [hnil, List.append_nil]⟩

theorem Turns.act {ch : Choice} (h : Turns c) (hs : step c (.act t ch) = some c') : Turns c' := by
  simp only [step] at hs
  split at hs
  · rename_i call o k hth
    split at hs
    · rename_i r w' hx
      obtain rfl := Option.some.inj hs
      -- every thread that runs has been running the same call
      have hback : ∀ t' call' prog', Function.update c.threads t (.running call (k r)) t' = .running call' prog' →
          ∃ prog'', c.threads t' = .running call' prog'' := by
        intro t' call' prog' h'
        rcases running_update h' with ⟨rfl, heq⟩ | ⟨_, h'⟩
        · rw [← (Thread.running.inj heq).1]
          exact ⟨_, hth⟩
        · exact ⟨_, h'⟩
      refine ⟨fun t' call' prog' h' => ?_, fun call' prog' h' => ?_, ?_, ?_⟩
      · obtain ⟨_, h'⟩ := hback _ _ _ h'
        rw [exec_active hx]
        exact h.active t' call' _ h'
      · obtain ⟨_, h'⟩ := hback _ _ _ h'
        exact h.compactor call' _ h'
      · intro t₁ t₂ call₁ call₂ prog₁ prog₂ h₁ h₂ hn₁ hn₂
        obtain ⟨_, h₁⟩ := hback _ _ _ h₁
        obtain ⟨_, h₂⟩ := hback _ _ _ h₂
        exact h.single t₁ t₂ _ _ _ _ h₁ h₂ hn₁ hn₂
      · rcases exec_unsure hx with hsame | hnil
        · show w'.spec.unsure = [] ∨ _
          rw [hsame]
          rcases h.unsure with hnil | ⟨t', call', prog', h', hops⟩
          · exact Or.inl hnil
          · refine Or.inr ?_
            by_cases ht : t' = t
            · subst ht
              rw [(Thread.running.inj (h'.symm.trans hth)).1] at hops
              exact ⟨t', call, _, Function.update_self .., hops⟩
            · exact ⟨t', call', prog', (Function.update_of_ne ht ..).trans h', hops⟩
        · exact Or.inl hnil
    · simp at hs
  · simp at hs

/-- A call that returns is sure of its writes, or had none. -/
theorem ended_unsure {call : Call} {reply : Reply} (hok : reply.isOk = true ∨ call.ops = []) :
    (ended w t call reply).spec.unsure = w.spec.unsure.filter fun x => x.1 ∉ call.ops.map Prod.fst := by
  have hnil : call.ops = [] → w.spec.unsure.filter (fun x => x.1 ∉ call.ops.map Prod.fst) = w.spec.unsure := by
    intro hops
    simp [hops]
  unfold ended
  split
  · exact (hnil rfl).symm
  · split_ifs with hr
    · rfl
    · exact (hnil (hok.resolve_left hr)).symm

theorem Turns.finish (h : Turns c) (hs : step c (.finish t) = some c')
    (hok : ∀ call reply, c'.threads t = .replied call reply → reply.isOk = true ∨ call.ops = []) : Turns c' := by
  simp only [step] at hs
  split at hs
  · rename_i call reply hth
    obtain rfl := Option.some.inj hs
    have hsure := ended_unsure (w := c.world) (t := t) (hok call reply (Function.update_self ..))
    have hback : ∀ t' call' prog', Function.update c.threads t (.replied call reply) t' = .running call' prog' →
        t' ≠ t ∧ c.threads t' = .running call' prog' := by
      intro t' call' prog' h'
      rcases running_update h' with ⟨_, heq⟩ | hold
      · simp at heq
      · exact hold
    refine ⟨fun t' call' prog' h' => ?_, fun call' prog' h' => ?_, ?_, ?_⟩
    · obtain ⟨hne, h'⟩ := hback _ _ _ h'
      rw [ended_active]
      exact (List.mem_erase_of_ne hne).mpr (h.active t' call' prog' h')
    · exact h.compactor call' prog' (hback _ _ _ h').2
    · intro t₁ t₂ call₁ call₂ prog₁ prog₂ h₁ h₂ hn₁ hn₂
      exact h.single t₁ t₂ _ _ _ _ (hback _ _ _ h₁).2 (hback _ _ _ h₂).2 hn₁ hn₂
    · show (ended c.world t call reply).spec.unsure = [] ∨ _
      rw [hsure]
      rcases h.unsure with hnil | ⟨t', call', prog', h', hops⟩
      · exact Or.inl (by rw [hnil]; rfl)
      · by_cases ht : t' = t
        · -- the writes of the call itself
          subst ht
          rw [hops, (Thread.running.inj (h'.symm.trans hth)).1]
          refine Or.inl (List.filter_eq_nil_iff.mpr fun x hx => ?_)
          simp only [decide_eq_true_eq, not_not]
          exact List.mem_map_of_mem hx
        · by_cases hc : t = compactorTid
          · subst hc
            rw [h.compactor call _ hth]
            refine Or.inr ⟨t', call', prog', (Function.update_of_ne ht ..).trans h', ?_⟩
            rw [← hops]
            simp [Call.ops]
          · by_cases hc' : t' = compactorTid
            · subst hc'
              rw [hops, h.compactor call' prog' h']
              exact Or.inl rfl
            · exact absurd (h.single t' t _ _ _ _ h' hth hc' hc) ht
  · simp at hs

theorem Turns.still (hidle : ∀ t, ∀ call prog, c.threads t ≠ .running call prog) (hnil : c.world.spec.unsure = []) :
    Turns c :=
  ⟨fun t call prog h => absurd h (hidle t call prog), fun call prog h => absurd h (hidle _ call prog),
    fun t _ call _ prog _ h => absurd h (hidle t call prog), Or.inl hnil⟩

theorem Reach.turns (h : Reach e c) (hg : e.Good d) (hseq : e.sequential = true) (hio : e.ioFaults = false) :
    Turns c := by
  induction h with
  | initial => exact Turns.still (by simp [Config.initial]) rfl
  | @step c c' l hr ha hs ih =>
    have hr' := hr.step ha hs
    cases l with
    | start t call => exact ih.start hseq ha hs
    | act t ch => exact ih.act hs
    | finish t =>
      refine ih.finish hs fun call reply hth => ?_
      have hans := hr'.seen hth
      cases hreads : call.reads with
      | true =>
        refine Or.inr ?_
        rcases Call.reads_cases hreads with ⟨key, rfl⟩ | ⟨range, rfl⟩ <;> rfl
      | false =>
        by_cases hc : call = .compact
        · rw [hc]
          exact Or.inr rfl
        · rw [hans.unit_ok (hg.no_trouble hio) hreads hc]
          exact Or.inl rfl
    | crash damage =>
      obtain rfl := Option.some.inj hs
      exact Turns.still (by simp) rfl
    | close =>
      simp only [LsmDb.step] at hs
      split_ifs at hs with hready
      obtain rfl := Option.some.inj hs
      refine Turns.still (fun t call prog hth => ?_) rfl
      have hin := ih.active t call prog hth
      rw [hready.2] at hin
      simp at hin

theorem Reach.told (h : Reach e c) (hg : e.Good d) (hseq : e.sequential = true) :
    ∃ phase, Told e d c.world.spec phase := by
  obtain ⟨A, hs⟩ := h.sound
  obtain ⟨g, hr | hr⟩ := hs.inv
  · exact ⟨_, hr.crew.told d hg hseq⟩
  · exact ⟨_, hr.told d hg hseq⟩

/-- The log stands for what was acknowledged, or for that and the writes that are unsure. -/
theorem Told.logged_cases {s : Spec} {phase : Tid → Phase} (h : Told e true s phase) (hio : e.ioFaults = false) :
    s.logged = s.acked ∨ s.logged = s.acked.apply s.unsure := by
  obtain ⟨hsure, hquiet⟩ := h.sure hio
  by_cases hall : ∀ t, phase t = .quiet
  · refine Or.inl (funext fun k => (h.agree k ?_).2 rfl)
    simp [hquiet hall]
  · obtain ⟨t, ht⟩ := not_forall.mp hall
    have hs := hsure t
    have hh := h.holds t
    generalize phase t = p at hs hh ht
    cases p with
    | quiet => exact absurd rfl ht
    | pending ops prior =>
      obtain rfl : prior = [] := hs
      exact Or.inl (funext fun k => (hh.2 k (by simp)).2 rfl)
    | logged ops prior =>
      obtain rfl : prior = [] := hs
      obtain ⟨hun, _, hlog⟩ := hh
      refine Or.inr (funext fun k => ?_)
      rw [hun, List.append_nil]
      exact hlog rfl k (Or.inl (by simp))
    | applied ops prior =>
      obtain rfl : prior = [] := hs
      obtain ⟨hun, hlog⟩ := hh
      refine Or.inr (funext fun k => ?_)
      rw [hun, List.append_nil]
      exact (hlog k (Or.inl (by simp))).2 rfl
    | saved =>
      refine Or.inl (funext fun k => (h.agree k ?_).2 rfl)
      have hun : s.unsure = [] := hs
      simp [hun]

/-- With the log, when client calls do not overlap: a crash at any point loses no acknowledged write, and the call
that had not returned is there as a whole or not at all. -/
theorem recovery_of_acknowledged (laws : BloomLaws) (h : Reach { Env.calm true with sequential := true } c)
    (damage : List (ℕ × Option Bytes)) (ht : t ≠ compactorTid) (hf : features.durability = true) :
    ∃ ref, (ref = c.world.spec.acked ∨
        ∃ t' call prog, c.threads t' = .running call prog ∧ ref = c.world.spec.acked.apply call.ops) ∧
      Returns { Env.calm true with sequential := true } t (.openWith config features) (crashed c.world damage)
        fun reply w => reply = .unit (.ok ()) ∧ ∀ call : Call, call.reads = true →
          Returns { Env.calm true with sequential := true } t call w fun reply _ => Read ref call reply := by
  have hg : Env.Good { Env.calm true with sequential := true } true :=
    ⟨laws, rfl, rfl, rfl, ⟨_, rfl, by decide, fun _ => le_rfl⟩, fun hd => hd⟩
  have hread : Env.Readable { Env.calm true with sequential := true } := ⟨rfl, ⟨_, rfl, le_rfl⟩, true, hg⟩
  refine ⟨c.world.spec.logged, ?_, h.recovers hg rfl rfl hread hf ht damage⟩
  obtain ⟨phase, htold⟩ := h.told hg rfl
  rcases htold.logged_cases rfl with hlog | hlog
  · exact Or.inl hlog
  · rcases (h.turns hg rfl rfl).unsure with hnil | ⟨t', call, prog, hth, hops⟩
    · rw [hnil] at hlog
      exact Or.inl hlog
    · rw [hops] at hlog
      exact Or.inr ⟨t', call, prog, hth, hlog⟩

omit [Deps] in
/-- The machine goes down inside a write that has reached the log. -/
theorem recovery_of_acknowledged_logged : letI := Deps.concrete
    ∃ c, Reach { Env.calm true with sequential := true } c ∧ c.world.spec.acked [1] = some [7] ∧
      c.world.spec.logged [1] = some [8] ∧
      ∃ ref, (ref = c.world.spec.acked ∨
          ∃ t' call prog, c.threads t' = .running call prog ∧ ref = c.world.spec.acked.apply call.ops) ∧
        Returns { Env.calm true with sequential := true } 1 (.openWith LsmConfig.default ⟨true, false⟩)
          (crashed c.world []) fun reply w => reply = .unit (.ok ()) ∧ ∀ call : Call, call.reads = true →
            Returns { Env.calm true with sequential := true } 1 call w fun reply _ => Read ref call reply := by
  let _ := Deps.concrete
  have hplay : Env.leads { Env.calm true with sequential := true } [
      .alone 1 allOk (.openWith LsmConfig.default ⟨true, false⟩), .alone 1 allOk (.put [1] [7]),
      .start 1 (.put [1] [8]), .acts 1 [.ok, .ok, .ok]]
      (fun c => c.world.spec.acked [1] = some [7] ∧ c.world.spec.logged [1] = some [8]) = true := by
    decide +kernel
  obtain ⟨c, hreach, hc⟩ := Env.reach_leads hplay
  obtain ⟨hacked, hlogged⟩ := of_decide_eq_true hc
  exact ⟨c, hreach, hacked, hlogged, recovery_of_acknowledged concrete_laws hreach [] (by decide) rfl⟩

end Crashes
end LsmDb
