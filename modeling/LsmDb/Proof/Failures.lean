import LsmDb.Proof.Crashes

/-! Calls that fail. A failed write took effect as a whole or not at all, and loses nothing else, as long as the
failure did not hit a flush between the moment it takes the memtable and the moment it installs the new run. -/
namespace LsmDb
open Lib
set_option autoImplicit false

section Failures
variable [Deps] {e : Env} {t : Tid} {c c' : Config} {w w' : World} {d : Bool} {config : LsmConfig} {features : Features}

/-! ## One write, once -/

/-- Whether a call has applied its writes. -/
inductive WriteStep (ops : List Entry) : Bool → (o : Act) → Res o → Bool → Prop
  | keep {s : Bool} {o : Act} {r : Res o} (h : o.keeps = true) : WriteStep ops s o r s
  | apply {r : Unit} : WriteStep ops false (.apply ops) r true

theorem unlogged_maybeFlush (config : LsmConfig) (features : Features) : Unlogged (maybeFlush config features).run := by
  refine uses_perform rfl fun inner => ?_
  split_ifs
  · exact unlogged_flushLocked config features
  · trivial

theorem follows_writeOps (config : LsmConfig) (features : Features) (ops : List Entry) :
    FollowsM (WriteStep ops) (fun _ _ => True) (fun _ _ => True) (writeOps config features ops) false := by
  have hkeep : ∀ {x : M Unit} {s : Bool} {Q : Bool → Unit → Prop} {E : Bool → Error → Prop}, Keeps x.run →
      (∀ v, Q s v) → (∀ err, E s err) → FollowsM (WriteStep ops) Q E x s := fun hx hq he =>
    FollowsM.still hx (fun _ _ ho => .keep ho) hq he
  refine FollowsM.withGuard (.keep rfl) ?_
  refine FollowsM.bind (hkeep (aside_logOps features ops).keeps (fun _ => ?_) fun _ => ⟨_, .keep rfl, trivial⟩)
  refine FollowsM.perform fun _ => ⟨true, .apply, ?_⟩
  exact hkeep (unlogged_maybeFlush config features).keeps (fun _ => ⟨_, .keep rfl, trivial⟩) fun _ => ⟨_, .keep rfl, trivial⟩

def Call.writes : Call → Bool
  | .put _ _ | .delete _ | .write _ | .flush => true
  | _ => false

theorem follows_write_call {call : Call} (h : call.writes = true) :
    (call.program config features).Follows (WriteStep call.ops) (fun _ _ => True) false := by
  have hmap : ∀ {ops : List Entry} {x : P (Except Error Unit)},
      x.Follows (WriteStep ops) (fun _ _ => True) false →
      (Reply.unit <$> x : P Reply).Follows (WriteStep ops) (fun _ _ => True) false := fun hx =>
    Prog.Follows.bind (hx.mono fun _ _ _ => trivial)
  have hops : ∀ ops : List Entry, (writeOps config features ops).run.Follows (WriteStep ops) (fun _ _ => True) false :=
    fun ops => Prog.Follows.mono (follows_writeOps config features ops) fun _ _ _ => trivial
  cases call with
  | put key value => exact hmap (hops _)
  | delete key => exact hmap (hops _)
  | write batch => exact hmap (hops _)
  | flush => exact hmap ((keeps_flush config features).follows (fun _ _ ho => .keep ho) fun _ => trivial)
  | _ => simp [Call.writes] at h

/-- The operations of a call change the reference store once, by all the writes of the call, or not at all. -/
def AllOrNothing (log : List Event) (ops : List Entry) : Prop :=
  (∀ ev ∈ log, ev.after.spec.cur = ev.before.spec.cur) ∨
    ∃ before ev after, log = before ++ ev :: after ∧ ev.after.spec.cur = ev.before.spec.cur.apply ops ∧
      ∀ x ∈ before ++ after, x.after.spec.cur = x.before.spec.cur

theorem AllOrNothing.keep {log : List Event} {ops : List Entry} {ev : Event} (h : AllOrNothing log ops)
    (hev : ev.after.spec.cur = ev.before.spec.cur) : AllOrNothing (log ++ [ev]) ops := by
  rcases h with hall | ⟨before, x, after, rfl, hx, hall⟩
  · refine Or.inl fun y hy => ?_
    rcases List.mem_append.mp hy with hy | hy
    · exact hall y hy
    · rw [List.mem_singleton.mp hy]
      exact hev
  · refine Or.inr ⟨before, x, after ++ [ev], by simp, hx, fun y hy => ?_⟩
    rw [← List.append_assoc] at hy
    rcases List.mem_append.mp hy with hy | hy
    · exact hall y hy
    · rw [List.mem_singleton.mp hy]
      exact hev

/-- Whatever fails, and whatever other threads do meanwhile. -/
theorem Reach.all_or_nothing {call : Call} {log : List Event} (hr : Reach e c)
    (hcall : call.writes = true) (hth : c.threads t = .running call (call.program config features))
    (hd : During e t c log c') : AllOrNothing log call.ops := by
  have hstep : ∀ log s s' o ch (r : Res o) (w w' : World), guardAct e t o w → exec t o ch w = some (r, w') →
      WriteStep call.ops s o r s' →
      AllOrNothing log call.ops ∧ (s = false → ∀ ev ∈ log, ev.after.spec.cur = ev.before.spec.cur) →
      AllOrNothing (log ++ [⟨o, r, w, w'⟩]) call.ops ∧
        (s' = false → ∀ ev ∈ log ++ [⟨o, r, w, w'⟩], ev.after.spec.cur = ev.before.spec.cur) := by
    rintro log s s' o ch r w w' _ hx hn ⟨hlog, hnone⟩
    cases hn with
    | keep hk =>
      refine ⟨hlog.keep (exec_cur hk hx), fun hs ev hev => ?_⟩
      rcases List.mem_append.mp hev with hev | hev
      · exact hnone hs ev hev
      · rw [List.mem_singleton.mp hev]
        exact exec_cur hk hx
    | apply =>
      obtain ⟨_, rfl⟩ := Prod.mk.inj (Option.some.inj hx)
      refine ⟨Or.inr ⟨log, _, [], rfl, rfl, ?_⟩, by simp⟩
      rw [List.append_nil]
      exact hnone rfl
  obtain ⟨_, s, _, _, hlog⟩ := hd.track hr hth (follows_write_call hcall) ⟨Or.inl (by simp), by simp⟩ hstep
  exact hlog.1

/-! ## Failures outside a flush -/

/-- Opening, compaction and the log may fail; a client's flush does not fail before it installs its run. -/
def Env.shaky (d seq : Bool) : Env := { Env.calm d with ioFaults := true, sequential := seq }

theorem Env.good_shaky (laws : BloomLaws) (d seq : Bool) : (Env.shaky d seq).Good d :=
  ⟨laws, rfl, rfl, rfl, ⟨_, rfl, by decide, fun _ => le_rfl⟩, fun hd => hd⟩

theorem Env.readable_shaky (laws : BloomLaws) (d seq : Bool) : (Env.shaky d seq).Readable :=
  ⟨rfl, ⟨_, rfl, le_rfl⟩, d, Env.good_shaky laws d seq⟩

/-- When a flush returns, what the next session starts from holds every acknowledged write. -/
theorem Reach.flush_durable (h : Reach e c) (hg : e.Good d) (hseq : e.sequential = true)
    (hth : c.threads t = .running .flush (.done (.unit (.ok ())))) {k : Bytes}
    (hk : k ∉ c.world.spec.unsure.map Prod.fst) : c.world.spec.durable d k = c.world.spec.acked k := by
  obtain ⟨A, hs⟩ := h.sound
  have hrun := hs.threads t
  rw [hth] at hrun
  have hsaved : (A t).phase = .saved := (show Post e .flush (A t) _ from hrun.2).2.2 rfl
  have htold : Told e d c.world.spec fun t => (A t).phase := by
    obtain ⟨g, hr | hr⟩ := hs.inv
    · exact hr.crew.told d hg hseq
    · exact hr.told d hg hseq
  have hagree := htold.agree k hk
  have hholds := htold.holds t
  rw [hsaved] at hholds
  cases d with
  | true => exact hagree.2 rfl
  | false =>
    have hflushed : c.world.spec.flushed = c.world.spec.cur := hholds rfl
    show c.world.spec.flushed k = _
    rw [hflushed]
    exact hagree.1

/-- A write or a flush that fails leaves the store as it was or as it would have been; reads go on to tell the
store; and a flush that succeeds makes durable what was acknowledged. -/
theorem failed_calls_lose_nothing (laws : BloomLaws) {seq : Bool} (h : Reach (Env.shaky d seq) c) :
    (∀ t call config features log c', call.writes = true → c.threads t = .running call (call.program config features) →
      During (Env.shaky d seq) t c log c' → AllOrNothing log call.ops) ∧
      (∀ t call reply, c.threads t = .replied call reply → Read (c.world.spec.seen t).cur call reply) ∧
      (c.world.ready = true → c.world.active = [] → ∀ t ≠ compactorTid, ∀ call : Call, call.reads = true →
        Returns (Env.shaky d seq) t call c.world fun reply _ => Read c.world.spec.cur call reply) ∧
      ∀ t, seq = true → c.threads t = .running .flush (.done (.unit (.ok ()))) →
        ∀ k, k ∉ c.world.spec.unsure.map Prod.fst → c.world.spec.durable d k = c.world.spec.acked k := by
  have hgood := Env.good_shaky laws d seq
  have hread := Env.readable_shaky laws d seq
  refine ⟨fun t call config features log c' hcall hth hd => h.all_or_nothing hcall hth hd,
    fun t call reply hth => (h.seen hth).read hgood rfl hread, fun hready hidle t ht call hcall => ?_,
    fun t hseq hth k hk => h.flush_durable hgood hseq hth hk⟩
  exact h.read_returns hgood rfl hread hidle hready ht (Call.reads_cases hcall)

/-- Appending to the log fails. -/
def appendFails : Act → World → Choice
  | .walAppend _, _ => .fail 0
  | _, _ => .ok

omit [Deps] in
/-- A write the log does not take, and a read of an earlier one. -/
theorem failed_calls_lose_nothing_append : letI := Deps.concrete
    ∃ c, Reach (Env.shaky true true) c ∧ c.threads 2 = .replied (.put [1] [8])
        (.unit (.error (.io "append to write-ahead log" .other))) ∧
      c.threads 3 = .replied (.get [1]) (.value (.ok (some [7]))) ∧ (c.world.spec.seen 3).cur [1] = some [7] := by
  let _ := Deps.concrete
  have hplay : (Env.shaky true true).leads [.alone 4 allOk (.openWith LsmConfig.default ⟨true, false⟩),
      .alone 1 allOk (.put [1] [7]), .alone 2 appendFails (.put [1] [8]), .alone 3 allOk (.get [1])]
      (fun c => c.reply 2 = some (.put [1] [8], .unit (.error (.io "append to write-ahead log" .other))) ∧
        c.reply 3 = some (.get [1], .value (.ok (some [7])))) = true := by decide +kernel
  obtain ⟨c, hreach, hc⟩ := Env.reach_leads hplay
  obtain ⟨h2, h3⟩ := of_decide_eq_true hc
  have hget := (failed_calls_lose_nothing concrete_laws hreach).2.1 3 _ _ (Config.reply_eq h3)
  refine ⟨c, hreach, Config.reply_eq h2, Config.reply_eq h3, ?_⟩
  exact (Except.ok.inj (Reply.value.inj hget)).symm

/-- Creating files fails. -/
def createFails : Act → World → Choice
  | .create _ _, _ => .fail 0
  | _, _ => .ok

omit [Deps] in
/-- A flush that cannot create its run loses the memtable: an acknowledged write is gone. -/
theorem failed_flush_loses : letI := Deps.concrete
    ∃ c err, Reach Env.wild c ∧ c.threads 1 = .replied (.put [1] [7]) (.unit (.ok ())) ∧
      c.threads 2 = .replied .flush (.unit (.error err)) ∧ c.threads 3 = .replied (.get [1]) (.value (.ok none)) ∧
      c.world.spec.acked [1] = some [7] ∧ c.world.spec.unsure = [] := by
  let _ := Deps.concrete
  have hplay : Env.wild.leads [.alone 4 allOk (.openWith LsmConfig.default ⟨false, false⟩),
      .alone 1 allOk (.put [1] [7]), .alone 2 createFails .flush, .alone 3 allOk (.get [1])]
      (fun c => c.reply 1 = some (.put [1] [7], .unit (.ok ())) ∧
        c.reply 2 = some (.flush, .unit (.error (.io "create sorted run" .other))) ∧
        c.reply 3 = some (.get [1], .value (.ok none)) ∧ c.world.spec.acked [1] = some [7] ∧
        c.world.spec.unsure = []) = true := by decide +kernel
  obtain ⟨c, hreach, hc⟩ := Env.reach_leads hplay
  obtain ⟨h1, h2, h3, h4, h5⟩ := of_decide_eq_true hc
  exact ⟨c, _, hreach, Config.reply_eq h1, Config.reply_eq h2, Config.reply_eq h3, h4, h5⟩

/-! ## The log after failures -/

/-- However often opening, compaction and the log have failed: after a crash or a close, a successful open finds
every acknowledged write, unless a call that failed wrote the same key after it. -/
theorem acknowledged_writes_survive (laws : BloomLaws) (h : Reach (Env.shaky true true) c)
    (hw : (∃ damage, w = crashed c.world damage) ∨
      (c.world.ready = true ∧ c.world.active = [] ∧ w = c.world.dropEngine))
    (ht : t ≠ compactorTid) (hf : features.durability = true) :
    Returns (Env.shaky true true) t (.openWith config features) w fun reply w' => reply.isOk = true →
      ∀ key, key ∉ c.world.spec.unsure.map Prod.fst →
        Returns (Env.shaky true true) t (.get key) w' fun reply _ =>
          reply = .value (.ok (c.world.spec.acked key)) := by
  have hgood := Env.good_shaky laws true true
  have hleft : Left (Env.shaky true true) w ∧ w.spec.cur = c.world.spec.logged := by
    rcases hw with ⟨damage, rfl⟩ | ⟨hready, hidle, rfl⟩
    · exact ⟨h.crashed damage, h.cur_dropEngine hgood⟩
    · exact ⟨h.closed hready hidle, h.cur_dropEngine hgood⟩
  obtain ⟨phase, htold⟩ := h.told hgood rfl
  refine (hleft.1.recovers hgood rfl (Env.readable_shaky laws true true) hf ht).mono ?_
  rintro reply w' ⟨_, hreads⟩ hok key hkey
  refine (hreads hok (.get key) rfl).mono fun reply _ hread => ?_
  rw [hleft.2] at hread
  rw [← (htold.agree key hkey).2 rfl]
  exact hread

omit [Deps] in
/-- One write is acknowledged, one fails, and the machine goes down. -/
theorem acknowledged_writes_survive_crash : letI := Deps.concrete
    ∃ c, Reach (Env.shaky true true) c ∧ c.world.spec.acked [1] = some [7] ∧ c.world.spec.unsure = [([2], .value [8])] ∧
      Returns (Env.shaky true true) 1 (.openWith LsmConfig.default ⟨true, false⟩) (crashed c.world []) fun reply w' =>
        reply.isOk = true → ∀ key, key ∉ c.world.spec.unsure.map Prod.fst →
          Returns (Env.shaky true true) 1 (.get key) w' fun reply _ => reply = .value (.ok (c.world.spec.acked key)) := by
  let _ := Deps.concrete
  have hplay : (Env.shaky true true).leads [.alone 4 allOk (.openWith LsmConfig.default ⟨true, false⟩),
      .alone 1 allOk (.put [1] [7]), .alone 2 appendFails (.put [2] [8])]
      (fun c => c.world.spec.acked [1] = some [7] ∧ c.world.spec.unsure = [([2], .value [8])]) = true := by
    decide +kernel
  obtain ⟨c, hreach, hc⟩ := Env.reach_leads hplay
  obtain ⟨hacked, hunsure⟩ := of_decide_eq_true hc
  exact ⟨c, hreach, hacked, hunsure,
    acknowledged_writes_survive concrete_laws hreach (Or.inl ⟨[], rfl⟩) (by decide) rfl⟩

omit [Deps] in
/-- A flush fails, the next one succeeds and empties the log: the writes the first one took are gone. -/
theorem failed_flush_empties_log : letI := Deps.concrete
    ∃ c err, Reach Env.wild c ∧ c.threads 2 = .replied .flush (.unit (.error err)) ∧
      c.threads 3 = .replied .flush (.unit (.ok ())) ∧ c.world.spec.acked [1] = some [7] ∧ c.world.spec.unsure = [] ∧
      c.world.ready = true ∧ c.world.active = [] ∧
      ∃ c', Reach Env.wild c' ∧
        c'.threads 4 = .replied (.openWith LsmConfig.default ⟨true, false⟩) (.unit (.ok ())) ∧
        c'.threads 5 = .replied (.get [1]) (.value (.ok none)) := by
  let _ := Deps.concrete
  have hplay : Env.wild.leads [.alone 4 allOk (.openWith LsmConfig.default ⟨true, false⟩),
      .alone 1 allOk (.put [1] [7]), .alone 2 createFails .flush, .alone 1 allOk (.put [2] [8]),
      .alone 3 allOk .flush]
      (fun c => c.reply 2 = some (.flush, .unit (.error (.io "create sorted run" .other))) ∧
        c.reply 3 = some (.flush, .unit (.ok ())) ∧ c.world.spec.acked [1] = some [7] ∧
        c.world.spec.unsure = [] ∧ c.world.ready = true ∧ c.world.active = [] ∧
        ([.close, .alone 4 allOk (.openWith LsmConfig.default ⟨true, false⟩), .alone 5 allOk (.get [1])].foldlM
          (Move.play Env.wild) c).any (fun c' =>
            c'.reply 4 = some (.openWith LsmConfig.default ⟨true, false⟩, .unit (.ok ())) ∧
            c'.reply 5 = some (.get [1], .value (.ok none))) = true) = true := by decide +kernel
  obtain ⟨c, hreach, hc⟩ := Env.reach_leads hplay
  obtain ⟨h2, h3, hacked, hunsure, hready, hidle, hrest⟩ := of_decide_eq_true hc
  obtain ⟨c', hplay', hc'⟩ := (Option.any_eq_true _ _).mp hrest
  obtain ⟨h4, h5⟩ := of_decide_eq_true hc'
  exact ⟨c, _, hreach, Config.reply_eq h2, Config.reply_eq h3, hacked, hunsure, hready, hidle, c',
    hreach.moves hplay', Config.reply_eq h4, Config.reply_eq h5⟩

end Failures
end LsmDb
