import LsmDb.Proof.Extremes

/-! Whatever is written can be read back: a call that is allowed its sizes succeeds, reads after a flush find what
it wrote, and so does an open after a crash before that flush. -/
namespace LsmDb
open Lib
set_option autoImplicit false

section Accepted
variable [Deps] {e : Env} {t : Tid} {c : Config} {w w' : World} {d : Bool} {config : LsmConfig} {features : Features}
  {call : Call} {ops : List Entry}

/-! ## The log of a write -/

/-- How far a call has come with its writes. -/
inductive Progress where
  | unwritten
  | appended
  | applied

inductive LogStep (d : Bool) (ops : List Entry) : Progress → (o : Act) → Res o → Progress → Prop
  | keep {s : Progress} {o : Act} {r : Res o} (hs : s ≠ .appended) (ho : o.unlogged = true) : LogStep d ops s o r s
  | append {r : Except IoError Unit} (h : r = .ok ()) : LogStep d ops .unwritten (.walAppend ops) r .appended
  | refuse {r : Except IoError Unit} (h : r ≠ .ok ()) : LogStep d ops .unwritten (.walAppend ops) r .unwritten
  | apply {s : Progress} {r : Unit} (h : s = if d then .appended else .unwritten) :
      LogStep d ops s (.apply ops) r .applied

theorem follows_logOps {E : Progress → Error → Prop} {Q : Progress → Unit → Prop} (hf : features.durability = d)
    (hq : Q (if d then .appended else .unwritten) ()) (he : ∀ err, E .unwritten err) :
    FollowsM (LogStep d ops) Q E (logOps features ops) .unwritten := by
  subst hf
  unfold logOps
  split_ifs with hd
  · rw [if_pos hd] at hq
    refine FollowsM.perform fun inner => ⟨_, .keep (by simp) rfl, ?_⟩
    split_ifs
    · exact he _
    · refine FollowsM.io fun r => ?_
      cases r with
      | ok v => exact ⟨_, .append rfl, hq⟩
      | error err => exact ⟨_, .refuse (by simp), he _⟩
  · rw [if_neg hd] at hq
    exact hq

/-- A write that succeeds has applied its records, and appended them first where there is a log. -/
theorem logs_writeOps (hf : features.durability = d) :
    FollowsM (LogStep d ops) (fun s _ => s = .applied) (fun _ _ => True) (writeOps config features ops) .unwritten := by
  refine FollowsM.withGuard (.keep (by simp) rfl) ?_
  refine FollowsM.bind (follows_logOps hf ?_ fun _ => ⟨_, .keep (by simp) rfl, trivial⟩)
  refine FollowsM.perform fun _ => ⟨_, .apply rfl, ?_⟩
  exact FollowsM.still (unlogged_maybeFlush config features) (fun _ _ ho => .keep (by simp) ho)
    (fun _ => ⟨_, .keep (by simp) rfl, rfl⟩) fun _ => ⟨_, .keep (by simp) rfl, trivial⟩

/-- A call that succeeds has applied its writes, or has none. -/
def Progress.Done (ops : List Entry) (s : Progress) (reply : Reply) : Prop :=
  reply.isOk = true → s = .applied ∨ s = .unwritten ∧ ops = []

theorem logs_call (hcall : call.writes = true) (hf : features.durability = d) :
    (call.program config features).Follows (LogStep d call.ops) (Progress.Done call.ops) .unwritten := by
  have hwrite : ∀ ops : List Entry, (Reply.unit <$> (writeOps config features ops).run : P Reply).Follows (LogStep d ops)
      (Progress.Done ops) .unwritten := by
    intro ops
    refine Prog.Follows.bind (Prog.Follows.mono (logs_writeOps hf) ?_)
    intro s r hr
    cases r with
    | ok v => exact fun _ => Or.inl hr
    | error err => exact fun hok => by simp [Reply.isOk] at hok
  cases call with
  | put key value => exact hwrite _
  | delete key => exact hwrite _
  | write batch => exact hwrite _
  | flush =>
    refine Prog.Follows.bind ?_
    exact (unlogged_flush config features).follows (fun _ _ ho => .keep (by simp) ho) fun r => fun _ => Or.inr ⟨rfl, rfl⟩
  | _ => simp [Call.writes] at hcall

/-- What is left of the writes so far, in the reference store and in the log. -/
def Progress.Left (d : Bool) (ops : List Entry) (cur : Store) (s : Spec) : Progress → Prop
  | .unwritten => s.cur = cur
  | .appended => s.cur = cur ∧ ∀ k ∈ ops.map Prod.fst, s.logged k = cur.apply ops k
  | .applied => s.cur = cur.apply ops ∧ (d = true → ∀ k ∈ ops.map Prod.fst, s.logged k = cur.apply ops k)

/-- The log is kept, or emptied into the runs. -/
theorem exec_unlogged {o : Act} {ch : Choice} {r : Res o} (ho : o.unlogged = true) (h : exec t o ch w = some (r, w')) :
    w'.ready = w.ready ∧ (w'.spec.logged = w.spec.logged ∨ w'.spec.logged = w.spec.cur) := by
  have hd := exec_differ h
  refine ⟨hd .ready (by cases o <;> simp [Act.unlogged, Act.touches] at ho ⊢), ?_⟩
  cases o with
  | walRemove =>
    simp only [exec] at h
    split at h
    · exact Or.inl (by rw [← (Prod.mk.inj (Option.some.inj h)).2])
    · split at h
      · exact Or.inl (by rw [← (Prod.mk.inj (Option.some.inj h)).2])
      · obtain ⟨_, rfl⟩ := Prod.mk.inj (Option.some.inj h)
        exact Or.inr rfl
  | _ => exact Or.inl (hd .logged (by simp [Act.unlogged, Act.touches] at ho ⊢))

theorem LogStep.left {s s' : Progress} {cur : Store} {o : Act} {ch : Choice} {r : Res o} (hn : LogStep d ops s o r s')
    (hx : exec t o ch w = some (r, w')) (h : s.Left d ops cur w.spec) :
    s'.Left d ops cur w'.spec ∧ w'.ready = w.ready := by
  cases hn with
  | keep hs ho =>
    obtain ⟨hready, hlog⟩ := exec_unlogged ho hx
    have hcur := exec_cur (Act.keeps_of_unlogged ho) hx
    refine ⟨?_, hready⟩
    cases s with
    | unwritten => exact hcur.trans h
    | appended => exact absurd rfl hs
    | applied =>
      obtain ⟨hc, hl⟩ := h
      refine ⟨hcur.trans hc, fun hd k hk => ?_⟩
      rcases hlog with hsame | hempty
      · rw [hsame]
        exact hl hd k hk
      · rw [hempty, hc]
  | append hok =>
    subst hok
    obtain ⟨hbad, _⟩ | ⟨log, _, rfl, _⟩ := exec_walAppend hx
    · cases hbad
    · exact ⟨⟨h, fun k hk => apply_of_mem hk _ _⟩, rfl⟩
  | refuse hne =>
    obtain ⟨_, rfl, _⟩ | ⟨log, _, rfl, _⟩ := exec_walAppend hx
    · exact ⟨h, rfl⟩
    · exact ⟨h, rfl⟩
  | apply hs =>
    obtain ⟨_, rfl⟩ := Prod.mk.inj (Option.some.inj hx)
    refine ⟨?_, rfl⟩
    cases d with
    | true =>
      subst hs
      exact ⟨congrArg (Store.apply · ops) h.1, fun _ => h.2⟩
    | false =>
      subst hs
      exact ⟨congrArg (Store.apply · ops) h, by simp⟩

/-! ## A write, a flush and a crash -/

theorem Reach.built (h : Reach e c) (hg : e.Good d) (hready : c.world.ready = true) :
    c.world.features.durability = d := by
  obtain ⟨A, hs⟩ := h.sound
  obtain ⟨g, hr | hr⟩ := hs.inv
  · exact (hr.session.view d hg).durability
  · have hlive := (hr.shared.ready hready).1
    rw [hr.live] at hlive
    cases hlive

/-- A write or a flush made when nobody else is around succeeds, and its writes are in the store and, where there is
a log, in the log. -/
theorem Reach.write_returns (h : Reach e c) (hg : e.Good d) (hio : e.ioFaults = false) (hready : c.world.ready = true)
    (hidle : c.world.active = []) (ht : t ≠ compactorTid) (hcall : call.writes = true)
    (ha : e.allowsCall c.world call) :
    Returns e t call c.world fun reply w => reply = .unit (.ok ()) ∧ ∃ c', Reach e c' ∧ c'.world = w ∧ w.ready = true ∧
      w.active = [] ∧ w.spec.cur = c.world.spec.cur.apply call.ops ∧
      (d = true → ∀ k ∈ call.ops.map Prod.fst, w.spec.logged k = c.world.spec.cur.apply call.ops k) := by
  have hreads : call.reads = false := by cases call <;> first | rfl | simp [Call.writes] at hcall
  have hnoCompact : call ≠ .compact := by rintro rfl; simp [Call.writes] at hcall
  have hcan : canStart c.world t call = true := by
    cases call <;> first | (simp [Call.writes] at hcall; done) | simp [canStart, hready, ht, hidle]
  have hstart : (started c.world t call).spec.cur = c.world.spec.cur ∧ (started c.world t call).ready = true := by
    cases call <;> exact ⟨rfl, hready⟩
  have hended : ∀ (w' : World) (reply : Reply), (ended w' t call reply).ready = w'.ready ∧
      (ended w' t call reply).spec.cur = w'.spec.cur ∧ (ended w' t call reply).spec.logged = w'.spec.logged := by
    intro w' reply
    cases call <;> first
      | (simp only [ended]; split_ifs <;> exact ⟨rfl, rfl, rfl⟩)
      | simp [Call.writes] at hcall
  refine h.returns (J := fun prog w => w.ready = true ∧ ∃ s, prog.Follows (LogStep d call.ops)
    (Progress.Done call.ops) s ∧ s.Left d call.ops c.world.spec.cur w.spec) hidle hcan ht ha
    ⟨hstart.2, _, logs_call hcall (h.built hg hready), hstart.1⟩ ?_ ?_
  · rintro o k ch r w w' _ _ hx ⟨hw, s, hfol, hleft⟩
    obtain ⟨s', hnext, hrest⟩ := hfol r
    obtain ⟨hleft', hw'⟩ := hnext.left hx hleft
    exact ⟨hw'.trans hw, s', hrest, hleft'⟩
  · rintro c' hr' hidle' reply w' hth hw' ⟨hr, s, hend, hleft⟩
    obtain rfl := (hr'.seen hth).unit_ok (hg.no_trouble hio) hreads hnoCompact
    obtain ⟨hready', hcur', hlog'⟩ := hended w' (.unit (.ok ()))
    refine ⟨rfl, c', hr', rfl, by rw [hw', hready', hr], hidle', ?_⟩
    rw [hw', hcur', hlog']
    rcases hend rfl with rfl | ⟨rfl, hnil⟩
    · exact hleft
    · rw [hnil]
      exact ⟨hleft, by simp⟩

/-- A run or a log record that the writers accepted is read back exactly when its keys and values are at most
`2 ^ 30` bytes long, and a log record when it counts fewer than `2 ^ 32` operations besides. Within these sizes, and
when no call fails for other reasons, every call that returns succeeds. A write whose record the log takes returns.
When it has returned `Ok`, a read after a flush finds it; and an open after a crash before that flush succeeds, and
reads find the write. -/
theorem accepted_is_readable (laws : BloomLaws) :
    (∀ (es : List Entry) file name id, Ascending es → writeRun es = .ok file →
      ((∃ t, SsTable.open file name id = .ok t ∧ t.cursor.Yields es ∧ ∀ k, t.lookup k = .ok (find es k)) ↔
        ∀ x ∈ es, x.Sized)) ∧
    (∀ ops, decodeLog (encodeLog ops) = .ok ops ↔ LogSized ops) ∧
    ∀ d c, Reach (Env.calm d) c →
      (∀ t call reply, c.threads t = .replied call reply → reply.isOk = true) ∧
      (c.world.ready = true → c.world.active = [] → ∀ t ≠ compactorTid, ∀ call : Call, call.writes = true →
        (Env.calm d).allowsCall c.world call →
        Returns (Env.calm d) t call c.world fun reply w =>
          ((d = true → (encodeLog call.ops).length ≤ Deps.walMaxRecord) → reply = .unit (.ok ())) ∧
          (reply.isOk = true →
            (Returns (Env.calm d) t .flush w fun reply w' => reply = .unit (.ok ()) ∧
              ∀ key, Returns (Env.calm d) t (.get key) w' fun reply _ =>
                reply = .value (.ok (c.world.spec.cur.apply call.ops key))) ∧
            (d = true → ∀ damage config features, features.durability = true →
              Returns (Env.calm d) t (.openWith config features) (crashed w damage) fun reply w' =>
                reply = .unit (.ok ()) ∧ ∀ key ∈ call.ops.map Prod.fst,
                  Returns (Env.calm d) t (.get key) w' fun reply _ =>
                    reply = .value (.ok (c.world.spec.cur.apply call.ops key))))) := by
  refine ⟨fun es file name id ha hf => run_reads_back_iff ha hf name id, log_reads_back_iff, fun d c h => ⟨?_, ?_⟩⟩
  · have hno := (Env.good_calm laws d).no_trouble rfl
    exact fun t call reply hth => (h.seen hth).ok hno (Env.readable_calm laws d)
  · intro hready hidle t ht call hcall hallow
    have hgood := Env.good_calm laws d
    have hread := Env.readable_calm laws d
    refine (h.write_returns hgood rfl hready hidle ht hcall hallow).mono ?_
    rintro reply w ⟨rfl, c', hr', rfl, hready', hidle', hcur, hlogged⟩
    refine ⟨fun _ => rfl, fun _ => ⟨?_, fun hd damage config features hf => ?_⟩⟩
    · have hflush : (Env.calm d).allowsCall c'.world .flush :=
        ⟨by simp [Call.ops], by simp [Call.ops], by simp [hidle'], by simp⟩
      refine (hr'.write_returns hgood rfl hready' hidle' ht rfl hflush).mono ?_
      rintro reply w ⟨rfl, c'', hr'', rfl, hready'', hidle'', hcur', _⟩
      refine ⟨rfl, fun key => ?_⟩
      refine (hr''.read_returns hgood rfl hread hidle'' hready'' ht (Or.inl ⟨key, rfl⟩)).mono fun reply _ hget => ?_
      have hget : reply = .value (.ok (c''.world.spec.cur key)) := hget
      rw [hget, hcur', hcur]
      rfl
    · subst hd
      refine (hr'.recovers hgood rfl rfl hread hf ht damage).mono ?_
      rintro reply w ⟨rfl, hreads⟩
      refine ⟨rfl, fun key hkey => (hreads (.get key) rfl).mono fun reply _ hget => ?_⟩
      have hget : reply = .value (.ok (c'.world.spec.logged key)) := hget
      rw [hget, hlogged rfl key hkey]

omit [Deps] in
/-- A write to an engine that has flushed and compacted. -/
theorem accepted_is_readable_twice : letI := Deps.concrete
    ∃ c, Reach (Env.calm true) c ∧ c.world.runs.length = 1 ∧
      Returns (Env.calm true) 1 (.put [1] [8]) c.world fun reply w => reply = .unit (.ok ()) ∧
        (Returns (Env.calm true) 1 .flush w fun reply w' => reply = .unit (.ok ()) ∧
          ∀ key, Returns (Env.calm true) 1 (.get key) w' fun reply _ =>
            reply = .value (.ok (c.world.spec.cur.apply [([1], .value [8])] key))) ∧
        (true = true → ∀ damage config features, features.durability = true →
          Returns (Env.calm true) 1 (.openWith config features) (crashed w damage) fun reply w' =>
            reply = .unit (.ok ()) ∧ ∀ key ∈ [[1]], Returns (Env.calm true) 1 (.get key) w' fun reply _ =>
              reply = .value (.ok (c.world.spec.cur.apply [([1], .value [8])] key))) := by
  let _ := Deps.concrete
  have hplay : (Env.calm true).leads [.alone 1 allOk (.openWith LsmConfig.default ⟨true, true⟩),
      .alone 1 allOk (.put [1] [7]), .alone 1 allOk .flush]
      (fun c => c.world.runs.length = 1 ∧ c.world.ready = true ∧ c.world.active = []) = true := by decide +kernel
  obtain ⟨c, hreach, hc⟩ := Env.reach_leads hplay
  obtain ⟨hruns, hready, hidle⟩ := of_decide_eq_true hc
  refine ⟨c, hreach, hruns, ?_⟩
  have hallow : (Env.calm true).allowsCall c.world (.put [1] [8]) :=
    Env.allowsCall_of_permits (by simp [Env.permitsCall, Env.calm, Call.ops, hidle, MAX_RECORD_LEN, Record.valueLen])
  have htaken : (encodeLog (Call.put [1] [8]).ops).length ≤ 67108864 := by decide
  refine (((accepted_is_readable concrete_laws).2.2 true c hreach).2 hready hidle 1 (by decide) (.put [1] [8]) rfl
    hallow).mono fun reply w hput => ?_
  obtain rfl := hput.1 fun _ => htaken
  exact ⟨rfl, hput.2 rfl⟩

/-! ## A value that is accepted and refused -/

/-- A flush of an empty memtable. -/
theorem Single.flush {table : SsTable} (h : Single w table) (hrest : AtRest w) :
    ∃ w', callAlone 1 allOk .flush w = some (.unit (.ok ()), w') ∧ Single w' table ∧ AtRest w' ∧ w'.cache = w.cache := by
  have hcan : canStart w 1 .flush = true := by simp [canStart, hrest.ready, hrest.idle, compactorTid]
  have hempty : w.memtable.isEmpty = true := (MemTable.isEmpty_iff _).mpr h.memtable
  have hflush : alone 1 allOk (LsmDb.flush w.config w.features).run (started w 1 .flush) =
      some (.ok (), started w 1 .flush) :=
    alone_flush_empty h.lock hempty
  refine ⟨_, callAlone_eq hcan (alone_unit hflush), ⟨⟨h.lock, h.memtable, h.runs, h.obsolete, h.held⟩, h.filter⟩,
    ⟨hrest.ready, ?_⟩, rfl⟩
  show (1 :: w.active).erase 1 = []
  rw [hrest.idle]
  rfl

omit [Deps] in
/-- A value of `2 ^ 30 + 1` bytes is accepted and flushed, and the read of its key fails. -/
theorem accepted_value_refused : letI := Deps.concrete
    ∃ w₁ w₂ w₃ w₄ err, callAlone 1 allOk (.openWith eager ⟨false, false⟩) World.initial = some (.unit (.ok ()), w₁) ∧
      callAlone 1 allOk (.write (longPut (2 ^ 30 + 1))) w₁ = some (.unit (.ok ()), w₂) ∧
      callAlone 1 allOk .flush w₂ = some (.unit (.ok ()), w₃) ∧
      callAlone 1 allOk (.get [1]) w₃ = some (.value (.error err), w₄) := by
  let _ := Deps.concrete
  obtain ⟨w₁, w₂, table, hopen, hwrite, hflushed⟩ := (bulky_longPut (n := 2 ^ 30 + 1) (by omega) (by omega)).written
  obtain ⟨w₃, hflush, hsingle, hrest, hcache⟩ := hflushed.single.flush hflushed.rest
  obtain ⟨err, w₄, hget⟩ := hsingle.get_refused le_rfl hrest hflushed.holds (longPut_unsized (by omega))
    (hcache.trans hflushed.cache)
  exact ⟨w₁, w₂, w₃, w₄, err, hopen, hwrite, hflush, hget⟩

end Accepted
end LsmDb
