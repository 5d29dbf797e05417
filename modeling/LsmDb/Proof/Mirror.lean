import LsmDb.Proof.Directory
import LsmDb.Proof.Stands

/-! The log beside the memtable. When nothing fails, replaying the log at any moment at which the write lock is free
gives back the memtable, and what a crash would leave is what readers see; inside a critical section the two differ
by the writes of the call that holds the lock. -/
namespace LsmDb
open Lib
set_option autoImplicit false

section Mirror
variable [Deps] {e : Env} {c c' : Config} {t : Tid} {w w' : World} {d : Bool} {S : Tid → Stand}

/-! ## A call that gave up -/

theorem step_finish {call : Call} {reply : Reply} (hth : c.threads t = .running call (.done reply)) :
    step c (.finish t) = some ⟨ended c.world t call reply, Function.update c.threads t (.replied call reply)⟩ := by
  simp only [step, hth]

/-- A call that gave up returns an error, so no call gives up when nothing fails. -/
theorem Reach.not_failed {call : Call} {prog : P Reply} (hr : Reach e c) (hno : ¬ e.Trouble)
    (hth : c.threads t = .running call prog) (hf : prog.Follows StandStep (StandEnds call) .failed) : False := by
  induction prog generalizing c with
  | done reply =>
    have hr' := hr.step (l := .finish t) trivial (step_finish hth)
    have hans := hr'.seen (t := t) (Function.update_self ..)
    have hend : StandEnds call .failed reply := hf
    have hbad : reply.isOk = true → False := by
      intro hok
      cases call with
      | openWith config features =>
        simp only [StandEnds, hok, if_true] at hend
        cases hend
      | compact => cases hend
      | _ =>
        rcases hend with ⟨d, hs⟩ | ⟨_, _, hbad⟩
        · cases hs
        · rw [hok] at hbad
          cases hbad
    have hwrites : call.reads = false ∧ call ≠ .compact := by
      cases call with
      | compact => cases hend
      | get key | scan range =>
        rcases hend with ⟨d, hs⟩ | ⟨_, hreads, _⟩
        · cases hs
        · cases hreads
      | _ => exact ⟨rfl, by simp⟩
    rw [hans.unit_ok hno hwrites.1 hwrites.2] at hbad
    exact hbad rfl
  | op o k ih =>
    obtain ⟨r⟩ := res_nonempty o
    obtain ⟨s, hnext, hrest⟩ := hf r
    cases hnext with
    | keep hs ho => cases hs
    | drop hs =>
      have hallow : e.allowsAct c.world t .dropEngine .ok := by
        simp only [Env.allowsAct, Act.fails, Choice.faulty]
        split_ifs <;> simp
      have hx : exec t .dropEngine .ok c.world = some ((), c.world.dropEngine) := rfl
      exact ih () (hr.step (allows_act hth hallow) (step_act hth hx)) (Function.update_self ..) hrest

/-! ## The invariant -/

/-- What holds while nobody is inside the lock. -/
structure Level (d : Bool) (w : World) : Prop where
  log : d = true → replayLog MemTable.new (logRecords w.wal) = .ok w.memtable ∧ w.spec.logged = w.spec.cur
  saved : d = false → w.memtable.isEmpty = true → w.spec.flushed = w.spec.cur

/-- What holds while a thread at this stage has the lock. -/
def Stand.Agrees (d : Bool) (w : World) : Stand → Prop
  | .at _ aim .ahead _ => replayLog MemTable.new (logRecords w.wal) = .ok (w.memtable.applyAll aim.ops) ∧
      w.spec.logged = w.spec.cur.apply aim.ops
  | .at _ _ _ .taken => w.memtable = MemTable.new ∧ (d = true → w.spec.logged = w.spec.cur)
  | .at _ _ _ .renamed => w.memtable = MemTable.new ∧ (d = true → w.spec.logged = w.spec.cur) ∧
      w.spec.flushed = w.spec.cur
  | _ => Level d w

/-- What a thread knows by its stage. -/
def Stand.Knows (d : Bool) (w : World) (t : Tid) : Stand → Prop
  | idle => True
  | opening b records => b = d ∧ w.live = false ∧ w.opener = some t ∧ t ≠ compactorTid ∧
      ∀ l, records = some l → logRecords w.wal = l
  | .at b aim _ _ => b = d ∧ w.live = true ∧ t ≠ compactorTid ∧ (d = true → LogSized aim.ops)
  | merging _ => w.live = true ∧ t = compactorTid
  | failed => False

structure Standing (d : Bool) (w : World) (S : Tid → Stand) : Prop where
  lock : ∀ t, w.lock = some t ↔ (S t).locked = true
  knows : ∀ t, (S t).Knows d w t
  held : w.live = true → ∀ t, w.lock = some t → (S t).Agrees d w
  free : w.live = true → w.lock = none → Level d w

/-! ## Steps -/

/-- A step that leaves alone what stages speak of. -/
structure Barely (w w' : World) : Prop where
  lock : w'.lock = w.lock
  memtable : w'.memtable = w.memtable
  live : w'.live = w.live
  wal : logRecords w'.wal = logRecords w.wal
  cur : w'.spec.cur = w.spec.cur
  logged : w'.spec.logged = w.spec.logged
  flushed : w'.spec.flushed = w.spec.flushed

theorem exec_bare {o : Act} {ch : Choice} {r : Res o} (ho : o.bare = true) (h : exec t o ch w = some (r, w')) :
    Barely w w' := by
  have hd := exec_differ h
  have hno : ∀ f ∈ [Field.lock, .memtable, .live, .cur, .logged], f ∉ o.touches := by
    cases o <;> simp [Act.bare, Act.touches] at ho ⊢
  have hflushed : Field.flushed ∉ o.touches := by
    cases o <;> simp [Act.bare, Act.touches] at ho ⊢
    exact ho
  have hwal : logRecords w'.wal = logRecords w.wal := by
    cases o with
    | walOpen => exact exec_walOpen h
    | _ => exact congrArg logRecords (hd .wal (by simp [Act.bare, Act.touches] at ho ⊢))
  exact ⟨hd .lock (hno _ (by simp)), hd .memtable (hno _ (by simp)), hd .live (hno _ (by simp)), hwal,
    hd .cur (hno _ (by simp)), hd .logged (hno _ (by simp)), hd .flushed hflushed⟩

theorem Level.same (h : Level d w) (hb : Barely w w') : Level d w' := by
  refine ⟨fun hd => ?_, fun hd hm => ?_⟩
  · rw [hb.wal, hb.memtable, hb.logged, hb.cur]
    exact h.log hd
  · rw [hb.flushed, hb.cur]
    exact h.saved hd (by rw [← hb.memtable]; exact hm)

theorem Stand.Agrees.same {s : Stand} (h : s.Agrees d w) (hb : Barely w w') : s.Agrees d w' := by
  unfold Stand.Agrees at h ⊢
  split at h
  · rw [hb.wal, hb.memtable, hb.logged, hb.cur]
    exact h
  · rw [hb.memtable, hb.logged, hb.cur]
    exact h
  · rw [hb.memtable, hb.logged, hb.cur, hb.flushed]
    exact h
  · exact h.same hb

theorem Stand.Knows.same {s : Stand} (h : s.Knows d w t) (hlive : w'.live = w.live) (ho : w'.opener = w.opener)
    (hw : ∀ b l, s = .opening b (some l) → logRecords w'.wal = logRecords w.wal) : s.Knows d w' t := by
  cases s with
  | idle => trivial
  | opening b records =>
    obtain ⟨hb, hdown, hopen, ht, hl⟩ := h
    refine ⟨hb, hlive.trans hdown, ho.trans hopen, ht, fun l hrec => ?_⟩
    subst hrec
    exact (hw b l rfl).trans (hl l rfl)
  | «at» b aim m zone =>
    obtain ⟨hb, hup, ht, hs⟩ := h
    exact ⟨hb, hlive.trans hup, ht, hs⟩
  | merging b => exact ⟨hlive.trans h.1, h.2⟩
  | failed => exact h

theorem Standing.same (h : Standing d w S) (hb : Barely w w') (ho : w'.opener = w.opener) : Standing d w' S := by
  refine ⟨fun t => by rw [hb.lock]; exact h.lock t, fun t => (h.knows t).same hb.live ho fun _ _ _ => hb.wal,
    fun hlive t ht => ?_, fun hlive hl => ?_⟩
  · exact (h.held (hb.live ▸ hlive) t (hb.lock ▸ ht)).same hb
  · exact (h.free (hb.live ▸ hlive) (hb.lock ▸ hl)).same hb

/-- A thread comes or goes, outside the lock. -/
theorem Standing.replace {s : Stand} (h : Standing d w S) (hb : Barely w w') (hold : (S t).locked = false)
    (hnew : s.locked = false) (hk : s.Knows d w' t) (hothers : ∀ t', t' ≠ t → (S t').Knows d w' t') :
    Standing d w' (Function.update S t s) := by
  have hfree : w.lock ≠ some t := fun hl => by
    have hlocked := (h.lock t).mp hl
    rw [hold] at hlocked
    cases hlocked
  refine ⟨fun t' => ?_, fun t' => ?_, fun hlive t' hl => ?_, fun hlive hl => ?_⟩
  · rw [hb.lock]
    by_cases ht : t' = t
    · subst ht
      rw [Function.update_self, hnew]
      simp [hfree]
    · rw [Function.update_of_ne ht]
      exact h.lock t'
  · by_cases ht : t' = t
    · subst ht
      rw [Function.update_self]
      exact hk
    · rw [Function.update_of_ne ht]
      exact hothers t' ht
  · rw [hb.lock] at hl
    have ht : t' ≠ t := by
      rintro rfl
      exact hfree hl
    rw [Function.update_of_ne ht]
    exact (h.held (hb.live ▸ hlive) t' hl).same hb
  · exact (h.free (hb.live ▸ hlive) (hb.lock ▸ hl)).same hb

theorem Stand.Knows.engine {s : Stand} (h : s.Knows d w t) (hlive : w.live = true) (hlive' : w'.live = true) :
    s.Knows d w' t := by
  cases s with
  | idle => trivial
  | opening b records =>
    have hdown := h.2.1
    rw [hlive] at hdown
    cases hdown
  | «at» b aim m zone => exact ⟨h.1, hlive', h.2.2⟩
  | merging b => exact ⟨hlive', h.2⟩
  | failed => exact h

/-- A step inside the lock. -/
theorem Standing.inside {s : Stand} (h : Standing d w S) (hmine : w.lock = some t) (hlive : w.live = true)
    (hlive' : w'.live = true) (hlock : w'.lock = some t) (hs : s.locked = true) (hk : s.Knows d w' t)
    (ha : s.Agrees d w') : Standing d w' (Function.update S t s) := by
  refine ⟨fun t' => ?_, fun t' => ?_, fun _ t' ht' => ?_, fun _ hnone => ?_⟩
  · by_cases ht : t' = t
    · subst ht
      simp [Function.update_self, hlock, hs]
    · rw [Function.update_of_ne ht, hlock, ← h.lock t', hmine]
  · by_cases ht : t' = t
    · subst ht
      rw [Function.update_self]
      exact hk
    · rw [Function.update_of_ne ht]
      exact (h.knows t').engine hlive hlive'
  · obtain rfl : t = t' := Option.some.inj (hlock.symm.trans ht')
    rw [Function.update_self]
    exact ha
  · rw [hlock] at hnone
    cases hnone

/-- A step that takes the lock, gives it back, or leaves it as it is, with the engine level before or after. -/
theorem Standing.outside {s : Stand} (h : Standing d w S) (hlive : w.live = true) (hlive' : w'.live = true)
    (hlock : ∀ t', t' ≠ t → (w'.lock = some t' ↔ w.lock = some t')) (hs : w'.lock = some t ↔ s.locked = true)
    (hk : s.Knows d w' t) (hheld : w'.lock = some t → s.Agrees d w')
    (hother : ∀ t', t' ≠ t → w.lock = some t' → (S t').Agrees d w → (S t').Agrees d w')
    (hfree : w'.lock = none → Level d w') : Standing d w' (Function.update S t s) := by
  refine ⟨fun t' => ?_, fun t' => ?_, fun _ t' ht' => ?_, fun _ => hfree⟩
  · by_cases ht : t' = t
    · subst ht
      rw [Function.update_self]
      exact hs
    · rw [Function.update_of_ne ht, hlock t' ht]
      exact h.lock t'
  · by_cases ht : t' = t
    · subst ht
      rw [Function.update_self]
      exact hk
    · rw [Function.update_of_ne ht]
      exact (h.knows t').engine hlive hlive'
  · by_cases ht : t' = t
    · subst ht
      rw [Function.update_self]
      exact hheld ht'
    · rw [Function.update_of_ne ht]
      have hbefore := (hlock t' ht).mp ht'
      exact hother t' ht hbefore (h.held hlive t' hbefore)

omit [Deps] in
theorem replayLog_concat {m m' : MemTable} {records : List Bytes} {ops : List Entry}
    (h : replayLog m records = .ok m') (hops : LogSized ops) :
    replayLog m (records ++ [encodeLog ops]) = .ok (m'.applyAll ops) := by
  induction records generalizing m with
  | nil =>
    obtain rfl := Except.ok.inj h
    simp only [List.nil_append, replayLog, decodeLog_encodeLog hops, bind, Except.bind]
  | cons record records ih =>
    simp only [List.cons_append, replayLog, bind, Except.bind] at h ⊢
    cases hdec : decodeLog record with
    | error err => simp [hdec] at h
    | ok ops' =>
      simp only [hdec] at h ⊢
      exact ih h

/-- The steps of a call of a client, inside the lock. -/
theorem Standing.critical {o : Act} {ch : Choice} {r : Res o} {s : Stand} {b : Bool} {aim : Aim} {m : Mark}
    {zone : Zone} (h : Standing d w S) (hio : e.ioFaults = false) (ha : e.allowsAct w t o ch)
    (hx : exec t o ch w = some (r, w')) (hst : S t = .at b aim m zone) (hzone : zone ≠ .out)
    (hn : StandStep (.at b aim m zone) o r s) (hs : s ≠ .failed) : Standing d w' (Function.update S t s) := by
  have hmine : w.lock = some t := (h.lock t).mpr (by rw [hst]; exact decide_eq_true hzone)
  have hknows := h.knows t
  rw [hst] at hknows
  obtain ⟨rfl, hlive, hne, hsized⟩ := hknows
  have hagree := h.held hlive t hmine
  rw [hst] at hagree
  cases hn with
  | keep hs' ho =>
    rw [← hst, Function.update_eq_self]
    exact h.same (exec_bare ho hx) (exec_opener hx)
  | lock hm => exact absurd rfl hzone
  | snapshot => exact absurd rfl hzone
  | giveUp => exact absurd rfl hs
  | drop hfree => exact absurd rfl hs
  | unlock hm hr =>
    obtain ⟨_, rfl⟩ := Prod.mk.inj (Option.some.inj hx)
    refine h.outside hlive hlive (fun t' ht => by simp [hmine, Ne.symm ht]) (by simp [Stand.locked]) ⟨rfl, hlive, hne, hsized⟩
      (by simp) (fun t' ht hl => absurd (Option.some.inj (hmine.symm.trans hl)).symm ht) fun _ => ?_
    rcases hr with rfl | ⟨rfl, hb⟩
    · cases m with
      | ahead => exact absurd rfl hm
      | before => exact ⟨hagree.log, hagree.saved⟩
      | after => exact ⟨hagree.log, hagree.saved⟩
    · subst hb
      refine ⟨by simp, fun _ _ => ?_⟩
      cases m with
      | ahead => exact absurd rfl hm
      | before => exact hagree.2.2
      | after => exact hagree.2.2
  | @append ops _ hr =>
    subst hr
    have hlog := hagree.log rfl
    obtain ⟨hbad, _⟩ | ⟨log, hiter, rfl, _⟩ := exec_walAppend hx
    · cases hbad
    refine h.inside hmine hlive hlive hmine rfl ⟨rfl, hlive, hne, hsized⟩ ⟨?_, ?_⟩
    · show replayLog MemTable.new (Deps.walIter log) = _
      rw [hiter]
      exact replayLog_concat hlog.1 (hsized rfl)
    · show w.spec.logged.apply ops = w.spec.cur.apply ops
      rw [hlog.2]
  | @unappended ops _ err hr =>
    subst hr
    have hcalm : (Act.walAppend ops).fails w ch = false := ha.resolve_left (by rw [hio]; simp)
    obtain ⟨_, _, hf⟩ | ⟨_, _, _, hok | ⟨_, hf⟩⟩ := exec_walAppend hx
    · rw [hcalm] at hf
      cases hf
    · cases hok
    · rw [hcalm] at hf
      cases hf
  | @applyLogged ops =>
    obtain ⟨_, rfl⟩ := Prod.mk.inj (Option.some.inj hx)
    exact h.inside hmine hlive hlive hmine rfl ⟨rfl, hlive, hne, hsized⟩ ⟨fun _ => hagree, by simp⟩
  | @apply ops =>
    obtain ⟨_, rfl⟩ := Prod.mk.inj (Option.some.inj hx)
    refine h.inside hmine hlive hlive hmine rfl ⟨rfl, hlive, hne, hsized⟩ ⟨by simp, fun _ hempty => ?_⟩
    -- an empty batch on an empty memtable
    have hnil : ops = [] := by
      by_contra hne'
      have hiter := (MemTable.isEmpty_iff _).mp hempty
      obtain ⟨x, hxm⟩ := List.exists_mem_of_ne_nil ops hne'
      have hfind : find (w.memtable.applyAll ops).iter x.1 ≠ none := by
        rw [MemTable.iter_applyAll]
        exact find_insertAll_of_mem hxm
      rw [hiter] at hfind
      exact hfind rfl
    subst hnil
    exact hagree.saved rfl hempty
  | empty hempty =>
    obtain ⟨_, rfl⟩ := Prod.mk.inj (Option.some.inj hx)
    exact h.inside hmine hlive hlive hmine rfl ⟨rfl, hlive, hne, hsized⟩ hagree
  | take hm =>
    obtain ⟨_, rfl⟩ := Prod.mk.inj (Option.some.inj hx)
    refine h.inside hmine hlive hlive hmine rfl ⟨rfl, hlive, hne, hsized⟩ ?_
    rcases hm with rfl | ⟨rfl, rfl⟩
    · exact ⟨rfl, fun hd => (hagree.log hd).2⟩
    · exact ⟨rfl, fun hd => (hagree.log hd).2⟩
  | commit hm hr =>
    subst hr
    simp only [exec] at hx
    split at hx
    · simp at hx
    · split at hx
      · simp at hx
      · obtain ⟨_, rfl⟩ := Prod.mk.inj (Option.some.inj hx)
        rw [if_pos ⟨trivial, hne⟩]
        refine h.inside hmine hlive hlive hmine rfl ⟨rfl, hlive, hne, hsized⟩ ?_
        rcases hm with rfl | ⟨rfl, rfl⟩
        · exact ⟨hagree.1, hagree.2, rfl⟩
        · exact ⟨hagree.1, hagree.2, rfl⟩
  | uncommitted hr =>
    subst hr
    have hw : w' = w := by
      simp only [exec] at hx
      split at hx
      · exact (Prod.mk.inj (Option.some.inj hx)).2.symm
      · split at hx
        · exact (Prod.mk.inj (Option.some.inj hx)).2.symm
        · simp at hx
    subst hw
    rw [← hst, Function.update_eq_self]
    exact h
  | rotate hr =>
    simp only [exec] at hx
    split at hx
    · obtain ⟨rfl, _⟩ := Prod.mk.inj (Option.some.inj hx)
      exact absurd rfl hr
    · split at hx
      · rename_i hwal
        obtain ⟨_, rfl⟩ := Prod.mk.inj (Option.some.inj hx)
        refine h.inside hmine hlive hlive hmine rfl ⟨rfl, hlive, hne, hsized⟩ ⟨fun _ => ⟨?_, hagree.2.1 rfl⟩, by simp⟩
        rw [hwal, hagree.1]
        rfl
      · obtain ⟨_, rfl⟩ := Prod.mk.inj (Option.some.inj hx)
        refine h.inside hmine hlive hlive hmine rfl ⟨rfl, hlive, hne, hsized⟩ ⟨fun _ => ⟨?_, rfl⟩, by simp⟩
        show replayLog MemTable.new [] = .ok w.memtable
        rw [hagree.1]
        rfl
  | unrotated hr =>
    subst hr
    have hcalm : ch.faulty = false := ha.resolve_left (by rw [hio]; simp)
    simp only [exec] at hx
    split at hx
    · simp [Choice.faulty] at hcalm
    · split at hx <;> simp at hx

theorem snapshot_free {want : MemTable → List SsTable → Bool} {ch : Choice} {r : Res (.snapshot want)}
    (hx : exec t (.snapshot want) ch w = some (r, w')) : w.lock = none := by
  by_contra hbusy
  simp [exec, hbusy] at hx

/-- The steps of a call of a client, outside the lock. -/
theorem Standing.client {o : Act} {ch : Choice} {r : Res o} {s : Stand} {b : Bool} {aim : Aim} {m : Mark}
    (h : Standing d w S) (hx : exec t o ch w = some (r, w')) (hst : S t = .at b aim m .out)
    (hn : StandStep (.at b aim m .out) o r s) (hs : s ≠ .failed) : Standing d w' (Function.update S t s) := by
  have hknows := h.knows t
  rw [hst] at hknows
  obtain ⟨rfl, hlive, hne, hsized⟩ := hknows
  have hmine : w.lock ≠ some t := fun hl => by
    have hlocked := (h.lock t).mp hl
    rw [hst] at hlocked
    cases hlocked
  cases hn with
  | keep hs' ho =>
    rw [← hst, Function.update_eq_self]
    exact h.same (exec_bare ho hx) (exec_opener hx)
  | giveUp => exact absurd rfl hs
  | drop hfree => exact absurd rfl hs
  | unlock hm hr =>
    rcases hr with hr | ⟨hr, _⟩
    · cases hr
    · cases hr
  | lock hm =>
    simp only [exec] at hx
    split_ifs at hx with hfree
    obtain ⟨_, rfl⟩ := Prod.mk.inj (Option.some.inj hx)
    have hlevel : Level b { w with lock := some t } := ⟨(h.free hlive hfree).log, (h.free hlive hfree).saved⟩
    refine h.outside hlive hlive (fun t' ht => by simp [hfree, Ne.symm ht]) (by simp [Stand.locked])
      ⟨rfl, hlive, hne, hsized⟩ (fun _ => ?_) (fun t' ht hl => absurd (hfree.symm.trans hl) (by simp)) (by simp)
    cases m with
    | ahead => exact absurd rfl hm
    | before => exact hlevel
    | after => exact hlevel
  | snapshot =>
    have hfree := snapshot_free hx
    simp only [exec, if_pos hfree] at hx
    obtain ⟨_, rfl⟩ := Prod.mk.inj (Option.some.inj hx)
    refine h.outside hlive hlive (fun t' ht => by simp) (by simp [Stand.locked, hfree]) ⟨rfl, hlive, hne, hsized⟩
      (fun hl => absurd hl hmine) (fun t' ht hl => absurd (hfree.symm.trans hl) (by simp)) fun _ => ?_
    exact ⟨(h.free hlive hfree).log, (h.free hlive hfree).saved⟩

/-- The steps of a round of the compactor. -/
theorem Standing.compactor {o : Act} {ch : Choice} {r : Res o} {s : Stand} {b : Bool} (h : Standing d w S)
    (hx : exec t o ch w = some (r, w')) (hst : S t = .merging b) (hn : StandStep (.merging b) o r s) (hs : s ≠ .failed) :
    Standing d w' (Function.update S t s) := by
  have hknows := h.knows t
  rw [hst] at hknows
  obtain ⟨hlive, rfl⟩ := hknows
  have hstay : Barely w w' → Standing d w' (Function.update S compactorTid (.merging b)) := fun hb => by
    rw [← hst, Function.update_eq_self]
    exact h.same hb (exec_opener hx)
  cases hn with
  | keep hs' ho => exact hstay (exec_bare ho hx)
  | drop hfree => exact absurd rfl hs
  | await =>
    simp only [exec] at hx
    split_ifs at hx
    obtain ⟨_, rfl⟩ := Prod.mk.inj (Option.some.inj hx)
    exact hstay ⟨rfl, rfl, rfl, rfl, rfl, rfl, rfl⟩
  | inputs =>
    simp only [exec, if_pos (snapshot_free hx)] at hx
    obtain ⟨_, rfl⟩ := Prod.mk.inj (Option.some.inj hx)
    exact hstay ⟨rfl, rfl, rfl, rfl, rfl, rfl, rfl⟩
  | swap =>
    simp only [exec] at hx
    split at hx
    · obtain ⟨_, rfl⟩ := Prod.mk.inj (Option.some.inj hx)
      exact hstay ⟨rfl, rfl, rfl, rfl, rfl, rfl, rfl⟩
    · split at hx
      · obtain ⟨_, rfl⟩ := Prod.mk.inj (Option.some.inj hx)
        exact hstay ⟨rfl, rfl, rfl, rfl, rfl, rfl, rfl⟩
      · obtain ⟨_, rfl⟩ := Prod.mk.inj (Option.some.inj hx)
        rw [if_neg fun hx => hx.2 rfl]
        exact hstay ⟨rfl, rfl, rfl, rfl, rfl, rfl, rfl⟩
  | enter =>
    simp only [exec] at hx
    split_ifs at hx with hfree
    obtain ⟨_, rfl⟩ := Prod.mk.inj (Option.some.inj hx)
    refine h.outside hlive hlive (fun t' ht => by simp [hfree, Ne.symm ht]) (by simp [Stand.locked])
      ⟨hlive, rfl⟩ (fun _ => ?_) (fun t' ht hl => absurd (hfree.symm.trans hl) (by simp)) (by simp)
    exact ⟨(h.free hlive hfree).log, (h.free hlive hfree).saved⟩
  | leave =>
    obtain ⟨_, rfl⟩ := Prod.mk.inj (Option.some.inj hx)
    have hmine : w.lock = some compactorTid := (h.lock _).mpr (by rw [hst]; rfl)
    have hagree := h.held hlive _ hmine
    rw [hst] at hagree
    refine h.outside hlive hlive (fun t' ht => by simp [hmine, Ne.symm ht]) (by simp [Stand.locked]) ⟨hlive, rfl⟩
      (by simp) (fun t' ht hl => absurd (Option.some.inj (hmine.symm.trans hl)).symm ht) fun _ => ?_
    exact ⟨hagree.log, hagree.saved⟩

/-- The steps of an open that has not built its engine yet. -/
theorem Standing.opener {o : Act} {ch : Choice} {r : Res o} {s : Stand} {b : Bool} {records : Option (List Bytes)}
    (h : Standing d w S) (hx : exec t o ch w = some (r, w')) (hst : S t = .opening b records)
    (hn : StandStep (.opening b records) o r s) (hs : s ≠ .failed) (hothers : ∀ t', t' ≠ t → S t' = .idle)
    (hcur : w.spec.cur = w.spec.durable d) : Standing d w' (Function.update S t s) := by
  have hknows := h.knows t
  rw [hst] at hknows
  obtain ⟨rfl, hdown, hopener, hne, hlog⟩ := hknows
  cases hn with
  | keep hs' ho =>
    rw [← hst, Function.update_eq_self]
    exact h.same (exec_bare ho hx) (exec_opener hx)
  | drop hfree => exact absurd rfl hs
  | @read _ _ records hr =>
    subst hr
    have hw : w' = w ∧ logRecords w.wal = records := by
      simp only [exec] at hx
      split at hx
      · simp at hx
      · simp at hx
      · obtain ⟨hrec, rfl⟩ := Prod.mk.inj (Option.some.inj hx)
        exact ⟨rfl, Except.ok.inj hrec⟩
    obtain ⟨rfl, hrec⟩ := hw
    refine ⟨fun t' => ?_, fun t' => ?_, fun hlive => ?_, fun hlive => ?_⟩
    · by_cases ht : t' = t
      · subst ht
        rw [Function.update_self, h.lock, hst]
        exact Iff.rfl
      · rw [Function.update_of_ne ht]
        exact h.lock t'
    · by_cases ht : t' = t
      · subst ht
        rw [Function.update_self]
        refine ⟨rfl, hdown, hopener, hne, fun l hl => ?_⟩
        rw [hrec]
        exact Option.some.inj hl
      · rw [Function.update_of_ne ht]
        exact h.knows t'
    · rw [hdown] at hlive
      cases hlive
    · rw [hdown] at hlive
      cases hlive
  | @start config features _ m runs q _ hrecords hnew =>
    obtain ⟨_, rfl⟩ := Prod.mk.inj (Option.some.inj hx)
    have hunlocked : ∀ t', (Function.update S t (.at features.durability .flushes .before .out) t').locked = false := by
      intro t'
      by_cases ht : t' = t
      · subst ht
        rw [Function.update_self]
        rfl
      · rw [Function.update_of_ne ht, hothers t' ht]
        rfl
    refine ⟨fun t' => ?_, fun t' => ?_, fun _ t' hl => absurd hl (by simp), fun _ _ => ?_⟩
    · rw [hunlocked t']
      simp
    · by_cases ht : t' = t
      · subst ht
        rw [Function.update_self]
        exact ⟨rfl, rfl, hne, fun _ => ⟨by simp [Aim.ops], by simp [Aim.ops]⟩⟩
      · rw [Function.update_of_ne ht, hothers t' ht]
        trivial
    · refine ⟨fun hd => ?_, fun hd _ => ?_⟩
      · obtain ⟨l, hl, hm⟩ := hrecords hd
        rw [hd] at hcur
        refine ⟨?_, hcur.symm⟩
        rw [← hm]
        exact congrArg (replayLog MemTable.new) (hlog l hl)
      · rw [hd] at hcur
        exact hcur.symm

/-! ## Every run -/

/-- The stage is one of a thread that makes this call. -/
def Stand.Serves (call : Call) : Stand → Prop
  | .opening _ _ => ∃ config features, call = .openWith config features
  | .at _ aim _ _ => call ≠ .compact ∧ aim = call.aim
  | merging _ => call = .compact
  | _ => False

/-- The thread is where its stage says. -/
def Stand.Of (s : Stand) : Thread → Prop
  | .running call prog => prog.Follows StandStep (StandEnds call) s ∧ s.Serves call
  | _ => s = .idle

structure Stood (e : Env) (d : Bool) (c : Config) (S : Tid → Stand) : Prop where
  reach : Reach e c
  standing : Standing d c.world S
  threads : ∀ t, (S t).Of (c.threads t)

theorem StandStep.serves {s s' : Stand} {o : Act} {r : Res o} {call : Call} (hn : StandStep s o r s') (hs : s.Serves call)
    (hf : s' ≠ .failed) : s'.Serves call := by
  cases hn with
  | start hlog hnew =>
    obtain ⟨config, features, rfl⟩ := hs
    exact ⟨by simp, rfl⟩
  | giveUp => exact absurd rfl hf
  | drop hfree => exact absurd rfl hf
  | _ => exact hs

theorem Stood.idle (h : Stood e d c S) (hth : ∀ call prog, c.threads t ≠ .running call prog) : S t = .idle := by
  have hat := h.threads t
  cases hc : c.threads t with
  | idle | replied =>
    rw [hc] at hat
    exact hat
  | running call prog => exact absurd hc (hth call prog)

/-- While an open runs, nothing else does. -/
theorem Stood.others (h : Stood e d c S) (ho : c.world.opener = some t) {t' : Tid} (ht : t' ≠ t) : S t' = .idle :=
  h.idle fun _ _ hth => ht (h.reach.alone ho hth)

theorem Stood.move {c' : Config} {s : Stand} {th : Thread} (h : Stood e d c S) (hr : Reach e c')
    (hthreads : c'.threads = Function.update c.threads t th) (hs : Standing d c'.world (Function.update S t s))
    (hof : s.Of th) : Stood e d c' (Function.update S t s) := by
  refine ⟨hr, hs, fun t' => ?_⟩
  rw [hthreads]
  by_cases ht : t' = t
  · subst ht
    rw [Function.update_self, Function.update_self]
    exact hof
  · rw [Function.update_of_ne ht, Function.update_of_ne ht]
    exact h.threads t'

omit [Deps] in
theorem Call.stand_serves (features : Features) (call : Call) : (call.stand features).Serves call := by
  cases call with
  | openWith config features => exact ⟨config, features, rfl⟩
  | compact => exact rfl
  | _ => exact ⟨by simp, rfl⟩

theorem Stood.start {call : Call} (h : Stood e d c S) (hg : e.Good d) (ha : e.allows c (.start t call))
    (hs : step c (.start t call) = some c') : Stood e d c' (Function.update S t (call.stand c.world.features)) := by
  have hr := h.reach.step ha hs
  simp only [step] at hs
  split_ifs at hs with hcan
  obtain rfl := Option.some.inj hs
  obtain ⟨hin, hcompact⟩ := canStart_cases hcan
  have hidle : S t = .idle := h.idle fun _ _ hth => hin (h.reach.active hth)
  have hold : (S t).locked = false := by
    rw [hidle]
    rfl
  refine h.move hr rfl ?_ ⟨stand_program _ _ call, call.stand_serves _⟩
  cases call with
  | openWith config features =>
    simp only [canStart, Bool.and_eq_true, Bool.not_eq_true', List.isEmpty_iff, bne_iff_ne, ne_eq] at hcan
    obtain ⟨⟨hdown, hempty⟩, hne⟩ := hcan
    refine h.standing.replace ⟨rfl, rfl, rfl, rfl, rfl, rfl, rfl⟩ hold rfl ⟨?_, hdown, rfl, hne, by simp⟩ fun t' ht => ?_
    · exact (ha hne).2.2.2 config features rfl d hg.durability
    · have hnone : S t' = .idle := h.idle fun _ _ hth => by
        have hin' := h.reach.active hth
        rw [hempty] at hin'
        cases hin'
      rw [hnone]
      trivial
  | compact =>
    simp only [canStart, Bool.and_eq_true] at hcan
    have hlive := (h.reach.ready hcan.1.1).1
    refine h.standing.replace ⟨rfl, rfl, rfl, rfl, rfl, rfl, rfl⟩ hold rfl ⟨hlive, hcompact.mpr rfl⟩ fun t' _ => ?_
    exact (h.standing.knows t').same rfl rfl fun _ _ _ => rfl
  | _ =>
    simp only [canStart, Bool.and_eq_true] at hcan
    have hlive := (h.reach.ready hcan.1.1).1
    have hne : t ≠ compactorTid := fun ht => by simpa using hcompact.mp ht
    obtain ⟨g, A, hrun⟩ := h.reach.running hlive
    refine h.standing.replace ⟨rfl, rfl, rfl, rfl, rfl, rfl, rfl⟩ hold rfl
      ⟨(hrun.session.view d hg).durability, hlive, hne, fun hd => ?_⟩ fun t' _ => ?_
    · subst hd
      exact hg.logSized (ha hne).1 (ha hne).2.1
    · exact (h.standing.knows t').same rfl rfl fun _ _ _ => rfl

theorem Stood.act {call : Call} {o : Act} {k : Res o → P Reply} {ch : Choice} {r : Res o} (h : Stood e d c S)
    (hg : e.Good d) (hio : e.ioFaults = false) (hth : c.threads t = .running call (.op o k))
    (ha : e.allowsAct c.world t o ch) (hx : exec t o ch c.world = some (r, w)) :
    ∃ s, StandStep (S t) o r s ∧ s ≠ .failed ∧
      Stood e d ⟨w, Function.update c.threads t (.running call (k r))⟩ (Function.update S t s) := by
  have hr := h.reach.step (allows_act hth ha) (step_act hth hx)
  have hat := h.threads t
  rw [hth] at hat
  obtain ⟨hfol, hserves⟩ := hat
  obtain ⟨s, hn, hrest⟩ := hfol r
  have hs : s ≠ .failed := by
    rintro rfl
    exact hr.not_failed (hg.no_trouble hio) (Function.update_self ..) hrest
  refine ⟨s, hn, hs, h.move hr rfl ?_ ⟨hrest, hn.serves hserves hs⟩⟩
  cases hst : S t with
  | idle =>
    rw [hst] at hserves
    exact absurd hserves id
  | failed =>
    rw [hst] at hserves
    exact absurd hserves id
  | opening b records =>
    have hknows := h.standing.knows t
    rw [hst] at hn hknows
    obtain ⟨_, hdown, hopener, _⟩ := hknows
    have hcur : c.world.spec.cur = c.world.spec.durable d := by
      obtain ⟨A, hsound⟩ := h.reach.sound
      obtain ⟨g, hrun | hrest⟩ := hsound.inv
      · have hup := hrun.session.live
        rw [hdown] at hup
        cases hup
      · exact hrest.cur d hg
    exact h.standing.opener hx hst hn hs (fun t' ht => h.others hopener ht) hcur
  | «at» b aim m zone =>
    rw [hst] at hn
    by_cases hz : zone = .out
    · subst hz
      exact h.standing.client hx hst hn hs
    · exact h.standing.critical hio ha hx hst hz hn hs
  | merging b =>
    rw [hst] at hn
    exact h.standing.compactor hx hst hn hs

theorem Stood.finish {call : Call} {reply : Reply} (h : Stood e d c S) (hth : c.threads t = .running call (.done reply)) :
    StandEnds call (S t) reply ∧
      Stood e d ⟨ended c.world t call reply, Function.update c.threads t (.replied call reply)⟩
        (Function.update S t .idle) := by
  have hr := h.reach.step (l := .finish t) trivial (step_finish hth)
  have hat := h.threads t
  rw [hth] at hat
  have hend : StandEnds call (S t) reply := hat.1
  have hold : (S t).locked = false := by
    cases call with
    | openWith config features =>
      simp only [StandEnds] at hend
      split_ifs at hend with hok
      · rw [hend]
        rfl
      · rcases hend with hs | ⟨b, records, hs⟩ <;> (rw [hs]; rfl)
    | compact =>
      rw [show S t = .merging false from hend]
      rfl
    | _ => rcases hend with ⟨b, hs⟩ | ⟨hs, _⟩ <;> (rw [hs]; rfl)
  have hb : Barely c.world (ended c.world t call reply) := by
    cases call with
    | openWith config features => exact ⟨rfl, rfl, rfl, rfl, rfl, rfl, rfl⟩
    | _ => simp only [ended]; split_ifs <;> exact ⟨rfl, rfl, rfl, rfl, rfl, rfl, rfl⟩
  refine ⟨hend, h.move hr rfl (h.standing.replace hb hold rfl trivial fun t' ht => ?_) rfl⟩
  have hknows := h.standing.knows t'
  cases hs : S t' with
  | opening b records =>
    -- another open would have the directory for itself
    rw [hs] at hknows
    exact absurd (h.reach.alone hknows.2.2.1 hth).symm ht
  | idle => trivial
  | «at» b aim m zone =>
    rw [hs] at hknows
    exact ⟨hknows.1, hb.live.trans hknows.2.1, hknows.2.2⟩
  | merging b =>
    rw [hs] at hknows
    exact ⟨hb.live.trans hknows.1, hknows.2⟩
  | failed =>
    rw [hs] at hknows
    exact absurd hknows id

/-- Nobody runs, and there is no engine. -/
theorem Standing.gone (hlock : w.lock = none) (hdown : w.live = false) : Standing d w fun _ => .idle := by
  refine ⟨fun t => ?_, fun _ => trivial, fun hlive => ?_, fun hlive => ?_⟩
  · rw [hlock]
    simp [Stand.locked]
  · rw [hdown] at hlive
    cases hlive
  · rw [hdown] at hlive
    cases hlive

theorem Stood.crash (h : Stood e d c S) (damage : List (ℕ × Option Bytes)) :
    Stood e d ⟨crashed c.world damage, fun _ => .idle⟩ fun _ => .idle :=
  ⟨h.reach.step (l := .crash damage) trivial rfl, .gone rfl rfl, fun _ => rfl⟩

theorem Stood.close (h : Stood e d c S) (hready : c.world.ready = true) (hidle : c.world.active = []) :
    (∀ t, S t = .idle) ∧ Stood e d ⟨c.world.dropEngine, c.threads⟩ fun _ => .idle := by
  have hrest : ∀ t, S t = .idle := fun t => h.idle fun _ _ hth => by
    have hin := h.reach.active hth
    rw [hidle] at hin
    cases hin
  refine ⟨hrest, h.reach.step (l := .close) trivial (by simp only [step, hready, hidle, and_self, if_true]),
    .gone rfl rfl, fun t => ?_⟩
  have hat := h.threads t
  rw [hrest t] at hat
  exact hat

theorem Reach.stood (h : Reach e c) (hg : e.Good d) (hio : e.ioFaults = false) : ∃ S, Stood e d c S := by
  induction h with
  | initial => exact ⟨fun _ => .idle, .initial, .gone rfl rfl, fun _ => rfl⟩
  | @step c c' l hr ha hs ih =>
    obtain ⟨S, hS⟩ := ih
    cases l with
    | start t call => exact ⟨_, hS.start hg ha hs⟩
    | act t ch =>
      simp only [LsmDb.step] at hs
      split at hs
      · rename_i call o k hth
        cases hx : exec t o ch c.world with
        | none => simp [hx] at hs
        | some q =>
          obtain ⟨r, w⟩ := q
          simp only [hx] at hs
          obtain rfl := Option.some.inj hs
          obtain ⟨s, _, _, hS'⟩ := hS.act hg hio hth (ha call o k hth) hx
          exact ⟨_, hS'⟩
      · simp at hs
    | finish t =>
      simp only [LsmDb.step] at hs
      split at hs
      · rename_i call reply hth
        obtain rfl := Option.some.inj hs
        exact ⟨_, (hS.finish hth).2⟩
      · simp at hs
    | crash damage =>
      obtain rfl := Option.some.inj hs
      exact ⟨_, hS.crash damage⟩
    | close =>
      simp only [LsmDb.step] at hs
      split_ifs at hs with hcan
      obtain rfl := Option.some.inj hs
      exact ⟨_, (hS.close hcan.1 hcan.2).2⟩

/-! ## The log and the memtable -/

/-- Nothing fails but the reads of blocks, if `b`. -/
def Env.worn (d b : Bool) : Env := { Env.calm d with blockFaults := b }

theorem Env.good_worn (laws : BloomLaws) (d b : Bool) : (Env.worn d b).Good d :=
  ⟨laws, rfl, rfl, rfl, ⟨_, rfl, by decide, fun _ => le_rfl⟩, fun hd => hd⟩

/-- The thread inside the lock runs a call. -/
theorem Stood.holder (h : Stood e d c S) (hlock : c.world.lock = some t) :
    ∃ call prog, c.threads t = .running call prog ∧ (S t).Serves call := by
  have hlocked := (h.standing.lock t).mp hlock
  have hat := h.threads t
  cases hth : c.threads t with
  | running call prog =>
    rw [hth] at hat
    exact ⟨call, prog, rfl, hat.2⟩
  | idle | replied =>
    rw [hth] at hat
    rw [show S t = .idle from hat] at hlocked
    cases hlocked

/-- With the log, whatever the threads do: while the write lock is free, replaying the log gives the memtable. While a
thread holds the lock, the log is ahead by the records of its call at most, unless a flush has emptied the memtable. -/
theorem log_mirrors_memtable {b : Bool} (laws : BloomLaws) (h : Reach (Env.worn true b) c) (hlive : c.world.live = true) :
    (c.world.lock = none → replayLog MemTable.new (logRecords c.world.wal) = .ok c.world.memtable) ∧
      ∀ t, c.world.lock = some t → ∃ call prog, c.threads t = .running call prog ∧
        (replayLog MemTable.new (logRecords c.world.wal) = .ok c.world.memtable ∨
          replayLog MemTable.new (logRecords c.world.wal) = .ok (c.world.memtable.applyAll call.ops) ∨
          c.world.memtable = MemTable.new) := by
  obtain ⟨S, hS⟩ := h.stood (Env.good_worn laws true b) rfl
  refine ⟨fun hfree => ((hS.standing.free hlive hfree).log rfl).1, fun t hlock => ?_⟩
  obtain ⟨call, prog, hth, hserves⟩ := hS.holder hlock
  have hagree := hS.standing.held hlive t hlock
  refine ⟨call, prog, hth, ?_⟩
  cases hst : S t with
  | «at» b aim m zone =>
    rw [hst] at hagree hserves
    obtain ⟨_, rfl⟩ := hserves
    cases m with
    | ahead => exact Or.inr (Or.inl (call.aim_ops ▸ hagree.1))
    | before | after =>
      cases zone with
      | out | inside => exact Or.inl (hagree.log rfl).1
      | taken | renamed => exact Or.inr (Or.inr hagree.1)
  | _ =>
    rw [hst] at hagree
    exact Or.inl (hagree.log rfl).1

omit [Deps] in
/-- A put that has reached the log and not yet the memtable. -/
theorem log_mirrors_memtable_ahead : letI := Deps.concrete
    ∃ c, Reach (Env.worn true false) c ∧ c.world.lock = some 1 ∧
      ∃ call prog, c.threads 1 = .running call prog ∧
        (replayLog MemTable.new (logRecords c.world.wal) = .ok c.world.memtable ∨
          replayLog MemTable.new (logRecords c.world.wal) = .ok (c.world.memtable.applyAll call.ops) ∨
          c.world.memtable = MemTable.new) := by
  let _ := Deps.concrete
  have hplay : (Env.worn true false).leads [.alone 1 allOk (.openWith LsmConfig.default ⟨true, false⟩),
      .alone 2 allOk (.put [1] [7]), .start 1 (.put [1] [8]), .acts 1 [.ok, .ok, .ok]]
      (fun c => c.world.live = true ∧ c.world.lock = some 1) = true := by
    decide +kernel
  obtain ⟨c, hreach, hc⟩ := Env.reach_leads hplay
  obtain ⟨hlive, hlock⟩ := of_decide_eq_true hc
  exact ⟨c, hreach, hlock, (log_mirrors_memtable concrete_laws hreach hlive).2 1 hlock⟩

/-! ## Crashes -/

/-- What the log stands for: what readers see, or that and the writes of the call inside the lock. -/
theorem Stood.logged (h : Stood e true c S) (hg : e.Good true) :
    c.world.spec.logged = c.world.spec.cur ∨ ∃ t call prog, c.world.lock = some t ∧ c.threads t = .running call prog ∧
      (∃ b zone, S t = .at b call.aim .ahead zone) ∧ c.world.spec.logged = c.world.spec.cur.apply call.ops := by
  cases hlive : c.world.live with
  | false =>
    obtain ⟨A, hsound⟩ := h.reach.sound
    obtain ⟨g, hrun | hrest⟩ := hsound.inv
    · have hup := hrun.session.live
      rw [hlive] at hup
      cases hup
    · exact Or.inl (hrest.cur true hg).symm
  | true =>
    cases hlock : c.world.lock with
    | none => exact Or.inl ((h.standing.free hlive hlock).log rfl).2
    | some t =>
      obtain ⟨call, prog, hth, hserves⟩ := h.holder hlock
      have hagree := h.standing.held hlive t hlock
      cases hst : S t with
      | «at» b aim m zone =>
        rw [hst] at hagree hserves
        obtain ⟨_, rfl⟩ := hserves
        cases m with
        | ahead => exact Or.inr ⟨t, call, prog, rfl, hth, ⟨b, zone, hst⟩, call.aim_ops ▸ hagree.2⟩
        | before | after =>
          cases zone with
          | out | inside => exact Or.inl (hagree.log rfl).2
          | taken => exact Or.inl (hagree.2 rfl)
          | renamed => exact Or.inl (hagree.2.1 rfl)
      | _ =>
        rw [hst] at hagree
        exact Or.inl (hagree.log rfl).2

/-- With the log, whatever calls overlap: a crash at any point keeps all that readers could see, and of the calls that
had not returned at most the one inside the lock comes back beyond that, as a whole. -/
theorem crash_keeps_what_was_read (laws : BloomLaws) (h : Reach (Env.calm true) c) (damage : List (ℕ × Option Bytes))
    {config : LsmConfig} {features : Features} (ht : t ≠ compactorTid) (hf : features.durability = true) :
    ∃ ref, (ref = c.world.spec.cur ∨ ∃ t' call prog, c.world.lock = some t' ∧ c.threads t' = .running call prog ∧
        ref = c.world.spec.cur.apply call.ops) ∧
      Returns (Env.calm true) t (.openWith config features) (crashed c.world damage) fun reply w =>
        reply = .unit (.ok ()) ∧ ∀ call : Call, call.reads = true →
          Returns (Env.calm true) t call w fun reply _ => Read ref call reply := by
  have hg := Env.good_calm laws true
  refine ⟨c.world.spec.logged, ?_, h.recovers hg rfl rfl (Env.readable_calm laws true) hf ht damage⟩
  obtain ⟨S, hS⟩ := h.stood hg rfl
  rcases hS.logged hg with hsame | ⟨t', call, prog, hlock, hth, _, hahead⟩
  · exact Or.inl hsame
  · exact Or.inr ⟨t', call, prog, hlock, hth, hahead⟩

omit [Deps] in
/-- Two clients overlap, one of them inside the lock, when the machine goes down. -/
theorem crash_keeps_what_was_read_overlapping : letI := Deps.concrete
    ∃ c, Reach (Env.calm true) c ∧ c.world.spec.cur [1] = some [7] ∧ c.world.active.length = 2 ∧
      ∃ ref, (ref = c.world.spec.cur ∨ ∃ t' call prog, c.world.lock = some t' ∧ c.threads t' = .running call prog ∧
          ref = c.world.spec.cur.apply call.ops) ∧
        Returns (Env.calm true) 1 (.openWith LsmConfig.default ⟨true, false⟩) (crashed c.world []) fun reply w =>
          reply = .unit (.ok ()) ∧ ∀ call : Call, call.reads = true →
            Returns (Env.calm true) 1 call w fun reply _ => Read ref call reply := by
  let _ := Deps.concrete
  have hplay : (Env.calm true).leads [.alone 1 allOk (.openWith LsmConfig.default ⟨true, false⟩),
      .alone 1 allOk (.put [1] [7]), .start 1 (.put [1] [8]), .start 2 (.delete [1]), .acts 1 [.ok, .ok, .ok]]
      (fun c => c.world.spec.cur [1] = some [7] ∧ c.world.active.length = 2) = true := by
    decide +kernel
  obtain ⟨c, hreach, hc⟩ := Env.reach_leads hplay
  obtain ⟨hcur, hactive⟩ := of_decide_eq_true hc
  exact ⟨c, hreach, hcur, hactive, crash_keeps_what_was_read concrete_laws hreach [] (by decide) rfl⟩

end Mirror
end LsmDb
