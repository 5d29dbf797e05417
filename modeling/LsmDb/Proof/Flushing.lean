import LsmDb.Proof.Handles

/-! The write path: logging a group, applying it, and the flush that a write or a caller asks for. -/
namespace LsmDb
open Lib
set_option autoImplicit false

section Flushing
variable [Deps] {e : Env} {t : Tid} {a : Own} {h : Hold} {b : Build} {config : LsmConfig} {features : Features}
  {prior : List Entry} {E : Own → Error → Prop}

/-- Some I/O call may fail, or the environment is not one in which nothing is lost. -/
def Env.Trouble (e : Env) : Prop := e.ioFaults = true ∨ ∀ d, ¬ e.Good d

/-- A failed flush: only a thread that will drop the engine gets away with it. -/
def Env.Excused (e : Env) (a : Own) : Prop := e.Trouble ∧ (a.opener = true ∨ ∀ d, ¬ e.Good d)

theorem Env.Faulty.excused (hf : e.Faulty t a) (ht : t ≠ compactorTid) : e.Excused a := by
  unfold Env.Faulty at hf
  split_ifs at hf with ho
  · exact ⟨Or.inl hf, Or.inl (ho.resolve_left ht)⟩
  · have hno : ∀ d, ¬ e.Good d := by
      intro d hd
      have hflush := hd.flush
      rw [hf] at hflush
      simp at hflush
    exact ⟨Or.inr hno, Or.inr hno⟩

theorem Env.excused_of_not_good (hno : ∀ d, ¬ e.Good d) : e.Excused a := ⟨Or.inr hno, Or.inr hno⟩

theorem Env.Good.flushable {d : Bool} (hd : e.Good d) {x : Entry} (hx : e.Within x) : x.Flushable := by
  obtain ⟨l, hl, hle, _⟩ := hd.limit
  exact ⟨(hx l hl).1, (hx l hl).2.trans hle⟩

/-- Where a thread stands when it flushes. -/
def Own.Flushing (a : Own) (prior : List Entry) : Prop :=
  a.phase = .quiet ∧ a.opener = true ∨ a.phase = .pending [] prior ∨ ∃ ops, a.phase = .applied ops prior

theorem Own.Flushing.not_logged (hp : a.Flushing prior) (ops : List Entry) (prior' : List Entry) :
    a.phase ≠ .logged ops prior' := by
  rcases hp with ⟨hp, _⟩ | hp | ⟨ops', hp⟩ <;> rw [hp] <;> simp

/-! ## Rotating the log -/

theorem safe_rotate {Q : Own → Unit → Prop} (hm : a.mode = .live) (hh : a.hold = some h) (hbuf : h.buf = [])
    (hl : a.lost = false) (hf : ∀ d, e.Good d → features.durability = d)
    (hwal : ∀ d, e.Good d → e.ioFaults = false → h.walOpen = d) (hp : a.Flushing prior)
    (hok : ∀ b, (∀ d, e.Good d → e.ioFaults = false → b = d) → Q { a with hold := some { h with walOpen := b } } ())
    (herr : e.ioFaults = true → ∀ b err, E { a with hold := some { h with walOpen := b } } err) :
    SafeM e t Q E (rotate features) a := by
  unfold rotate
  by_cases hdur : features.durability = true
  · have hd : ∀ d, e.Good d → d = true := fun d hd => by rw [← hf d hd, hdur]
    rw [if_pos hdur]
    refine SafeM.perform (does_setWal hm hh ?_)
    -- with the log closed, every way out leaves `walOpen` false
    have hreopen : SafeM e t Q E
        (do
          io "reopen write-ahead log" (perform .walOpen)
          perform (.setWal true))
        { a with hold := some { h with walOpen := false } } := by
      refine SafeM.bind (SafeM.io (Does.safe (does_walOpen hm rfl ?_ fun hio => herr hio _ _)))
      refine SafeM.last (does_setWal (a := { a with hold := some { h with walOpen := false } })
        (h := { h with walOpen := false }) hm rfl (hok true ?_))
      exact fun d hg _ => (hd d hg).symm
    refine SafeM.perform (does_walRemove (h := { h with walOpen := false }) hm rfl hbuf hl hd hp hreopen hreopen ?_)
    exact fun hio => SafeM.bind (SafeM.throw (herr hio _ _))
  · rw [if_neg hdur]
    have hq := hok h.walOpen hwal
    have hsame : ({ a with hold := some { h with walOpen := h.walOpen } } : Own) = a := by rw [← hh]
    rw [hsame] at hq
    exact SafeM.pure hq

/-! ## Flushing -/

/-- The end of a flush: the log is rotated, and the compactor is called when there are runs enough. -/
theorem safe_endFlush {Q : Own → Unit → Prop} {n : ℕ} (hm : a.mode = .live) (hh : a.hold = some h) (hbuf : h.buf = [])
    (hmem : h.memtable.iter = []) (hnamed : e.statFaults = false → names h.runs = h.ns.map runFilename)
    (hl : a.lost = false) (hf : ∀ d, e.Good d → features.durability = d)
    (hwal : ∀ d, e.Good d → e.ioFaults = false → h.walOpen = d) (hp : a.Flushing prior)
    (hok : ∀ h', Releasable e a h' → h'.buf = [] → Q { a with hold := some h' } ())
    (herr : e.Trouble → ∀ h' err, Releasable e a h' → E { a with hold := some h' } err) :
    SafeM e t Q E (do rotate features; if config.compactionTrigger ≤ n then perform .signal) a := by
  have hrel : ∀ b, (∀ d, e.Good d → e.ioFaults = false → b = d) → Releasable e a { h with walOpen := b } :=
    fun _ hb => ⟨Or.inl (hbuf.trans hmem.symm), hnamed, hb, hp.not_logged⟩
  refine SafeM.bind (safe_rotate hm hh hbuf hl hf hwal hp ?_ ?_)
  · intro b hb
    by_cases htrig : config.compactionTrigger ≤ n
    · rw [if_pos htrig]
      exact SafeM.last (does_signal hm (hok _ (hrel b hb) hbuf))
    · rw [if_neg htrig]
      exact SafeM.pure (hok _ (hrel b hb) hbuf)
  · intro hio b err
    exact herr (Or.inl hio) _ err (hrel b fun d _ hno => by simp [hio] at hno)

/-- The run of a flush is listed and installed; `k` is what follows. -/
theorem safe_commitFlush {Q : Own → Unit → Prop} {b b' : Build} {r : SsTable} {q : ℕ} {k : M Unit}
    (hm : a.mode = .live) (hh : a.hold = some h) (hb : a.build = some b') (hbuilt : Built b b' h.buf r)
    (hnamed : e.statFaults = false → names h.runs = h.ns.map runFilename)
    (hl : a.lost = false) (ht : t ≠ compactorTid) (hin : a.inputs = []) (hq : q < 2 ^ 64)
    (hok : ∀ ns : List ℕ, names (r :: h.runs) = ns.map runFilename →
      SafeM e t Q E k { a with hold := some { h with runs := r :: h.runs, tmp := none, ns := ns, buf := [] }, build := none })
    (herr : e.Faulty t a → ∀ x err, E { a with hold := some { h with tmp := x } } err) :
    SafeM e t Q E
      (do
        storeManifest q (names (r :: h.runs))
        perform (.install [] (r :: h.runs))
        k) a := by
  refine SafeM.bind (safe_storeManifest hm hh ?_ herr)
  intro Q' hdone hfail
  refine does_commit_flush (a := { a with
      hold := some { h with tmp := some (.text (manifestText q (names (r :: h.runs)))) } })
    (h := { h with tmp := some (.text (manifestText q (names (r :: h.runs)))) }) hm rfl hb hbuilt.run hbuilt.entries
    hbuilt.table ht hl hnamed hq rfl ?_ fun hfault => hfail _ hfault
  intro ns hns
  have hinst := hok ns hns
  rw [hin] at hinst
  refine hdone _ (SafeM.perform (does_install (r := r) (b := { b' with committed := true }) hm rfl rfl hbuilt.table
    ?_ ?_ ?_ ?_ hns ?_ ?_ hinst))
  · exact fun x hx => (List.mem_cons.mp hx).symm
  · exact fun hr hnd => List.nodup_cons.mpr ⟨hr, hnd⟩
  · simp
  · simp
  · exact fun _ => List.suffix_cons r h.runs
  · exact fun hc => absurd hc ht

theorem safe_flushLocked {Q : Own → Unit → Prop} (hm : a.mode = .live) (hh : a.hold = some h)
    (hset : Settled e h) (hl : a.lost = false) (ht : t ≠ compactorTid)
    (hf : ∀ d, e.Good d → features.durability = d) (hin : a.inputs = []) (hp : a.Flushing prior)
    (hok : ∀ h' x, Releasable e a h' → h'.buf = [] → Q { a with hold := some h', build := x } ())
    (herr : e.Trouble → ∀ h' x err, Releasable e a h' → E { a with hold := some h', build := x } err) :
    SafeM e t Q E (flushLocked config features) a := by
  have hgive : e.Excused a → ∀ tmp x err,
      E { a with hold := some { h with memtable := MemTable.new, tmp := tmp }, build := x } err := by
    intro hex tmp x err
    exact herr hex.1 _ x err ⟨Or.inr ⟨rfl, hex.2⟩, hset.named, hset.wal, hp.not_logged⟩
  unfold flushLocked
  refine SafeM.perform (does_take hm hh ?_)
  refine SafeM.perform (does_fetchAdd hm fun b hres => ?_)
  rw [← hset.buf]
  refine SafeM.bind (safe_buildRun (F := ∃ d, e.Good d) (b := b) hm rfl hres ?_ ?_ ?_ ?_ ?_)
  · intro _
    rw [hset.buf]
    exact h.memtable.iter_ascending
  · rintro ⟨d, hd⟩ x hx
    exact hd.flushable (hset.within d hd x hx)
  · exact fun laws => covers_build laws _ _ _
  · intro b' r hbuilt _
    refine SafeM.perform (does_inner (h := { h with memtable := MemTable.new }) hm rfl ?_)
    refine SafeM.perform (does_loadSeq hm fun q hq => ?_)
    refine safe_commitFlush (h := { h with memtable := MemTable.new }) hm rfl rfl hbuilt hset.named hl ht hin hq ?_ ?_
    · intro ns hns
      refine safe_endFlush (h := { h with
          memtable := MemTable.new, runs := r :: h.runs, tmp := none, ns := ns, buf := [] })
        hm rfl rfl rfl (fun _ => hns) hl hf hset.wal hp ?_ ?_
      · exact fun h' hrel hbuf => hok h' none ⟨hrel.buf, hrel.named, hrel.wal, hrel.phase⟩ hbuf
      · exact fun htr h' err hrel => herr htr h' none err ⟨hrel.buf, hrel.named, hrel.wal, hrel.phase⟩
    · exact fun hfault tmp err => hgive (hfault.excused ht) tmp _ err
  · intro hbad x err
    refine hgive ?_ h.tmp x err
    rcases hbad with hfault | hno | hnone | hlaws
    · exact hfault.excused ht
    · exact Env.excused_of_not_good fun d hd => hno ⟨d, hd⟩
    · exact absurd rfl hnone
    · exact Env.excused_of_not_good fun d hd => hlaws hd.laws

/-! ## Around the write lock -/

/-- With an empty buffer everything applied is in the listed runs. -/
theorem Running.save {g : Ghost} {w : World} {A : Tid → Own} (hr : Running e g w A) (hm : (A t).mode = .live)
    (hh : (A t).hold = some h) (hbuf : h.buf = []) (hl : (A t).lost = false) (hp : (A t).phase = .pending [] prior) :
    Running e g w (Function.update A t { A t with phase := .saved }) := by
  have hmir := (hr.crew.threads t).mirrors h hh
  have heq : ({ A t with phase := .saved } : Own) = { A t with hold := some h, phase := .saved } := by rw [← hh]
  rw [heq]
  refine ⟨hr.session, hr.crew.holding hm hh ?_ ⟨rfl, rfl, rfl, rfl⟩ rfl hmir (by simp) ?_⟩
  · exact ⟨rfl, rfl, rfl, rfl, rfl, rfl, fun _ _ _ => rfl, rfl, rfl, rfl⟩
  · intro d hd hseq
    refine (hr.crew.told d hd hseq).save hp fun hf => ?_
    rw [(hr.session.durable d hd).flushed hf, (hr.session.view d hd).cur (hr.not_lost hm hl hd), hmir.buf, hbuf]
    funext k
    exact (resolve_nil_cons Record.live _ k).symm

/-- The lock can be released, and the thread is in phase `p` from then on. -/
structure Unlocks (e : Env) (a : Own) (h : Hold) (p : Phase) : Prop where
  mode : a.mode = .live
  hold : a.hold = some h
  rel : Releasable e a h
  phase : p = a.phase ∨ p = .saved ∧ h.buf = [] ∧ a.lost = false ∧ ∃ prior, a.phase = .pending [] prior

theorem does_unlock_to {Q : Own → Unit → Prop} {p : Phase} (hu : Unlocks e a h p)
    (hq : ∀ l, (h.buf = h.memtable.iter → l = a.lost) → Q { a with hold := none, lost := l, phase := p } ()) :
    Does e t .unlock a Q := by
  rcases hu.phase with rfl | ⟨rfl, hbuf, hl, prior, hp⟩
  · exact does_unlock hu.mode hu.hold hu.rel hq
  · intro w A hinv ha
    obtain ⟨g, hr⟩ := hinv.running (t := t) (by rw [ha]; exact hu.mode)
    subst ha
    have hsave := hr.save hu.mode hu.hold hbuf hl hp
    obtain ⟨hg, hstep⟩ := does_unlock (t := t) (a := { A t with phase := .saved }) (Q := Q) hu.mode hu.hold
      ⟨hu.rel.buf, hu.rel.named, hu.rel.wal, by simp⟩ hq w _ ⟨g, Or.inl hsave⟩ (Function.update_self ..)
    refine ⟨hg, fun c r w' hc hx => ?_⟩
    obtain ⟨a', hinv', hqa⟩ := hstep c r w' hc hx
    rw [Function.update_idem] at hinv'
    exact ⟨a', hinv', hqa⟩

variable {α : Type}

/-- What a body under the lock must leave for a postcondition to hold behind the lock. -/
def Leaves (e : Env) (Q : Own → α → Prop) (a : Own) (v : α) : Prop :=
  ∃ h p, Unlocks e a h p ∧
    ∀ l, (h.buf = h.memtable.iter → l = a.lost) → Q { a with hold := none, lost := l, phase := p } v

theorem safe_withGuard {Q : Own → α → Prop} {body : M α} (hm : a.mode = .live) (hh : a.hold = none)
    (hbody : ∀ h, Settled e h → a.inputs.map Prod.fst <:+ h.runs →
      SafeM e t (Leaves e Q) (Leaves e E) body { a with hold := some h }) :
    SafeM e t Q E (withGuard body) a := by
  refine SafeP.perform (does_lock hm hh fun h hset hsuf => ?_)
  refine SafeP.bind (Logic.Safe.mono (hbody h hset hsuf) ?_)
  intro a' r hr
  refine SafeP.perform ?_
  cases r with
  | ok v =>
    obtain ⟨h', p, hu, hq⟩ := hr
    exact does_unlock_to hu fun l hl => SafeP.pure (hq l hl)
  | error err =>
    obtain ⟨h', p, hu, hq⟩ := hr
    exact does_unlock_to hu fun l hl => SafeP.pure (hq l hl)

theorem Releasable.iter_nil (hrel : Releasable e a h) (hbuf : h.buf = []) : h.memtable.iter = [] := by
  rcases hrel.buf with heq | ⟨hnil, _⟩
  · rw [← heq, hbuf]
  · exact hnil

/-- The memtable goes to a run if there is anything in it; a client's flush leaves nothing unsaved. -/
theorem safe_flush {Q : Own → Unit → Prop} {p : Phase} (hm : a.mode = .live) (hh : a.hold = none)
    (hl : a.lost = false) (ht : t ≠ compactorTid) (hf : ∀ d, e.Good d → features.durability = d) (hin : a.inputs = [])
    (hp : (a.phase = .quiet ∧ a.opener = true) ∧ p = .quiet ∨ a.phase = .pending [] prior ∧ p = .saved)
    (hok : ∀ x, Q { a with build := x, phase := p } ())
    (herr : e.Trouble → ∀ x l err, E { a with build := x, lost := l } err) :
    SafeM e t Q E (flush config features) a := by
  have hfl : a.Flushing prior := by
    rcases hp with ⟨hp, _⟩ | ⟨hp, _⟩
    · exact Or.inl hp
    · exact Or.inr (Or.inl hp)
  -- behind the lock with an empty buffer
  have hdone : ∀ h' x, Releasable e a h' → h'.buf = [] →
      Leaves e Q { a with hold := some h', build := x } () := by
    intro h' x hrel hbuf
    refine ⟨h', p, ⟨hm, rfl, ⟨hrel.buf, hrel.named, hrel.wal, hrel.phase⟩, ?_⟩, ?_⟩
    · rcases hp with ⟨⟨hp, _⟩, rfl⟩ | ⟨hp, rfl⟩
      · exact Or.inl hp.symm
      · exact Or.inr ⟨rfl, hbuf, hl, prior, hp⟩
    · intro l hlost
      have hla : l = a.lost := hlost (by rw [hbuf, hrel.iter_nil hbuf])
      rw [hla, ← hh]
      exact hok x
  refine safe_withGuard hm hh fun h hset _ => ?_
  refine SafeM.perform (does_inner hm rfl ?_)
  by_cases hempty : h.memtable.isEmpty = true
  · rw [if_pos hempty]
    have hnil := (MemTable.isEmpty_iff _).mp hempty
    exact SafeM.pure (hdone h a.build ⟨Or.inl hset.buf, hset.named, hset.wal, hfl.not_logged⟩ (hset.buf.trans hnil))
  · rw [if_neg hempty]
    refine safe_flushLocked hm rfl hset hl ht hf hin hfl ?_ ?_
    · intro h' x hrel hbuf
      exact hdone h' x ⟨hrel.buf, hrel.named, hrel.wal, hrel.phase⟩ hbuf
    · intro htr h' x err hrel
      refine ⟨h', a.phase, ⟨hm, rfl, ⟨hrel.buf, hrel.named, hrel.wal, hrel.phase⟩, Or.inl rfl⟩, fun l _ => ?_⟩
      rw [← hh]
      exact herr htr x l err

/-! ## Writes -/

theorem safe_logOps {Q : Own → Unit → Prop} {ops : List Entry} (hm : a.mode = .live) (hh : a.hold = some h)
    (hp : a.phase = .pending ops prior) (hwal : ∀ d, e.Good d → e.ioFaults = false → h.walOpen = d)
    (hf : ∀ d, e.Good d → features.durability = d) (hops : e.Good true → LogSized ops ∧ ∀ x ∈ ops, e.Within x)
    (hok : ∀ p, (p = .logged ops prior ∨ p = .pending ops prior ∧ ∀ d, e.Good d → d = false) →
      Q { a with phase := p } ())
    (herr : e.Trouble → ∀ p err, (∀ ops prior, p ≠ .logged ops prior) → E { a with phase := p } err) :
    SafeM e t Q E (logOps features ops) a := by
  unfold logOps
  by_cases hdur : features.durability = true
  · have hd : ∀ d, e.Good d → d = true := fun d hd => by rw [← hf d hd, hdur]
    rw [if_pos hdur]
    refine SafeM.perform (does_inner hm hh ?_)
    have hgo : SafeM e t Q E (io "append to write-ahead log" (perform (.walAppend ops))) a := by
      refine SafeM.io (Does.safe (does_walAppend hm hh hp hd hops (hok _ (Or.inl rfl)) ?_))
      exact fun hio p hp' => herr (Or.inl hio) p _ hp'
    by_cases hopen : h.walOpen = false
    · have htr : e.Trouble := by
        by_contra hno
        simp only [Env.Trouble, not_or, Bool.not_eq_true, not_forall, not_not] at hno
        obtain ⟨hio, d, hg⟩ := hno
        have heq := hwal d hg hio
        rw [hd d hg, hopen] at heq
        simp at heq
      simp only [hopen, if_true]
      refine SafeM.bind (SafeM.throw ?_)
      have herr' := herr htr a.phase (.corruption "write-ahead log not open") (by rw [hp]; simp)
      exact herr'
    · simp only [hopen]
      exact hgo
  · rw [if_neg hdur]
    have hq := hok a.phase (Or.inr ⟨hp, fun d hg => by rw [← hf d hg]; simpa using hdur⟩)
    exact SafeM.pure hq

theorem Settled.apply {ops : List Entry} (hset : Settled e h) (hw : ∀ x ∈ ops, e.Within x) :
    Settled e { h with memtable := h.memtable.applyAll ops, buf := (h.memtable.applyAll ops).iter } where
  buf := rfl
  within d hd x hx := by
    rw [MemTable.iter_applyAll, ← hset.buf] at hx
    rcases mem_insertAll hx with hx | hx
    · exact hw x hx
    · exact hset.within d hd x hx
  named := hset.named
  ids := hset.ids
  wal := hset.wal

/-- `put`, `delete` and `write`: the records are logged, applied, and flushed when the memtable is full. -/
theorem safe_writeOps {Q : Own → Unit → Prop} {ops : List Entry} (hm : a.mode = .live) (hh : a.hold = none)
    (hl : a.lost = false) (ht : t ≠ compactorTid) (hf : ∀ d, e.Good d → features.durability = d) (hin : a.inputs = [])
    (hp : a.phase = .pending ops prior) (hops : e.Good true → LogSized ops) (hw : ∀ x ∈ ops, e.Within x)
    (hok : ∀ x, Q { a with build := x, phase := .applied ops prior } ())
    (herr : e.Trouble → ∀ x l p err, E { a with build := x, lost := l, phase := p } err) :
    SafeM e t Q E (writeOps config features ops) a := by
  refine safe_withGuard hm hh fun h hset _ => ?_
  refine SafeM.bind (safe_logOps hm rfl hp hset.wal hf (fun hg => ⟨hops hg, hw⟩) ?_ ?_)
  · intro p hpp
    refine SafeM.perform (does_apply hm rfl hset.buf hw hpp ?_)
    have hset' := hset.apply hw
    have hfl : Own.Flushing { a with phase := .applied ops prior } prior := Or.inr (Or.inr ⟨ops, rfl⟩)
    have hleave : ∀ h' x, Releasable e { a with phase := .applied ops prior } h' → h'.buf = h'.memtable.iter →
        Leaves e Q { a with hold := some h', build := x, phase := .applied ops prior } () := by
      intro h' x hrel hbuf
      refine ⟨h', _, ⟨hm, rfl, ⟨hrel.buf, hrel.named, hrel.wal, hrel.phase⟩, Or.inl rfl⟩, fun l hlost => ?_⟩
      have hla : l = a.lost := hlost hbuf
      rw [hla, ← hh]
      exact hok x
    refine SafeM.perform (does_inner hm rfl ?_)
    split_ifs with hfull
    · refine safe_flushLocked hm rfl hset' hl ht hf hin hfl ?_ ?_
      · intro h' x hrel hbuf
        refine hleave h' x ⟨hrel.buf, hrel.named, hrel.wal, hrel.phase⟩ ?_
        rw [hbuf, hrel.iter_nil hbuf]
      · intro htr h' x err hrel
        refine ⟨h', _, ⟨hm, rfl, ⟨hrel.buf, hrel.named, hrel.wal, hrel.phase⟩, Or.inl rfl⟩, fun l _ => ?_⟩
        rw [← hh]
        exact herr htr x l _ err
    · exact SafeM.pure (hleave _ a.build ⟨Or.inl rfl, hset'.named, hset'.wal, hfl.not_logged⟩ rfl)
  · intro htr p err hpp
    refine ⟨h, p, ⟨hm, rfl, ⟨Or.inl hset.buf, hset.named, hset.wal, hpp⟩, Or.inl rfl⟩, fun l _ => ?_⟩
    rw [← hh]
    exact herr htr a.build l p err

end Flushing
end LsmDb
