import LsmDb.Proof.Lock

/-! The log, the memtable and the history: how acknowledged, applied and logged writes move together. -/
namespace LsmDb
open Lib
set_option autoImplicit false

theorem apply_of_notMem {ops : List Entry} {k : Bytes} (h : k ∉ ops.map Prod.fst) (m : Store) : m.apply ops k = m k :=
  write_of_notMem Record.live h m

theorem apply_of_mem {ops : List Entry} {k : Bytes} (h : k ∈ ops.map Prod.fst) (m m' : Store) : m.apply ops k = m'.apply ops k :=
  write_of_mem Record.live h m m'

/-- Applying the same writes to stores that agree on a key, or writing the key. -/
theorem apply_congr {ops : List Entry} {k : Bytes} {m m' : Store} (h : m k = m' k ∨ k ∈ ops.map Prod.fst) :
    m.apply ops k = m'.apply ops k := by
  by_cases hk : k ∈ ops.map Prod.fst
  · exact apply_of_mem hk m m'
  · rw [apply_of_notMem hk, apply_of_notMem hk]
    exact h.resolve_right hk

section Told
variable [Deps] {e : Env} {d : Bool} {s s' : Spec} {phase : Tid → Phase} {t : Tid} {p : Phase}
  {ops : List Entry} {prior : List Entry}

theorem Told.others (h : Told e d s phase) (hp : phase t ≠ .quiet) {t' : Tid} (ht : t' ≠ t) :
    phase t' = .quiet := by
  by_contra hne
  exact ht (h.solo t' t hne hp)

theorem Told.client (h : Told e d s phase) (hp : phase t ≠ .quiet) : t ≠ compactorTid := by
  rintro rfl
  exact hp h.compactor

/-- One thread's phase changes while all others are quiet. -/
theorem Told.move (hq : ∀ t', t' ≠ t → phase t' = .quiet) (hc : t = compactorTid → p = .quiet)
    (hagree : ∀ k, k ∉ s.unsure.map Prod.fst → s.cur k = s.acked k ∧ (d = true → s.logged k = s.acked k))
    (hp : p.Holds d s) (hsure : e.ioFaults = false → p.Sure s ∧ (p = .quiet → s.unsure = [])) :
    Told e d s (Function.update phase t p) where
  solo t₁ t₂ h₁ h₂ := by
    have hone : ∀ x, Function.update phase t p x ≠ .quiet → x = t := by
      intro x hx
      by_contra hne
      rw [Function.update_of_ne hne] at hx
      exact hx (hq x hne)
    rw [hone t₁ h₁, hone t₂ h₂]
  compactor := by
    by_cases ht : compactorTid = t
    · rw [ht, Function.update_self]
      exact hc ht.symm
    · rw [Function.update_of_ne ht]
      exact hq compactorTid ht
  agree := hagree
  holds x := by
    by_cases hx : x = t
    · subst hx
      rwa [Function.update_self]
    · rw [Function.update_of_ne hx, hq x hx]
      trivial
  sure hio := by
    refine ⟨fun x => ?_, fun hall => ?_⟩
    · by_cases hx : x = t
      · subst hx
        rw [Function.update_self]
        exact (hsure hio).1
      · rw [Function.update_of_ne hx, hq x hx]
        trivial
    · have ht := hall t
      rw [Function.update_self] at ht
      exact (hsure hio).2 ht

theorem Told.log (h : Told e d s phase) (hp : phase t = .pending ops prior) :
    Told e d { s with logged := s.logged.apply ops } (Function.update phase t (.logged ops prior)) := by
  obtain ⟨hun, hpend⟩ := hp ▸ h.holds t
  have hne : phase t ≠ .quiet := by rw [hp]; simp
  refine Told.move (fun t' ht => h.others hne ht) (fun hc => absurd hc (h.client hne)) ?_ ⟨hun, ?_, ?_⟩ ?_
  · intro k hk
    have hnot : k ∉ ops.map Prod.fst := fun hm => hk (by show k ∈ s.unsure.map Prod.fst; rw [hun]; simp [hm])
    refine ⟨(h.agree k hk).1, fun hd => ?_⟩
    show s.logged.apply ops k = s.acked k
    rw [apply_of_notMem hnot]
    exact (h.agree k hk).2 hd
  · exact fun k hk => (hpend k hk).1
  · intro hd k hk
    refine apply_congr ?_
    rcases hk with hk | hk
    · exact Or.inl ((hpend k hk).2 hd)
    · exact Or.inr hk
  · intro hio
    have hs := (h.sure hio).1 t
    rw [hp] at hs
    exact ⟨hs, fun hq => by simp at hq⟩

/-- An append that reports an error may still have reached the log. -/
theorem Told.log_failed (h : Told e d s phase) (hp : phase t = .pending ops prior) (hio : e.ioFaults = true) :
    Told e d { s with logged := s.logged.apply ops } (Function.update phase t .quiet) := by
  obtain ⟨hun, _⟩ := hp ▸ h.holds t
  refine Told.move (fun t' ht => h.others (by rw [hp]; simp) ht) (fun _ => rfl) ?_ trivial
    (fun hf => by simp [hio] at hf)
  intro k hk
  have hnot : k ∉ ops.map Prod.fst := fun hm => hk (by show k ∈ s.unsure.map Prod.fst; rw [hun]; simp [hm])
  refine ⟨(h.agree k hk).1, fun hd => ?_⟩
  show s.logged.apply ops k = s.acked k
  rw [apply_of_notMem hnot]
  exact (h.agree k hk).2 hd

theorem Told.apply (h : Told e d s phase)
    (hp : phase t = .logged ops prior ∨ phase t = .pending ops prior ∧ d = false) :
    Told e d { s with cur := s.cur.apply ops } (Function.update phase t (.applied ops prior)) := by
  have hne : phase t ≠ .quiet := by
    rcases hp with hp | ⟨hp, _⟩ <;> rw [hp] <;> simp
  have hun : s.unsure = ops ++ prior := by
    have hh := h.holds t
    rcases hp with hp | ⟨hp, _⟩ <;> rw [hp] at hh <;> exact hh.1
  have hcur : ∀ k, k ∉ prior.map Prod.fst → s.cur k = s.acked k := by
    have hh := h.holds t
    rcases hp with hp | ⟨hp, _⟩ <;> rw [hp] at hh
    · exact hh.2.1
    · exact fun k hk => (hh.2 k hk).1
  have hlog : d = true → ∀ k, k ∉ prior.map Prod.fst ∨ k ∈ ops.map Prod.fst → s.logged k = s.acked.apply ops k := by
    have hh := h.holds t
    rcases hp with hp | ⟨_, hd⟩
    · rw [hp] at hh
      exact hh.2.2
    · simp [hd]
  refine Told.move (fun t' ht => h.others hne ht) (fun hc => absurd hc (h.client hne)) ?_ ⟨hun, ?_⟩ ?_
  · intro k hk
    have hnot : k ∉ ops.map Prod.fst := fun hm => hk (by show k ∈ s.unsure.map Prod.fst; rw [hun]; simp [hm])
    refine ⟨?_, (h.agree k hk).2⟩
    show s.cur.apply ops k = s.acked k
    rw [apply_of_notMem hnot]
    exact (h.agree k hk).1
  · intro k hk
    refine ⟨apply_congr ?_, fun hd => hlog hd k hk⟩
    exact hk.imp (hcur k) id
  · intro hio
    have hs := (h.sure hio).1 t
    rcases hp with hp | ⟨hp, _⟩ <;> rw [hp] at hs <;> exact ⟨hs, fun hq => by simp at hq⟩

/-- The log is emptied once everything applied is in a listed run. -/
theorem Told.rotate (h : Told e d s phase) (hq : ∀ t', t' ≠ t → phase t' = .quiet)
    (hp : phase t = .quiet ∨ phase t = .pending [] prior ∨ ∃ ops, phase t = .applied ops prior) :
    Told e d { s with logged := s.cur } phase := by
  have hmove : Told e d { s with logged := s.cur } (Function.update phase t (phase t)) := by
    refine Told.move hq (fun hc => by rw [hc]; exact h.compactor)
      (fun k hk => ⟨(h.agree k hk).1, fun _ => (h.agree k hk).1⟩) ?_ ?_
    · have hh := h.holds t
      rcases hp with hp | hp | ⟨ops, hp⟩ <;> rw [hp] at hh ⊢
      · trivial
      · exact ⟨hh.1, fun k hk => ⟨(hh.2 k hk).1, fun _ => (hh.2 k hk).1⟩⟩
      · exact ⟨hh.1, fun k hk => ⟨(hh.2 k hk).1, fun _ => (hh.2 k hk).1⟩⟩
    · intro hio
      refine ⟨?_, fun hpq => ?_⟩
      · have hs := (h.sure hio).1 t
        rcases hp with hp | hp | ⟨ops, hp⟩ <;> rw [hp] at hs ⊢ <;> exact hs
      · refine (h.sure hio).2 fun x => ?_
        by_cases hx : x = t
        · rw [hx, hpq]
        · exact hq x hx
  rwa [Function.update_eq_self] at hmove

/-- A flush that committed leaves nothing to save. -/
theorem Told.save (h : Told e d s phase) (hp : phase t = .pending [] prior)
    (hs : d = false → s.flushed = s.cur) : Told e d s (Function.update phase t .saved) := by
  obtain ⟨hun, _⟩ := hp ▸ h.holds t
  have hne : phase t ≠ .quiet := by rw [hp]; simp
  refine Told.move (fun t' ht => h.others hne ht) (fun hc => absurd hc (h.client hne)) h.agree hs ?_
  intro hio
  have hsure := (h.sure hio).1 t
  rw [hp] at hsure
  have hprior : prior = [] := hsure
  refine ⟨?_, fun hq => by simp at hq⟩
  show s.unsure = []
  rw [hun, hprior]
  rfl

end Told

section Log
variable [Deps] {e : Env} {g g' : Ghost} {w w' : World} {A : Tid → Own} {t : Tid} {a : Own} {h : Hold}
  {ops : List Entry} {prior : List Entry}

/-- Unless the thread itself dropped the buffer, nothing is lost. -/
theorem Running.not_lost (hr : Running e g w A) (hm : (A t).mode = .live) (hl : (A t).lost = false) {d : Bool}
    (hd : e.Good d) : g.lost = false := by
  by_contra hne
  have hlost : g.lost = true := by simpa using hne
  obtain ⟨t', ho⟩ := Option.ne_none_iff_exists'.mp ((hr.session.lost hlost).resolve_right fun hn => hn d hd)
  by_cases ht : t' = t
  · subst ht
    have heq := (hr.crew.threads t').lost ((hr.crew.shared.opener t').mpr ho)
    rw [hlost, hl] at heq
    simp at heq
  · have hi := hr.crew.shared.alone t' ho t (Ne.symm ht)
    rw [hm] at hi
    simp at hi

omit [Deps] in
theorem log_concat (g : Ghost) (ops : List Entry) :
    ({ g with groups := g.groups ++ [ops] } : Ghost).log = insertAll ops g.log := by
  simp only [Ghost.log, List.flatten_append, List.flatten_singleton, insertAll_append]

/-- A group joins the log; `p` is the phase the thread is in afterwards. -/
theorem Running.append (hr : Running e g w A) (hm : (A t).mode = .live) (hh : (A t).hold = some h)
    (hd : ∀ d, e.Good d → d = true) (hops : e.Good true → LogSized ops ∧ ∀ x ∈ ops, e.Within x) {p : Phase}
    (hp : ∀ ops' prior, p = .logged ops' prior → ops' = ops)
    (htold : ∀ d, e.Good d → e.sequential = true →
      Told e d { w.spec with logged := w.spec.logged.apply ops }
        (Function.update (fun t' => (A t').phase) t p)) {log : Deps.Wal}
    (hlog : Deps.walIter log = logRecords w.wal ++ [encodeLog ops]) :
    Running e { g with groups := g.groups ++ [ops] } (w.appended log ops)
      (Function.update A t { A t with phase := p }) where
  session := { hr.session with
    durable := fun d hg => { hr.session.durable d hg with
      flushed := fun hf => by rw [hd d hg] at hf; simp at hf
      log := fun ht => by
        have hl := (hr.session.durable d hg).log ht
        show Deps.walIter log = _
        rw [hlog, hl, List.map_append, List.map_singleton]
      sized := fun ht x hx => by
        rcases List.mem_append.mp hx with hx | hx
        · exact (hr.session.durable d hg).sized ht x hx
        · rw [List.mem_singleton.mp hx]
          subst ht
          exact hops hg
      logged := fun ht => by
        have hl := (hr.session.durable d hg).logged ht
        show w.spec.logged.apply ops = _
        rw [hl, log_concat]
        exact (resolve_insertAll Record.live ops g.log g.layers).symm }
    view := fun d hg => { hr.session.view d hg with
      shadow := fun ht k hk => by
        rw [log_concat] at hk
        exact (hr.session.view d hg).shadow ht k (find_insertAll_none hk) } }
  crew := by
    have hmir := (hr.crew.threads t).mirrors h hh
    have hsame : ({ A t with phase := p } : Own) = { A t with hold := some h, phase := p } := by rw [← hh]
    rw [hsame]
    refine hr.crew.holding hm hh ?_ ?_ ?_ ?_ ?_ htold
    · exact ⟨rfl, rfl, rfl, rfl, rfl, rfl, fun _ _ _ => rfl, rfl, rfl, rfl⟩
    · exact ⟨rfl, rfl, rfl, rfl⟩
    · rfl
    · exact { hmir with }
    · intro _ ops' prior hp' x hx
      rw [log_concat]
      rw [hp ops' prior hp'] at hx
      exact find_insertAll_of_mem hx

theorem does_walAppend {Q : Own → Except IoError Unit → Prop} (hm : a.mode = .live) (hh : a.hold = some h)
    (hp : a.phase = .pending ops prior) (hd : ∀ d, e.Good d → d = true)
    (hops : e.Good true → LogSized ops ∧ ∀ x ∈ ops, e.Within x)
    (hok : Q { a with phase := .logged ops prior } (.ok ()))
    (herr : e.ioFaults = true → ∀ p, (∀ ops prior, p ≠ .logged ops prior) →
      Q { a with phase := p } (.error .other)) :
    Does e t (.walAppend ops) a Q := by
  refine Does.live hm ?_
  intro g w A hr ha
  subst ha
  refine ⟨trivial, fun c r w' hc hx => ?_⟩
  have hfault : (Act.walAppend ops).fails w c = true → e.ioFaults = true := fun hf => by
    simpa [Env.allowsAct, hf] using hc
  rcases exec_walAppend hx with ⟨rfl, rfl, hf⟩ | ⟨log, hlog, rfl, rfl | ⟨rfl, hf⟩⟩
  · refine ⟨g, A t, by rwa [Function.update_eq_self], herr (hfault hf) (A t).phase ?_⟩
    rw [hp]
    simp
  · exact ⟨_, _, hr.append hm hh hd hops (p := .logged ops prior) (by simp)
      (fun d hg hseq => (hr.crew.told d hg hseq).log hp) hlog, hok⟩
  · exact ⟨_, _, hr.append hm hh hd hops (p := .quiet) (by simp)
      (fun d hg hseq => (hr.crew.told d hg hseq).log_failed hp (hfault hf)) hlog, herr (hfault hf) .quiet (by simp)⟩

theorem does_apply {Q : Own → Unit → Prop} (hm : a.mode = .live) (hh : a.hold = some h)
    (hbuf : h.buf = h.memtable.iter) (hw : ∀ x ∈ ops, e.Within x)
    (hp : a.phase = .logged ops prior ∨ a.phase = .pending ops prior ∧ ∀ d, e.Good d → d = false)
    (hq : Q { a with
      hold := some { h with memtable := h.memtable.applyAll ops, buf := (h.memtable.applyAll ops).iter }
      phase := .applied ops prior } ()) : Does e t (.apply ops) a Q := by
  refine Does.live hm ?_
  intro g w A hr ha
  subst ha
  have hmir := (hr.crew.threads t).mirrors h hh
  have hlock : w.lock ≠ none := by simp [(hr.crew.threads t).holder.mpr (by simp [hh])]
  have hgb : g.buf = h.memtable.iter := by rw [hmir.buf, hbuf]
  refine ⟨trivial, fun c r w' _ hx => ?_⟩
  simp only [exec, Option.some.injEq, Prod.mk.injEq] at hx
  obtain ⟨_, rfl⟩ := hx
  refine ⟨{ g with buf := insertAll ops g.buf }, _, ⟨?_, ?_⟩, hq⟩
  · exact { hr.session with
      durable := fun d hg => { hr.session.durable d hg with }
      buf := fun hn => absurd hn hlock
      view := fun d hg => { hr.session.view d hg with
        within := fun x hx => by
          rcases mem_insertAll hx with hx | hx
          · exact hw x hx
          · exact (hr.session.view d hg).within x hx
        cur := fun hl => by
          show w.spec.cur.apply ops = _
          rw [(hr.session.view d hg).cur hl]
          exact (resolve_insertAll Record.live ops g.buf g.layers).symm
        shadow := fun ht k hk => by
          -- the group is in the log already, or there is no log
          rcases hp with hp | ⟨_, hno⟩
          · subst ht
            have hlog := ((hr.crew.threads t).logged ops prior hp).2 hg
            have hnot : k ∉ ops.map Prod.fst := by
              intro hkm
              obtain ⟨x, hx, rfl⟩ := List.mem_map.mp hkm
              exact hlog x hx hk
            rw [find_insertAll_notMem hnot]
            exact (hr.session.view true hg).shadow rfl k hk
          · rw [hno d hg] at ht
            simp at ht } }
  · refine hr.crew.holding hm hh ?_ ?_ ?_ ?_ ?_ ?_
    · exact ⟨rfl, rfl, rfl, rfl, rfl, rfl, fun _ _ _ => rfl, rfl, rfl, rfl⟩
    · exact ⟨rfl, rfl, rfl, rfl⟩
    · rfl
    · refine { hmir with memtable := by rw [hmir.memtable], buf := ?_ }
      show insertAll ops g.buf = _
      rw [MemTable.iter_applyAll, hgb]
    · simp
    · intro d hg hseq
      exact (hr.crew.told d hg hseq).apply (hp.imp_right fun hp => ⟨hp.1, hp.2 d hg⟩)

/-- The log goes once the buffer is in a listed run. -/
theorem does_walRemove {Q : Own → Except IoError Unit → Prop} (hm : a.mode = .live) (hh : a.hold = some h)
    (hbuf : h.buf = []) (hl : a.lost = false) (hd : ∀ d, e.Good d → d = true)
    (hp : a.phase = .quiet ∧ a.opener = true ∨ a.phase = .pending [] prior ∨ ∃ ops, a.phase = .applied ops prior)
    (hok : Q a (.ok ())) (hnone : Q a (.error .notFound))
    (herr : e.ioFaults = true → Q a (.error .other)) : Does e t .walRemove a Q := by
  refine Does.live hm ?_
  intro g w A hr ha
  subst ha
  have hmir := (hr.crew.threads t).mirrors h hh
  have hgb : g.buf = [] := by rw [hmir.buf, hbuf]
  refine ⟨trivial, fun c r w' hc hx => ?_⟩
  have hsame : Running e g w (Function.update A t (A t)) := by rwa [Function.update_eq_self]
  have hgone : Running e { g with groups := [] }
      { w with wal := none, spec := { w.spec with logged := w.spec.cur } } (Function.update A t (A t)) := by
    refine ⟨{ hr.session with
      durable := fun d hg => { hr.session.durable d hg with
        flushed := fun hf => by rw [hd d hg] at hf; simp at hf
        log := fun _ => rfl
        sized := fun _ x hx => by simp at hx
        logged := fun _ => by
          show w.spec.cur = _
          rw [(hr.session.view d hg).cur (hr.not_lost hm hl hg), hgb]
          rfl }
      view := fun d hg => { hr.session.view d hg with
        shadow := fun _ k _ => by show find g.buf k = none; rw [hgb]; rfl } }, ?_⟩
    have heq : A t = { A t with hold := some h, phase := (A t).phase } := by rw [← hh]
    rw [heq]
    refine hr.crew.holding hm hh ?_ ?_ ?_ ?_ ?_ ?_
    · exact ⟨rfl, rfl, rfl, rfl, rfl, rfl, fun _ _ _ => rfl, rfl, rfl, rfl⟩
    · exact ⟨rfl, rfl, rfl, rfl⟩
    · rfl
    · exact { hmir with }
    · intro _ ops prior' hlog
      rcases hp with ⟨hp, _⟩ | hp | ⟨ops', hp⟩ <;> rw [hp] at hlog <;> simp at hlog
    · intro d hg hseq
      have ht := hr.crew.told d hg hseq
      have hothers : ∀ t', t' ≠ t → (A t').phase = .quiet := by
        intro t' hne
        rcases hp with ⟨_, ho⟩ | hp | ⟨ops', hp⟩
        · have hi := hr.crew.shared.alone t ((hr.crew.shared.opener t).mp ho) t' hne
          rw [hr.crew.shared.resting t' hi]
          rfl
        · exact ht.others (by rw [hp]; simp) hne
        · exact ht.others (by rw [hp]; simp) hne
      have hrot := ht.rotate hothers (hp.imp_left And.left)
      rw [Function.update_eq_self]
      exact hrot
  have hgo : w.wal = none ∧ r = .error .notFound ∧ w' = w ∨
      r = .ok () ∧ w' = { w with wal := none, spec := { w.spec with logged := w.spec.cur } } ∨
      e.ioFaults = true ∧ r = .error .other ∧ w' = w := by
    cases c with
    | fail n =>
      have hio : e.ioFaults = true := by simpa [Env.allowsAct, Act.fails, Choice.faulty] using hc
      simp only [exec, Option.some.injEq, Prod.mk.injEq] at hx
      exact Or.inr (Or.inr ⟨hio, hx.1.symm, hx.2.symm⟩)
    | ok | order _ _ | faults _ =>
      cases hwal : w.wal <;> simp only [exec, hwal, Option.some.injEq, Prod.mk.injEq] at hx
      · exact Or.inl ⟨rfl, hx.1.symm, hx.2.symm⟩
      · exact Or.inr (Or.inl ⟨hx.1.symm, hx.2.symm⟩)
  rcases hgo with ⟨_, rfl, rfl⟩ | ⟨rfl, rfl⟩ | ⟨hio, rfl, rfl⟩
  · exact ⟨g, _, hsame, hnone⟩
  · exact ⟨_, _, hgone, hok⟩
  · exact ⟨g, _, hsame, herr hio⟩

/-- Opening the log creates the file when it is missing and keeps its records. -/
theorem does_walOpen {Q : Own → Except IoError Unit → Prop} (hm : a.mode = .live) (hh : a.hold = some h)
    (hok : Q a (.ok ())) (herr : e.ioFaults = true → Q a (.error .other)) : Does e t .walOpen a Q := by
  refine Does.live hm ?_
  intro g w A hr ha
  subst ha
  have hmir := (hr.crew.threads t).mirrors h hh
  refine ⟨trivial, fun c r w' hc hx => ?_⟩
  have hsame : Running e g w (Function.update A t (A t)) := by rwa [Function.update_eq_self]
  have hopen : Running e g { w with wal := some (w.wal.getD Deps.walNew) } (Function.update A t (A t)) := by
    refine ⟨{ hr.session with durable := fun d hg => (hr.session.durable d hg).opened }, ?_⟩
    have heq : A t = { A t with hold := some h } := by rw [← hh]
    rw [heq]
    exact hr.crew.holding_keep hm hh ⟨rfl, rfl, rfl, rfl, rfl, rfl, fun _ _ _ => rfl, rfl, rfl, rfl⟩
      ⟨rfl, rfl, rfl, rfl⟩ rfl rfl { hmir with }
  cases c with
  | fail n =>
    have hio : e.ioFaults = true := by simpa [Env.allowsAct, Act.fails, Choice.faulty] using hc
    cases n <;> simp only [exec, Option.some.injEq, Prod.mk.injEq] at hx <;> obtain ⟨rfl, rfl⟩ := hx
    · exact ⟨g, _, hsame, herr hio⟩
    · exact ⟨g, _, hopen, herr hio⟩
  | ok | order _ _ | faults _ =>
    simp only [exec, Option.some.injEq, Prod.mk.injEq] at hx
    obtain ⟨rfl, rfl⟩ := hx
    exact ⟨g, _, hopen, hok⟩

end Log
end LsmDb
