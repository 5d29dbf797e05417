import LsmDb.Proof.Commit

/-! Snapshots, the handles they hold, and the removal of a run nobody holds any more; the compactor's flags;
the block cache. -/
namespace LsmDb
open Lib
set_option autoImplicit false

section Handles
variable [Deps] {e : Env} {g : Ghost} {w w' : World} {A : Tid → Own} {t : Tid} {a : Own}

/-! ## Snapshots -/

theorem Told.same {d : Bool} {s s' : Spec} {phase : Tid → Phase} (h : Told e d s phase)
    (hcur : s'.cur = s.cur) (hflushed : s'.flushed = s.flushed) (hlogged : s'.logged = s.logged)
    (hacked : s'.acked = s.acked) (hunsure : s'.unsure = s.unsure) : Told e d s' phase := by
  obtain ⟨cur, flushed, logged, acked, unsure, seen⟩ := s'
  simp only at hcur hflushed hlogged hacked hunsure
  subst hcur hflushed hlogged hacked hunsure
  refine ⟨h.solo, h.compactor, h.agree, fun t => ?_, fun hio => ⟨fun t => ?_, (h.sure hio).2⟩⟩
  · have hh := h.holds t
    generalize phase t = p at hh ⊢
    cases p <;> exact hh
  · have hs := (h.sure hio).1 t
    generalize phase t = p at hs ⊢
    cases p <;> exact hs

/-- What a table of a snapshot holds. -/
structure Reads (r : SsTable) (es : List Entry) : Prop where
  table : ∃ bs, TableOf r es bs
  covers : BloomLaws → Covers r.filter es

/-- What a snapshot's runs hold, and that with the memtable they hold the reference store. -/
structure Snapshot (e : Env) (seen : Sight) (ess : List (List Entry)) : Prop where
  reads : List.Forall₂ Reads seen.runs ess
  cur : ∀ d, e.Good d → seen.cur = answer (seen.memtable.iter :: ess)
  within : ∀ d, e.Good d → ∀ es ∈ ess, ∀ x ∈ es, e.Within x

theorem Session.reads (hs : Session e g w) {l : List SsTable} {ns : List ℕ} (hl : ∀ r ∈ l, r ∈ w.known)
    (hns : names l = ns.map runFilename) : List.Forall₂ Reads l (ns.map g.content) := by
  induction l generalizing ns with
  | nil =>
    have hnil : ns = [] := by simpa [names] using hns.symm
    rw [hnil]
    exact List.Forall₂.nil
  | cons r l ih =>
    cases ns with
    | nil => simp [names] at hns
    | cons s ns =>
      simp only [names, List.map_cons, List.cons.injEq] at hns
      obtain ⟨s', _, hof⟩ := hs.known r (hl r (by simp))
      have hseq : s' = s := runFilename_injective (hof.name.symm.trans hns.1)
      subst hseq
      exact List.Forall₂.cons ⟨hof.table, hof.covers⟩ (ih (fun x hx => hl x (by simp [hx])) hns.2)

theorem Running.snap (hr : Running e g w A) (hm : (A t).mode = .live) (hlost : (A t).lost = false)
    (hlock : w.lock = none) :
    ∃ ns : List ℕ, names w.runs = ns.map runFilename ∧
      Snapshot e ⟨w.spec.cur, w.memtable, w.runs⟩ (ns.map g.content) := by
  have hs := hr.session
  obtain ⟨ns, hns⟩ := hs.exists_ns hs.runs_known
  have hgns : e.statFaults = false → ns = g.ns := fun hstat =>
    map_runFilename_injective (by rw [← hns, hs.named hstat hlock])
  refine ⟨ns, hns, hs.reads hs.runs_known hns, fun d hd => ?_, fun d hd es hes x hx => ?_⟩
  · rw [hgns hd.stat, ← hs.buf hlock]
    exact (hs.view d hd).cur (hr.not_lost hm hlost hd)
  · rw [hgns hd.stat] at hes
    obtain ⟨s, hmem, rfl⟩ := List.mem_map.mp hes
    exact (hs.durable d hd).within s hmem x hx

theorem filter_map_pair (runs : List SsTable) (held : List (Tid × SsTable)) (t' : Tid) :
    ((runs.map (t, ·) ++ held).filter fun h => h.1 = t').map Prod.snd =
      (if t = t' then runs else []) ++ (held.filter fun h => h.1 = t').map Prod.snd := by
  rw [List.filter_append, List.map_append]
  congr 1
  induction runs with
  | nil => simp
  | cons r runs ih =>
    by_cases ht : t = t'
    · simp only [List.map_cons, ht, decide_true, List.filter_cons_of_pos, if_true] at ih ⊢
      rw [ih]
    · simp only [List.map_cons, ht, decide_false, Bool.false_eq_true, not_false_eq_true,
        List.filter_cons_of_neg, if_false] at ih ⊢
      exact ih

theorem zip_content {content : ℕ → List Entry} {l : List SsTable} {ns : List ℕ}
    (hns : names l = ns.map runFilename) {x : SsTable × List Entry} (hx : x ∈ l.zip (ns.map content)) {s : ℕ}
    (hname : x.1.name = runFilename s) : content s = x.2 := by
  induction l generalizing ns with
  | nil => simp at hx
  | cons r l ih =>
    cases ns with
    | nil => simp [names] at hns
    | cons q ns =>
      simp only [names, List.map_cons, List.cons.injEq] at hns
      simp only [List.map_cons, List.zip_cons_cons, List.mem_cons] at hx
      rcases hx with rfl | hx
      · rw [runFilename_injective (hname.symm.trans hns.1)]
      · exact ih hns.2 hx

/-- A thread takes handles to the current runs. -/
theorem Running.snapshot (hr : Running e g w A) (hm : (A t).mode = .live) (hheld : (A t).held = [])
    {held : List SsTable} (hsub : ∀ r ∈ held, r ∈ w.runs) {inputs : List (SsTable × List Entry)}
    (hin : inputs ≠ [] → t = compactorTid) (hsuf : inputs.map Prod.fst <:+ w.runs)
    (hcont : ∀ x ∈ inputs, ∀ s, x.1.name = runFilename s → g.content s = x.2) :
    Running e g
      { w with
        held := held.map (t, ·) ++ w.held
        spec := { w.spec with seen := Function.update w.spec.seen t ⟨w.spec.cur, w.memtable, w.runs⟩ } }
      (Function.update A t { A t with held := held, seen := ⟨w.spec.cur, w.memtable, w.runs⟩, inputs := inputs }) := by
  have hs := hr.session
  -- an obsolete run is not taken up again
  have hdead : ∀ r, Dead w.known w.obsolete w.held r →
      Dead w.known w.obsolete (held.map (t, ·) ++ w.held) r := by
    intro r hd
    refine { hd with unheld := fun h hmem => ?_ }
    rcases List.mem_append.mp hmem with hmem | hmem
    · obtain ⟨r', hr', rfl⟩ := List.mem_map.mp hmem
      intro hid
      have heq := hs.numbered.unique (hs.runs_known r' (hsub r' hr')) hd.known hid
      rw [heq] at hr'
      exact hs.runs_live r (hsub r hr') hd.obsolete
    · exact hd.unheld h hmem
  refine ⟨{ hs with
    durable := fun d hd => { hs.durable d hd with }
    held_known := fun h hmem => by
      rcases List.mem_append.mp hmem with hmem | hmem
      · obtain ⟨r, hr', rfl⟩ := List.mem_map.mp hmem
        exact hs.runs_known r (hsub r hr')
      · exact hs.held_known h hmem }, ?_⟩
  have hl := hr.crew.threads t
  refine hr.crew.step ⟨rfl, rfl, rfl, rfl⟩ hm ⟨rfl, rfl⟩ rfl ?_ ?_ ?_ ?_
  · intro b hb t' b' hne hb'
    exact hr.crew.apart t t' b b' (Ne.symm hne) hb hb'
  · exact { hl with
      mirrors := fun h hh => { hl.mirrors h hh with }
      building := fun b hb => { hl.building b hb with }
      held := by
        show ((held.map (t, ·) ++ w.held).filter fun h => h.1 = t).map Prod.snd = held
        rw [filter_map_pair, hl.held, hheld]
        simp
      dead := fun r hd => hdead r (hl.dead r hd)
      inputs := hin
      suffix := hsuf
      input := hcont }
  · intro t' hne hl'
    exact { hl' with
      mirrors := fun h hh => { hl'.mirrors h hh with }
      building := fun b hb => { hl'.building b hb with }
      held := by
        show ((held.map (t, ·) ++ w.held).filter fun h => h.1 = t').map Prod.snd = _
        rw [filter_map_pair, if_neg (Ne.symm hne), List.nil_append]
        exact hl'.held
      dead := fun r hd => hdead r (hl'.dead r hd) }
  · intro d hd hseq
    rw [Function.update_eq_self]
    exact (hr.crew.told d hd hseq).same rfl rfl rfl rfl rfl

/-- A snapshot; a compaction keeps note of what it is about to merge. -/
theorem does_snapshot {Q : Own → MemTable × List SsTable → Prop} {want : MemTable → List SsTable → Bool}
    (merges : Bool) (hm : a.mode = .live) (hh : a.hold = none) (hheld : a.held = []) (hlost : a.lost = false)
    (ht : merges = true → t = compactorTid)
    (hq : ∀ seen ess, Snapshot e seen ess →
      Q { a with
        held := if want seen.memtable seen.runs then seen.runs else []
        seen := seen
        inputs := if merges then seen.runs.zip ess else [] } (seen.memtable, seen.runs)) :
    Does e t (.snapshot want) a Q := by
  refine Does.live hm ?_
  intro g w A hr ha
  subst ha
  refine ⟨hr.crew.lock_free hh, fun c r w' _ hx => ?_⟩
  have hlock : w.lock = none := by
    by_contra hne
    simp [exec, hne] at hx
  simp only [exec, if_pos hlock] at hx
  obtain ⟨ns, hns, hsnap⟩ := hr.snap hm hlost hlock
  have hlen : w.runs.length ≤ (ns.map g.content).length := hsnap.reads.length_eq.le
  have hpairs : (if want w.memtable w.runs then w.runs.map (t, ·) else []) =
      (if want w.memtable w.runs then w.runs else []).map (t, ·) := by
    split_ifs <;> rfl
  rw [hpairs] at hx
  simp only [Option.some.injEq, Prod.mk.injEq] at hx
  obtain ⟨rfl, rfl⟩ := hx
  refine ⟨g, _, hr.snapshot hm hheld ?_ ?_ ?_ ?_, hq _ _ hsnap⟩
  · intro r hmem
    split_ifs at hmem
    · exact hmem
    · simp at hmem
  · intro hne
    cases merges with
    | true => exact ht rfl
    | false => simp at hne
  · cases merges with
    | true =>
      exact ⟨[], by rw [if_pos rfl, List.map_fst_zip hlen, List.nil_append]⟩
    | false => exact List.nil_suffix
  · intro x hx s hname
    cases merges with
    | true => exact zip_content hns hx hname
    | false => simp at hx

/-! ## Giving up handles -/

theorem dropHandle_own {table : SsTable} {rest : List SsTable} {held : List (Tid × SsTable)}
    (h : (held.filter fun h => h.1 = t).map Prod.snd = table :: rest) :
    ((dropHandle t table held).filter fun h => h.1 = t).map Prod.snd = rest := by
  induction held with
  | nil => simp at h
  | cons x held ih =>
    by_cases hx : x.1 = t
    · simp only [hx, decide_true, List.filter_cons_of_pos, List.map_cons, List.cons.injEq] at h
      have hdrop : dropHandle t table (x :: held) = held := by
        unfold dropHandle
        rw [List.eraseP_cons_of_pos]
        simp [hx, h.1]
      rw [hdrop]
      exact h.2
    · have hdrop : dropHandle t table (x :: held) = x :: dropHandle t table held := by
        unfold dropHandle
        rw [List.eraseP_cons_of_neg]
        simp [hx]
      rw [hdrop]
      simp only [hx, decide_false, Bool.false_eq_true, not_false_eq_true, List.filter_cons_of_neg] at h ⊢
      exact ih h

theorem dropHandle_other {table : SsTable} (held : List (Tid × SsTable)) {t' : Tid} (ht : t' ≠ t) :
    ((dropHandle t table held).filter fun h => h.1 = t') = held.filter fun h => h.1 = t' := by
  induction held with
  | nil => rfl
  | cons x held ih =>
    unfold dropHandle at ih ⊢
    by_cases hx : x.1 = t ∧ x.2.runId = table.runId
    · rw [List.eraseP_cons_of_pos (by simpa using hx)]
      have hne : ¬ x.1 = t' := by rw [hx.1]; exact Ne.symm ht
      simp [hne]
    · rw [List.eraseP_cons_of_neg (by simpa using hx)]
      by_cases hx' : x.1 = t'
      · simp only [hx', decide_true, List.filter_cons_of_pos]
        rw [ih]
      · simp only [hx', decide_false, Bool.false_eq_true, not_false_eq_true, List.filter_cons_of_neg]
        exact ih

theorem mem_of_mem_dropHandle {table : SsTable} {held : List (Tid × SsTable)} {h : Tid × SsTable}
    (hmem : h ∈ dropHandle t table held) : h ∈ held := List.mem_of_mem_eraseP hmem

theorem Local.held_mem (hl : Local e g w t a) {r : SsTable} (hr : r ∈ a.held) : (t, r) ∈ w.held := by
  rw [← hl.held] at hr
  obtain ⟨h, hmem, rfl⟩ := List.mem_map.mp hr
  obtain ⟨hmem, ht⟩ := List.mem_filter.mp hmem
  have ht' : h.1 = t := by simpa using ht
  rw [← ht']
  exact hmem

/-- One handle less; the last one of an obsolete run leaves the thread with the run to remove. -/
theorem does_release {Q : Own → Bool → Prop} {table : SsTable} {rest : List SsTable} (hm : a.mode = .live)
    (hheld : a.held = table :: rest) (hdead : a.dead = none)
    (hq : ∀ last, Q { a with held := rest, dead := if last then some table else none } last) :
    Does e t (.release table) a Q := by
  refine Does.live hm ?_
  intro g w A hr ha
  subst ha
  have hs := hr.session
  have hl := hr.crew.threads t
  refine ⟨trivial, fun c r w' _ hx => ?_⟩
  simp only [exec, Option.some.injEq, Prod.mk.injEq] at hx
  obtain ⟨hlast, rfl⟩ := hx
  have hkeep : ∀ r, Dead w.known w.obsolete w.held r →
      Dead w.known w.obsolete (dropHandle t table w.held) r :=
    fun r hd => { hd with unheld := fun h hmem => hd.unheld h (mem_of_mem_dropHandle hmem) }
  refine ⟨g, _, ⟨?_, ?_⟩, hq r⟩
  · exact { hs with held_known := fun h hmem => hs.held_known h (mem_of_mem_dropHandle hmem) }
  · refine hr.crew.keep ⟨rfl, rfl, rfl, rfl⟩ hm ⟨rfl, rfl⟩ rfl rfl rfl (fun b hb => ⟨b, hb, rfl⟩) ?_ ?_
    · refine { hl with
        mirrors := fun h hh => { hl.mirrors h hh with }
        building := fun b hb => { hl.building b hb with }
        held := dropHandle_own (hl.held.trans hheld)
        dead := fun x hx => ?_ }
      cases r with
      | false => simp at hx
      | true =>
        simp only [if_true, Option.some.injEq] at hx
        subst hx
        simp only [isObsolete, isHeld, Bool.and_eq_true, decide_eq_true_eq, Bool.not_eq_true',
          Bool.or_eq_false_iff, List.any_eq_false] at hlast
        exact ⟨hs.held_known _ (hl.held_mem (by rw [hheld]; simp)), hlast.1, hlast.2.1⟩
    · intro t' hne hl'
      exact { hl' with
        mirrors := fun h hh => { hl'.mirrors h hh with }
        building := fun b hb => { hl'.building b hb with }
        held := by
          show ((dropHandle t table w.held).filter fun h => h.1 = t').map Prod.snd = _
          rw [dropHandle_other w.held hne]
          exact hl'.held
        dead := fun x hx => hkeep x (hl'.dead x hx) }

/-! ## Removing a run nobody holds -/

/-- An obsolete run that nobody holds is not listed, not in the run list and not being built. -/
theorem Session.dead_seq (hs : Session e g w) {r : SsTable} (hd : Dead w.known w.obsolete w.held r) :
    ∃ s, r.name = runFilename s ∧ (e.statFaults = false → s ∉ g.ns) ∧
      (∀ x ∈ w.runs, x.name ≠ r.name) ∧ ∀ x ∈ w.held, x.2.name ≠ r.name := by
  obtain ⟨s, _, hof⟩ := hs.known r hd.known
  refine ⟨s, hof.name, fun hstat hmem => hs.gone hstat r hd.known hd.obsolete s hmem hof.name, ?_, ?_⟩
  · intro x hx hname
    rw [hs.name_unique (hs.runs_known x hx) hd.known hname] at hx
    exact hs.runs_live r hx hd.obsolete
  · intro x hx hname
    have heq := hs.name_unique (hs.held_known x hx) hd.known hname
    exact hd.unheld x hx (by rw [heq])

theorem Building.not_dead {b : Build} {r : SsTable} (hb : Building e g w b)
    (hd : Dead w.known w.obsolete w.held r) : r.name ≠ runFilename b.seq := by
  intro hname
  exact (hb.table r (hb.only r hd.known hname)).2.2.1 hd.obsolete

theorem Running.unlink (hr : Running e g w A) (hm : (A t).mode = .live) {s : ℕ} {n : Name}
    (hn : n = .run s ∨ n = .side s) (hns : e.statFaults = false → s ∉ g.ns)
    (hbuild : ∀ t' b, (A t').build = some b → b.seq ≠ s) {d : Option SsTable}
    (hd : ∀ x, d = some x → (A t).dead = some x) :
    Running e g { w with dir := w.dir.erase n.text } (Function.update A t { A t with dead := d }) := by
  have hs := hr.session
  have hlook : ∀ m, m ≠ n → look (w.dir.erase n.text) m = look w.dir m := by
    intro m hne
    rw [look_erase, Function.update_of_ne hne]
  have hsub : ∀ m x, look (w.dir.erase n.text) m = some x → look w.dir m = some x := by
    intro m x hx
    by_cases hmn : m = n
    · rw [hmn, look_erase, Function.update_self] at hx
      simp at hx
    · rwa [hlook m hmn] at hx
  have hother : ∀ b : Build, b.seq ≠ s → ∀ m : Name, m.Of b.seq → m ≠ n := by
    intro b hne m hof heq
    rcases hn with rfl | rfl <;> rcases hof with h | h | h | h <;> rw [heq] at h <;> simp at h <;>
      exact hne h.symm
  have hkeep : ∀ b, Building e g w b → b.seq ≠ s →
      Building e g { w with dir := w.dir.erase n.text } b := by
    intro b hb hne
    exact { hb with
      tmp := by rw [hlook _ (hother b hne _ (by simp [Name.Of]))]; exact hb.tmp
      run := by rw [hlook _ (hother b hne _ (by simp [Name.Of]))]; exact hb.run
      side := by rw [hlook _ (hother b hne _ (by simp [Name.Of]))]; exact hb.side
      sideTmp := by rw [hlook _ (hother b hne _ (by simp [Name.Of]))]; exact hb.sideTmp }
  have htmp : look (w.dir.erase n.text) .manifestTmp = look w.dir .manifestTmp :=
    hlook _ (by rcases hn with rfl | rfl <;> simp)
  refine ⟨{ hs with
    stored := {
      run := fun q x hx => hs.stored.run q x (hsub _ x hx)
      side := fun q x hx => hs.stored.side q x (hsub _ x hx)
      manifest := by rw [hlook _ (by rcases hn with rfl | rfl <;> simp)]; exact hs.stored.manifest
      nodup := hs.stored.nodup
      present := fun hstat q hq => by
        have hne : q ≠ s := by
          rintro rfl
          exact hns hstat hq
        rw [hlook _ (by rcases hn with rfl | rfl <;> simp [hne])]
        exact hs.stored.present hstat q hq }
    fresh := fun q hle => by
      obtain ⟨h1, h2⟩ := hs.fresh q hle
      refine ⟨?_, ?_⟩
      · by_contra hne
        obtain ⟨x, hx⟩ := Option.ne_none_iff_exists'.mp hne
        rw [hsub _ x hx] at h1
        simp at h1
      · by_contra hne
        obtain ⟨x, hx⟩ := Option.ne_none_iff_exists'.mp hne
        rw [hsub _ x hx] at h2
        simp at h2 }, ?_⟩
  have hl := hr.crew.threads t
  refine hr.crew.keep ⟨rfl, rfl, rfl, rfl⟩ hm ⟨rfl, rfl⟩ rfl rfl rfl (fun b hb => ⟨b, hb, rfl⟩) ?_ ?_
  · exact { hl with
      mirrors := fun h hh => { hl.mirrors h hh with tmp := htmp.trans (hl.mirrors h hh).tmp }
      building := fun b hb => hkeep b (hl.building b hb) (hbuild t b hb)
      dead := fun x hx => hl.dead x (hd x hx) }
  · intro t' _ hl'
    exact { hl' with
      mirrors := fun h hh => { hl'.mirrors h hh with tmp := htmp.trans (hl'.mirrors h hh).tmp }
      building := fun b hb => hkeep b (hl'.building b hb) (hbuild t' b hb) }

/-- The dead run's file or its sidecar goes; an error is ignored. -/
theorem does_remove {Q : Own → Except IoError Unit → Prop} {table : SsTable} {name : Text}
    {d : Option SsTable} (hm : a.mode = .live) (hdead : a.dead = some table)
    (hname : name = table.name ∨ name = sidecarPath table.name) (hd : d = some table ∨ d = none)
    (hq : ∀ r, Q { a with dead := d } r) : Does e t (.remove name) a Q := by
  refine Does.live hm ?_
  intro g w A hr ha
  subst ha
  have hs := hr.session
  have hdd := (hr.crew.threads t).dead table hdead
  obtain ⟨s, hts, hns, hruns, hheld⟩ := hs.dead_seq hdd
  obtain ⟨n, hn, rfl⟩ : ∃ n : Name, (n = .run s ∨ n = .side s) ∧ name = n.text := by
    rcases hname with rfl | rfl
    · exact ⟨.run s, Or.inl rfl, hts⟩
    · exact ⟨.side s, Or.inr rfl, by rw [hts]; rfl⟩
  have hdead' : ∀ x, d = some x → (A t).dead = some x := by
    intro x hx
    rcases hd with rfl | rfl
    · rw [hdead, hx]
    · simp at hx
  refine ⟨?_, fun c r w' _ hx => ?_⟩
  · have hman : n.text ≠ Name.manifest.text := by rcases hn with rfl | rfl <;> simp
    refine ⟨hman, fun hstat q hq => ?_⟩
    rcases hn with rfl | rfl
    · have hqs : s = q := by simpa using Name.text_injective (n := .run s) (m := .run q) hq
      subst hqs
      refine ⟨?_, fun x hx => ?_, fun x hx => ?_⟩
      · rw [hs.stored.listed_eq, hq]
        intro hmem
        obtain ⟨q', hq', heq⟩ := List.mem_map.mp hmem
        rw [runFilename_injective heq] at hq'
        exact hns hstat hq'
      · rw [hq, ← hts]
        exact hruns x hx
      · rw [hq, ← hts]
        exact hheld x hx
    · have hne := Name.text_injective (n := .side s) (m := .run q) hq
      simp at hne
  · have hgone := hr.unlink hm hn hns (fun t' b hb heq => ((hr.crew.threads t').building b hb).not_dead hdd
      (by rw [hts, heq])) hdead'
    have hsame : Running e g w (Function.update A t { A t with dead := d }) := by
      have hl := hr.crew.threads t
      exact ⟨hs, hr.crew.keep ⟨rfl, rfl, rfl, rfl⟩ hm ⟨rfl, rfl⟩ rfl rfl rfl (fun b hb => ⟨b, hb, rfl⟩)
        { hl with dead := fun x hx => hl.dead x (hdead' x hx) } fun _ _ hl' => hl'⟩
    cases c with
    | fail k =>
      simp only [exec, Option.some.injEq, Prod.mk.injEq] at hx
      obtain ⟨rfl, rfl⟩ := hx
      exact ⟨g, _, hsame, hq _⟩
    | ok | order _ _ | faults _ =>
      cases hget : w.dir.get? n.text <;> simp only [exec, hget, Option.some.injEq, Prod.mk.injEq] at hx <;>
        obtain ⟨rfl, rfl⟩ := hx
      · exact ⟨g, _, hsame, hq _⟩
      · exact ⟨g, _, hgone, hq _⟩

/-! ## Flags, and the block cache -/

/-- The fields no file and no handle depends on. -/
theorem Running.flags (hr : Running e g w A) (compacting pending running : Bool) (generation : ℕ)
    (lastError : Option Error) {cache : BlockCache} (hc : e.small = true → Cached cache w.known) :
    Running e g { w with
      compacting := compacting
      pending := pending
      running := running
      generation := generation
      lastError := lastError
      cache := cache } A where
  session := { hr.session with cached := hc }
  crew := { hr.crew with
    shared := { hr.crew.shared with }
    threads := fun t => { hr.crew.threads t with
      mirrors := fun h hh => { (hr.crew.threads t).mirrors h hh with }
      building := fun b hb => { (hr.crew.threads t).building b hb with } } }

theorem Does.flags {o : Act} {Q : Own → Res o → Prop} (hm : a.mode = .live) (hg : ∀ w, guardAct e t o w)
    (h : ∀ g w A, Running e g w A → A t = a → ∀ c r w', e.allowsAct w t o c →
      exec t o c w = some (r, w') → Running e g w' A ∧ Q a r) : Does e t o a Q := by
  refine Does.live hm ?_
  intro g w A hr ha
  refine ⟨hg w, fun c r w' hc hx => ?_⟩
  obtain ⟨hr', hq⟩ := h g w A hr ha c r w' hc hx
  refine ⟨g, a, ?_, hq⟩
  rw [← ha, Function.update_eq_self]
  exact hr'

theorem does_swapCompacting {Q : Own → Bool → Prop} (hm : a.mode = .live) (hq : ∀ busy, Q a busy) :
    Does e t .swapCompacting a Q := by
  refine Does.flags hm (fun _ => trivial) ?_
  intro g w A hr _ c r w' _ hx
  simp only [exec, Option.some.injEq, Prod.mk.injEq] at hx
  obtain ⟨rfl, rfl⟩ := hx
  exact ⟨hr.flags _ _ _ _ _ hr.session.cached, hq _⟩

theorem does_storeCompacting {Q : Own → Unit → Prop} (hm : a.mode = .live) (hq : Q a ()) :
    Does e t .storeCompacting a Q := by
  refine Does.flags hm (fun _ => trivial) ?_
  intro g w A hr _ c r w' _ hx
  simp only [exec, Option.some.injEq, Prod.mk.injEq] at hx
  obtain ⟨_, rfl⟩ := hx
  exact ⟨hr.flags _ _ _ _ _ hr.session.cached, hq⟩

theorem does_signal {Q : Own → Unit → Prop} (hm : a.mode = .live) (hq : Q a ()) : Does e t .signal a Q := by
  refine Does.flags hm (fun _ => trivial) ?_
  intro g w A hr _ c r w' _ hx
  simp only [exec, Option.some.injEq, Prod.mk.injEq] at hx
  obtain ⟨_, rfl⟩ := hx
  exact ⟨hr.flags _ _ _ _ _ hr.session.cached, hq⟩

theorem does_awaitWork {Q : Own → Unit → Prop} (hm : a.mode = .live) (ht : t = compactorTid) (hq : Q a ()) :
    Does e t .awaitWork a Q := by
  refine Does.flags hm (fun _ => ht) ?_
  intro g w A hr _ c r w' _ hx
  simp only [exec] at hx
  split_ifs at hx
  simp only [Option.some.injEq, Prod.mk.injEq] at hx
  obtain ⟨_, rfl⟩ := hx
  exact ⟨hr.flags _ _ _ _ _ hr.session.cached, hq⟩

theorem does_finishWork {Q : Own → Unit → Prop} {result : Except Error Unit} (hm : a.mode = .live)
    (hq : Q a ()) : Does e t (.finishWork result) a Q := by
  refine Does.flags hm (fun _ => trivial) ?_
  intro g w A hr _ c r w' _ hx
  simp only [exec, Option.some.injEq, Prod.mk.injEq] at hx
  obtain ⟨_, rfl⟩ := hx
  exact ⟨hr.flags _ _ _ _ _ hr.session.cached, hq⟩

theorem does_cacheGet {Q : Own → Option DecodedBlock → Prop} {table : SsTable} {i : ℕ} (hm : a.mode = .live)
    (hheld : table ∈ a.held) (hi : i < table.index.length)
    (hq : ∀ r, (e.small = true → ∀ block, r = some block → table.readBlock i = .ok block) → Q a r) :
    Does e t (.cacheGet (cacheKey table i)) a Q := by
  refine Does.flags hm (fun _ => trivial) ?_
  intro g w A hr ha c r w' _ hx
  simp only [exec, Option.some.injEq, Prod.mk.injEq] at hx
  obtain ⟨rfl, rfl⟩ := hx
  have hk : table ∈ w.known :=
    hr.session.held_known _ ((hr.crew.threads t).held_mem (by rw [ha]; exact hheld))
  refine ⟨hr.flags _ _ _ _ _ fun hsmall => (hr.session.cached hsmall).get _, hq _ fun hsmall block hb => ?_⟩
  exact (hr.session.cached hsmall).hit hr.session.numbered hk hi hb

theorem does_cacheInsert {Q : Own → Unit → Prop} {table : SsTable} {i : ℕ} {block : DecodedBlock}
    (hm : a.mode = .live) (hheld : table ∈ a.held) (hi : i < table.index.length)
    (hb : table.readBlock i = .ok block) (hq : Q a ()) :
    Does e t (.cacheInsert (cacheKey table i) block) a Q := by
  refine Does.flags hm (fun _ => trivial) ?_
  intro g w A hr ha c r w' _ hx
  simp only [exec, Option.some.injEq, Prod.mk.injEq] at hx
  obtain ⟨_, rfl⟩ := hx
  have hs := hr.session
  have hk : table ∈ w.known :=
    hs.held_known _ ((hr.crew.threads t).held_mem (by rw [ha]; exact hheld))
  exact ⟨hr.flags _ _ _ _ _ fun hsmall => (hs.cached hsmall).insert hk hi hb, hq⟩

theorem does_readBlock {Q : Own → Except Error DecodedBlock → Prop} {table : SsTable} {i : ℕ}
    (hm : a.mode = .live) (hok : Q a (table.readBlock i)) (herr : e.blockFaults = true → ∀ err, Q a (.error err)) :
    Does e t (.readBlock table i) a Q := by
  refine Does.look hm (fun _ => trivial) ?_
  intro g w A _ _ c r w' hc hx
  cases c with
  | fail n =>
    have hf : e.blockFaults = true := by simpa [Env.allowsAct, Choice.faulty] using hc
    cases n <;> simp only [exec, Option.some.injEq, Prod.mk.injEq] at hx <;> obtain ⟨rfl, rfl⟩ := hx
    · exact ⟨rfl, herr hf _⟩
    · exact ⟨rfl, herr hf _⟩
  | ok | order _ _ | faults _ =>
    simp only [exec, Option.some.injEq, Prod.mk.injEq] at hx
    obtain ⟨rfl, rfl⟩ := hx
    exact ⟨rfl, hok⟩

theorem does_readFaults {Q : Own → Faults → Prop} (hm : a.mode = .live)
    (hq : ∀ f : Faults, (e.blockFaults = false → ∀ id i, f id i = none) → Q a f) :
    Does e t .readFaults a Q := by
  refine Does.look hm (fun _ => trivial) ?_
  intro g w A _ _ c r w' hc hx
  cases c with
  | faults f =>
    have hf : e.blockFaults = true := by simpa [Env.allowsAct, Choice.faulty] using hc
    simp only [exec, Option.some.injEq, Prod.mk.injEq] at hx
    obtain ⟨rfl, rfl⟩ := hx
    exact ⟨rfl, hq _ fun hno => by simp [hf] at hno⟩
  | ok | order _ _ | fail _ =>
    simp only [exec, Option.some.injEq, Prod.mk.injEq] at hx
    obtain ⟨rfl, rfl⟩ := hx
    exact ⟨rfl, hq _ fun _ _ _ => rfl⟩

end Handles
end LsmDb
