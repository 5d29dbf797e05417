import LsmDb.Proof.Reading

/-! The compactor: the merge of a snapshot's runs with no lock held, and the swap under the lock. -/
namespace LsmDb
open Lib
set_option autoImplicit false

section Compacting
variable [Deps] {e : Env} {t : Tid} {a : Own} {h : Hold} {features : Features} {E : Own → Error → Prop}
  {inputs : List SsTable} {ess : List (List Entry)}

/-- The merge of a snapshot's runs, as far as it can be read. -/
theorem Reads.merge (hreads : List.Forall₂ Reads inputs ess) (faults : Faults) {items : List (Bytes × Bytes)}
    (h : (Merge.new [] (inputs.map (faultyCursor faults))).collect = (items, none)) : MergeOf Record.live ess items := by
  have hdel : (Merge.new [] (inputs.map (faultyCursor faults))).Delivers ([] :: ess) :=
    List.Forall₂.cons (Source.delivers_mem _) (List.forall₂_map_left_iff.mpr (forall₂_delivers hreads faults))
  have hasc : ∀ F ∈ [] :: ess, Ascending F := by
    intro F hF
    rcases List.mem_cons.mp hF with rfl | hF
    · exact List.Pairwise.nil
    · exact forall₂_ascending hreads F hF
  have hmerge := (Merge.collect_spec hdel hasc).2 (by rw [h])
  rw [h] at hmerge
  refine ⟨hmerge.ascending, fun k => ?_⟩
  rw [hmerge.find_eq, resolve_nil_cons]

theorem Snapshot.merge_ok {seen : Sight} (hsnap : Snapshot e seen ess) (hr : e.Readable) {faults : Faults}
    (hf : e.blockFaults = false → ∀ id i, faults id i = none) :
    (Merge.new [] (seen.runs.map (faultyCursor faults))).collect.2 = none := by
  have hdel : (Merge.new [] (seen.runs.map (faultyCursor faults))).Delivers ([] :: ess) :=
    List.Forall₂.cons (Source.delivers_mem _) (List.forall₂_map_left_iff.mpr (forall₂_delivers hsnap.reads faults))
  have hasc : ∀ F ∈ [] :: ess, Ascending F := by
    intro F hF
    rcases List.mem_cons.mp hF with rfl | hF
    · exact List.Pairwise.nil
    · exact forall₂_ascending hsnap.reads F hF
  refine (Merge.collect_spec hdel hasc).1.mpr ?_
  intro o ho
  simp only [Merge.errors, Merge.new, List.map_cons, List.map_map, List.mem_cons, List.mem_map] at ho
  rcases ho with rfl | ⟨r, hr', rfl⟩
  · rfl
  · exact hsnap.streams_none hr hf _ (List.mem_map_of_mem hr')

/-- Dropping the inputs by identity leaves the runs that were flushed since the snapshot. -/
theorem filter_inputs {fresh : List SsTable}
    (hids : (fresh ++ inputs).Pairwise fun r r' => r.runId ≠ r'.runId) :
    (fresh ++ inputs).filter (fun r => !inputs.any fun i => i.runId = r.runId) = fresh := by
  obtain ⟨_, _, hcross⟩ := List.pairwise_append.mp hids
  rw [List.filter_append]
  have hkeep : fresh.filter (fun r => !inputs.any fun i => i.runId = r.runId) = fresh := by
    refine List.filter_eq_self.mpr fun r hr => ?_
    simp only [Bool.not_eq_true', List.any_eq_false, decide_eq_true_eq]
    exact fun i hi hid => hcross r hr i hi hid.symm
  have hdrop : inputs.filter (fun r => !inputs.any fun i => i.runId = r.runId) = [] := by
    refine List.filter_eq_nil_iff.mpr fun r hr => ?_
    simp only [Bool.not_eq_true', List.any_eq_false, decide_eq_true_eq, not_forall, not_not]
    exact ⟨r, hr, rfl⟩
  rw [hkeep, hdrop, List.append_nil]

/-- Compactions go on until something fails or something cannot be read. -/
def Env.CompactTrouble (e : Env) : Prop := e.Trouble ∨ ¬ e.Readable

theorem Env.Faulty.trouble (hf : e.Faulty t a) : e.Trouble := by
  unfold Env.Faulty at hf
  split_ifs at hf
  · exact Or.inl hf
  · refine Or.inr fun d hd => ?_
    have hflush := hd.flush
    rw [hf] at hflush
    simp at hflush

/-- The swap: the output takes the place of the inputs, in the manifest and in the run list. -/
theorem safe_swap {Q : Own → Unit → Prop} {b b' : Build} {r : SsTable} {items : List (Bytes × Bytes)}
    (hm : a.mode = .live) (hh : a.hold = none) (hb : a.build = some b') (hbuilt : Built b b' (valueEntries items) r)
    (ht : t = compactorTid) (hin : a.inputs = inputs.zip ess) (hreads : List.Forall₂ Reads inputs ess)
    (hmerge : MergeOf Record.live ess items) (hp : a.phase = .quiet)
    (hok : ∀ l, l = a.lost → Q { a with build := none, inputs := [], lost := l } ())
    (herr : e.Trouble → ∀ l err, E { a with lost := l } err) :
    SafeM e t Q E (withGuard do
      let inner ← perform .inner
      let newRuns := inner.2.1.filter (fun r => !inputs.any fun i => i.runId = r.runId) ++ [r]
      let nextSeq ← perform .loadSeq
      storeManifest nextSeq (names newRuns)
      perform (.install inputs newRuns)) a := by
  have hfst : a.inputs.map Prod.fst = inputs := by
    rw [hin, List.map_fst_zip hreads.length_eq.le]
  have hsnd : a.inputs.map Prod.snd = ess := by
    rw [hin, List.map_snd_zip hreads.length_eq.ge]
  have hphase : ∀ ops prior, a.phase ≠ .logged ops prior := by
    intro ops prior
    rw [hp]
    simp
  refine safe_withGuard hm hh fun h hset hsuf => ?_
  obtain ⟨fresh, hfresh⟩ := hsuf
  rw [hfst] at hfresh
  refine SafeM.perform (does_inner hm rfl ?_)
  have hnew : h.runs.filter (fun r => !inputs.any fun i => i.runId = r.runId) = fresh := by
    have hids := hset.ids
    rw [← hfresh] at hids ⊢
    exact filter_inputs hids
  dsimp only
  rw [hnew]
  refine SafeM.perform (does_loadSeq hm fun q hq => ?_)
  refine SafeM.bind (safe_storeManifest hm rfl ?_ ?_)
  · intro Q' hdone hfail
    refine does_commit_compact (a := { a with
        hold := some { h with tmp := some (.text (manifestText q (names (fresh ++ [r])))) } })
      (h := { h with tmp := some (.text (manifestText q (names (fresh ++ [r])))) }) hm rfl hb hbuilt.run hbuilt.entries
      hbuilt.table ht (hfresh.symm.trans (by rw [hfst])) (by rw [hsnd]; exact hmerge) hset.named hq rfl ?_
      fun hf => hfail _ hf
    intro ns hns
    refine hdone _ (SafeM.last (does_install (r := r) (b := { b' with committed := true }) hm rfl rfl hbuilt.table
      ?_ ?_ ?_ ?_ hns ?_ ?_ ?_))
    · intro x hx
      rcases List.mem_append.mp hx with hx | hx
      · exact Or.inl (by show x ∈ h.runs; rw [← hfresh]; simp [hx])
      · exact Or.inr (List.mem_singleton.mp hx)
    · intro hr hnd
      rw [show (h.runs) = fresh ++ inputs from hfresh.symm] at hr hnd
      refine List.nodup_append.mpr ⟨(List.nodup_append.mp hnd).1, by simp, ?_⟩
      intro x hx y hy hxy
      rw [List.mem_singleton.mp hy] at hxy
      exact hr (by rw [← hxy]; simp [hx])
    · intro x hx
      show x ∈ h.runs
      rw [← hfresh]
      simp [hx]
    · intro hr hnd x hx hmem
      rw [show (h.runs) = fresh ++ inputs from hfresh.symm] at hr hnd
      rcases List.mem_append.mp hmem with hmem | hmem
      · exact (List.nodup_append.mp hnd).2.2 x hmem x hx rfl
      · exact hr (by rw [← List.mem_singleton.mp hmem]; simp [hx])
    · exact fun hne => absurd ht hne
    · exact fun _ => ⟨fresh, ess, items, hfresh.symm, rfl, hreads.imp fun _ _ hr => hr.table, hmerge, hbuilt.of⟩
    · refine ⟨_, a.phase, ⟨hm, rfl, ⟨Or.inl hset.buf, fun _ => hns, hset.wal, hphase⟩, Or.inl rfl⟩, fun l hl => ?_⟩
      rw [← hh]
      exact hok l (hl hset.buf)
  · intro hf tmp err
    refine ⟨_, a.phase, ⟨hm, rfl, ⟨Or.inl hset.buf, hset.named, hset.wal, hphase⟩, Or.inl rfl⟩, fun l _ => ?_⟩
    rw [← hh]
    exact herr (Env.Faulty.trouble hf) l err

theorem safe_mergeRuns {Q : Own → Unit → Prop} {seen : Sight} (hsnap : Snapshot e seen ess)
    (hm : a.mode = .live) (hh : a.hold = none) (ht : t = compactorTid) (hin : a.inputs = seen.runs.zip ess)
    (hp : a.phase = .quiet) (hok : Q { a with build := none, inputs := [] } ())
    (herr : e.CompactTrouble → ∀ x l err, E { a with build := x, lost := l } err) :
    SafeM e t Q E (mergeRuns features seen.runs) a := by
  unfold mergeRuns
  refine SafeM.perform (does_fetchAdd hm fun b hres => ?_)
  refine SafeM.perform (does_readFaults hm fun faults hfaults => ?_)
  dsimp only
  have hcollect : ∃ items readErr, (Merge.new [] (seen.runs.map (faultyCursor faults))).collect = (items, readErr) :=
    ⟨_, _, rfl⟩
  obtain ⟨items, readErr, hcollect⟩ := hcollect
  rw [hcollect]
  dsimp only
  have hmerge : readErr = none → MergeOf Record.live ess items := by
    intro hnone
    rw [hnone] at hcollect
    exact Reads.merge hsnap.reads faults hcollect
  have hread : readErr ≠ none → e.CompactTrouble := by
    intro hne
    refine Or.inr fun hr => hne ?_
    have hnone := hsnap.merge_ok hr hfaults
    rwa [hcollect] at hnone
  refine SafeM.bind (safe_buildRun (F := (∃ d, e.Good d) ∧ readErr = none) (b := b) hm rfl hres ?_ ?_ ?_ ?_ ?_)
  · exact fun hnone => ascending_valueEntries (hmerge hnone).ascending
  · rintro ⟨⟨d, hd⟩, hnone⟩ x hx
    exact hd.flushable (within_merged (hmerge hnone) (hsnap.within d hd) x hx)
  · intro laws
    have hkeys : items.map Prod.fst = (valueEntries items).map Prod.fst := by
      simp [valueEntries, Function.comp_def]
    rw [hkeys]
    exact covers_build laws _ _ _
  · intro b' r hbuilt hnone
    refine safe_swap hm hh rfl hbuilt ht hin hsnap.reads (hmerge hnone) hp ?_ ?_
    · intro l hl
      rw [hl]
      exact hok
    · exact fun htr l err => herr (Or.inl htr) (some b') l err
  · intro hbad x err
    have htr : e.CompactTrouble := by
      rcases hbad with hf | hno | hne | hlaws
      · exact Or.inl (Env.Faulty.trouble hf)
      · rcases Classical.em (∃ d, e.Good d) with hg | hg
        · exact hread fun hnone => hno ⟨hg, hnone⟩
        · exact Or.inl (Or.inr fun d hd => hg ⟨d, hd⟩)
      · exact hread hne
      · exact Or.inl (Or.inr fun d hd => hlaws hd.laws)
    exact herr htr x a.lost err

/-- What a compaction leaves of a thread's annotation. -/
def Own.Compacted (a a' : Own) : Prop := ∃ seen x y l, a' = { a with seen := seen, build := x, inputs := y, lost := l }

theorem safe_compactInner {Q : Own → Unit → Prop} (hm : a.mode = .live) (hh : a.hold = none) (hheld : a.held = [])
    (hdead : a.dead = none) (hl : a.lost = false) (ht : t = compactorTid) (hp : a.phase = .quiet)
    (hok : ∀ a', a.Compacted a' → Q a' ()) (herr : e.CompactTrouble → ∀ a' err, a.Compacted a' → E a' err) :
    SafeM e t Q E (compactInner features) a := by
  refine SafeP.perform (does_snapshot true hm hh hheld hl (fun _ => ht) ?_)
  intro seen ess hsnap
  by_cases hlen : seen.runs.length < 2
  · have hwant : ¬ 2 ≤ seen.runs.length := by omega
    simp only [hlen, hwant, decide_false, Bool.false_eq_true, if_false, if_true]
    refine SafeP.pure (hok _ ⟨seen, a.build, seen.runs.zip ess, a.lost, ?_⟩)
    rw [← hheld]
  · have hwant : 2 ≤ seen.runs.length := by omega
    simp only [hlen, hwant, decide_true, if_false, if_true]
    refine SafeP.bind (Logic.Safe.mono (safe_mergeRuns
      (Q := fun a' _ => ∃ x y l, a' = { a with held := seen.runs, seen := seen, build := x, inputs := y, lost := l })
      (E := fun a' _ => e.CompactTrouble ∧
        ∃ x y l, a' = { a with held := seen.runs, seen := seen, build := x, inputs := y, lost := l })
      hsnap hm hh ht rfl hp ⟨_, _, _, rfl⟩ ?_) ?_)
    · exact fun htr x l err => ⟨htr, x, _, l, rfl⟩
    · intro a' r hr
      cases r with
      | ok v =>
        obtain ⟨x, y, l, rfl⟩ := hr
        refine SafeP.bind (safe_dropRuns hm rfl hdead (SafeP.pure (hok _ ⟨seen, x, y, l, ?_⟩)))
        rw [← hheld]
      | error err =>
        obtain ⟨htr, x, y, l, rfl⟩ := hr
        refine SafeP.bind (safe_dropRuns hm rfl hdead (SafeP.pure (herr htr _ err ⟨seen, x, y, l, ?_⟩)))
        rw [← hheld]

theorem safe_compactOnce {Q : Own → Unit → Prop} (hm : a.mode = .live) (hh : a.hold = none) (hheld : a.held = [])
    (hdead : a.dead = none) (hl : a.lost = false) (ht : t = compactorTid) (hp : a.phase = .quiet)
    (hok : ∀ a', a.Compacted a' → Q a' ()) (herr : e.CompactTrouble → ∀ a' err, a.Compacted a' → E a' err) :
    SafeM e t Q E (compactOnce features) a := by
  refine SafeP.perform (does_swapCompacting hm fun busy => ?_)
  cases busy with
  | true => exact SafeP.pure (hok a ⟨_, _, _, _, rfl⟩)
  | false =>
    refine SafeP.bind (Logic.Safe.mono (safe_compactInner (Q := fun a' _ => a.Compacted a')
      (E := fun a' _ => e.CompactTrouble ∧ a.Compacted a') hm hh hheld hdead hl ht hp
      (fun _ hc => hc) fun htr _ _ hc => ⟨htr, hc⟩) ?_)
    intro a' r hr
    cases r with
    | ok v =>
      obtain ⟨seen, x, y, l, rfl⟩ := hr
      exact SafeP.perform (does_storeCompacting hm (SafeP.pure (hok _ ⟨seen, x, y, l, rfl⟩)))
    | error err =>
      obtain ⟨htr, seen, x, y, l, rfl⟩ := hr
      exact SafeP.perform (does_storeCompacting hm (SafeP.pure (herr htr _ err ⟨seen, x, y, l, rfl⟩)))

/-- One round of the compactor. -/
theorem safe_compactorRound {Q : Own → Unit → Prop} (hm : a.mode = .live) (hh : a.hold = none) (hheld : a.held = [])
    (hdead : a.dead = none) (hl : a.lost = false) (ht : t = compactorTid) (hp : a.phase = .quiet)
    (hok : ∀ a', a.Compacted a' → Q a' ()) (herr : e.CompactTrouble → ∀ a' err, a.Compacted a' → E a' err) :
    SafeM e t Q E (compactorRound features) a := by
  refine SafeP.perform (does_awaitWork hm ht ?_)
  refine SafeP.bind (Logic.Safe.mono (safe_compactOnce (Q := fun a' _ => a.Compacted a')
    (E := fun a' _ => e.CompactTrouble ∧ a.Compacted a') hm hh hheld hdead hl ht hp
    (fun _ hc => hc) fun htr _ _ hc => ⟨htr, hc⟩) ?_)
  intro a' r hr
  cases r with
  | ok v =>
    obtain ⟨seen, x, y, l, rfl⟩ := hr
    exact SafeP.perform (does_finishWork hm (SafeP.pure (hok _ ⟨seen, x, y, l, rfl⟩)))
  | error err =>
    obtain ⟨htr, seen, x, y, l, rfl⟩ := hr
    exact SafeP.perform (does_finishWork hm (SafeP.pure (herr htr _ err ⟨seen, x, y, l, rfl⟩)))

end Compacting
end LsmDb
