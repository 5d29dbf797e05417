import LsmDb.Engine.Schedule
import LsmDb.Proof.Reachable

/-! Files: names that are never used twice, and a manifest in step with the run files. -/
namespace LsmDb
open Lib
set_option autoImplicit false

section Directory
variable [Deps] {e : Env} {c : Config} {t : Tid}

/-- An engine that is up, with its invariant. -/
theorem Reach.running (h : Reach e c) (hlive : c.world.live = true) : ∃ g A, Running e g c.world A := by
  obtain ⟨A, hs⟩ := h.sound
  obtain ⟨g, hr | hr⟩ := hs.inv
  · exact ⟨g, A, hr⟩
  · have hdown := hr.live
    rw [hlive] at hdown
    simp at hdown

/-- Without an engine there is no run list. -/
theorem Reach.live_of_run (h : Reach e c) {r : SsTable} (hr : r ∈ c.world.runs) : c.world.live = true := by
  obtain ⟨A, hs⟩ := h.sound
  obtain ⟨g, hrun | hrest⟩ := hs.inv
  · exact hrun.session.live
  · rw [hrest.runs] at hr
    simp at hr

theorem Reach.disk (h : Reach e c) : ∃ g, Disk e g c.world := by
  obtain ⟨A, hs⟩ := h.sound
  exact hs.inv.disk

/-! ## Names -/

/-- Whenever a run is renamed into place, nothing has its name: no file, no sidecar, no run that is live or
in a reader's hands. -/
theorem run_names_fresh (h : Reach e c) {source : Text} {s : ℕ}
    (hn : (c.threads t).next = some (.rename source (runFilename s))) :
    c.world.dir.get? (runFilename s) = none ∧ c.world.dir.get? (sidecarPath (runFilename s)) = none ∧
      (∀ r ∈ c.world.runs, r.name ≠ runFilename s) ∧ ∀ x ∈ c.world.held, x.2.name ≠ runFilename s :=
  (h.guard hn).2 s rfl

def Act.isRename (source target : Text) : Act → Bool
  | .rename s t => s = source ∧ t = target
  | _ => false

theorem Act.eq_rename {source target : Text} {o : Act} (h : o.isRename source target = true) : o = .rename source target := by
  unfold isRename at h
  split at h
  · rw [(of_decide_eq_true h).1, (of_decide_eq_true h).2]
  · cases h

omit [Deps] in
/-- A flush at its rename, after a session that flushed one run and crashed when it had renamed a second. -/
theorem run_names_fresh_reopened : letI := Deps.concrete
    ∃ c, Reach Env.wild c ∧ names c.world.runs = [runFilename 0] ∧
      (c.threads 1).next = some (.rename (tmpPath (runFilename 2)) (runFilename 2)) ∧
      c.world.dir.get? (runFilename 2) = none ∧ c.world.dir.get? (sidecarPath (runFilename 2)) = none ∧
      (∀ r ∈ c.world.runs, r.name ≠ runFilename 2) ∧ ∀ x ∈ c.world.held, x.2.name ≠ runFilename 2 := by
  let _ := Deps.concrete
  have hplay : Env.wild.leads [.alone 1 allOk (.openWith LsmConfig.default ⟨false, true⟩),
      .alone 1 allOk (.put [1] [2]), .alone 1 allOk .flush, .alone 1 allOk (.put [3] [4]), .start 1 .flush,
      .acts 1 (List.replicate 11 .ok), .crash [], .alone 1 allOk (.openWith LsmConfig.default ⟨false, true⟩),
      .alone 1 allOk (.put [5] [6]), .start 1 .flush, .acts 1 (List.replicate 10 .ok)]
      (fun c => names c.world.runs = [runFilename 0] ∧
        (c.threads 1).next.any (Act.isRename (tmpPath (runFilename 2)) (runFilename 2)) = true) = true := by
    decide +kernel
  obtain ⟨c, hreach, hc⟩ := Env.reach_leads hplay
  obtain ⟨hruns, hnext⟩ := of_decide_eq_true hc
  have hn : (c.threads 1).next = some (.rename (tmpPath (runFilename 2)) (runFilename 2)) := by
    obtain ⟨o, ho, hrename⟩ := (Option.any_eq_true _ _).mp hnext
    rw [ho, Act.eq_rename hrename]
  exact ⟨c, hreach, hruns, hn, run_names_fresh hreach hn⟩

/-! ## The manifest -/

/-- The manifest names complete runs, each once, and while the write lock is free exactly the runs of the
engine. -/
structure InStep (w : World) : Prop where
  complete : ∀ name ∈ listed w, ∃ bytes, w.dir.get? name = some (.bin bytes) ∧ w.finished name = some bytes ∧
    ∃ es bs, RunLayout es bytes bs
  distinct : (listed w).Nodup
  agree : w.live = true → w.lock = none → listed w = names w.runs

/-- A run file that is about to be unlinked is not listed, not in the run list and in no reader's hands. -/
def Unlinkable (w : World) (name : Text) : Prop :=
  name ∉ listed w ∧ (∀ r ∈ w.runs, r.name ≠ name) ∧ ∀ x ∈ w.held, x.2.name ≠ name

theorem Reach.inStep (hstat : e.statFaults = false) (h : Reach e c) : InStep c.world := by
  obtain ⟨g, hd⟩ := h.disk
  have hlisted : listed c.world = g.ns.map runFilename := hd.stored.listed_eq
  refine ⟨?_, ?_, ?_⟩
  · intro name hname
    rw [hlisted] at hname
    obtain ⟨s, hs, rfl⟩ := List.mem_map.mp hname
    obtain ⟨d, hlook⟩ := Option.ne_none_iff_exists'.mp (hd.stored.present hstat s hs)
    obtain ⟨bytes, bs, rfl, hfin, hlay⟩ := (hd.stored.run s d hlook).bytes
    exact ⟨bytes, hlook, hfin, g.content s, bs, hlay⟩
  · rw [hlisted]
    exact hd.stored.nodup.map fun _ _ heq => runFilename_injective heq
  · intro hlive hlock
    obtain ⟨g', A, hr⟩ := h.running hlive
    rw [hr.session.stored.listed_eq, hr.session.named hstat hlock]

/-- Where `Path::exists` does not mistake a failed stat for a missing file, the manifest and the run files
stay in step. -/
theorem manifest_in_step (hstat : e.statFaults = false) (h : Reach e c) :
    InStep c.world ∧ ∀ t s, (c.threads t).next = some (.remove (runFilename s)) → Unlinkable c.world (runFilename s) :=
  ⟨h.inStep hstat, fun _ s hn => (h.guard hn).2 hstat s rfl⟩

/-- Every stat of the manifest fails. -/
def statFails : Act → World → Choice
  | .exists name, _ => if name = MANIFEST then .fail 0 else .ok
  | _, _ => .ok

/-- Stats never fail, everything else may. -/
def Env.stated : Env := { Env.wild with statFaults := false }

omit [Deps] in
/-- A second flush with the first run installed. -/
theorem manifest_in_step_second : letI := Deps.concrete
    ∃ c, Reach Env.stated c ∧ listed c.world = [runFilename 1, runFilename 0] ∧ InStep c.world := by
  let _ := Deps.concrete
  have hplay : Env.stated.leads [.alone 1 allOk (.openWith LsmConfig.default ⟨false, true⟩),
      .alone 1 allOk (.put [1] [2]), .alone 1 allOk .flush, .alone 1 allOk (.delete [1]), .alone 1 allOk .flush]
      (fun c => listed c.world = [runFilename 1, runFilename 0]) = true := by decide +kernel
  obtain ⟨c, hreach, hc⟩ := Env.reach_leads hplay
  exact ⟨c, hreach, of_decide_eq_true hc, (manifest_in_step rfl hreach).1⟩

omit [Deps] in
/-- A flush, then an open whose stat of the manifest fails: the listed run is reclaimed as an orphan. -/
theorem manifest_out_of_step : letI := Deps.concrete
    ∃ c, Reach Env.wild c ∧ listed c.world = [runFilename 0] ∧ c.world.dir.get? (runFilename 0) = none ∧
      ¬ InStep c.world := by
  let _ := Deps.concrete
  have hplay : Env.wild.leads [.alone 1 allOk (.openWith LsmConfig.default ⟨false, true⟩),
      .alone 1 allOk (.put [1] [2]), .alone 1 allOk .flush, .close,
      .alone 1 statFails (.openWith LsmConfig.default ⟨false, true⟩)]
      (fun c => listed c.world = [runFilename 0] ∧ c.world.dir.get? (runFilename 0) = none) = true := by decide +kernel
  obtain ⟨c, hreach, hc⟩ := Env.reach_leads hplay
  obtain ⟨hlisted, hgone⟩ := of_decide_eq_true hc
  refine ⟨c, hreach, hlisted, hgone, fun h => ?_⟩
  obtain ⟨bytes, hget, _⟩ := h.complete (runFilename 0) (by rw [hlisted]; simp)
  rw [hgone] at hget
  simp at hget

end Directory
end LsmDb
