import LsmDb.Engine.Alone
import LsmDb.Sstable.Integrity

/-! `Engine::scan` on any memtable and any runs: the answer is cut out of the newest records by the range alone. -/
namespace LsmDb
open Lib
set_option autoImplicit false

/-! ## Ranges as sets of keys -/

/-- The keys a start bound admits. -/
def Bound.Admits (bound : Bound) (key : Bytes) : Prop :=
  match bound with
  | .included s => s ≤ key
  | .excluded s => s < key
  | .unbounded => True

/-- The keys an end bound admits. -/
def Bound.Reaches (bound : Bound) (key : Bytes) : Prop :=
  match bound with
  | .included e => key ≤ e
  | .excluded e => key < e
  | .unbounded => True

instance (bound : Bound) (key : Bytes) : Decidable (bound.Admits key) :=
  match bound with
  | .included s => inferInstanceAs (Decidable (s ≤ key))
  | .excluded s => inferInstanceAs (Decidable (s < key))
  | .unbounded => inferInstanceAs (Decidable True)

instance (bound : Bound) (key : Bytes) : Decidable (bound.Reaches key) :=
  match bound with
  | .included e => inferInstanceAs (Decidable (key ≤ e))
  | .excluded e => inferInstanceAs (Decidable (key < e))
  | .unbounded => inferInstanceAs (Decidable True)

def Range.Contains (range : Range) (key : Bytes) : Prop := range.start.Admits key ∧ range.stop.Reaches key

theorem Range.below_iff (range : Range) (key : Bytes) : range.below key = true ↔ ¬ range.start.Admits key := by
  unfold Range.below Bound.Admits
  cases range.start with
  | included s => simp
  | excluded s => simp
  | unbounded => simp

theorem Range.above_iff (range : Range) (key : Bytes) : range.above key = true ↔ ¬ range.stop.Reaches key := by
  unfold Range.above Bound.Reaches
  cases range.stop with
  | included e => simp
  | excluded e => simp
  | unbounded => simp

theorem position_within_iff (range : Range) (key : Bytes) : position range key = .within ↔ range.Contains key := by
  have hbelow := range.below_iff key
  have habove := range.above_iff key
  unfold position Range.Contains
  split_ifs with h1 h2
  · simp [hbelow.mp h1]
  · simp [habove.mp h2]
  · rw [hbelow, not_not] at h1
    rw [habove, not_not] at h2
    exact ⟨fun _ => ⟨h1, h2⟩, fun _ => rfl⟩

/-! ## The call -/

section Ranges
variable [Deps] {t : Tid} {pick : Act → World → Choice} {w : World}

/-- Giving up handles never waits, whatever the removals do. -/
theorem alone_dropRuns_returns (tables : List SsTable) (w : World) :
    ∃ w', alone t pick (dropRuns tables) w = some ((), w') := by
  induction tables generalizing w with
  | nil => exact ⟨w, rfl⟩
  | cons table tables ih =>
    have hremove : ∀ (name : Text) (w : World), ∃ r w', exec t (.remove name) (pick (.remove name) w) w = some (r, w') := by
      intro name w
      simp only [exec]
      split
      · exact ⟨_, _, rfl⟩
      · split
        · exact ⟨_, _, rfl⟩
        · exact ⟨_, _, rfl⟩
    obtain ⟨last, w₁, hx⟩ : ∃ last w₁, exec t (.release table) (pick (.release table) w) w = some (last, w₁) :=
      ⟨_, _, rfl⟩
    simp only [dropRuns]
    rw [alone_perform hx]
    cases last with
    | false => exact ih w₁
    | true =>
      obtain ⟨r₂, w₂, hx₂⟩ := hremove table.name w₁
      obtain ⟨r₃, w₃, hx₃⟩ := hremove (sidecarPath table.name) w₂
      obtain ⟨w', hrest⟩ := ih w₃
      refine ⟨w', ?_⟩
      rw [if_pos rfl]
      rw [alone_perform hx₂, alone_perform hx₃]
      exact hrest

omit [Deps] in
/-- A cursor that delivers `es` stands for `es`. -/
theorem RunCursor.Yields.delivers {c : RunCursor} {es : List Entry} (h : c.Yields es) (hs : c.Sound) :
    (Source.run c).Delivers es := by
  have hstream : (Source.run c).stream = (es, none) := h.stream hs
  refine ⟨hs, ?_, fun _ => ?_⟩
  · exact ⟨[], by rw [hstream, List.append_nil]⟩
  · rw [hstream]

/-- Without read errors a scan returns, in ascending order, the pairs inside the bounds whose newest record is a
value: for any memtable, any ascending runs and any two bounds. -/
theorem scan_exact {ess : List (List Entry)} (hlock : w.lock = none) (hread : ∀ w, pick .readFaults w = .ok)
    (hruns : List.Forall₂ (fun r es => r.cursor.Yields es ∧ Ascending es) w.runs ess) (range : Range) :
    ∃ res w', alone t pick (scan range).run w = some (.ok res, w') ∧ Ascending res ∧
      ∀ k v, (k, v) ∈ res ↔ range.Contains k ∧ newest (w.memtable.iter :: ess) k = some (.value v) := by
  have hd : List.Forall₂ (fun c es => (Source.run c).Delivers es)
      (w.runs.map (faultyCursor fun _ _ => none)) ess := by
    rw [List.forall₂_map_left_iff]
    exact hruns.imp fun r es h => h.1.delivers (RunCursor.sound_new _ _)
  have hasc : ∀ es ∈ ess, Ascending es := by
    intro es hes
    obtain ⟨i, hi, rfl⟩ := List.mem_iff_getElem.mp hes
    exact (List.Forall₂.get hruns (by rw [hruns.length_eq]; exact hi) hi).2
  have hends : ∀ c ∈ w.runs.map (faultyCursor fun _ _ => none), c.stream.2 = none := by
    intro c hc
    obtain ⟨i, hi, rfl⟩ := List.mem_iff_getElem.mp hc
    rw [List.length_map] at hi
    have hyields := (List.Forall₂.get hruns hi (by rw [← hruns.length_eq]; exact hi)).1
    have hstream := hyields.stream (RunCursor.sound_new _ _)
    rw [List.getElem_map]
    exact congrArg Prod.snd hstream
  obtain ⟨hscan, hsome⟩ := @scanMerge_spec range _ _ _ w.memtable.iter_ascending hd hasc
  obtain ⟨res, hres⟩ := hsome hends
  have hof := hscan res hres
  obtain ⟨w', hdrop⟩ := @alone_dropRuns_returns _ t pick w.runs { w with
    held := w.runs.map (t, ·) ++ w.held
    spec := { w.spec with seen := Function.update w.spec.seen t ⟨w.spec.cur, w.memtable, w.runs⟩ } }
  refine ⟨res, w', ?_, hof.ascending, fun k v => ?_⟩
  · have hx : exec t (.snapshot fun _ _ => true) (pick (.snapshot fun _ _ => true) w) w = some ((w.memtable, w.runs), { w with
        held := w.runs.map (t, ·) ++ w.held
        spec := { w.spec with seen := Function.update w.spec.seen t ⟨w.spec.cur, w.memtable, w.runs⟩ } }) := by
      simp [exec, hlock]
    have hfaults : ∀ w, exec t .readFaults (pick .readFaults w) w = some (fun _ _ => none, w) := by
      intro w
      rw [hread]
      rfl
    have hrun : (scan range).run = perform (.snapshot fun _ _ => true) >>= fun p =>
        perform .readFaults >>= fun faults =>
          dropRuns p.2 >>= fun _ => pure (scanMerge range (p.1.iter.filter fun e => position range e.1 = .within)
            (p.2.map (faultyCursor faults))) := rfl
    rw [hrun, alone_perform hx, alone_perform (hfaults _), alone_bind hdrop, hres]
    rfl
  · rw [← hof.ascending.find_iff_mem, hof.find_eq]
    split_ifs with hin
    · have hc := (position_within_iff range k).mp hin
      simp only [hc, true_and, answer, resolve]
      cases newest (w.memtable.iter :: ess) k with
      | none => simp
      | some r => cases r <;> simp
    · have hc : ¬ range.Contains k := fun h => hin ((position_within_iff range k).mpr h)
      simp [hc]

end Ranges

/-- Key 1 is deleted and key 3 written in the memtable; a run holds key 2. -/
def scannedWorld [Deps] : World :=
  { World.initial with
    memtable := (MemTable.new.insert [1] .tombstone).insert [3] (.value [8])
    runs := [oneBlockTable [2]] }

/-- A range with its end excluded, and one turned upside down. -/
theorem scan_exact_sample : letI := Deps.concrete
    (∃ res w', alone 1 allOk (scan ⟨.excluded [1], .excluded [3]⟩).run scannedWorld = some (.ok res, w') ∧
      ([2], [7]) ∈ res ∧ ([3], [8]) ∉ res) ∧
    ∃ w', alone 1 allOk (scan ⟨.included [3], .included [2]⟩).run scannedWorld = some (.ok [], w') := by
  let _ := Deps.concrete
  have hruns : List.Forall₂ (fun (r : SsTable) es => r.cursor.Yields es ∧ Ascending es) scannedWorld.runs
      [[([2], .value [7])]] :=
    List.Forall₂.cons ⟨yields_oneBlockFile (by decide +kernel), by decide +kernel⟩ List.Forall₂.nil
  constructor
  · obtain ⟨res, w', h, _, hmem⟩ :=
      @scan_exact _ 1 allOk scannedWorld _ rfl (fun _ => rfl) hruns ⟨.excluded [1], .excluded [3]⟩
    refine ⟨res, w', h, (hmem _ _).mpr ⟨⟨by decide, by decide⟩, by decide +kernel⟩, fun h3 => ?_⟩
    exact absurd ((hmem _ _).mp h3).1.2 (by decide)
  · obtain ⟨res, w', h, _, hmem⟩ :=
      @scan_exact _ 1 allOk scannedWorld _ rfl (fun _ => rfl) hruns ⟨.included [3], .included [2]⟩
    have hnil : res = [] := by
      refine List.eq_nil_iff_forall_not_mem.mpr fun e he => ?_
      obtain ⟨hlo, hhi⟩ := ((hmem e.1 e.2).mp he).1
      exact absurd (le_trans (show [3] ≤ e.1 from hlo) (show e.1 ≤ [2] from hhi)) (by decide)
    rw [hnil] at h
    exact ⟨w', h⟩

end LsmDb
