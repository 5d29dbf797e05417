import LsmDb.Proof.Opening

/-! `open_with` from the first call to the engine it returns. -/
namespace LsmDb
open Lib
set_option autoImplicit false

section Recovery
variable [Deps] {e : Env} {g : Ghost} {w : World} {t : Tid} {seen : Sight} {features : Features} {config : LsmConfig}
  {E : Own → Error → Prop} {live found : List Text} {q : ℕ}

omit [Deps] in
theorem garbage_side {s : ℕ} (h : runFilename s ∉ live) : garbage live (sidecarPath (runFilename s)) = true := by
  unfold garbage sidecarPath
  split_ifs
  · rfl
  · rw [stripSuffix_append]
    simpa using h

theorem mem_listing {n : Name} (h : look w.dir n ≠ none) : n.text ∈ w.listing :=
  List.mem_append_left _ (SortedMap.mem_keys.mpr h)

/-- A run file that was found is below the next number. -/
theorem Disk.found_lt (hd : Disk e g w) (hf : Found e w found false) {s : ℕ} (h : look w.dir (.run s) ≠ none) :
    s < found.foldl passed q := by
  obtain ⟨d, hlook⟩ := Option.ne_none_iff_exists'.mp h
  have hlt := (hd.stored.run s d hlook).lt
  exact lt_foldl_passed (hf.all rfl _ (mem_listing h)) (seqOf_runFilename (Nat.lt_of_succ_lt hlt)) hlt q

/-- After the sweep nothing is left at or above the next number. -/
theorem Disk.swept_fresh (hd : Disk e g w) (hf : Found e w found false)
    (hpres : ∀ s, runFilename s ∈ live → look w.dir (.run s) ≠ none) (s : ℕ) (hle : found.foldl passed q ≤ s) :
    look (swept live found w.dir) (.run s) = none ∧ look (swept live found w.dir) (.side s) = none := by
  have hrun : look w.dir (.run s) = none := by
    by_contra hne
    have hlt := hd.found_lt (q := q) hf hne
    omega
  constructor
  · unfold look at hrun ⊢
    rw [get?_swept]
    split_ifs
    · rfl
    · exact hrun
  · by_contra hne
    unfold look at hne
    rw [get?_swept] at hne
    split_ifs at hne with hgone
    · exact hne rfl
    · refine hgone ⟨hf.all rfl _ (mem_listing hne), garbage_side fun hlive => ?_⟩
      exact hpres s hlive hrun

theorem Gathered.swept (hk : Gathered e g w) (hlive : ∀ r ∈ w.known, r.name ∈ live) :
    Gathered e g { w with dir := swept live found w.dir } where
  of r hr := by
    obtain ⟨s, hof, hlook⟩ := hk.of r hr
    refine ⟨s, hof, ?_⟩
    show look (LsmDb.swept live found w.dir) (.run s) ≠ none
    unfold look
    rw [get?_swept, if_neg]
    · exact hlook
    · rintro ⟨_, hg⟩
      refine garbage_run hg ?_
      rw [← hof.name]
      exact hlive r hr
  numbered := hk.numbered
  ids := hk.ids
  name_ne := hk.name_ne

theorem does_spawn {Q : Own → Except IoError Unit → Prop} {a : Own} (hm : a.mode = .live) (hok : Q a (.ok ()))
    (herr : e.Faulty t a → Q a (.error .other)) : Does e t .spawn a Q := by
  refine Does.look hm (fun _ => trivial) ?_
  intro g w A hr ha c r w' hc hx
  cases c with
  | fail n =>
    simp only [exec, Option.some.injEq, Prod.mk.injEq] at hx
    obtain ⟨rfl, rfl⟩ := hx
    refine ⟨rfl, herr ?_⟩
    rw [← ha]
    exact faulty_of hr.crew.shared hc rfl
  | ok | order _ _ | faults _ =>
    simp only [exec, Option.some.injEq, Prod.mk.injEq] at hx
    obtain ⟨rfl, rfl⟩ := hx
    exact ⟨rfl, hok⟩

/-- The checkpoint and the compactor thread; an engine that cannot have them is dropped. -/
theorem safe_checkpoint {Q : Own → Unit → Prop} (hf : ∀ d, e.Good d → features.durability = d) (ht : t ≠ compactorTid)
    (hok : ∀ x, Q { Own.starts seen with build := x } ())
    (herr : e.Trouble → ∀ w' err, (∃ g, Disk e g w') → E (Own.opens seen w') err) :
    SafeM e t Q E (orDrop do
      flush config features
      io "spawn compaction thread" (perform .spawn)) (Own.starts seen) := by
  have hbody : SafeM e t (fun a _ => ∃ x, a = { Own.starts seen with build := x })
      (fun a _ => e.Trouble ∧ ∃ x l, a = { Own.starts seen with build := x, lost := l })
      (do
        flush config features
        io "spawn compaction thread" (perform .spawn)) (Own.starts seen) := by
    have hquiet : ((Own.starts seen).phase = .quiet ∧ (Own.starts seen).opener = true) ∧ Phase.quiet = .quiet ∨
        (Own.starts seen).phase = .pending [] [] ∧ Phase.quiet = .saved := Or.inl ⟨⟨rfl, rfl⟩, rfl⟩
    refine SafeM.bind (safe_flush rfl rfl rfl ht hf rfl hquiet ?_ fun htr x l err => ⟨htr, x, l, rfl⟩)
    intro x
    refine SafeM.io (Does.safe (does_spawn rfl ⟨x, rfl⟩ fun hfault => ?_))
    exact ⟨(hfault.excused ht).1, x, _, rfl⟩
  refine SafeP.bind (Logic.Safe.mono hbody ?_)
  intro a r hr
  cases r with
  | ok v =>
    obtain ⟨x, rfl⟩ := hr
    exact SafeP.pure (hok x)
  | error err =>
    obtain ⟨htr, x, l, rfl⟩ := hr
    exact SafeP.perform (does_dropEngine rfl rfl fun w' hd => SafeP.pure (herr htr w' err hd))

/-- From the runs on: the sweep, the log, the engine. -/
theorem safe_build {Q : Own → Unit → Prop} {runs : List SsTable} (hd : Disk e g w) (hk : Gathered e g w)
    (hf : ∀ d, e.Good d → features.durability = d) (ht : t ≠ compactorTid) (hl : Listed e g live q)
    (hknown : w.known = runs.reverse) (hnames : names runs = live)
    (hpres : ∀ s, runFilename s ∈ live → look w.dir (.run s) ≠ none)
    (hok : ∀ x, Q { Own.starts seen with build := x } ())
    (herr : e.Trouble → ∀ w' err, (∃ g, Disk e g w') → E (Own.opens seen w') err) :
    SafeM e t Q E
      (do
        let (found, broken) ← io "scan database directory" (perform .readDir)
        let nextSeq ← reclaim live q found
        if broken then throw (.io "read directory entry" .other)
        let memtable ← openLog features
        perform (.startEngine config features memtable runs features.durability nextSeq)
        orDrop do
          flush config features
          io "spawn compaction thread" (perform .spawn)) (Own.opens seen w) := by
  have hlisted : e.statFaults = false → live = g.ns.map runFilename := by
    intro hstat
    rcases hl.names with h | ⟨h, _⟩
    · exact h
    · simp [hstat] at h
  have hlive : e.statFaults = false → ∀ s ∈ g.ns, runFilename s ∈ live := by
    intro hstat s hs
    rw [hlisted hstat]
    exact List.mem_map_of_mem hs
  have hmine : ∀ r ∈ w.known, r.name ∈ live := by
    intro r hr
    rw [hknown] at hr
    rw [← hnames]
    exact List.mem_map_of_mem (List.mem_reverse.mp hr)
  refine SafeM.bind (SafeM.io (Does.safe (does_readDir hd ?_ fun htr err => herr htr w _ ⟨g, hd⟩)))
  intro found broken hfound
  refine SafeM.bind (safe_reclaim hd hlive (hfound.nodup live) ?_ ?_ fun htr dir err hd' => herr htr _ err ⟨g, hd'⟩)
  · exact fun name hname hg => mem_dir_of_garbage (hfound.sub name hname) hg
  intro hswept
  cases broken with
  | true => exact SafeM.bind (SafeM.throw (herr (Or.inl (hfound.fault rfl)) _ _ ⟨g, hswept⟩))
  | false =>
    simp only [Bool.false_eq_true, if_false]
    refine SafeM.bind (safe_openLog hswept hf ?_ fun htr wal err hd' => herr htr _ err ⟨g, hd'⟩)
    intro wal m hlog hmem
    refine SafeM.perform (does_startEngine (g := g) ⟨hlog, ?_, hf, foldl_passed_lt hl.lt found, ?_, hknown, ?_, hmem⟩
      (safe_checkpoint hf ht hok herr))
    · have hgs : Gathered e g { w with dir := swept live found w.dir } := hk.swept hmine
      exact ⟨hgs.of, hgs.numbered, hgs.ids, hgs.name_ne⟩
    · exact hd.swept_fresh hfound hpres
    · intro hstat
      rw [hnames, hlisted hstat]

/-- `open_with` once the manifest has been loaded. -/
def openListed (config : LsmConfig) (features : Features) (manifest : Option Manifest) : M Unit := do
  let live := match manifest with
    | some m => m.runs
    | none => []
  let manifestSeq := match manifest with
    | some m => m.nextSeq
    | none => 0
  let runs ← openRuns features live
  let (found, broken) ← io "scan database directory" (perform .readDir)
  let nextSeq ← reclaim live manifestSeq found
  if broken then throw (.io "read directory entry" .other)
  let memtable ← openLog features
  perform (.startEngine config features memtable runs features.durability nextSeq)
  orDrop do
    flush config features
    io "spawn compaction thread" (perform .spawn)

theorem safe_openWith {Q : Own → Unit → Prop} (hd : Disk e g w) (hnone : w.known = [])
    (hf : ∀ d, e.Good d → features.durability = d) (ht : t ≠ compactorTid)
    (hok : ∀ x, Q { Own.starts seen with build := x } ())
    (herr : e.Trouble → ∀ w' err, (∃ g, Disk e g w') → E (Own.opens seen w') err) :
    SafeM e t Q E (openWith config features) (Own.opens seen w) := by
  have hfail : e.Trouble → ∀ err, E (Own.opens seen w) err := fun htr err => herr htr w err ⟨g, hd⟩
  refine SafeM.bind (SafeM.io (Does.safe (Does.peek hd trivial fun hl c r w' hc hx => ?_)))
  have hgo : SafeM e t Q E
      (do
        let manifest ← loadManifest
        openListed config features manifest) (Own.opens seen w) := by
    refine SafeM.bind (safe_loadManifest hd ?_ hfail)
    intro m hlist
    have hempty : Gathered e g w := by
      refine ⟨?_, ⟨?_, ?_⟩, ?_, ?_⟩ <;> simp [hnone]
    -- the list is the image of run numbers, whether the manifest was seen or not
    obtain ⟨ns, hns, hsub, hnd⟩ : ∃ ns : List ℕ, m.elim [] Manifest.runs = ns.map runFilename ∧
        (∀ s ∈ ns, s ∈ g.ns) ∧ ns.Nodup := by
      rcases hlist.names with h | ⟨_, h⟩
      · exact ⟨g.ns, h, fun _ h => h, hd.stored.nodup⟩
      · exact ⟨[], h, by simp, List.nodup_nil⟩
    have hrest : SafeM e t Q E
        (do
          let runs ← openRuns features (ns.map runFilename)
          let (found, broken) ← io "scan database directory" (perform .readDir)
          let nextSeq ← reclaim (ns.map runFilename) (m.elim 0 Manifest.nextSeq) found
          if broken then throw (.io "read directory entry" .other)
          let memtable ← openLog features
          perform (.startEngine config features memtable runs features.durability nextSeq)
          orDrop do
            flush config features
            io "spawn compaction thread" (perform .spawn)) (Own.opens seen w) := by
      refine SafeM.bind (safe_openRuns hd hempty hsub hnd (by simp [hnone]) ?_
        fun htr w' err hd' _ => herr htr w' err ⟨g, hd'⟩)
      intro w' runs hd' hk' _ hnames hknown hpres
      refine safe_build hd' hk' hf ht (hns ▸ hlist) ?_ hnames ?_ hok herr
      · rw [hknown, hnone, List.append_nil]
      · intro s hs
        obtain ⟨s', hs', heq⟩ := List.mem_map.mp hs
        rw [← runFilename_injective heq]
        exact hpres s' hs'
    rw [← hns] at hrest
    cases m with
    | none => exact hrest
    | some m => exact hrest
  cases c with
  | fail n =>
    simp only [exec, Option.some.injEq, Prod.mk.injEq] at hx
    obtain ⟨rfl, rfl⟩ := hx
    exact ⟨rfl, hfail (hl.faults hc rfl) _⟩
  | ok | order _ _ | faults _ =>
    simp only [exec, Option.some.injEq, Prod.mk.injEq] at hx
    obtain ⟨rfl, rfl⟩ := hx
    exact ⟨rfl, hgo⟩

end Recovery
end LsmDb
