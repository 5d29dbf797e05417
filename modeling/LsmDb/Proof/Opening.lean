import LsmDb.Proof.Flushing
import LsmDb.Proof.Sequence

/-! Opening a directory: the manifest, its runs and their sidecars, the sweep over the directory, the log,
and the engine that is built from them. Nobody else is around, so the thread knows the whole world. -/
namespace LsmDb
open Lib
set_option autoImplicit false

section Opening
variable [Deps] {e : Env} {g : Ghost} {w : World} {A : Tid → Own} {t : Tid} {seen : Sight} {features : Features}
  {E : Own → Error → Prop}

def Own.opens (seen : Sight) (w : World) : Own := { Own.idle seen with mode := .opening w, opener := true }

/-- What the directory and the log hold. -/
structure Disk (e : Env) (g : Ghost) (w : World) : Prop where
  stored : Stored e g.content g.ns w.dir w.finished
  durable : ∀ d, e.Good d → Durable e d g w.wal w.spec

/-- The world of a thread that opens. -/
structure Lone (t : Tid) (w : World) : Prop where
  opener : w.opener = some t
  live : w.live = false
  runs : w.runs = []
  held : w.held = []

/-- The fields opening leaves alone. -/
structure SameRest (w w' : World) : Prop where
  terms : SameTerms w w'
  runs : w'.runs = w.runs
  held : w'.held = w.held
  obsolete : w'.obsolete = w.obsolete
  spec : w'.spec = w.spec
  features : w'.features = w.features

theorem SameRest.refl (w : World) : SameRest w w := ⟨⟨rfl, rfl, rfl, rfl⟩, rfl, rfl, rfl, rfl, rfl⟩

theorem Inv.resting (h : Inv e w A) {w₀ : World} (ha : A t = Own.opens seen w₀) :
    w₀ = w ∧ ∃ g, Resting e g w A := by
  obtain ⟨g, hr | hr⟩ := h
  · rcases hr.crew.modes t with hm | hm <;> rw [ha] at hm <;> simp [Own.opens, Own.idle] at hm
  · refine ⟨?_, g, hr⟩
    rcases hr.modes t with hm | hm <;> rw [ha] at hm <;> simp [Own.opens, Own.idle] at hm
    exact hm

theorem Resting.others (hr : Resting e g w A) (ha : A t = Own.opens seen w) {t' : Tid} (hne : t' ≠ t) :
    A t' = Own.idle (A t').seen := by
  have ho : w.opener = some t := (hr.shared.opener t).mp (by rw [ha]; rfl)
  exact hr.shared.resting t' (hr.shared.alone t ho t' hne)

theorem Resting.step {g' : Ghost} {w' : World} (hr : Resting e g w A) (ha : A t = Own.opens seen w)
    (hd : Disk e g' w') (hs : SameRest w w') : Resting e g' w' (Function.update A t (Own.opens seen w')) where
  stored := hd.stored
  durable := hd.durable
  shared := by
    refine hr.shared.set hs.terms.opener hs.terms.active (hs.terms.is_ready hr.shared) ?_ ?_ ?_ ?_
    · rw [ha]
      simp [Own.opens]
    · simp [Own.opens]
    · rw [ha]
      rfl
    · have hseen : (Own.opens seen w').seen = (A t).seen := by rw [ha]; rfl
      rw [hs.spec, hseen, ← hr.shared.seen, Function.update_eq_self]
  told d hg hseq := by
    rw [phases_keep (by rw [ha]; rfl), hs.spec]
    exact hr.told d hg hseq
  live := hs.terms.live.trans hr.live
  runs := hs.runs.trans hr.runs
  held := hs.held.trans hr.held
  obsolete := hs.obsolete.trans hr.obsolete
  modes := forall_update (P := fun _ a => a = Own.idle a.seen ∨
      a = { Own.idle a.seen with mode := .opening w', opener := true })
    (Or.inr rfl) fun _ hne => Or.inl (hr.others ha hne)
  cur d hg := by
    rw [hs.spec]
    exact hr.cur d hg
  features d hg := by
    rw [hs.spec, hs.features]
    exact hr.features d hg

theorem Does.resting {o : Act} {Q : Own → Res o → Prop}
    (h : Lone t w → guardAct e t o w ∧ ∀ c r w', e.allowsAct w t o c → exec t o c w = some (r, w') →
      ∃ g', Disk e g' w' ∧ SameRest w w' ∧ Q (Own.opens seen w') r) : Does e t o (Own.opens seen w) Q := by
  intro w₁ A hinv ha
  obtain ⟨rfl, g, hr⟩ := hinv.resting ha
  have ho : w.opener = some t := (hr.shared.opener t).mp (by rw [ha]; rfl)
  obtain ⟨hg, hstep⟩ := h ⟨ho, hr.live, hr.runs, hr.held⟩
  refine ⟨hg, fun c r w' hc hx => ?_⟩
  obtain ⟨g', hd, hs, hq⟩ := hstep c r w' hc hx
  exact ⟨_, ⟨g', Or.inr (hr.step ha hd hs)⟩, hq⟩

/-- An operation that only looks. -/
theorem Does.peek {o : Act} {Q : Own → Res o → Prop} (hd : Disk e g w) (hg : guardAct e t o w)
    (h : Lone t w → ∀ c r w', e.allowsAct w t o c → exec t o c w = some (r, w') →
      w' = w ∧ Q (Own.opens seen w) r) : Does e t o (Own.opens seen w) Q := by
  refine Does.resting fun hl => ⟨hg, fun c r w' hc hx => ?_⟩
  obtain ⟨rfl, hq⟩ := h hl c r w' hc hx
  exact ⟨g, hd, SameRest.refl _, hq⟩

theorem Lone.faults {o : Act} {c : Choice} (hl : Lone t w)
    (hc : if t = compactorTid ∨ w.opener = some t then e.ioFaults = true ∨ o.fails w c = false
      else e.flushFaults = true ∨ o.fails w c = false) (hf : o.fails w c = true) : e.Trouble := by
  rw [if_pos (Or.inr hl.opener)] at hc
  exact Or.inl (hc.resolve_right (by simp [hf]))

/-! ## The manifest -/

/-- What opening takes from the manifest: its list, or nothing when the manifest was not seen. -/
structure Listed (e : Env) (g : Ghost) (live : List Text) (q : ℕ) : Prop where
  lt : q < 2 ^ 64
  names : live = g.ns.map runFilename ∨ e.statFaults = true ∧ live = []

theorem trouble_of_stat (h : e.statFaults = true) : e.Trouble := by
  refine Or.inr fun d hd => ?_
  have hstat := hd.stat
  rw [h] at hstat
  simp at hstat

theorem safe_loadManifest {Q : Own → Option Manifest → Prop} (hd : Disk e g w)
    (hok : ∀ m : Option Manifest, Listed e g (m.elim [] Manifest.runs) (m.elim 0 Manifest.nextSeq) →
      Q (Own.opens seen w) m)
    (herr : e.Trouble → ∀ err, E (Own.opens seen w) err) : SafeM e t Q E loadManifest (Own.opens seen w) := by
  refine SafeM.perform (Does.peek hd trivial fun hl c r w' hc hx => ?_)
  -- a manifest that is not seen is not there, or its stat failed
  have hmiss : ∀ {b : Bool}, b = false → (b = (w.dir.get? MANIFEST).isSome ∨ e.statFaults = true) →
      SafeM e t Q E (if b = true then
        (do
          let text ← io "read manifest" (perform (.readText MANIFEST))
          let m ← lift (parseManifest text)
          pure (some m))
        else pure none) (Own.opens seen w) := by
    intro b hb hwhy
    subst hb
    refine SafeM.pure (hok none ⟨by simp, ?_⟩)
    rcases hwhy with hnone | hstat
    · left
      have hget : look w.dir .manifest = none := by
        show w.dir.get? MANIFEST = none
        simpa using hnone.symm
      rcases hd.stored.manifest with ⟨_, hns⟩ | ⟨q, _, htext⟩
      · rw [hns]
        rfl
      · rw [hget] at htext
        simp at htext
    · exact Or.inr ⟨hstat, rfl⟩
  cases c with
  | fail n =>
    simp only [exec, Option.some.injEq, Prod.mk.injEq] at hx
    obtain ⟨rfl, rfl⟩ := hx
    have hstat : e.statFaults = true := by simpa [Env.allowsAct, Choice.faulty] using hc
    exact ⟨rfl, hmiss rfl (Or.inr hstat)⟩
  | ok | order _ _ | faults _ =>
    simp only [exec, Option.some.injEq, Prod.mk.injEq] at hx
    obtain ⟨rfl, rfl⟩ := hx
    refine ⟨rfl, ?_⟩
    rcases hd.stored.manifest with ⟨hnone, _⟩ | ⟨q, hq, htext⟩
    · have hget : w.dir.get? MANIFEST = none := hnone
      exact hmiss (by rw [hget]; rfl) (Or.inl rfl)
    · have hget : w.dir.get? MANIFEST = some (.text (manifestText q (g.ns.map runFilename))) := htext
      rw [hget]
      refine SafeM.bind (SafeM.io (Does.safe (Does.peek hd trivial fun hl' c r w' hc hx => ?_)))
      cases c with
      | fail n =>
        simp only [exec, Option.some.injEq, Prod.mk.injEq] at hx
        obtain ⟨rfl, rfl⟩ := hx
        exact ⟨rfl, herr (hl'.faults hc rfl) _⟩
      | ok | order _ _ | faults _ =>
        simp only [exec, hget, Option.some.injEq, Prod.mk.injEq] at hx
        obtain ⟨rfl, rfl⟩ := hx
        refine ⟨rfl, SafeM.bind (SafeM.lift ?_ ?_)⟩
        · intro m hm
          rw [parseManifest_manifestText hq (by simp)] at hm
          rw [← Except.ok.inj hm]
          exact SafeM.pure (hok _ ⟨hq, Or.inl rfl⟩)
        · intro err hm
          rw [parseManifest_manifestText hq (by simp)] at hm
          simp at hm

/-! ## The runs -/

/-- The runs opened so far. -/
structure Gathered (e : Env) (g : Ghost) (w : World) : Prop where
  of : ∀ r ∈ w.known, ∃ s, RunOf g.content r s ∧ look w.dir (.run s) ≠ none
  numbered : Numbered w.known w.nextRunId
  ids : e.small = true → ∀ r ∈ w.known, r.runId < 2 ^ 64
  name_ne : w.known.Pairwise fun r r' => r.name ≠ r'.name

/-- A name that is neither the manifest nor a listed run can go. -/
theorem Disk.erase (hd : Disk e g w) {name : Text} (hman : name ≠ MANIFEST)
    (hrun : e.statFaults = false → ∀ s ∈ g.ns, name ≠ runFilename s) :
    Disk e g { w with dir := w.dir.erase name } where
  stored := by
    have hsub : ∀ n d, look (w.dir.erase name) n = some d → look w.dir n = some d := by
      intro n d h
      rw [look_erase_text] at h
      split_ifs at h
      exact h
    have hkeep : ∀ n : Name, n.text ≠ name → look (w.dir.erase name) n = look w.dir n := by
      intro n hne
      rw [look_erase_text, if_neg hne]
    refine ⟨fun s d h => hd.stored.run s d (hsub _ d h), fun s d h => hd.stored.side s d (hsub _ d h), ?_,
      hd.stored.nodup, ?_⟩
    · rw [hkeep .manifest (Ne.symm hman)]
      exact hd.stored.manifest
    · intro hstat s hs
      rw [hkeep (.run s) (Ne.symm (hrun hstat s hs))]
      exact hd.stored.present hstat s hs
  durable := hd.durable

theorem guard_remove_side (s : ℕ) : guardAct e t (.remove (sidecarPath (runFilename s))) w := by
  have hman : (Name.side s).text ≠ Name.manifest.text := by simp
  refine ⟨hman, fun _ q hq => ?_⟩
  have hne := Name.text_injective (n := .side s) (m := .run q) hq
  simp at hne

theorem Disk.erase_side (hd : Disk e g w) (s : ℕ) :
    Disk e g { w with dir := w.dir.erase (sidecarPath (runFilename s)) } := by
  refine hd.erase ?_ fun _ q _ => ?_
  · have hne : (Name.side s).text ≠ Name.manifest.text := by simp
    exact hne
  · have hne : (Name.side s).text ≠ (Name.run q).text := by simp
    exact hne

/-- A sidecar is attached, missing, or rejected and removed. -/
theorem safe_loadFilter {Q : Own → Option RunFilter → Prop} {s : ℕ} (hd : Disk e g w) (hk : Gathered e g w)
    (hok : ∀ dir f, Disk e g { w with dir := dir } → Gathered e g { w with dir := dir } →
      (∀ n, look dir (.run n) = look w.dir (.run n)) → (BloomLaws → Covers f (g.content s)) →
      Q (Own.opens seen { w with dir := dir }) f)
    (herr : e.Trouble → ∀ err, E (Own.opens seen w) err) :
    SafeM e t Q E (loadFilter features (runFilename s)) (Own.opens seen w) := by
  have hnone : Q (Own.opens seen w) none := hok w.dir none hd hk (fun _ => rfl) fun _ => covers_none _
  unfold loadFilter
  by_cases hbloom : features.bloom = true
  swap
  · rw [if_neg hbloom]
    exact SafeM.pure hnone
  rw [if_pos hbloom]
  refine SafeM.perform (Does.peek hd trivial fun hl c r w' hc hx => ?_)
  cases c with
  | fail n =>
    simp only [exec, Option.some.injEq, Prod.mk.injEq] at hx
    obtain ⟨rfl, rfl⟩ := hx
    exact ⟨rfl, SafeM.throw (herr (hl.faults hc rfl) _)⟩
  | ok | order _ _ | faults _ =>
    cases hget : w.dir.get? (sidecarPath (runFilename s)) with
    | none =>
      simp only [exec, hget, Option.some.injEq, Prod.mk.injEq] at hx
      obtain ⟨rfl, rfl⟩ := hx
      exact ⟨rfl, SafeM.pure hnone⟩
    | some d =>
      obtain ⟨bytes, rfl, hcov⟩ := hd.stored.side s d hget
      simp only [exec, hget, Option.some.injEq, Prod.mk.injEq] at hx
      obtain ⟨rfl, rfl⟩ := hx
      refine ⟨rfl, ?_⟩
      dsimp only
      cases hdec : RunFilter.decode bytes with
      | some f => exact SafeM.pure (hok w.dir (some f) hd hk (fun _ => rfl) (hcov f hdec))
      | none =>
        have hkeep : ∀ n, look (w.dir.erase (sidecarPath (runFilename s))) (.run n) = look w.dir (.run n) := by
          intro n
          have hne : ¬ (Name.run n).text = (Name.side s).text := by simp
          rw [look_erase_text]
          exact if_neg hne
        have hgone : Q (Own.opens seen { w with dir := w.dir.erase (sidecarPath (runFilename s)) }) none := by
          refine hok _ none (hd.erase_side s) { hk with of := fun r hr => ?_ } hkeep fun _ => covers_none _
          obtain ⟨n, hof, hlook⟩ := hk.of r hr
          exact ⟨n, hof, by rw [hkeep]; exact hlook⟩
        refine SafeM.perform (Does.resting fun hl => ⟨guard_remove_side s, fun c r w' hc hx => ?_⟩)
        cases c with
        | fail n =>
          simp only [exec, Option.some.injEq, Prod.mk.injEq] at hx
          obtain ⟨rfl, rfl⟩ := hx
          exact ⟨g, hd, SameRest.refl w, SafeM.pure hnone⟩
        | ok | order _ _ | faults _ =>
          simp only [exec, hget, Option.some.injEq, Prod.mk.injEq] at hx
          obtain ⟨rfl, rfl⟩ := hx
          exact ⟨g, hd.erase_side s, ⟨⟨rfl, rfl, rfl, rfl⟩, rfl, rfl, rfl, rfl, rfl⟩, SafeM.pure hgone⟩

theorem RunLayout.index_accepted {es : List Entry} {file : Bytes} {bs : List (List Entry)} (hl : RunLayout es file bs)
    (hasc : Ascending es) {d : Bool} (hg : e.Good d) (hw : ∀ x ∈ es, e.Within x) {err : Error} :
    SsTable.readIndex file.length (preadExact file) ≠ .error err := by
  have hkeys : ∀ x ∈ handlesFrom 8 bs, x.lastKey.length ≤ MAX_RECORD_LEN := by
    intro x hx
    obtain ⟨y, hy, heq⟩ := hl.exists_entry hx
    rw [heq]
    exact (hg.flushable (hw y hy)).1
  rw [hl.readIndex_ok hasc hkeys]
  simp

theorem does_openRun_listed {Q : Own → Except Error OpenedRun → Prop} {s : ℕ} {file : Bytes} {bs : List (List Entry)}
    (hd : Disk e g w) (hs : s ∈ g.ns) (hget : look w.dir (.run s) = some (.bin file))
    (hl : RunLayout (g.content s) file bs) (hasc : Ascending (g.content s))
    (hok : ∀ index count, SsTable.readIndex file.length (preadExact file) = .ok (index, count) →
      Q (Own.opens seen w) (.ok ⟨file, index, count⟩))
    (herr : e.Trouble → ∀ err, Q (Own.opens seen w) (.error err)) :
    Does e t (.openRun (runFilename s)) (Own.opens seen w) Q := by
  refine Does.peek hd trivial fun hlone c r w' hc hx => ?_
  have hget' : w.dir.get? (runFilename s) = some (.bin file) := hget
  simp only [exec, hget', Option.some.injEq, Prod.mk.injEq] at hx
  obtain ⟨rfl, rfl⟩ := hx
  refine ⟨rfl, ?_⟩
  cases c with
  | fail n =>
    have htr : e.Trouble := hlone.faults hc rfl
    simp only [openFile]
    split_ifs <;> exact herr htr _
  | ok | order _ _ | faults _ =>
    simp only [openFile]
    cases hread : SsTable.readIndex file.length (preadExact file) with
    | ok p => exact hok p.1 p.2 hread
    | error err =>
      refine herr (Or.inr fun d hg => ?_) err
      exact hl.index_accepted hasc hg ((hd.durable d hg).within s hs) hread

/-- A listed run is there unless the answer to the stat was wrong. -/
theorem does_exists_listed {Q : Own → Bool → Prop} {s : ℕ} (hd : Disk e g w) (hs : s ∈ g.ns)
    (hok : look w.dir (.run s) ≠ none → Q (Own.opens seen w) true)
    (herr : e.Trouble → Q (Own.opens seen w) false) : Does e t (.exists (runFilename s)) (Own.opens seen w) Q := by
  refine Does.peek hd trivial fun _ c r w' hc hx => ?_
  cases c with
  | fail n =>
    simp only [exec, Option.some.injEq, Prod.mk.injEq] at hx
    obtain ⟨rfl, rfl⟩ := hx
    have hstat : e.statFaults = true := by simpa [Env.allowsAct, Choice.faulty] using hc
    exact ⟨rfl, herr (trouble_of_stat hstat)⟩
  | ok | order _ _ | faults _ =>
    simp only [exec, Option.some.injEq, Prod.mk.injEq] at hx
    obtain ⟨rfl, rfl⟩ := hx
    refine ⟨rfl, ?_⟩
    cases hget : w.dir.get? (runFilename s) with
    | some d =>
      refine hok fun hnone => ?_
      have hnone' : w.dir.get? (runFilename s) = none := hnone
      rw [hget] at hnone'
      simp at hnone'
    | none =>
      refine herr ?_
      by_cases hstat : e.statFaults = true
      · exact trouble_of_stat hstat
      · exact absurd hget (hd.stored.present (by simpa using hstat) s hs)

theorem Gathered.register (hk : Gathered e g w) {s : ℕ} {file : Bytes} {bs : List (List Entry)} {index : List BlockHandle}
    {count : ℕ} {filter : Option RunFilter} (hl : RunLayout (g.content s) file bs) (hasc : Ascending (g.content s))
    (hread : SsTable.readIndex file.length (preadExact file) = .ok (index, count))
    (hcov : BloomLaws → Covers filter (g.content s)) (hlook : look w.dir (.run s) ≠ none)
    (hid : e.small = true → w.nextRunId < 2 ^ 64) (hnew : ∀ r ∈ w.known, r.name ≠ runFilename s) :
    Gathered e g { w with
      nextRunId := w.nextRunId + 1
      known := ⟨file, runFilename s, index, count, filter, w.nextRunId⟩ :: w.known } where
  of r hr := by
    rcases List.mem_cons.mp hr with rfl | hr
    · have hu := hl.readIndex_unique hasc hread
      simp only [Prod.mk.injEq] at hu
      exact ⟨s, ⟨rfl, ⟨bs, hl, hasc, hu.1, hu.2⟩, hcov⟩, hlook⟩
    · exact hk.of r hr
  numbered := hk.numbered.open rfl
  ids hsm r hr := by
    rcases List.mem_cons.mp hr with rfl | hr
    · exact hid hsm
    · exact hk.ids hsm r hr
  name_ne := List.pairwise_cons.mpr ⟨fun r hr heq => hnew r hr heq.symm, hk.name_ne⟩

/-- Every listed run is opened, in order. -/
theorem safe_openRuns {Q : Own → List SsTable → Prop} {ns : List ℕ} (hd : Disk e g w) (hk : Gathered e g w)
    (hsub : ∀ s ∈ ns, s ∈ g.ns) (hnd : ns.Nodup) (hnew : ∀ s ∈ ns, ∀ r ∈ w.known, r.name ≠ runFilename s)
    (hok : ∀ w' tables, Disk e g w' → Gathered e g w' → SameRest w w' → names tables = ns.map runFilename →
      w'.known = tables.reverse ++ w.known → (∀ s ∈ ns, look w'.dir (.run s) ≠ none) → Q (Own.opens seen w') tables)
    (herr : e.Trouble → ∀ w' err, Disk e g w' → SameRest w w' → E (Own.opens seen w') err) :
    SafeM e t Q E (openRuns features (ns.map runFilename)) (Own.opens seen w) := by
  induction ns generalizing w Q with
  | nil => exact SafeM.pure (hok w [] hd hk (SameRest.refl w) rfl rfl (by simp))
  | cons s ns ih =>
    have hmem : s ∈ g.ns := hsub s (by simp)
    refine SafeM.perform (does_exists_listed hd hmem ?_ fun htr => SafeM.throw (herr htr w _ hd (SameRest.refl w)))
    intro hlook
    obtain ⟨x, hx⟩ := Option.ne_none_iff_exists'.mp hlook
    obtain ⟨file, bs, rfl, _, hl⟩ := (hd.stored.run s x hx).bytes
    have hasc := (hd.stored.run s _ hx).ascending
    refine SafeM.bind (Does.safe (does_openRun_listed hd hmem hx hl hasc ?_
      fun htr err => herr htr w err hd (SameRest.refl w)))
    intro index count hread
    refine SafeM.bind (safe_loadFilter hd hk ?_ fun htr err => herr htr w err hd (SameRest.refl w))
    intro dir f hd' hk' hkeep hcov
    refine SafeM.perform (Does.resting fun _ => ⟨trivial, fun c r w' hc hx' => ?_⟩)
    simp only [exec, Option.some.injEq, Prod.mk.injEq] at hx'
    obtain ⟨rfl, rfl⟩ := hx'
    have hlook' : look dir (.run s) ≠ none := by rw [hkeep]; exact hlook
    have hk'' := hk'.register hl hasc hread hcov hlook' (fun hsm => (hc hsm).1) (hnew s (by simp))
    have hrest : ∀ w'', SameRest { w with
        dir := dir
        nextRunId := w.nextRunId + 1
        known := ⟨file, runFilename s, index, count, f, w.nextRunId⟩ :: w.known } w'' → SameRest w w'' :=
      fun _ hs => ⟨⟨hs.terms.opener, hs.terms.active, hs.terms.ready, hs.terms.live⟩, hs.runs, hs.held, hs.obsolete,
        hs.spec, hs.features⟩
    refine ⟨g, ⟨hd'.stored, hd'.durable⟩, ⟨⟨rfl, rfl, rfl, rfl⟩, rfl, rfl, rfl, rfl, rfl⟩, ?_⟩
    refine SafeM.bind (ih ⟨hd'.stored, hd'.durable⟩ hk'' (fun q hq => hsub q (by simp [hq])) (List.nodup_cons.mp hnd).2
      ?_ ?_ ?_)
    · intro q hq r hr
      rcases List.mem_cons.mp hr with rfl | hr
      · intro heq
        rw [runFilename_injective heq] at hnd
        exact (List.nodup_cons.mp hnd).1 hq
      · exact hnew q (by simp [hq]) r hr
    · intro w' tables hdw hkw hsw hnames hknown hlooks
      refine SafeM.pure (hok w' _ hdw hkw (hrest w' hsw) ?_ ?_ ?_)
      · simp only [names, List.map_cons] at hnames ⊢
        rw [hnames]
      · rw [hknown]
        simp
      · intro q hq
        rcases List.mem_cons.mp hq with rfl | hq
        · have hmem' : (⟨file, runFilename q, index, count, f, w.nextRunId⟩ : SsTable) ∈ w'.known := by
            rw [hknown]
            simp
          obtain ⟨q', hof, hlk⟩ := hkw.of _ hmem'
          rwa [runFilename_injective hof.name]
        · exact hlooks q hq
    · exact fun htr w' err hdw hsw => herr htr w' err hdw (hrest w' hsw)

/-! ## The sweep -/

omit [Deps] in
theorem garbage_manifest (live : List Text) : garbage live MANIFEST = false := rfl

omit [Deps] in
theorem garbage_run {live : List Text} {s : ℕ} (h : garbage live (runFilename s) = true) : runFilename s ∉ live := by
  have htmp : TMP.isSuffixOf (runFilename s) = false := by
    by_contra hne
    have hlast := isSuffixOf_getLast (c := 'p') rfl (by simpa using hne)
    rw [getLast_runFilename] at hlast
    simp at hlast
  have hbloom : stripSuffix BLOOM (runFilename s) = none := by
    unfold stripSuffix
    split_ifs with hb
    · have hlast := isSuffixOf_getLast (c := 'm') rfl hb
      rw [getLast_runFilename] at hlast
      simp at hlast
    · rfl
  unfold garbage at h
  simp only [htmp, hbloom, Bool.false_eq_true, if_false] at h
  split at h
  · simpa using h
  · simp at h

/-- The directory after the sweep. -/
def swept (live found : List Text) (dir : SortedMap Text Data) : SortedMap Text Data :=
  (found.filter (garbage live)).foldl SortedMap.erase dir

theorem Disk.sweep (hd : Disk e g w) {live : List Text} {name : Text} (hg : garbage live name = true)
    (hlive : e.statFaults = false → ∀ s ∈ g.ns, runFilename s ∈ live) :
    Disk e g { w with dir := w.dir.erase name } := by
  refine hd.erase ?_ fun hstat s hs heq => ?_
  · rintro rfl
    rw [garbage_manifest] at hg
    simp at hg
  · rw [heq] at hg
    exact garbage_run hg (hlive hstat s hs)

theorem Lone.guard_sweep (hl : Lone t w) (hd : Disk e g w) {live : List Text} {name : Text}
    (hg : garbage live name = true) (hlive : e.statFaults = false → ∀ s ∈ g.ns, runFilename s ∈ live) :
    guardAct e t (.remove name) w := by
  refine ⟨fun hman => by simp [hman, garbage_manifest] at hg, fun hstat s heq => ?_⟩
  refine ⟨?_, by simp [hl.runs], by simp [hl.held]⟩
  rw [hd.stored.listed_eq]
  intro hmem
  obtain ⟨q, hq, hname⟩ := List.mem_map.mp hmem
  rw [← hname] at hg
  exact garbage_run hg (hlive hstat q hq)

theorem safe_reclaim {Q : Own → ℕ → Prop} {live found : List Text} {q : ℕ} (hd : Disk e g w)
    (hlive : e.statFaults = false → ∀ s ∈ g.ns, runFilename s ∈ live) (hnd : (found.filter (garbage live)).Nodup)
    (hin : ∀ name ∈ found, garbage live name = true → w.dir.get? name ≠ none)
    (hok : Disk e g { w with dir := swept live found w.dir } →
      Q (Own.opens seen { w with dir := swept live found w.dir }) (found.foldl passed q))
    (herr : e.Trouble → ∀ dir err, Disk e g { w with dir := dir } → E (Own.opens seen { w with dir := dir }) err) :
    SafeM e t Q E (reclaim live q found) (Own.opens seen w) := by
  induction found generalizing w q with
  | nil => exact SafeM.pure (hok hd)
  | cons name found ih =>
    obtain ⟨context, heq⟩ := reclaim_cons live q name found
    rw [heq]
    by_cases hg : garbage live name = true
    · rw [if_pos hg]
      rw [List.filter_cons_of_pos hg] at hnd
      obtain ⟨hnot, hnd'⟩ := List.nodup_cons.mp hnd
      have hswept : swept live (name :: found) w.dir = swept live found (w.dir.erase name) := by
        simp [swept, hg]
      have hrest : SafeM e t Q E (reclaim live (passed q name) found)
          (Own.opens seen { w with dir := w.dir.erase name }) := by
        refine ih (hd.sweep hg hlive) hnd' ?_ ?_ herr
        · intro x hx hgx
          have hne : x ≠ name := fun h => hnot (h ▸ List.mem_filter.mpr ⟨hx, hgx⟩)
          show (w.dir.erase name).get? x ≠ none
          rw [SortedMap.get?_erase_ne _ hne]
          exact hin x (by simp [hx]) hgx
        · rw [← hswept]
          exact hok
      obtain ⟨d, hget⟩ := Option.ne_none_iff_exists'.mp (hin name (by simp) hg)
      refine SafeM.bind (SafeM.io (Does.safe (Does.resting fun hl =>
        ⟨hl.guard_sweep hd hg hlive, fun c r w' hc hx => ?_⟩)))
      cases c with
      | fail n =>
        have hio : e.ioFaults = true := by simpa [Env.allowsAct, Act.fails, Choice.faulty] using hc
        simp only [exec, Option.some.injEq, Prod.mk.injEq] at hx
        obtain ⟨rfl, rfl⟩ := hx
        exact ⟨g, hd, SameRest.refl w, herr (Or.inl hio) w.dir _ hd⟩
      | ok | order _ _ | faults _ =>
        simp only [exec, hget, Option.some.injEq, Prod.mk.injEq] at hx
        obtain ⟨rfl, rfl⟩ := hx
        exact ⟨g, hd.sweep hg hlive, ⟨⟨rfl, rfl, rfl, rfl⟩, rfl, rfl, rfl, rfl, rfl⟩, hrest⟩
    · rw [if_neg hg]
      rw [List.filter_cons_of_neg hg] at hnd
      have hswept : swept live (name :: found) w.dir = swept live found w.dir := by
        simp [swept, hg]
      rw [hswept] at hok
      exact ih hd hnd (fun x hx => hin x (by simp [hx])) hok herr

/-! ## The log -/

theorem Disk.wal (hd : Disk e g w) : Disk e g { w with wal := some (w.wal.getD Deps.walNew) } where
  stored := hd.stored
  durable d hg := (hd.durable d hg).opened

theorem safe_openLog {Q : Own → MemTable → Prop} (hd : Disk e g w) (hf : ∀ d, e.Good d → features.durability = d)
    (hok : ∀ wal m, Disk e g { w with wal := wal } → (∀ d, e.Good d → m.iter = if d then g.log else []) →
      Q (Own.opens seen { w with wal := wal }) m)
    (herr : e.Trouble → ∀ wal err, Disk e g { w with wal := wal } → E (Own.opens seen { w with wal := wal }) err) :
    SafeM e t Q E (openLog features) (Own.opens seen w) := by
  unfold openLog
  by_cases hdur : features.durability = true
  swap
  · rw [if_neg hdur]
    refine SafeM.pure (hok w.wal MemTable.new hd fun d hg => ?_)
    have hfalse : d = false := by rw [← hf d hg]; simpa using hdur
    rw [hfalse]
    rfl
  rw [if_pos hdur]
  have htrue : ∀ d, e.Good d → d = true := fun d hg => by rw [← hf d hg, hdur]
  -- replaying what the log holds
  have hreplay : SafeM e t Q E
      (do
        let records ← ExceptT.mk (perform .walIter)
        lift (replayLog MemTable.new records))
      (Own.opens seen { w with wal := some (w.wal.getD Deps.walNew) }) := by
    refine SafeM.bind (Does.safe (Does.peek hd.wal trivial fun _ c r w' hc hx => ?_))
    cases c with
    | fail n =>
      have hio : e.ioFaults = true := by simpa [Env.allowsAct, Act.fails, Choice.faulty] using hc
      cases n <;> simp only [exec, Option.some.injEq, Prod.mk.injEq] at hx <;> obtain ⟨rfl, rfl⟩ := hx <;>
        exact ⟨rfl, herr (Or.inl hio) _ _ hd.wal⟩
    | ok | order _ _ | faults _ =>
      simp only [exec, logRecords_some, walIter_getD, Option.some.injEq, Prod.mk.injEq] at hx
      obtain ⟨rfl, rfl⟩ := hx
      refine ⟨rfl, SafeM.lift (e := e) (t := t) ?_ ?_⟩
      · intro m hm
        refine hok _ m hd.wal fun d hg => ?_
        have hd' := hd.durable d hg
        have ht := htrue d hg
        rw [hd'.log ht, replayLog_encodeLog fun ops hops => (hd'.sized ht ops hops).1] at hm
        rw [← Except.ok.inj hm, ht, MemTable.iter_applyAll]
        rfl
      · intro err hm
        refine herr (Or.inr fun d hg => ?_) _ err hd.wal
        have hd' := hd.durable d hg
        have ht := htrue d hg
        rw [hd'.log ht, replayLog_encodeLog fun ops hops => (hd'.sized ht ops hops).1] at hm
        simp at hm
  refine SafeM.bind (SafeM.io (Does.safe (Does.resting fun _ => ⟨trivial, fun c r w' hc hx => ?_⟩)))
  have hsame : SameRest w { w with wal := some (w.wal.getD Deps.walNew) } := ⟨⟨rfl, rfl, rfl, rfl⟩, rfl, rfl, rfl, rfl, rfl⟩
  cases c with
  | fail n =>
    have hio : e.ioFaults = true := by simpa [Env.allowsAct, Act.fails, Choice.faulty] using hc
    cases n with
    | zero =>
      simp only [exec, Option.some.injEq, Prod.mk.injEq] at hx
      obtain ⟨rfl, rfl⟩ := hx
      exact ⟨g, hd, SameRest.refl w, herr (Or.inl hio) w.wal _ hd⟩
    | succ n =>
      simp only [exec, Option.some.injEq, Prod.mk.injEq] at hx
      obtain ⟨rfl, rfl⟩ := hx
      exact ⟨g, hd.wal, hsame, herr (Or.inl hio) _ _ hd.wal⟩
  | ok | order _ _ | faults _ =>
    simp only [exec, Option.some.injEq, Prod.mk.injEq] at hx
    obtain ⟨rfl, rfl⟩ := hx
    exact ⟨g, hd.wal, hsame, hreplay⟩

/-! ## The engine -/

/-- The thread that opens, once there is an engine. -/
def Own.starts (seen : Sight) : Own := { Own.idle seen with mode := .live, opener := true }

/-- A thread that has nothing in hand. -/
theorem Local.blank {a : Own} (hlock : w.lock = none) (hheld : w.held = []) (hh : a.hold = none) (hb : a.build = none)
    (hhd : a.held = []) (hdead : a.dead = none) (hin : a.inputs = []) (hp : a.phase = .quiet)
    (hl : a.opener = true → g.lost = a.lost) : Local e g w t a where
  holder := by simp [hlock, hh]
  mirrors h h' := by simp [hh] at h'
  building b h' := by simp [hb] at h'
  held := by simp [hheld, hhd]
  dead r h' := by simp [hdead] at h'
  inputs h' := absurd hin h'
  suffix := by simp [hin]
  input x hx := by simp [hin] at hx
  logged ops prior h' := by simp [hp] at h'
  lost := hl

/-- What opening has found out when it builds the engine. -/
structure Recovered (e : Env) (g : Ghost) (w : World) (features : Features) (m : MemTable) (runs : List SsTable)
    (q : ℕ) : Prop where
  disk : Disk e g w
  gathered : Gathered e g w
  durability : ∀ d, e.Good d → features.durability = d
  lt : q < 2 ^ 64
  fresh : ∀ s, q ≤ s → look w.dir (.run s) = none ∧ look w.dir (.side s) = none
  known : w.known = runs.reverse
  names : e.statFaults = false → names runs = g.ns.map runFilename
  memtable : ∀ d, e.Good d → m.iter = if d then g.log else []

theorem Recovered.session {m : MemTable} {runs : List SsTable} {q : ℕ} {config : LsmConfig}
    (h : Recovered e g w features m runs q) (hobs : w.obsolete = []) (hheld : w.held = [])
    (hcur : ∀ d, e.Good d → w.spec.cur = w.spec.durable d)
    (hsmall : e.small = true → (∀ r ∈ runs, r.index.length ≤ 2 ^ 32) ∨
      (BlockCache.new config.blockCacheCapacity).enabled = false) :
    Session e { g with buf := m.iter, lost := false }
      { w with
        live := true
        config := config
        features := features
        memtable := m
        runs := runs
        walOpen := features.durability
        lock := none
        nextSeq := q
        cache := BlockCache.new config.blockCacheCapacity } where
  stored := h.disk.stored
  durable d hd := { h.disk.durable d hd with }
  live := rfl
  seq_lt := h.lt
  fresh := h.fresh
  known r hr := by
    obtain ⟨s, hof, hlook⟩ := h.gathered.of r hr
    refine ⟨s, ?_, hof⟩
    by_contra hge
    exact hlook (h.fresh s (not_lt.mp hge)).1
  id_lt := h.gathered.numbered.id_lt
  id_ne := h.gathered.numbered.id_ne
  name_ne := h.gathered.name_ne
  obsolete_lt i hi := by simp [hobs] at hi
  runs_known r hr := by
    show r ∈ w.known
    rw [h.known]
    simpa using hr
  runs_nodup := by
    have hnd : w.known.Nodup := h.gathered.numbered.id_ne.imp fun hne heq => hne (by rw [heq])
    rw [h.known] at hnd
    exact List.nodup_reverse.mp hnd
  runs_live r _ := by simp [hobs]
  held_known x hx := by simp [hheld] at hx
  buf _ := rfl
  named hstat _ := h.names hstat
  ns_lt hstat s hs := by
    show s < q
    by_contra hge
    exact h.disk.stored.present hstat s hs (h.fresh s (not_lt.mp hge)).1
  gone _ r _ hobs' := by simp [hobs] at hobs'
  cached hsm := by
    refine ⟨h.gathered.ids hsm, BlockCache.coherent_new _ _, fun hen r hr => ?_⟩
    have hr' : r ∈ runs := by
      have hk : r ∈ w.known := hr
      rw [h.known] at hk
      simpa using hk
    refine ((hsmall hsm).resolve_right fun hdis => ?_) r hr'
    have hen' : (BlockCache.new config.blockCacheCapacity).enabled = true := hen
    rw [hdis] at hen'
    simp at hen'
  lost hl := by simp at hl
  view d hd := by
    have hdur := h.disk.durable d hd
    have hmem := h.memtable d hd
    refine ⟨h.durability d hd, ?_, fun _ => ?_, ?_⟩
    · intro x hx
      have hx' : x ∈ m.iter := hx
      rw [hmem] at hx'
      cases d with
      | false => simp at hx'
      | true =>
        rcases mem_insertAll hx' with hx' | hx'
        · obtain ⟨ops, hops, hxo⟩ := List.mem_flatten.mp hx'
          exact (hdur.sized rfl ops hops).2 x hxo
        · simp at hx'
    · show w.spec.cur = answer (m.iter :: g.layers)
      rw [hcur d hd, hmem]
      cases d with
      | true => exact hdur.logged rfl
      | false =>
        rw [show w.spec.durable false = w.spec.flushed from rfl, hdur.flushed rfl]
        funext k
        exact (resolve_nil_cons Record.live _ k).symm
    · intro ht k hk
      show find m.iter k = none
      rw [hmem, ht]
      exact hk
  wal d hd _ _ := h.durability d hd

theorem does_startEngine {Q : Own → Unit → Prop} {m : MemTable} {runs : List SsTable} {q : ℕ} {config : LsmConfig}
    (h : Recovered e g w features m runs q) (hq : Q (Own.starts seen) ()) :
    Does e t (.startEngine config features m runs features.durability q) (Own.opens seen w) Q := by
  intro w₁ A hinv ha
  obtain ⟨rfl, g₀, hr⟩ := hinv.resting ha
  refine ⟨trivial, fun c r w' hc hx => ?_⟩
  simp only [exec, Option.some.injEq, Prod.mk.injEq] at hx
  obtain ⟨_, rfl⟩ := hx
  refine ⟨Own.starts seen, ⟨_, Or.inl ⟨h.session hr.obsolete hr.held hr.cur hc, ?_⟩⟩, hq⟩
  have hnot : w.ready ≠ true := by
    intro hready
    have hlive := (hr.shared.ready hready).1
    rw [hr.live] at hlive
    simp at hlive
  exact {
    shared := by
      refine hr.shared.set rfl rfl (fun hready => absurd hready hnot) ?_ ?_ ?_ ?_
      · rw [ha]
        simp [Own.opens]
      · simp [Own.starts]
      · rw [ha]
        rfl
      · have hseen : (Own.starts seen).seen = (A t).seen := by rw [ha]; rfl
        show w.spec.seen = _
        rw [hseen, ← hr.shared.seen, Function.update_eq_self]
    modes := forall_update (P := fun _ a => a.mode = .idle ∨ a.mode = .live) (Or.inr rfl)
      fun t' hne => Or.inl (by rw [hr.others ha hne]; rfl)
    threads := forall_update (P := fun t' a => Local e _ _ t' a)
      (Local.blank rfl hr.held rfl rfl rfl rfl rfl rfl fun _ => rfl)
      fun t' hne => by
        rw [hr.others ha hne]
        exact Local.blank rfl hr.held rfl rfl rfl rfl rfl rfl fun ho => by simp [Own.idle] at ho
    apart := by
      intro t₁ t₂ b₁ b₂ _ h₁
      have hnone := forall_update (P := fun _ a => a.build = none) (a := Own.starts seen) (A := A) (t := t) rfl
        (fun t' hne => by rw [hr.others ha hne]; rfl) t₁
      rw [hnone] at h₁
      simp at h₁
    told := fun d hd hseq => by
      rw [phases_keep (by rw [ha]; rfl)]
      exact hr.told d hd hseq }

/-! ## The engine gone -/

theorem Disk.dropEngine (hd : Disk e g w) : Disk e g w.dropEngine where
  stored := hd.stored
  durable d hg := { hd.durable d hg with }

/-- The history starts over from what is recoverable. -/
theorem told_dropEngine {d : Bool} (h : w.spec.durable w.features.durability = w.spec.durable d) :
    Told e d w.dropEngine.spec fun _ => .quiet where
  solo _ _ hne _ := absurd rfl hne
  compactor := rfl
  agree k _ := by
    refine ⟨rfl, fun ht => ?_⟩
    show w.spec.logged k = w.spec.durable w.features.durability k
    rw [h, ht]
    rfl
  holds _ := trivial
  sure _ := ⟨fun _ => trivial, fun _ => rfl⟩

theorem resting_dropEngine (hd : Disk e g w)
    (hdur : ∀ d, e.Good d → w.spec.durable w.features.durability = w.spec.durable d) (hs : Shared w.dropEngine A)
    (hm : ∀ t, A t = Own.idle (A t).seen ∨ A t = Own.opens (A t).seen w.dropEngine) :
    Resting e g w.dropEngine A where
  stored := hd.dropEngine.stored
  durable := hd.dropEngine.durable
  shared := hs
  told d hg _ := by
    have hquiet : (fun t => (A t).phase) = fun _ => .quiet := by
      funext t
      rcases hm t with h | h <;> rw [h] <;> rfl
    rw [hquiet]
    exact told_dropEngine (hdur d hg)
  live := rfl
  runs := rfl
  held := rfl
  obsolete := rfl
  modes := hm
  cur d hg := hdur d hg
  features d hg := hdur d hg

theorem Session.disk (hs : Session e g w) : Disk e g w := ⟨hs.stored, hs.durable⟩

theorem Session.durable_eq (hs : Session e g w) {d : Bool} (hg : e.Good d) :
    w.spec.durable w.features.durability = w.spec.durable d := by
  rw [(hs.view d hg).durability]

theorem does_dropEngine {Q : Own → Unit → Prop} {a : Own} (hm : a.mode = .live) (ho : a.opener = true)
    (hq : ∀ w, (∃ g, Disk e g w) → Q (Own.opens a.seen w) ()) : Does e t .dropEngine a Q := by
  intro w A hinv ha
  obtain ⟨g, hr⟩ := hinv.running (t := t) (by rw [ha]; exact hm)
  subst ha
  refine ⟨trivial, fun c r w' _ hx => ?_⟩
  simp only [exec, Option.some.injEq, Prod.mk.injEq] at hx
  obtain ⟨_, rfl⟩ := hx
  have hs := hr.crew.shared
  have hto : w.opener = some t := (hs.opener t).mp ho
  refine ⟨Own.opens (A t).seen w.dropEngine, ⟨g, Or.inr ?_⟩, hq _ ⟨g, hr.session.disk.dropEngine⟩⟩
  refine resting_dropEngine hr.session.disk (fun d hg => hr.session.durable_eq hg) ?_ ?_
  · refine hs.set rfl rfl (fun hready => by simp [World.dropEngine] at hready) ?_ ?_ ?_ ?_
    · rw [hm]
      simp
    · simp [Own.opens]
    · rw [ho]
      rfl
    · show w.spec.seen = Function.update w.spec.seen t (A t).seen
      rw [← hs.seen, Function.update_eq_self]
  · refine forall_update (P := fun _ a => a = Own.idle a.seen ∨ a = Own.opens a.seen w.dropEngine) (Or.inr rfl) ?_
    exact fun t' hne => Or.inl (hs.resting t' (hs.alone t hto t' hne))

/-! ## Opening as a whole -/

theorem mem_dir_of_garbage {live : List Text} {name : Text} (h : name ∈ w.listing) (hg : garbage live name = true) :
    w.dir.get? name ≠ none := by
  rcases List.mem_append.mp h with h | h
  · exact SortedMap.mem_keys.mp h
  · split_ifs at h
    · rw [List.mem_singleton.mp h] at hg
      have hwal : garbage live WAL_FILE = false := rfl
      rw [hwal] at hg
      simp at hg
    · simp at h

theorem nodup_garbage (w : World) (live : List Text) : (w.listing.filter (garbage live)).Nodup := by
  have hwal : (if w.wal.isSome then [WAL_FILE] else []).filter (garbage live) = [] := by
    split_ifs
    · rfl
    · rfl
  rw [World.listing, List.filter_append, hwal, List.append_nil]
  exact w.dir.nodup_keys.filter _

/-- What a listing of the directory gives. -/
structure Found (e : Env) (w : World) (found : List Text) (broken : Bool) : Prop where
  sub : ∀ name ∈ found, name ∈ w.listing
  nodup : ∀ live, (found.filter (garbage live)).Nodup
  all : broken = false → ∀ name ∈ w.listing, name ∈ found
  fault : broken = true → e.ioFaults = true

theorem does_readDir {Q : Own → Except IoError (List Text × Bool) → Prop} (hd : Disk e g w)
    (hok : ∀ found broken, Found e w found broken → Q (Own.opens seen w) (.ok (found, broken)))
    (herr : e.Trouble → ∀ err, Q (Own.opens seen w) (.error err)) : Does e t .readDir (Own.opens seen w) Q := by
  refine Does.peek hd trivial fun hl c r w' hc hx => ?_
  have hplain : Found e w w.listing false := ⟨fun _ h => h, nodup_garbage w, fun _ _ h => h, by simp⟩
  cases c with
  | fail n =>
    simp only [exec, Option.some.injEq, Prod.mk.injEq] at hx
    obtain ⟨rfl, rfl⟩ := hx
    exact ⟨rfl, herr (hl.faults hc rfl) _⟩
  | order names broken =>
    cases broken with
    | true =>
      simp only [exec, if_true] at hx
      split_ifs at hx with hnames
      simp only [Option.some.injEq, Prod.mk.injEq] at hx
      obtain ⟨rfl, rfl⟩ := hx
      have hio : e.ioFaults = true := by
        have hc' := hc
        simp only [Env.allowsAct, if_pos (Or.inr hl.opener)] at hc'
        simpa [Act.fails, Choice.faulty] using hc'
      exact ⟨rfl, hok names true ⟨hnames.2, fun _ => hnames.1.filter _, by simp, fun _ => hio⟩⟩
    | false =>
      simp only [exec, Bool.false_eq_true, if_false] at hx
      split_ifs at hx with hperm
      simp only [Option.some.injEq, Prod.mk.injEq] at hx
      obtain ⟨rfl, rfl⟩ := hx
      have hp : names.Perm w.listing := List.isPerm_iff.mp hperm
      refine ⟨rfl, hok names false ⟨fun n hn => hp.mem_iff.mp hn, fun live => ?_, fun _ n hn => hp.mem_iff.mpr hn, by simp⟩⟩
      exact (hp.filter _).nodup_iff.mpr (nodup_garbage w live)
  | ok | faults _ =>
    simp only [exec, Option.some.injEq, Prod.mk.injEq] at hx
    obtain ⟨rfl, rfl⟩ := hx
    exact ⟨rfl, hok _ _ hplain⟩

omit [Deps] in
theorem get?_swept (live found : List Text) (dir : SortedMap Text Data) (name : Text) :
    (swept live found dir).get? name = if name ∈ found ∧ garbage live name = true then none else dir.get? name := by
  have hfold : ∀ (names : List Text) (dir : SortedMap Text Data),
      (names.foldl SortedMap.erase dir).get? name = if name ∈ names then none else dir.get? name := by
    intro names
    induction names with
    | nil => simp
    | cons x names ih =>
      intro dir
      rw [List.foldl_cons, ih, SortedMap.get?_erase]
      by_cases hx : name = x <;> by_cases hn : name ∈ names <;> simp [hx, hn]
  rw [swept, hfold]
  simp only [List.mem_filter]

end Opening
end LsmDb
