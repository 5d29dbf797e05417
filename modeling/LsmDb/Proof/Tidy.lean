import LsmDb.Proof.Charges
import LsmDb.Proof.Compaction
import LsmDb.Proof.Mirror

/-! The directory of an engine that nothing has failed holds no file too many: each is the manifest, belongs to a live
run, or some call that is under way answers for it. What a crash leaves behind is gone when the next open has swept the
directory. -/
namespace LsmDb
open Lib
set_option autoImplicit false

section Tidy
variable [Deps] {e : Env} {c : Config} {t : Tid} {w w' : World} {S : Tid → Keeper} {s : Keeper} {name : Text}

/-- Somebody answers for the file: the manifest, a run of the engine, a thread, or a handle of an obsolete run. -/
def Covered (w : World) (S : Tid → Keeper) (name : Text) : Prop :=
  name = MANIFEST ∨ (∃ r ∈ w.runs, r.Owns name) ∨ (∃ t, name ∈ (S t).owes) ∨
    ∃ h ∈ w.held, h.2.runId ∈ w.obsolete ∧ h.2.Owns name

/-- The handles a thread has. -/
def World.handles (w : World) (t : Tid) : List SsTable := (w.held.filter fun h => h.1 = t).map Prod.snd

structure Tidy (w : World) (S : Tid → Keeper) : Prop where
  sound : ∀ t, S t ≠ .broken
  kinds : ∀ name, w.dir.get? name ≠ none → ∃ n : Name, name = n.text
  covered : w.live = true → ∀ name, w.dir.get? name ≠ none → Covered w S name
  left : ∀ t left, S t = .sweeping left → ∀ name, w.dir.get? name ≠ none → name ∈ left
  opener : ∀ t, (S t).opens = true → w.opener = some t
  lock : ∀ t, w.lock = some t ↔ (S t).locked = true
  memo : ∀ t rs, (S t).memo = some rs → (S t).locked = true ∧ w.runs = rs
  hands : ∀ t, w.handles t = (S t).hands

/-! ## Coverage -/

theorem Covered.owed (h : name ∈ s.owes) : Covered w (Function.update S t s) name :=
  Or.inr (Or.inr (Or.inl ⟨t, by rwa [Function.update_self]⟩))

/-- Coverage when one thread has moved. -/
theorem Covered.move (h : Covered w S name) (hruns : ∀ r ∈ w.runs, r.Owns name → Covered w' (Function.update S t s) name)
    (howes : name ∈ (S t).owes → Covered w' (Function.update S t s) name)
    (hheld : ∀ h ∈ w.held, h.2.runId ∈ w.obsolete → h.2.Owns name → Covered w' (Function.update S t s) name) :
    Covered w' (Function.update S t s) name := by
  rcases h with h | ⟨r, hr, hown⟩ | ⟨t', hin⟩ | ⟨x, hx, hob, hown⟩
  · exact Or.inl h
  · exact hruns r hr hown
  · by_cases ht : t' = t
    · subst ht
      exact howes hin
    · exact Or.inr (Or.inr (Or.inl ⟨t', by rwa [Function.update_of_ne ht]⟩))
  · exact hheld x hx hob hown

/-- Nothing but the files of the thread has changed. -/
theorem Covered.same (h : Covered w S name) (hruns : w'.runs = w.runs) (hheld : w'.held = w.held)
    (hobsolete : w'.obsolete = w.obsolete) (howes : name ∈ (S t).owes → Covered w' (Function.update S t s) name) :
    Covered w' (Function.update S t s) name := by
  refine h.move (fun r hr hown => ?_) howes fun x hx hob hown => ?_
  · exact Or.inr (Or.inl ⟨r, by rwa [hruns], hown⟩)
  · exact Or.inr (Or.inr (Or.inr ⟨x, by rwa [hheld], by rwa [hobsolete], hown⟩))

/-! ## One thread moves -/

/-- What a thread has to see to when it moves. -/
structure Shifts (w w' : World) (t : Tid) (S : Tid → Keeper) (s : Keeper) : Prop where
  sound : s ≠ .broken
  kinds : ∀ name, w'.dir.get? name ≠ none → ∃ n : Name, name = n.text
  covered : w'.live = true → ∀ name, w'.dir.get? name ≠ none → Covered w' (Function.update S t s) name
  left : ∀ left, s = .sweeping left → ∀ name, w'.dir.get? name ≠ none → name ∈ left
  opener : s.opens = true → w'.opener = some t
  lock : w'.lock = some t ↔ s.locked = true
  locks : ∀ t', t' ≠ t → (w'.lock = some t' ↔ w.lock = some t')
  memo : ∀ rs, s.memo = some rs → s.locked = true ∧ w'.runs = rs
  memos : w'.runs ≠ w.runs → ∀ t', t' ≠ t → (S t').locked = false
  hands : w'.handles t = s.hands
  handed : ∀ t', t' ≠ t → w'.handles t' = w.handles t'

theorem Tidy.move (h : Tidy w S) (hm : Shifts w w' t S s) (hothers : ∀ t', t' ≠ t → (S t').opens = false) :
    Tidy w' (Function.update S t s) := by
  have hcases : ∀ (P : Tid → Keeper → Prop), P t s → (∀ t', t' ≠ t → P t' (S t')) →
      ∀ t', P t' (Function.update S t s t') := by
    intro P ht hne t'
    by_cases heq : t' = t
    · subst heq
      rwa [Function.update_self]
    · rw [Function.update_of_ne heq]
      exact hne t' heq
  refine ⟨?_, hm.kinds, hm.covered, ?_, ?_, ?_, ?_, ?_⟩
  · exact hcases (fun _ k => k ≠ .broken) hm.sound fun t' _ => h.sound t'
  · refine hcases (fun _ k => ∀ left, k = .sweeping left → ∀ name, w'.dir.get? name ≠ none → name ∈ left) hm.left
      fun t' ht left hk => ?_
    have hopens := hothers t' ht
    rw [hk] at hopens
    cases hopens
  · refine hcases (fun t' k => k.opens = true → w'.opener = some t') hm.opener fun t' ht hk => ?_
    rw [hothers t' ht] at hk
    cases hk
  · exact hcases (fun t' k => w'.lock = some t' ↔ k.locked = true) hm.lock fun t' ht => (hm.locks t' ht).trans (h.lock t')
  · refine hcases (fun _ k => ∀ rs, k.memo = some rs → k.locked = true ∧ w'.runs = rs) hm.memo fun t' ht rs hrs => ?_
    obtain ⟨hlocked, hruns⟩ := h.memo t' rs hrs
    refine ⟨hlocked, ?_⟩
    by_contra hne
    have hfree := hm.memos (fun heq => hne (heq.trans hruns)) t' ht
    rw [hlocked] at hfree
    cases hfree
  · exact hcases (fun t' k => w'.handles t' = k.hands) hm.hands fun t' ht => (hm.handed t' ht).trans (h.hands t')

/-- The world as far as files, runs and handles go, when only files have changed. -/
structure SameRuns (w w' : World) : Prop where
  runs : w'.runs = w.runs
  held : w'.held = w.held
  obsolete : w'.obsolete = w.obsolete
  lock : w'.lock = w.lock
  live : w'.live = w.live
  opener : w'.opener = w.opener

/-- A thread that keeps its handles and its lock. -/
structure SameHands (s s' : Keeper) : Prop where
  hands : s'.hands = s.hands
  locked : s'.locked = s.locked
  memo : s'.memo = s.memo
  opens : s'.opens = s.opens

theorem Tidy.files (h : Tidy w S) (hw : SameRuns w w') (hs : SameHands (S t) s) (hsound : s ≠ .broken)
    (hkinds : ∀ name, w'.dir.get? name ≠ none → ∃ n : Name, name = n.text)
    (hcovered : w.live = true → ∀ name, w'.dir.get? name ≠ none → Covered w' (Function.update S t s) name)
    (hleft : ∀ left, s = .sweeping left → ∀ name, w'.dir.get? name ≠ none → name ∈ left)
    (hothers : ∀ t', t' ≠ t → (S t').opens = false) : Tidy w' (Function.update S t s) := by
  have hhandles : ∀ t', w'.handles t' = w.handles t' := fun t' => by rw [World.handles, World.handles, hw.held]
  refine h.move ⟨hsound, hkinds, fun hlive => hcovered (hw.live ▸ hlive), hleft, ?_, ?_, ?_, ?_, ?_, ?_, ?_⟩ hothers
  · rw [hs.opens, hw.opener]
    exact h.opener t
  · rw [hs.locked, hw.lock]
    exact h.lock t
  · intro t' _
    rw [hw.lock]
  · rw [hs.locked, hs.memo, hw.runs]
    exact h.memo t
  · exact fun hne => absurd hw.runs hne
  · rw [hs.hands, hhandles]
    exact h.hands t
  · exact fun t' _ => hhandles t'

/-! ## Operations -/

theorem SameRuns.of_differ {fs : List Field} (h : Differ fs w w')
    (hno : ∀ f ∈ [Field.runs, .held, .obsolete, .lock, .live, .opener], f ∉ fs) : SameRuns w w' :=
  ⟨h .runs (hno _ (by simp)), h .held (hno _ (by simp)), h .obsolete (hno _ (by simp)), h .lock (hno _ (by simp)),
    h .live (hno _ (by simp)), h .opener (hno _ (by simp))⟩

theorem exec_inert {o : Act} {ch : Choice} {r : Res o} (ho : o.inert = true) (h : exec t o ch w = some (r, w')) :
    SameRuns w w' ∧ ∀ n, w'.dir.get? n ≠ none → w.dir.get? n ≠ none := by
  refine ⟨SameRuns.of_differ (exec_differ h) (by cases o <;> simp [Act.inert, Act.touches] at ho ⊢), fun n hn => ?_⟩
  by_cases hfile : n ∈ o.files
  · cases o with
    | append name data =>
      obtain rfl : n = name := by simpa [Act.files] using hfile
      -- a file that is not there is not written to
      intro hnone
      simp only [exec, hnone] at h
      obtain ⟨_, rfl⟩ := Prod.mk.inj (Option.some.inj h)
      exact hn hnone
    | create | rename | remove => cases ho
    | _ => simp [Act.files] at hfile
  · rwa [exec_files h hfile] at hn

/-- Handles of one run are handles of one table. -/
def World.Apart (w : World) : Prop :=
  ∀ a b, (a ∈ w.runs ∨ ∃ t, (t, a) ∈ w.held) → (b ∈ w.runs ∨ ∃ t, (t, b) ∈ w.held) → a.runId = b.runId → a = b

/-- What the loop over the directory spares belongs to the runs it was given. -/
theorem Spared.owned {runs : List SsTable} {n : Name} (h : Spared (names runs) n.text) (hlt : ∀ q, n = .run q → q < 2 ^ 64) :
    n.text = MANIFEST ∨ ∃ r ∈ runs, r.Owns n.text := by
  cases n with
  | manifest => exact Or.inl rfl
  | manifestTmp =>
    rw [Spared, show classify (Name.manifestTmp).text = _ from classify_tmpPath MANIFEST] at h
    exact absurd h id
  | runTmp q =>
    rw [Spared, show classify (Name.runTmp q).text = _ from classify_tmpPath (runFilename q)] at h
    exact absurd h id
  | sideTmp q =>
    rw [Spared, show classify (Name.sideTmp q).text = _ from classify_tmpPath (sidecarPath (runFilename q))] at h
    exact absurd h id
  | run q =>
    rw [Spared, Name.classify_text (n := .run q) (hlt q rfl)] at h
    obtain ⟨r, hr, hname⟩ := List.mem_map.mp h
    exact Or.inr ⟨r, hr, Or.inl hname.symm⟩
  | side q =>
    have hkind : classify (Name.side q).text = .sidecar (runFilename q) := by
      have htmp : TMP.isSuffixOf (sidecarPath (runFilename q)) = false :=
        isSuffixOf_false (c := 'p') rfl (by rw [sidecarPath, getLast_bloom]; decide)
      simp only [Name.text, classify, htmp, Bool.false_eq_true, if_false]
      rw [sidecarPath, stripSuffix_append]
    rw [Spared, hkind] at h
    obtain ⟨r, hr, hname⟩ := List.mem_map.mp h
    refine Or.inr ⟨r, hr, Or.inr ?_⟩
    rw [hname]
    rfl

theorem exec_create {name : Text} {empty : Data} {ch : Choice} {r : Res (.create name empty)}
    (h : exec t (.create name empty) ch w = some (r, w')) :
    SameRuns w w' ∧ ∀ n, w'.dir.get? n ≠ none → n = name ∨ w.dir.get? n ≠ none := by
  have hinsert : ∀ n, (w.dir.insert name empty).get? n ≠ none → n = name ∨ w.dir.get? n ≠ none := by
    intro n hn
    by_cases heq : n = name
    · exact Or.inl heq
    · rw [SortedMap.get?_insert_ne _ _ heq] at hn
      exact Or.inr hn
  simp only [exec] at h
  split at h
  · obtain ⟨_, rfl⟩ := Prod.mk.inj (Option.some.inj h)
    exact ⟨⟨rfl, rfl, rfl, rfl, rfl, rfl⟩, fun n hn => Or.inr hn⟩
  · obtain ⟨_, rfl⟩ := Prod.mk.inj (Option.some.inj h)
    exact ⟨⟨rfl, rfl, rfl, rfl, rfl, rfl⟩, hinsert⟩
  · obtain ⟨_, rfl⟩ := Prod.mk.inj (Option.some.inj h)
    exact ⟨⟨rfl, rfl, rfl, rfl, rfl, rfl⟩, hinsert⟩

theorem exec_renamed {source target : Text} {ch : Choice} {r : Res (.rename source target)} (hr : r = .ok ())
    (h : exec t (.rename source target) ch w = some (r, w')) :
    SameRuns w w' ∧ ∀ n, w'.dir.get? n ≠ none → n = target ∨ n ≠ source ∧ w.dir.get? n ≠ none := by
  subst hr
  simp only [exec] at h
  split at h
  · simp at h
  split at h
  · simp at h
  · obtain ⟨_, rfl⟩ := Prod.mk.inj (Option.some.inj h)
    refine ⟨⟨rfl, rfl, rfl, rfl, rfl, rfl⟩, fun n hn => ?_⟩
    by_cases htarget : n = target
    · exact Or.inl htarget
    dsimp only at hn
    rw [SortedMap.get?_insert_ne _ _ htarget] at hn
    by_cases hsource : n = source
    · rw [hsource, SortedMap.get?_erase_self] at hn
      exact absurd rfl hn
    · rw [SortedMap.get?_erase_ne _ hsource] at hn
      exact Or.inr ⟨hsource, hn⟩

theorem exec_remove {name : Text} {ch : Choice} {r : Res (.remove name)}
    (h : exec t (.remove name) ch w = some (r, w')) :
    SameRuns w w' ∧ ∀ n, w'.dir.get? n ≠ none → w.dir.get? n ≠ none ∧ (r ≠ .error .other → n ≠ name) := by
  simp only [exec] at h
  split at h
  · obtain ⟨rfl, rfl⟩ := Prod.mk.inj (Option.some.inj h)
    exact ⟨⟨rfl, rfl, rfl, rfl, rfl, rfl⟩, fun n hn => ⟨hn, fun hr => absurd rfl hr⟩⟩
  · split at h
    · rename_i hnone
      obtain ⟨_, rfl⟩ := Prod.mk.inj (Option.some.inj h)
      refine ⟨⟨rfl, rfl, rfl, rfl, rfl, rfl⟩, fun n hn => ⟨hn, ?_⟩⟩
      rintro _ rfl
      exact hn hnone
    · obtain ⟨_, rfl⟩ := Prod.mk.inj (Option.some.inj h)
      refine ⟨⟨rfl, rfl, rfl, rfl, rfl, rfl⟩, fun n hn => ?_⟩
      by_cases heq : n = name
      · rw [heq, SortedMap.get?_erase_self] at hn
        exact absurd rfl hn
      · rw [SortedMap.get?_erase_ne _ heq] at hn
        exact ⟨hn, fun _ => heq⟩

/-- A listing that went through has every name. -/
theorem exec_readDir {ch : Choice} {found : List Text} (h : exec t .readDir ch w = some (.ok (found, false), w')) :
    w' = w ∧ ∀ n, w.dir.get? n ≠ none → n ∈ found := by
  have hlisting : ∀ n, w.dir.get? n ≠ none → n ∈ w.listing := fun n hn =>
    List.mem_append_left _ (SortedMap.mem_keys.mpr hn)
  simp only [exec] at h
  split at h
  · simp at h
  · split_ifs at h with hb hin hperm
    · simp at h
    · obtain ⟨hr, rfl⟩ := Prod.mk.inj (Option.some.inj h)
      obtain ⟨rfl, _⟩ := Prod.mk.inj (Except.ok.inj hr)
      exact ⟨rfl, fun n hn => (List.isPerm_iff.mp hperm).mem_iff.mpr (hlisting n hn)⟩
  · obtain ⟨hr, rfl⟩ := Prod.mk.inj (Option.some.inj h)
    obtain ⟨rfl, _⟩ := Prod.mk.inj (Except.ok.inj hr)
    exact ⟨rfl, hlisting⟩

/-! ## Files -/

section Step
variable {g : Charge}

theorem sameHands_owes (hS : S t = .serving g) (owes : List Text) : SameHands (S t) (.serving { g with owes := owes }) := by
  rw [hS]
  exact ⟨rfl, rfl, rfl, rfl⟩

/-- Files of a thread on an engine. -/
theorem Tidy.serve (h : Tidy w S) (hS : S t = .serving g) {owes : List Text} (hw : SameRuns w w')
    (hdir : ∀ n, w'.dir.get? n ≠ none → w.dir.get? n ≠ none ∧ (n ∈ g.owes → n ∈ owes) ∨
      (∃ m : Name, n = m.text) ∧ (n = MANIFEST ∨ n ∈ owes)) (hothers : ∀ t', t' ≠ t → (S t').opens = false) :
    Tidy w' (Function.update S t (.serving { g with owes := owes })) := by
  refine h.files hw (sameHands_owes hS owes) (by simp) (fun n hn => ?_) (fun hlive n hn => ?_) (by simp) hothers
  · rcases hdir n hn with ⟨hold, _⟩ | ⟨hname, _⟩
    · exact h.kinds n hold
    · exact hname
  · rcases hdir n hn with ⟨hold, hkeep⟩ | ⟨_, hnew⟩
    · refine (h.covered hlive n hold).same hw.runs hw.held hw.obsolete fun hin => .owed ?_
      rw [hS] at hin
      exact hkeep hin
    · rcases hnew with hnew | hnew
      · exact Or.inl hnew
      · exact .owed hnew

theorem Tidy.inert {o : Act} {ch : Choice} {r : Res o} (h : Tidy w S) (ho : o.inert = true)
    (hx : exec t o ch w = some (r, w')) (hothers : ∀ t', t' ≠ t → (S t').opens = false) : Tidy w' S := by
  obtain ⟨hw, hdir⟩ := exec_inert ho hx
  have hsame : Tidy w' (Function.update S t (S t)) := by
    refine h.files hw ⟨rfl, rfl, rfl, rfl⟩ (h.sound t) (fun n hn => h.kinds n (hdir n hn)) (fun hlive n hn => ?_)
      (fun left hs n hn => h.left t left hs n (hdir n hn)) hothers
    refine (h.covered hlive n (hdir n hn)).same hw.runs hw.held hw.obsolete fun hin => .owed hin
  rwa [Function.update_eq_self] at hsame

/-- An open without an engine. -/
def Keeper.early : Keeper → Bool
  | opening | sweeping _ => true
  | _ => false

theorem Keeper.early_plain (h : s.early = true) :
    s.owes = [] ∧ s.hands = [] ∧ s.locked = false ∧ s.memo = none ∧ s.opens = true ∧ s ≠ .broken := by
  cases s with
  | opening | sweeping => exact ⟨rfl, rfl, rfl, rfl, rfl, by simp⟩
  | _ => cases h

/-- An open removes a file. -/
theorem Tidy.sweep {ch : Choice} {r : Except IoError Unit} (h : Tidy w S) (hx : exec t (.remove name) ch w = some (r, w'))
    (hs : s.early = true) (hS : (S t).early = true)
    (hleft : ∀ left', s = .sweeping left' → ∃ left, S t = .sweeping left ∧
      ∀ n ∈ left, (r ≠ .error .other → n ≠ name) → n ∈ left')
    (hothers : ∀ t', t' ≠ t → (S t').opens = false) : Tidy w' (Function.update S t s) := by
  obtain ⟨hw, hdir⟩ := exec_remove hx
  obtain ⟨_, hhands, hlocked, hmemo, hopens, hsound⟩ := Keeper.early_plain hs
  obtain ⟨howes', hhands', hlocked', hmemo', hopens', _⟩ := Keeper.early_plain hS
  refine h.files hw ⟨hhands.trans hhands'.symm, hlocked.trans hlocked'.symm, hmemo.trans hmemo'.symm,
    hopens.trans hopens'.symm⟩ hsound (fun n hn => h.kinds n (hdir n hn).1) (fun hlive n hn => ?_) ?_ hothers
  · refine (h.covered hlive n (hdir n hn).1).same hw.runs hw.held hw.obsolete fun hin => ?_
    rw [howes'] at hin
    cases hin
  · intro left' hs' n hn
    obtain ⟨left, hold, hsub⟩ := hleft left' hs'
    exact hsub n (h.left t left hold n (hdir n hn).1) (hdir n hn).2

/-! ## The lock -/

/-- The run list and the handles are as they were, and so is the directory. -/
theorem Tidy.relock (h : Tidy w S) (hS : S t = .serving g) {locked : Bool} {memo : Option (List SsTable)}
    (hruns : w'.runs = w.runs) (hheld : w'.held = w.held) (hobsolete : w'.obsolete = w.obsolete) (hdir : w'.dir = w.dir)
    (hlive : w'.live = w.live) (hopener : w'.opener = w.opener) (hlock : w'.lock = some t ↔ locked = true)
    (hlocks : ∀ t', t' ≠ t → (w'.lock = some t' ↔ w.lock = some t'))
    (hmemo : ∀ rs, memo = some rs → locked = true ∧ w.runs = rs) (hothers : ∀ t', t' ≠ t → (S t').opens = false) :
    Tidy w' (Function.update S t (.serving { g with locked := locked, memo := memo })) := by
  have hhandles : ∀ t', w'.handles t' = w.handles t' := fun t' => by rw [World.handles, World.handles, hheld]
  refine h.move ⟨by simp, ?_, fun hl n hn => ?_, by simp, fun ho => ?_, hlock, hlocks, ?_, ?_, ?_, ?_⟩ hothers
  · rw [hdir]
    exact h.kinds
  · rw [hdir] at hn
    refine (h.covered (hlive ▸ hl) n hn).same hruns hheld hobsolete fun hin => .owed ?_
    rw [hS] at hin
    exact hin
  · rw [hopener]
    exact h.opener t (by rw [hS]; exact ho)
  · rw [hruns]
    exact hmemo
  · exact fun hne => absurd hruns hne
  · rw [hhandles, h.hands t, hS]
    rfl
  · exact fun t' _ => hhandles t'

/-! ## Handles -/

theorem Tidy.snapshot (h : Tidy w S) (hS : S t = .serving g) (hg : g.hands = []) {want : MemTable → List SsTable → Bool}
    {ch : Choice} {r : MemTable × List SsTable} (hx : exec t (.snapshot want) ch w = some (r, w'))
    (hothers : ∀ t', t' ≠ t → (S t').opens = false) :
    Tidy w' (Function.update S t (.serving { g with hands := if want r.1 r.2 then r.2 else [] })) := by
  simp only [exec, if_pos (snapshot_free hx)] at hx
  obtain ⟨rfl, rfl⟩ := Prod.mk.inj (Option.some.inj hx)
  have hpairs : (if want w.memtable w.runs then w.runs.map (t, ·) else []) =
      (if want w.memtable w.runs then w.runs else []).map (t, ·) := by
    split_ifs <;> rfl
  refine h.move ⟨by simp, h.kinds, fun hl n hn => ?_, by simp,
    fun ho => h.opener t (by rw [hS]; exact ho), ?_, fun _ _ => Iff.rfl, ?_, ?_, ?_, ?_⟩ hothers
  · refine (h.covered hl n hn).move (fun r hr hown => Or.inr (Or.inl ⟨r, hr, hown⟩)) (fun hin => .owed ?_) ?_
    · rw [hS] at hin
      exact hin
    · exact fun x hx hob hown => Or.inr (Or.inr (Or.inr ⟨x, List.mem_append_right _ hx, hob, hown⟩))
  · have hlock := h.lock t
    rw [hS] at hlock
    exact hlock
  · have hmemo := h.memo t
    rw [hS] at hmemo
    exact hmemo
  · exact fun hne => absurd rfl hne
  · have hold := h.hands t
    rw [hS, World.handles] at hold
    simp only [World.handles, hpairs]
    rw [filter_map_pair, if_pos rfl, hold]
    show _ ++ g.hands = _
    rw [hg, List.append_nil]
    rfl
  · intro t' ht
    simp only [World.handles, hpairs]
    rw [filter_map_pair, if_neg (Ne.symm ht), List.nil_append]

/-- A handle is given up; the last one of an obsolete run leaves its files to the thread. -/
theorem Tidy.release (h : Tidy w S) (hS : S t = .serving g) {table : SsTable} {rest : List SsTable}
    (hg : g.hands = table :: rest) (hapart : w.live = true → w.Apart) {ch : Choice} {r : Bool}
    (hexec : exec t (.release table) ch w = some (r, w')) (hothers : ∀ t', t' ≠ t → (S t').opens = false) :
    Tidy w' (Function.update S t (.serving { g with
      hands := rest
      owes := if r then table.name :: sidecarPath table.name :: g.owes else g.owes })) := by
  simp only [exec] at hexec
  obtain ⟨hlast, rfl⟩ := Prod.mk.inj (Option.some.inj hexec)
  have hhands : w.handles t = table :: rest := by
    rw [h.hands t, hS]
    exact hg
  have hmine : (t, table) ∈ w.held := by
    have hin : table ∈ w.handles t := by rw [hhands]; exact List.mem_cons_self
    obtain ⟨x, hx, rfl⟩ := List.mem_map.mp hin
    obtain ⟨hx, ht⟩ := List.mem_filter.mp hx
    rwa [← of_decide_eq_true ht]
  refine h.move ⟨by simp, h.kinds, fun hl n hn => ?_, by simp,
    fun ho => h.opener t (by rw [hS]; exact ho), ?_, fun _ _ => Iff.rfl, ?_, ?_, ?_, ?_⟩ hothers
  · refine (h.covered hl n hn).move (fun r hr hown => Or.inr (Or.inl ⟨r, hr, hown⟩)) (fun hin => .owed ?_) ?_
    · rw [hS] at hin
      show n ∈ if r = true then _ else _
      split_ifs
      · exact List.mem_cons_of_mem _ (List.mem_cons_of_mem _ hin)
      · exact hin
    · intro x hx hob hown
      by_cases hid : x.2.runId = table.runId
      · have heq : x.2 = table := hapart hl x.2 table (Or.inr ⟨x.1, hx⟩) (Or.inr ⟨t, hmine⟩) hid
        cases r with
        | true =>
          refine .owed ?_
          show n ∈ table.name :: sidecarPath table.name :: g.owes
          rw [heq] at hown
          rcases hown with rfl | rfl
          · exact List.mem_cons_self
          · exact List.mem_cons_of_mem _ List.mem_cons_self
        | false =>
          -- someone else still has the run
          simp only [isObsolete, isHeld, Bool.and_eq_false_iff, decide_eq_false_iff_not, Bool.not_eq_false',
            Bool.or_eq_true, List.any_eq_true, decide_eq_true_eq] at hlast
          rcases hlast with hno | ⟨y, hy, hyid⟩ | ⟨y, hy, hyid⟩
          · exact absurd (hid ▸ hob) hno
          · refine Or.inr (Or.inr (Or.inr ⟨y, hy, ?_, ?_⟩))
            · show y.2.runId ∈ w.obsolete
              rw [hyid, ← hid]
              exact hob
            · rwa [hapart hl y.2 x.2 (Or.inr ⟨y.1, mem_of_mem_dropHandle hy⟩) (Or.inr ⟨x.1, hx⟩) (hyid.trans hid.symm)]
          · refine Or.inr (Or.inl ⟨y, hy, ?_⟩)
            rwa [hapart hl y x.2 (Or.inl hy) (Or.inr ⟨x.1, hx⟩) (hyid.trans hid.symm)]
      · refine Or.inr (Or.inr (Or.inr ⟨x, ?_, hob, hown⟩))
        show x ∈ dropHandle t table w.held
        rw [dropHandle, List.mem_eraseP_of_neg (by simp [hid])]
        exact hx
  · have hlock := h.lock t
    rw [hS] at hlock
    exact hlock
  · have hmemo := h.memo t
    rw [hS] at hmemo
    exact hmemo
  · exact fun hne => absurd rfl hne
  · exact dropHandle_own hhands
  · intro t' ht
    simp only [World.handles]
    rw [dropHandle_other w.held ht]

theorem Tidy.held_mem (h : Tidy w S) {table : SsTable} (hin : table ∈ (S t).hands) : (t, table) ∈ w.held := by
  rw [← h.hands t] at hin
  obtain ⟨x, hx, rfl⟩ := List.mem_map.mp hin
  obtain ⟨hx, ht⟩ := List.mem_filter.mp hx
  rwa [← of_decide_eq_true ht]

/-- A new run list: what it leaves out stays in the hands of the thread, as obsolete. -/
theorem Tidy.install (h : Tidy w S) (hS : S t = .serving g) {obsolete runs rs : List SsTable} {owes : List Text}
    (hl : g.locked = true) (hm : g.memo = some rs)
    (hruns : ∀ r ∈ rs, r ∈ runs ∨ ∃ i ∈ g.hands, i ∈ obsolete ∧ i.runId = r.runId)
    (hkeep : ∀ n ∈ g.owes, n ∈ owes ∨ ∃ r ∈ runs, r.Owns n) (hapart : w.live = true → w.Apart)
    {ch : Choice} {r : Unit} (hx : exec t (.install obsolete runs) ch w = some (r, w'))
    (hothers : ∀ t', t' ≠ t → (S t').opens = false) :
    Tidy w' (Function.update S t (.serving { g with owes := owes, memo := none })) := by
  simp only [exec] at hx
  obtain ⟨_, rfl⟩ := Prod.mk.inj (Option.some.inj hx)
  have hlocked : (S t).locked = true := by
    rw [hS]
    exact hl
  have hrs : w.runs = rs := (h.memo t rs (by rw [hS]; exact hm)).2
  refine h.move ⟨by simp, h.kinds, fun hlive n hn => ?_, by simp, fun ho => h.opener t (by rw [hS]; exact ho), ?_,
    fun _ _ => Iff.rfl, by simp [Keeper.memo], ?_, ?_, fun _ _ => rfl⟩ hothers
  · refine (h.covered hlive n hn).move (fun r hr hown => ?_) (fun hin => ?_) fun x hx hob hown => ?_
    · rcases hruns r (hrs ▸ hr) with hnew | ⟨i, hi, hob, hid⟩
      · exact Or.inr (Or.inl ⟨r, hnew, hown⟩)
      · have hheld : (t, i) ∈ w.held := h.held_mem (by rw [hS]; exact hi)
        have heq : i = r := hapart hlive i r (Or.inr ⟨t, hheld⟩) (Or.inl hr) hid
        refine Or.inr (Or.inr (Or.inr ⟨(t, i), hheld, ?_, heq ▸ hown⟩))
        exact List.mem_append_left _ (List.mem_map.mpr ⟨i, hob, rfl⟩)
    · rw [hS] at hin
      rcases hkeep n hin with hin | hnew
      · exact .owed hin
      · exact Or.inr (Or.inl hnew)
    · exact Or.inr (Or.inr (Or.inr ⟨x, hx, List.mem_append_right _ hob, hown⟩))
  · exact ⟨fun _ => hl, fun _ => (h.lock t).mpr hlocked⟩
  · intro _ t' ht
    by_contra hbusy
    have hother := (h.lock t').mpr (by simpa using hbusy)
    exact ht (Option.some.inj (hother.symm.trans ((h.lock t).mpr hlocked)))
  · have hhands := h.hands t
    rw [hS] at hhands
    exact hhands

/-! ## Life of the engine -/

/-- An engine on the runs for which the directory was swept. -/
theorem Tidy.start (h : Tidy w S) {left : List Text} (hS : S t = .sweeping left) {config : LsmConfig} {features : Features}
    {m : MemTable} {runs : List SsTable} {b : Bool} {q : ℕ} (hspared : ∀ n ∈ left, Spared (names runs) n)
    (hlt : ∀ q, w.dir.get? (runFilename q) ≠ none → q < 2 ^ 64) {ch : Choice} {r : Unit}
    (hx : exec t (.startEngine config features m runs b q) ch w = some (r, w')) (hidle : ∀ t', t' ≠ t → S t' = .idle) :
    Tidy w' (Function.update S t (.serving ⟨true, [], [], false, none⟩)) := by
  simp only [exec] at hx
  obtain ⟨_, rfl⟩ := Prod.mk.inj (Option.some.inj hx)
  refine h.move ⟨by simp, h.kinds, fun _ n hn => ?_, by simp, fun _ => h.opener t (by rw [hS]; rfl), by simp [Keeper.locked], ?_,
    by simp [Keeper.memo], ?_, ?_, fun _ _ => rfl⟩ fun t' ht => by rw [hidle t' ht]; rfl
  · obtain ⟨k, rfl⟩ := h.kinds n hn
    have hkept := Spared.owned (hspared _ (h.left t left hS _ hn)) fun q hk => hlt q (by rw [hk] at hn; exact hn)
    rcases hkept with hman | hown
    · exact Or.inl hman
    · exact Or.inr (Or.inl hown)
  · intro t' ht
    have hfree : w.lock ≠ some t' := by
      rw [Ne, h.lock t', hidle t' ht]
      simp [Keeper.locked]
    exact ⟨fun hlock => (by cases hlock), fun hlock => absurd hlock hfree⟩
  · intro _ t' ht
    rw [hidle t' ht]
    rfl
  · have hhands := h.hands t
    rw [hS] at hhands
    exact hhands

theorem handles_nil (hheld : w.held = []) (t : Tid) : w.handles t = [] := by
  rw [World.handles, hheld]
  rfl

/-- Without an engine and without threads. -/
theorem tidy_gone (hkinds : ∀ name, w.dir.get? name ≠ none → ∃ n : Name, name = n.text) (hlive : w.live = false)
    (hlock : w.lock = none) (hheld : w.held = []) (hS : ∀ t, S t = .idle ∨ S t = .gone) : Tidy w S := by
  have hplain : ∀ t, (S t).hands = [] ∧ (S t).locked = false ∧ (S t).memo = none ∧ (S t).opens = false := by
    intro t
    rcases hS t with hs | hs
    · rw [hs]
      exact ⟨rfl, rfl, rfl, rfl⟩
    · rw [hs]
      exact ⟨rfl, rfl, rfl, rfl⟩
  refine ⟨fun t hb => ?_, hkinds, fun hl => ?_, fun t left hs => ?_, fun t ho => ?_, fun t => ?_, fun t rs hrs => ?_, fun t => ?_⟩
  · rcases hS t with hs | hs
    · rw [hs] at hb
      cases hb
    · rw [hs] at hb
      cases hb
  · rw [hlive] at hl
    cases hl
  · have ho := (hplain t).2.2.2
    rw [hs] at ho
    cases ho
  · rw [(hplain t).2.2.2] at ho
    cases ho
  · rw [hlock, (hplain t).2.1]
    simp
  · rw [(hplain t).2.2.1] at hrs
    cases hrs
  · rw [handles_nil hheld, (hplain t).1]

/-! ## Every step -/

theorem Tidy.act (h : Tidy w S) (hio : e.ioFaults = false) {o : Act} {ch : Choice} {r : Res o} (hg : guardAct e t o w)
    (ha : e.allowsAct w t o ch) (hx : exec t o ch w = some (r, w')) (hn : ChargeStep (S t) o r s)
    (hothers : ∀ t', t' ≠ t → (S t').opens = false) (hapart : w.live = true → w.Apart)
    (hlt : ∀ q, w.dir.get? (runFilename q) ≠ none → q < 2 ^ 64)
    (hidle : (S t).opens = true → ∀ t', t' ≠ t → S t' = .idle) : Tidy w' (Function.update S t s) := by
  generalize hS : S t = k at hn
  cases hn with
  | keep ho =>
    rw [← hS, Function.update_eq_self]
    exact h.inert ho hx hothers
  | broken => exact absurd hS (h.sound t)
  | misnamed hne =>
    simp only [exec] at hx
    obtain ⟨rfl, _⟩ := Prod.mk.inj (Option.some.inj hx)
    exact absurd rfl hne
  | unremoved hr =>
    subst hr
    simp only [exec] at hx
    have hcalm : ch.faulty = false := by
      rcases ha with hbad | hcalm
      · rw [hio] at hbad
        cases hbad
      · exact hcalm
    split at hx
    · cases hcalm
    · split at hx
      · simp at hx
      · simp at hx
  | unlink => exact h.sweep hx rfl (by rw [hS]; rfl) (fun left hs => by cases hs) hothers
  | sweep hr hleft =>
    refine h.sweep hx rfl (by rw [hS]; rfl) (fun left' hs => ⟨_, hS, fun n hin hne => ?_⟩) hothers
    obtain rfl := Keeper.sweeping.inj hs
    exact hleft n hin (hne hr)
  | unswept => exact h.sweep hx rfl (by rw [hS]; rfl) (fun left' hs => ⟨_, hS, fun n hin _ => Keeper.sweeping.inj hs ▸ hin⟩) hothers
  | @list r found hr =>
    subst hr
    obtain ⟨rfl, hall⟩ := exec_readDir hx
    have hsame : SameHands (S t) (.sweeping found) := by
      rw [hS]
      exact ⟨rfl, rfl, rfl, rfl⟩
    refine h.files ⟨rfl, rfl, rfl, rfl, rfl, rfl⟩ hsame (by simp) h.kinds (fun hlive n hn => ?_) ?_ hothers
    · refine (h.covered hlive n hn).same rfl rfl rfl fun hin => ?_
      rw [hS] at hin
      cases hin
    · intro left hs n hn
      exact Keeper.sweeping.inj hs ▸ hall n hn
  | start hspared => exact h.start hS hspared hlt hx (hidle (by rw [hS]; rfl))
  | lock hl =>
    have hfree : w.lock = none := by
      by_contra hbusy
      simp [exec, hbusy] at hx
    simp only [exec, if_pos hfree] at hx
    obtain ⟨_, rfl⟩ := Prod.mk.inj (Option.some.inj hx)
    refine h.relock hS rfl rfl rfl rfl rfl rfl (by simp) (fun t' ht => ?_) (by simp) hothers
    rw [hfree]
    simp [Ne.symm ht]
  | inner hl =>
    simp only [exec] at hx
    obtain ⟨rfl, rfl⟩ := Prod.mk.inj (Option.some.inj hx)
    have hlock := h.lock t
    rw [hS] at hlock
    exact h.relock hS rfl rfl rfl rfl rfl rfl hlock (fun _ _ => Iff.rfl) (fun rs hrs => ⟨hl, Option.some.inj hrs⟩) hothers
  | unlock hl =>
    simp only [exec] at hx
    obtain ⟨_, rfl⟩ := Prod.mk.inj (Option.some.inj hx)
    have hmine : w.lock = some t := (h.lock t).mpr (by rw [hS]; exact hl)
    refine h.relock hS rfl rfl rfl rfl rfl rfl (by simp) (fun t' ht => ?_) (by simp) hothers
    rw [hmine]
    simp [Ne.symm ht]
  | snapshot hnone => exact h.snapshot hS hnone hx hothers
  | release hcons => exact h.release hS hcons hapart hx hothers
  | create =>
    obtain ⟨hw, hdir⟩ := exec_create hx
    refine h.serve hS hw (fun n hn => ?_) hothers
    rcases hdir n hn with rfl | hold
    · exact Or.inr ⟨hg, Or.inr List.mem_cons_self⟩
    · exact Or.inl ⟨hold, List.mem_cons_of_mem _⟩
  | rename owes hkeep hnew hr =>
    obtain ⟨hw, hdir⟩ := exec_renamed hr hx
    refine h.serve hS hw (fun n hn => ?_) hothers
    rcases hdir n hn with rfl | ⟨hne, hold⟩
    · exact Or.inr ⟨hg.1, hnew⟩
    · exact Or.inl ⟨hold, fun hin => hkeep n hin hne⟩
  | unrenamed hr =>
    subst hr
    obtain rfl := exec_rename_error hx
    rw [← hS, Function.update_eq_self]
    exact h
  | remove owes hr hkeep =>
    obtain ⟨hw, hdir⟩ := exec_remove hx
    exact h.serve hS hw (fun n hn => Or.inl ⟨(hdir n hn).1, fun hin => hkeep n hin ((hdir n hn).2 hr)⟩) hothers
  | install owes hl hm hruns hkeep => exact h.install hS hl hm hruns hkeep hapart hx hothers
  | drop ho =>
    simp only [exec] at hx
    obtain ⟨_, rfl⟩ := Prod.mk.inj (Option.some.inj hx)
    refine tidy_gone h.kinds rfl rfl rfl fun t' => ?_
    by_cases ht : t' = t
    · subst ht
      rw [Function.update_self]
      exact Or.inr rfl
    · rw [Function.update_of_ne ht]
      exact Or.inl (hidle (by rw [hS]; exact ho) t' ht)

end Step

/-! ## Every run -/

theorem kinds_damaged {dir : SortedMap Text Data} (h : ∀ name, dir.get? name ≠ none → ∃ n : Name, name = n.text)
    (damage : List (ℕ × Option Bytes)) :
    ∀ name, (damage.foldl damageSidecar dir).get? name ≠ none → ∃ n : Name, name = n.text := by
  induction damage generalizing dir with
  | nil => exact h
  | cons x damage ih =>
    refine ih fun name hn => ?_
    by_cases hside : name = sidecarPath (runFilename x.1)
    · exact ⟨.side x.1, hside⟩
    · refine h name ?_
      unfold damageSidecar at hn
      split at hn
      · rwa [SortedMap.get?_erase_ne _ hside] at hn
      · split_ifs at hn
        · rwa [SortedMap.get?_insert_ne _ _ hside] at hn
        · exact hn

theorem Reach.apart (h : Reach e c) (hlive : c.world.live = true) : c.world.Apart := by
  obtain ⟨g, A, hr⟩ := h.running hlive
  have hknown : ∀ x, (x ∈ c.world.runs ∨ ∃ t, (t, x) ∈ c.world.held) → x ∈ c.world.known := by
    rintro x (hx | ⟨t, hx⟩)
    · exact hr.session.runs_known x hx
    · exact hr.session.held_known _ hx
  exact fun a b ha hb hid => hr.session.numbered.unique (hknown a ha) (hknown b hb) hid

def chargeProtocol : Protocol := ⟨Keeper, .idle, ChargeStep, ChargeEnds, Tidy⟩

theorem Reach.numbered_files (h : Reach e c) {q : ℕ} (hq : c.world.dir.get? (runFilename q) ≠ none) : q < 2 ^ 64 := by
  obtain ⟨g, hd⟩ := h.disk
  obtain ⟨d, hget⟩ := Option.ne_none_iff_exists'.mp hq
  exact Nat.lt_of_succ_lt (hd.stored.run q d hget).lt

/-- A call starts with nothing to answer for. -/
theorem Tidy.begin {call : Call} (h : Tidy w S) (hcan : canStart w t call = true) (hS : S t = .idle)
    (hopener : (∀ config features, call ≠ .openWith config features) → w.opener = none)
    (hidle : w.active = [] → ∀ t', S t' = .idle) : Tidy (started w t call) (Function.update S t call.keeper) := by
  have hlock := h.lock t
  have hhands := h.hands t
  rw [hS] at hlock hhands
  cases call with
  | openWith config features =>
    simp only [canStart, Bool.and_eq_true, Bool.not_eq_true', List.isEmpty_iff] at hcan
    refine h.move ⟨by simp [Call.keeper], h.kinds, fun hlive => ?_, by simp [Call.keeper], fun _ => rfl, hlock, fun _ _ => Iff.rfl,
      by simp [Call.keeper, Keeper.memo], fun hne => absurd rfl hne, hhands, fun _ _ => rfl⟩
      fun t' _ => by rw [hidle hcan.1.2 t']; rfl
    exact absurd (hcan.1.1.symm.trans hlive) (by simp)
  | _ =>
    refine h.move ⟨by simp [Call.keeper], h.kinds, fun hlive n hn => ?_, by simp [Call.keeper], by simp [Call.keeper, Keeper.opens],
      hlock, fun _ _ => Iff.rfl, by simp [Call.keeper, Keeper.memo], fun hne => absurd rfl hne, hhands, fun _ _ => rfl⟩
      fun t' _ => ?_
    · refine (h.covered hlive n hn).same rfl rfl rfl fun hin => ?_
      rw [hS] at hin
      cases hin
    · by_contra hopens
      have hnone := hopener (by simp)
      rw [h.opener t' (by simpa using hopens)] at hnone
      cases hnone

theorem ended_files (w : World) (t : Tid) (call : Call) (reply : Reply) :
    (ended w t call reply).dir = w.dir ∧ (ended w t call reply).runs = w.runs ∧ (ended w t call reply).held = w.held ∧
      (ended w t call reply).obsolete = w.obsolete ∧ (ended w t call reply).lock = w.lock ∧
      (ended w t call reply).live = w.live := by
  cases call with
  | openWith => exact ⟨rfl, rfl, rfl, rfl, rfl, rfl⟩
  | _ => simp only [ended]; split_ifs <;> exact ⟨rfl, rfl, rfl, rfl, rfl, rfl⟩

/-- A call ends with nothing to answer for. -/
theorem Tidy.finish {call : Call} {reply : Reply} (h : Tidy w S) (howes : (S t).owes = []) (hhands : (S t).hands = [])
    (hlocked : (S t).locked = false) (hothers : ∀ t', t' ≠ t → (S t').opens = false) :
    Tidy (ended w t call reply) (Function.update S t .idle) := by
  obtain ⟨hdir, hruns, hheld, hobsolete, hlock, hlive⟩ := ended_files w t call reply
  have hhandles : ∀ t', (ended w t call reply).handles t' = w.handles t' := fun t' => by
    rw [World.handles, World.handles, hheld]
  refine h.move ⟨by simp, ?_, fun hl n hn => ?_, by simp, by simp [Keeper.opens], ?_, fun t' _ => by rw [hlock], by simp [Keeper.memo],
    fun hne => absurd hruns hne, ?_, fun t' _ => hhandles t'⟩ hothers
  · rw [hdir]
    exact h.kinds
  · rw [hdir] at hn
    refine (h.covered (hlive ▸ hl) n hn).same hruns hheld hobsolete fun hin => ?_
    rw [howes] at hin
    cases hin
  · rw [hlock, h.lock t, hlocked]
    rfl
  · rw [hhandles, h.hands t, hhands]
    rfl

theorem chargeProtocol_sound (hno : ¬ e.Trouble) (hread : e.Readable) : chargeProtocol.Sound e fun _ _ => True where
  initial := tidy_gone (fun name hn => absurd rfl hn) rfl rfl rfl fun _ => Or.inl rfl
  start := by
    intro c S t call h _ hcan
    have hinv : Tidy c.world S := h.inv
    have hidle : ∀ t', t' ∉ c.world.active → S t' = Keeper.idle := fun t' hin =>
      h.rest fun _ _ hth => hin (h.reach.active hth)
    refine ⟨call.keeper, charge_program _ _ call, hinv.begin hcan (hidle t (canStart_cases hcan).1) (fun hclient => ?_) ?_⟩
    · refine (h.reach.ready ?_).2
      cases call with
      | openWith config features => exact absurd rfl (hclient config features)
      | _ =>
        simp only [canStart, Bool.and_eq_true] at hcan
        exact hcan.1.1
    · exact fun hnone t' => hidle t' (by simp [hnone])
  act := by
    intro c S t call o k choice r w s h hth ha hx hn _
    have hinv : Tidy c.world S := h.inv
    have hio : e.ioFaults = false := by
      by_contra hbad
      exact hno (Or.inl (by simpa using hbad))
    refine hinv.act hio (h.reach.guard (by rw [hth]; rfl)) ha hx hn (fun t' ht => ?_) h.reach.apart
      (fun q => h.reach.numbered_files) fun hopens t' ht => h.rest fun _ _ hrun => ht (h.reach.alone (hinv.opener t hopens) hrun)
    by_contra hopens
    exact ht (h.reach.alone (hinv.opener t' (by simpa using hopens)) hth).symm
  finish := by
    intro c S t call reply h hth hend
    have hinv : Tidy c.world S := h.inv
    have hok : reply.isOk = true := by
      have hr := h.reach.step (l := .finish t) trivial (step_finish hth)
      exact (hr.seen (t := t) (Function.update_self ..)).ok hno hread
    obtain ⟨howes, hhands, hlocked⟩ := hend hok
    refine hinv.finish howes hhands hlocked fun t' ht => ?_
    by_contra hopens
    exact ht (h.reach.alone (hinv.opener t' (by simpa using hopens)) hth).symm
  crash := by
    intro c S damage h
    have hinv : Tidy c.world S := h.inv
    exact tidy_gone (kinds_damaged hinv.kinds damage) rfl rfl rfl fun _ => Or.inl rfl
  close := by
    intro c S h _ hidle
    have hinv : Tidy c.world S := h.inv
    refine tidy_gone hinv.kinds rfl rfl rfl fun t => Or.inl (h.rest fun _ _ hth => ?_)
    have hin := h.reach.active hth
    rw [hidle] at hin
    cases hin

/-- Every file is the manifest or belongs to a run of the engine, and the manifest lists these runs, all of them
there and complete. -/
structure Swept (w : World) : Prop where
  files : ∀ name, w.dir.get? name ≠ none → name = MANIFEST ∨ ∃ r ∈ w.runs, r.Owns name
  listed : listed w = names w.runs
  step : InStep w

/-- Whenever an open has returned and no call is under way, after any number of sessions, crashes and compactions and
whatever readers held on to, the directory holds the manifest, the runs it lists and sidecars of these, and nothing
else. -/
theorem directory_swept (laws : BloomLaws) {d : Bool} (h : Reach (Env.calm d) c) (hready : c.world.ready = true)
    (hidle : c.world.active = []) : Swept c.world := by
  have hno := (Env.good_calm laws d).no_trouble rfl
  obtain ⟨S, hholds⟩ := (chargeProtocol_sound hno (Env.readable_calm laws d)).at_runs h.runs
  have hinv : Tidy c.world S := hholds.inv
  have hrest : ∀ t, S t = Keeper.idle := fun t => hholds.rest fun _ _ hth => by
    have hin := h.active hth
    rw [hidle] at hin
    cases hin
  have hlive := (h.ready hready).1
  have hlock : c.world.lock = none := by
    by_contra hbusy
    obtain ⟨t, ht⟩ := Option.ne_none_iff_exists'.mp hbusy
    have hlocked := (hinv.lock t).mp ht
    rw [hrest t] at hlocked
    cases hlocked
  have hstep := h.inStep rfl
  refine ⟨fun name hn => ?_, hstep.agree hlive hlock, hstep⟩
  rcases hinv.covered hlive name hn with hman | hrun | ⟨t, hin⟩ | ⟨x, hx, _⟩
  · exact Or.inl hman
  · exact Or.inr hrun
  · rw [hrest t] at hin
    cases hin
  · have hin : x.2 ∈ c.world.handles x.1 := List.mem_map.mpr ⟨x, List.mem_filter.mpr ⟨hx, by simp⟩, rfl⟩
    rw [hinv.hands, hrest x.1] at hin
    cases hin

omit [Deps] in
/-- The machine goes down in the middle of a flush; the next open flushes the log again and leaves one run. -/
theorem directory_swept_after_crash : letI := Deps.concrete
    (∃ c, Reach (Env.calm true) c ∧ c.world.dir.keys = [tmpPath (runFilename 0)] ∧ c.world.live = false) ∧
      ∃ c, Reach (Env.calm true) c ∧ c.world.dir.keys = [MANIFEST, runFilename 0] ∧ Swept c.world := by
  let _ := Deps.concrete
  let opens : Move := .alone 1 allOk (.openWith LsmConfig.default ⟨true, false⟩)
  let before : List Move := [opens, .alone 1 allOk (.put [1] [2]), .start 1 .flush, .acts 1 (List.replicate 8 .ok), .crash []]
  have hcrash : (Env.calm true).leads before
      (fun c => c.world.dir.keys = [tmpPath (runFilename 0)] ∧ c.world.live = false) = true := by decide +kernel
  have hopen : (Env.calm true).leads (before ++ [opens]) (fun c => c.world.ready = true ∧ c.world.active = [] ∧
      c.world.dir.keys = [MANIFEST, runFilename 0]) = true := by decide +kernel
  obtain ⟨c, hreach, hc⟩ := Env.reach_leads hcrash
  obtain ⟨c', hreach', hc'⟩ := Env.reach_leads hopen
  obtain ⟨hready, hidle, hkeys⟩ := of_decide_eq_true hc'
  exact ⟨⟨c, hreach, of_decide_eq_true hc⟩, c', hreach', hkeys, directory_swept concrete_laws hreach' hready hidle⟩

end Tidy
end LsmDb
