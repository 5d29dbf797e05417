import LsmDb.Proof.Writing
import Mathlib.Data.List.Pairwise

/-! Replacing the manifest, the one step that commits a flush or a compaction, and installing the new run
list. -/
namespace LsmDb
open Lib
set_option autoImplicit false

section Commit
variable [Deps] {e : Env} {g : Ghost} {w : World} {A : Tid → Own} {t : Tid} {a : Own} {h : Hold} {b : Build}

theorem Stored.same {content : ℕ → List Entry} {ns : List ℕ} {dir dir' : SortedMap Text Data}
    {finished : Text → Option Bytes} (hs : Stored e content ns dir finished)
    (hlook : ∀ n, n ≠ .manifestTmp → look dir' n = look dir n) : Stored e content ns dir' finished where
  run s d hd := hs.run s d (by rwa [hlook _ (by simp)] at hd)
  side s d hd := hs.side s d (by rwa [hlook _ (by simp)] at hd)
  manifest := by rw [hlook _ (by simp)]; exact hs.manifest
  nodup := hs.nodup
  present hstat s hmem := by rw [hlook _ (by simp)]; exact hs.present hstat s hmem

/-! ## The temporary manifest -/

theorem Running.manifestTmp (hr : Running e g w A) (hm : (A t).mode = .live) (hh : (A t).hold = some h)
    {dir : SortedMap Text Data} {d : Option Data}
    (hlook : look dir = Function.update (look w.dir) .manifestTmp d) :
    Running e g { w with dir := dir } (Function.update A t { A t with hold := some { h with tmp := d } }) := by
  have hother : ∀ n, n ≠ .manifestTmp → look dir n = look w.dir n := by
    intro n hn
    rw [hlook, Function.update_of_ne hn]
  refine ⟨{ hr.session with
    stored := hr.session.stored.same hother
    fresh := fun s hle => by
      show look dir (.run s) = none ∧ look dir (.side s) = none
      rw [hother _ (by simp), hother _ (by simp)]
      exact hr.session.fresh s hle }, ?_⟩
  refine hr.crew.holding_keep hm hh ?_ ?_ ?_ ?_ ?_
  · exact ⟨rfl, rfl, rfl, rfl, rfl, rfl, fun n _ hn => hother n hn, rfl, rfl, rfl⟩
  · exact ⟨rfl, rfl, rfl, rfl⟩
  · rfl
  · rfl
  · have hmir := (hr.crew.threads t).mirrors h hh
    exact { hmir with tmp := by show look dir .manifestTmp = d; rw [hlook, Function.update_self] }

theorem does_create_manifest {Q : Own → Except IoError Unit → Prop} (hm : a.mode = .live)
    (hh : a.hold = some h) {x : Data} (hok : Q { a with hold := some { h with tmp := some x } } (.ok ()))
    (herr : e.Faulty t a → ∀ d, Q { a with hold := some { h with tmp := d } } (.error .other)) :
    Does e t (.create MANIFEST_TMP x) a Q := by
  refine Does.live hm ?_
  intro g w A hr ha
  subst ha
  refine ⟨⟨.manifestTmp, rfl⟩, fun c r w' hc hx => ?_⟩
  have hdone := hr.manifestTmp hm hh (look_insert w.dir .manifestTmp x)
  cases c with
  | fail k =>
    have hf : e.Faulty t (A t) := faulty_of hr.crew.shared hc rfl
    cases k <;> simp only [exec, Option.some.injEq, Prod.mk.injEq] at hx <;> obtain ⟨rfl, rfl⟩ := hx
    · refine ⟨g, A t, by rwa [Function.update_eq_self], ?_⟩
      have hq := herr hf h.tmp
      rwa [← hh] at hq
    · exact ⟨g, _, hdone, herr hf _⟩
  | ok | order _ _ | faults _ =>
    simp only [exec, Option.some.injEq, Prod.mk.injEq] at hx
    obtain ⟨rfl, rfl⟩ := hx
    exact ⟨g, _, hdone, hok⟩

theorem does_append_manifest {Q : Own → Except IoError Unit → Prop} (hm : a.mode = .live)
    (hh : a.hold = some h) {old x : Text} (htmp : h.tmp = some (.text old))
    (hok : Q { a with hold := some { h with tmp := some (.text (old ++ x)) } } (.ok ()))
    (herr : e.Faulty t a → ∀ d, Q { a with hold := some { h with tmp := d } } (.error .other)) :
    Does e t (.append MANIFEST_TMP (.text x)) a Q := by
  refine Does.live hm ?_
  intro g w A hr ha
  subst ha
  have hget : w.dir.get? MANIFEST_TMP = some (.text old) := ((hr.crew.threads t).mirrors h hh).tmp.trans htmp
  refine ⟨trivial, fun c r w' hc hx => ?_⟩
  cases c with
  | fail k =>
    have hf : e.Faulty t (A t) := faulty_of hr.crew.shared hc rfl
    simp only [exec, hget, Option.some.injEq, Prod.mk.injEq] at hx
    obtain ⟨rfl, rfl⟩ := hx
    exact ⟨g, _, hr.manifestTmp hm hh (look_insert w.dir .manifestTmp _), herr hf _⟩
  | ok | order _ _ | faults _ =>
    simp only [exec, hget, Data.fits, ↓reduceIte, Option.some.injEq, Prod.mk.injEq] at hx
    obtain ⟨rfl, rfl⟩ := hx
    exact ⟨g, _, hr.manifestTmp hm hh (look_insert w.dir .manifestTmp _), hok⟩

/-! ## The commit -/

theorem Session.exists_ns (hs : Session e g w) {l : List SsTable} (hl : ∀ r ∈ l, r ∈ w.known) :
    ∃ ns : List ℕ, names l = ns.map runFilename := by
  induction l with
  | nil => exact ⟨[], rfl⟩
  | cons r l ih =>
    obtain ⟨ns, hns⟩ := ih fun x hx => hl x (by simp [hx])
    obtain ⟨s, _, hof⟩ := hs.known r (hl r (by simp))
    exact ⟨s :: ns, by simp only [names, List.map_cons, hof.name] at hns ⊢; rw [hns]⟩

omit [Deps] in
theorem map_runFilename_injective {xs ys : List ℕ} (h : xs.map runFilename = ys.map runFilename) : xs = ys :=
  List.map_injective_iff.mpr (fun _ _ h => runFilename_injective h) h

/-- Two opened runs of one name are one. -/
theorem Session.name_unique (hs : Session e g w) {r r' : SsTable} (hr : r ∈ w.known) (hr' : r' ∈ w.known)
    (h : r.name = r'.name) : r = r' := by
  by_contra hne
  have hsymm : Std.Symm fun a b : SsTable => a.name ≠ b.name := ⟨fun _ _ hxy => Ne.symm hxy⟩
  exact hs.name_ne.forall hr hr' hne h

theorem Session.names_nodup (hs : Session e g w) {l : List SsTable} (hl : ∀ r ∈ l, r ∈ w.known)
    (hnd : l.Nodup) : (names l).Nodup := by
  refine List.Nodup.map_on ?_ hnd
  intro x hx y hy hxy
  exact hs.name_unique (hl x hx) (hl y hy) hxy

theorem Stored.listed_eq {content : ℕ → List Entry} {ns : List ℕ} {finished : Text → Option Bytes}
    (hs : Stored e content ns w.dir finished) : listed w = ns.map runFilename := by
  unfold listed
  rcases hs.manifest with ⟨hnone, hns⟩ | ⟨q, hq, htext⟩
  · have hget : w.dir.get? MANIFEST = none := hnone
    rw [hget, hns]
    rfl
  · have hget : w.dir.get? MANIFEST = some (.text (manifestText q (ns.map runFilename))) := htext
    have hnames : ∀ run ∈ ns.map runFilename, ∃ s, run = runFilename s := by
      intro run hrun
      obtain ⟨s, _, rfl⟩ := List.mem_map.mp hrun
      exact ⟨s, rfl⟩
    have hparse := parseManifest_manifestText hq hnames
    rw [hget]
    simp only [hparse]

/-- The history after the manifest was replaced: a flush makes what was applied recoverable. -/
def committedSpec (t : Tid) (s : Spec) : Spec := if t ≠ compactorTid then { s with flushed := s.cur } else s

theorem Told.commit {d : Bool} {s : Spec} {phase : Tid → Phase} (ht : Told e d s phase) :
    Told e d (committedSpec t s) phase := by
  unfold committedSpec
  split_ifs
  · refine ⟨ht.solo, ht.compactor, ht.agree, fun x => ?_, fun hio => ⟨fun x => ?_, (ht.sure hio).2⟩⟩
    · have hh := ht.holds x
      generalize phase x = p at hh ⊢
      cases p with
      | saved => exact fun _ => rfl
      | quiet => exact hh
      | pending ops prior => exact hh
      | logged ops prior => exact hh
      | applied ops prior => exact hh
    · have hh := (ht.sure hio).1 x
      generalize phase x = p at hh ⊢
      cases p <;> exact hh
  · exact ht

/-- What a new manifest must list: runs that are listed already, and the run that was just built. -/
structure Commits (e : Env) (g : Ghost) (b : Build) (ns : List ℕ) : Prop where
  nodup : ns.Nodup
  from_old : e.statFaults = false → ∀ s ∈ ns, s ∈ g.ns ∨ s = b.seq

/-- The manifest is replaced. `buf` is the buffer from now on. -/
theorem Running.commit (hr : Running e g w A) (hm : (A t).mode = .live) (hh : (A t).hold = some h)
    (hb : (A t).build = some b) (hrun : b.run ≠ none) {q : ℕ} (ns : List ℕ) (buf : List Entry)
    {dir : SortedMap Text Data} (hq : q < 2 ^ 64) (hc : Commits e g b ns)
    (hlook : look dir = Function.update (Function.update (look w.dir) .manifestTmp none) .manifest
      (some (.text (manifestText q (ns.map runFilename)))))
    (hwithin : ∀ d, e.Good d → ∀ x ∈ b.entries, e.Within x)
    (hbuf : ∀ d, e.Good d → (∀ x ∈ buf, e.Within x) ∧
      (∀ k, find g.buf k = none → find buf k = none) ∧
      answer (buf :: ns.map g.content) = answer (g.buf :: g.layers))
    (hlog : e.Good true → answer (g.log :: ns.map g.content) = answer (g.log :: g.layers))
    (hflush : e.Good false → (committedSpec t w.spec).flushed = answer (ns.map g.content)) :
    Running e { g with ns := ns, buf := buf } { w with dir := dir, spec := committedSpec t w.spec }
      (Function.update A t { A t with
        hold := some { h with tmp := none, ns := ns, buf := buf }
        build := some { b with committed := true } }) := by
  have hs := hr.session
  have hbuild := (hr.crew.threads t).building b hb
  have hmir := (hr.crew.threads t).mirrors h hh
  have hlock : w.lock ≠ none := by simp [(hr.crew.threads t).holder.mpr (by simp [hh])]
  have hother : ∀ n, n ≠ .manifest → n ≠ .manifestTmp → look dir n = look w.dir n := by
    intro n h1 h2
    rw [hlook, Function.update_of_ne h1, Function.update_of_ne h2]
  have hcur : (committedSpec t w.spec).cur = w.spec.cur := by unfold committedSpec; split_ifs <;> rfl
  have hlogged : (committedSpec t w.spec).logged = w.spec.logged := by unfold committedSpec; split_ifs <;> rfl
  have hseen : (committedSpec t w.spec).seen = w.spec.seen := by unfold committedSpec; split_ifs <;> rfl
  have hpresent : e.statFaults = false → ∀ s ∈ ns, look w.dir (.run s) ≠ none := by
    intro hstat s hmem
    rcases hc.from_old hstat s hmem with hold | rfl
    · exact hs.stored.present hstat s hold
    · rw [hbuild.run]
      exact hrun
  have hcontent : ∀ d, e.Good d → ∀ s ∈ ns, ∀ x ∈ g.content s, e.Within x := by
    intro d hd s hmem x hx
    rcases hc.from_old hd.stat s hmem with hold | rfl
    · exact (hs.durable d hd).within s hold x hx
    · rw [hbuild.content hrun] at hx
      exact hwithin d hd x hx
  refine ⟨?_, ?_⟩
  · exact { hs with
      stored := {
        run := fun s d hd => hs.stored.run s d (by
          have hd' : look dir (.run s) = some d := hd
          rwa [hother _ (by simp) (by simp)] at hd')
        side := fun s d hd => hs.stored.side s d (by
          have hd' : look dir (.side s) = some d := hd
          rwa [hother _ (by simp) (by simp)] at hd')
        manifest := Or.inr ⟨q, hq, by
          show look dir .manifest = _
          rw [hlook, Function.update_self]⟩
        nodup := hc.nodup
        present := fun hstat s hmem => by
          show look dir (.run s) ≠ none
          rw [hother _ (by simp) (by simp)]
          exact hpresent hstat s hmem }
      durable := fun d hd => { hs.durable d hd with
        within := hcontent d hd
        flushed := fun hf => by
          subst hf
          exact hflush hd
        logged := fun ht => by
          subst ht
          show (committedSpec t w.spec).logged = answer (g.log :: ns.map g.content)
          rw [hlogged, hlog hd]
          exact (hs.durable true hd).logged rfl }
      fresh := fun s hle => by
        show look dir (.run s) = none ∧ look dir (.side s) = none
        rw [hother _ (by simp) (by simp), hother _ (by simp) (by simp)]
        exact hs.fresh s hle
      buf := fun hn => absurd hn hlock
      named := fun _ hn => absurd hn hlock
      ns_lt := fun hstat s hmem => by
        rcases hc.from_old hstat s hmem with hold | rfl
        · exact hs.ns_lt hstat s hold
        · exact hbuild.lt
      gone := fun hstat r hmem hobs s hs' hname => by
        rcases hc.from_old hstat s hs' with hold | rfl
        · exact hs.gone hstat r hmem hobs s hold hname
        · exact (hbuild.table r (hbuild.only r hmem hname)).2.2.1 hobs
      view := fun d hd => { hs.view d hd with
        within := (hbuf d hd).1
        cur := fun hl => by
          show (committedSpec t w.spec).cur = answer (buf :: ns.map g.content)
          rw [hcur, (hbuf d hd).2.2]
          exact (hs.view d hd).cur hl
        shadow := fun ht k hk => (hbuf d hd).2.1 k ((hs.view d hd).shadow ht k hk) }
      wal := fun _ _ _ hn => absurd hn hlock }
  · have hl := hr.crew.threads t
    refine hr.crew.step ⟨rfl, rfl, rfl, rfl⟩ hm ⟨rfl, rfl⟩ ?_ ?_ ?_ ?_ ?_
    · show (committedSpec t w.spec).seen = _
      rw [hseen, ← hr.crew.shared.seen, Function.update_eq_self]
    · intro b' hb' t' b₂ hne hb₂
      simp only [Option.some.injEq] at hb'
      subst hb'
      exact hr.crew.apart t t' b b₂ (Ne.symm hne) hb hb₂
    · refine { hl with
        holder := by simpa [hh] using hl.holder
        mirrors := ?_
        building := ?_
        logged := fun ops prior hp => ⟨by simp, (hl.logged ops prior hp).2⟩ }
      · intro h' hh'
        simp only [Option.some.injEq] at hh'
        subst hh'
        refine { hmir with tmp := ?_, ns := rfl, buf := rfl }
        show look dir .manifestTmp = none
        rw [hlook, Function.update_of_ne (by simp), Function.update_self]
      · intro b' hb'
        simp only [Option.some.injEq] at hb'
        subst hb'
        exact { hbuild with
          tmp := by rw [hother _ (by simp) (by simp)]; exact hbuild.tmp
          run := by rw [hother _ (by simp) (by simp)]; exact hbuild.run
          side := by rw [hother _ (by simp) (by simp)]; exact hbuild.side
          sideTmp := by rw [hother _ (by simp) (by simp)]; exact hbuild.sideTmp
          unlisted := fun _ hf => by simp at hf }
    · intro t' hne hl'
      have hnone := hr.crew.other_hold (by simp [hh]) hne
      refine { hl' with
        mirrors := fun h' hh' => by simp [hnone] at hh'
        building := fun b' hb' => ?_ }
      have hbuild' := hl'.building b' hb'
      have hseq : b.seq ≠ b'.seq := hr.crew.apart t t' b b' (Ne.symm hne) hb hb'
      exact { hbuild' with
        tmp := by rw [hother _ (by simp) (by simp)]; exact hbuild'.tmp
        run := by rw [hother _ (by simp) (by simp)]; exact hbuild'.run
        side := by rw [hother _ (by simp) (by simp)]; exact hbuild'.side
        sideTmp := by rw [hother _ (by simp) (by simp)]; exact hbuild'.sideTmp
        unlisted := fun hstat hcom hmem => by
          rcases hc.from_old hstat _ hmem with hold | heq
          · exact hbuild'.unlisted hstat hcom hold
          · exact hseq heq.symm }
    · intro d hd hseq
      rw [Function.update_eq_self]
      exact (hr.crew.told d hd hseq).commit

theorem exec_rename_manifest {x : Text} (hget : look w.dir .manifestTmp = some (.text x)) {c : Choice}
    {r : Except IoError Unit} {w' : World} (hx : exec t (.rename MANIFEST_TMP MANIFEST) c w = some (r, w')) :
    r = .ok () ∧ w' = { w with
      dir := (w.dir.erase MANIFEST_TMP).insert MANIFEST (.text x)
      spec := committedSpec t w.spec } ∨
    (Act.rename MANIFEST_TMP MANIFEST).fails w c = true ∧ r = .error .other ∧ w' = w := by
  have hget' : w.dir.get? MANIFEST_TMP = some (.text x) := hget
  cases c with
  | fail k =>
    simp only [exec, Option.some.injEq, Prod.mk.injEq] at hx
    exact Or.inr ⟨rfl, hx.1.symm, hx.2.symm⟩
  | ok | order _ _ | faults _ =>
    simp only [exec, hget', true_and, Option.some.injEq, Prod.mk.injEq] at hx
    exact Or.inl ⟨hx.1.symm, hx.2.symm⟩

theorem guard_manifest (w : World) : guardAct e t (.rename MANIFEST_TMP MANIFEST) w := by
  refine ⟨⟨.manifest, rfl⟩, fun s hname => ?_⟩
  have hne := Name.text_injective (n := .manifest) (m := .run s) hname
  simp at hne

/-- The flushed run goes on top of the list and takes the place of the buffer. -/
theorem does_commit_flush {Q : Own → Except IoError Unit → Prop} {r : SsTable} {q : ℕ} (hm : a.mode = .live)
    (hh : a.hold = some h) (hb : a.build = some b) (hrun : b.run ≠ none) (hes : b.entries = h.buf)
    (htab : b.table = some r) (ht : t ≠ compactorTid) (hl : a.lost = false)
    (hnamed : e.statFaults = false → names h.runs = h.ns.map runFilename) (hq : q < 2 ^ 64)
    (htmp : h.tmp = some (.text (manifestText q (names (r :: h.runs)))))
    (hok : ∀ ns : List ℕ, names (r :: h.runs) = ns.map runFilename →
      Q { a with
        hold := some { h with tmp := none, ns := ns, buf := [] }
        build := some { b with committed := true } } (.ok ()))
    (herr : e.Faulty t a → Q a (.error .other)) : Does e t (.rename MANIFEST_TMP MANIFEST) a Q := by
  refine Does.live hm ?_
  intro g w A hr ha
  subst ha
  have hs := hr.session
  have hmir := (hr.crew.threads t).mirrors h hh
  have hbuild := (hr.crew.threads t).building b hb
  obtain ⟨hknown, hrname, _, hnotin⟩ := hbuild.table r htab
  refine ⟨guard_manifest w, fun c r' w' hc hx => ?_⟩
  rcases exec_rename_manifest (hmir.tmp.trans htmp) hx with ⟨rfl, rfl⟩ | ⟨hfail, rfl, rfl⟩
  · have hall : ∀ x ∈ r :: h.runs, x ∈ w.known := by
      intro x hx
      rcases List.mem_cons.mp hx with rfl | hx
      · exact hknown
      · rw [← hmir.runs] at hx
        exact hs.runs_known x hx
    obtain ⟨ns, hns⟩ := hs.exists_ns hall
    have hnd : (r :: h.runs).Nodup := by
      rw [← hmir.runs]
      exact List.nodup_cons.mpr ⟨hnotin, hs.runs_nodup⟩
    -- with a faithful manifest the new list is the old one with one more run
    have hcons : e.statFaults = false → ns = b.seq :: g.ns := by
      intro hstat
      refine map_runFilename_injective ?_
      rw [← hns, List.map_cons, hmir.ns, ← hnamed hstat, ← hrname]
      rfl
    have hlayers : ∀ d, e.Good d → ns.map g.content = h.buf :: g.layers := by
      intro d hd
      rw [hcons hd.stat, List.map_cons, hbuild.content hrun, hes]
      rfl
    refine ⟨_, _, hr.commit hm hh hb hrun ns [] hq ⟨?_, ?_⟩ ?_ ?_ ?_ ?_ ?_, hok ns hns⟩
    · have hnames := hs.names_nodup hall hnd
      rw [hns] at hnames
      exact hnames.of_map
    · intro hstat s hmem
      rw [hcons hstat] at hmem
      exact (List.mem_cons.mp hmem).symm
    · rw [← hns]
      exact look_rename w.dir .manifestTmp .manifest _
    · intro d hd x hx
      rw [hes, ← hmir.buf] at hx
      exact (hs.view d hd).within x hx
    · intro d hd
      refine ⟨by simp, fun _ _ => rfl, ?_⟩
      rw [hlayers d hd, hmir.buf]
      funext k
      exact resolve_nil_cons Record.live _ k
    · intro hd
      rw [hlayers true hd, ← hmir.buf]
      exact resolve_shadowed Record.live g.layers ((hs.view true hd).shadow rfl)
    · intro hd
      rw [hlayers false hd, ← hmir.buf]
      have hcur := (hs.view false hd).cur (hr.not_lost hm hl hd)
      simp only [committedSpec, ne_eq, ht, not_false_eq_true, ↓reduceIte]
      exact hcur
  · exact ⟨g, A t, by rwa [Function.update_eq_self], herr (faulty_of hr.crew.shared hc hfail)⟩

omit [Deps] in
theorem find_valueEntries (items : List (Bytes × Bytes)) (k : Bytes) :
    find (valueEntries items) k = (find items k).map Record.value := by
  induction items with
  | nil => rfl
  | cons x items ih =>
    obtain ⟨y, v⟩ := x
    by_cases hk : k = y
    · subst hk
      simp [valueEntries]
    · rw [find_cons_of_ne hk, ← ih]
      exact find_cons_of_ne hk

omit [Deps] in
theorem ascending_valueEntries {items : List (Bytes × Bytes)} (h : Ascending items) :
    Ascending (valueEntries items) := by
  unfold Ascending valueEntries at *
  rw [List.pairwise_map]
  exact h

omit [Deps] in
/-- The output of a merge answers for all its inputs. -/
theorem answer_merged {ess : List (List Entry)} {items : List (Bytes × Bytes)}
    (hmerge : MergeOf Record.live ess items) (front : List (List Entry)) :
    answer (front ++ [valueEntries items]) = answer (front ++ ess) := by
  refine resolve_append_congr Record.live front (resolve_squash Record.live Record.live_value ?_)
  intro k
  rw [find_valueEntries, hmerge.find_eq]

omit [Deps] in
theorem within_merged {ess : List (List Entry)} {items : List (Bytes × Bytes)}
    (hmerge : MergeOf Record.live ess items) (hw : ∀ es ∈ ess, ∀ x ∈ es, e.Within x) :
    ∀ x ∈ valueEntries items, e.Within x := by
  intro x hx
  obtain ⟨y, hy, rfl⟩ := List.mem_map.mp hx
  have hres : resolve Record.live ess y.1 = some y.2 := by
    rw [← hmerge.find_eq]
    exact hmerge.ascending.find_of_mem hy
  obtain ⟨es, hes, r, hmem, hlive⟩ := exists_of_resolve hres
  have hr : r = .value y.2 := by
    cases r with
    | value v => simpa using hlive
    | tombstone => simp at hlive
  rw [← hr]
  exact hw es hes (y.1, r) hmem

theorem map_content {content : ℕ → List Entry} {l : List (SsTable × List Entry)} {ns : List ℕ}
    (hns : names (l.map Prod.fst) = ns.map runFilename)
    (hl : ∀ x ∈ l, ∀ s, x.1.name = runFilename s → content s = x.2) : ns.map content = l.map Prod.snd := by
  induction l generalizing ns with
  | nil =>
    have hnil : ns = [] := by simpa [names] using hns.symm
    rw [hnil]
    rfl
  | cons x l ih =>
    cases ns with
    | nil => simp [names] at hns
    | cons s ns =>
      simp only [names, List.map_cons, List.cons.injEq] at hns
      rw [List.map_cons, List.map_cons, hl x (by simp) s hns.1,
        ih (by simpa [names] using hns.2) fun y hy => hl y (by simp [hy])]

/-- The compacted run takes the place of its inputs at the end of the list. -/
theorem does_commit_compact {Q : Own → Except IoError Unit → Prop} {r : SsTable} {q : ℕ}
    {fresh : List SsTable} {items : List (Bytes × Bytes)} (hm : a.mode = .live)
    (hh : a.hold = some h) (hb : a.build = some b) (hrun : b.run ≠ none)
    (hes : b.entries = valueEntries items) (htab : b.table = some r) (ht : t = compactorTid)
    (hruns : h.runs = fresh ++ a.inputs.map Prod.fst)
    (hmerge : MergeOf Record.live (a.inputs.map Prod.snd) items)
    (hnamed : e.statFaults = false → names h.runs = h.ns.map runFilename) (hq : q < 2 ^ 64)
    (htmp : h.tmp = some (.text (manifestText q (names (fresh ++ [r])))))
    (hok : ∀ ns : List ℕ, names (fresh ++ [r]) = ns.map runFilename →
      Q { a with
        hold := some { h with tmp := none, ns := ns }
        build := some { b with committed := true } } (.ok ()))
    (herr : e.Faulty t a → Q a (.error .other)) : Does e t (.rename MANIFEST_TMP MANIFEST) a Q := by
  refine Does.live hm ?_
  intro g w A hr ha
  subst ha
  have hs := hr.session
  have hl := hr.crew.threads t
  have hmir := hl.mirrors h hh
  have hbuild := hl.building b hb
  obtain ⟨hknown, hrname, _, hnotin⟩ := hbuild.table r htab
  refine ⟨guard_manifest w, fun c r' w' hc hx => ?_⟩
  rcases exec_rename_manifest (hmir.tmp.trans htmp) hx with ⟨rfl, rfl⟩ | ⟨hfail, rfl, rfl⟩
  · have hwr : w.runs = fresh ++ (A t).inputs.map Prod.fst := by rw [hmir.runs, hruns]
    have hfresh : ∀ x ∈ fresh, x ∈ w.known := fun x hx => hs.runs_known x (by rw [hwr]; simp [hx])
    have hin : ∀ x ∈ (A t).inputs.map Prod.fst, x ∈ w.known :=
      fun x hx => hs.runs_known x (by rw [hwr]; exact List.mem_append_right _ hx)
    have hall : ∀ x ∈ fresh ++ [r], x ∈ w.known := by
      intro x hx
      rcases List.mem_append.mp hx with hx | hx
      · exact hfresh x hx
      · rw [List.mem_singleton.mp hx]
        exact hknown
    obtain ⟨nf, hnf⟩ := hs.exists_ns hfresh
    obtain ⟨ni, hni⟩ := hs.exists_ns hin
    have hns : names (fresh ++ [r]) = (nf ++ [b.seq]).map runFilename := by
      rw [List.map_append, ← hnf]
      simp [names, hrname]
    have hnd : (fresh ++ [r]).Nodup := by
      have hrn := hs.runs_nodup
      rw [hwr] at hrn hnotin
      refine List.nodup_append.mpr ⟨(List.nodup_append.mp hrn).1, by simp, ?_⟩
      intro x hx y hy heq
      rw [List.mem_singleton.mp hy] at heq
      exact hnotin (by rw [← heq]; simp [hx])
    have hgns : e.statFaults = false → g.ns = nf ++ ni := by
      intro hstat
      refine map_runFilename_injective ?_
      rw [hmir.ns, ← hnamed hstat, hruns, List.map_append, ← hnf, ← hni]
      simp [names]
    have hlayers : ∀ d, e.Good d → g.layers = nf.map g.content ++ (A t).inputs.map Prod.snd := by
      intro d hd
      unfold Ghost.layers
      rw [hgns hd.stat, List.map_append, map_content hni hl.input]
    have hnew : (nf ++ [b.seq]).map g.content = nf.map g.content ++ [valueEntries items] := by
      rw [List.map_append, List.map_singleton, hbuild.content hrun, hes]
    refine ⟨_, _, hr.commit hm hh hb hrun (nf ++ [b.seq]) h.buf hq ⟨?_, ?_⟩ ?_ ?_ ?_ ?_ ?_, hok _ hns⟩
    · have hnames := hs.names_nodup hall hnd
      rw [hns] at hnames
      exact hnames.of_map
    · intro hstat s hmem
      rw [hgns hstat]
      rcases List.mem_append.mp hmem with hmem | hmem
      · exact Or.inl (by simp [hmem])
      · exact Or.inr (List.mem_singleton.mp hmem)
    · rw [← hns]
      exact look_rename w.dir .manifestTmp .manifest _
    · intro d hd
      rw [hes]
      refine within_merged hmerge ?_
      intro es hes' x hx
      have hmem : es ∈ g.layers := by
        rw [hlayers d hd]
        exact List.mem_append_right _ hes'
      obtain ⟨s, hs', rfl⟩ := List.mem_map.mp hmem
      exact (hs.durable d hd).within s hs' x hx
    · intro d hd
      rw [← hmir.buf]
      refine ⟨(hs.view d hd).within, fun _ hk => hk, ?_⟩
      rw [hnew, hlayers d hd]
      exact answer_merged hmerge (g.buf :: nf.map g.content)
    · intro hd
      rw [hnew, hlayers true hd]
      exact answer_merged hmerge (g.log :: nf.map g.content)
    · intro hd
      have hold := (hs.durable false hd).flushed rfl
      rw [hnew, answer_merged hmerge (nf.map g.content), ← hlayers false hd, ← hold]
      simp [committedSpec, ht]
  · exact ⟨g, A t, by rwa [Function.update_eq_self], herr (faulty_of hr.crew.shared hc hfail)⟩

/-! ## The new run list -/

/-- The run list follows the manifest. -/
theorem does_install {Q : Own → Unit → Prop} {r : SsTable} {obs runs : List SsTable} (hm : a.mode = .live)
    (hh : a.hold = some h) (hb : a.build = some b) (htab : b.table = some r)
    (hsub : ∀ x ∈ runs, x ∈ h.runs ∨ x = r) (hnd : r ∉ h.runs → h.runs.Nodup → runs.Nodup)
    (hobs : ∀ x ∈ obs, x ∈ h.runs) (hleft : r ∉ h.runs → h.runs.Nodup → ∀ x ∈ obs, x ∉ runs)
    (hns : names runs = h.ns.map runFilename) (hsuf : t ≠ compactorTid → h.runs <:+ runs)
    (hswap : t = compactorTid → ∃ fresh ess items, h.runs = fresh ++ obs ∧ runs = fresh ++ [r] ∧
      List.Forall₂ (fun r es => ∃ bs, TableOf r es bs) obs ess ∧ MergeOf Record.live ess items ∧
      ∃ bs, TableOf r (valueEntries items) bs)
    (hq : Q { a with hold := some { h with runs := runs }, build := none, inputs := [] } ()) :
    Does e t (.install obs runs) a Q := by
  refine Does.live hm ?_
  intro g w A hr ha
  subst ha
  have hs := hr.session
  have hl := hr.crew.threads t
  have hmir := hl.mirrors h hh
  have hbuild := hl.building b hb
  obtain ⟨hknown, hrname, hrobs, hnotin⟩ := hbuild.table r htab
  have hlock : w.lock ≠ none := by simp [hl.holder.mpr (by simp [hh])]
  rw [← hmir.runs] at hsub hnd hobs hleft hsuf hswap
  refine ⟨?_, fun c r' w' _ hx => ?_⟩
  · intro ht
    obtain ⟨fresh, ess, items, h1, h2, h3, h4, h5⟩ := hswap ht
    exact ⟨fresh, r, ess, items, h1, h2, h3, h4, h5, by rw [hs.stored.listed_eq, hmir.ns, hns]⟩
  simp only [exec, Option.some.injEq, Prod.mk.injEq] at hx
  obtain ⟨_, rfl⟩ := hx
  have hnd' := hnd hnotin hs.runs_nodup
  have hleft' := hleft hnotin hs.runs_nodup
  have hrunsK : ∀ x ∈ runs, x ∈ w.known := by
    intro x hx
    rcases hsub x hx with hx | rfl
    · exact hs.runs_known x hx
    · exact hknown
  -- an identifier in the new obsolete list belongs to a run that left
  have hids : ∀ x ∈ w.known, x.runId ∈ obs.map SsTable.runId → x ∈ obs := by
    intro x hx hmem
    obtain ⟨y, hy, hid⟩ := List.mem_map.mp hmem
    rw [hs.numbered.unique hx (hs.runs_known y (hobs y hy)) hid.symm]
    exact hy
  refine ⟨g, _, ⟨?_, ?_⟩, hq⟩
  · exact { hs with
      obsolete_lt := fun i hi => by
        rcases List.mem_append.mp hi with hi | hi
        · obtain ⟨y, hy, rfl⟩ := List.mem_map.mp hi
          exact hs.id_lt y (hs.runs_known y (hobs y hy))
        · exact hs.obsolete_lt i hi
      runs_known := hrunsK
      runs_nodup := hnd'
      runs_live := fun x hx hmem => by
        rcases List.mem_append.mp hmem with hmem | hmem
        · exact hleft' x (hids x (hrunsK x hx) hmem) hx
        · rcases hsub x hx with hx | rfl
          · exact hs.runs_live x hx hmem
          · exact hrobs hmem
      named := fun _ hn => absurd hn hlock
      gone := fun hstat x hx hmem s hs' hname => by
        rcases List.mem_append.mp hmem with hmem | hmem
        · have hxo := hids x hx hmem
          have hin : x.name ∈ names runs := by
            rw [hns, ← hmir.ns, hname]
            exact List.mem_map_of_mem hs'
          obtain ⟨y, hy, hyname⟩ := List.mem_map.mp hin
          rw [hs.name_unique (hrunsK y hy) hx hyname] at hy
          exact hleft' x hxo hy
        · exact hs.gone hstat x hx hmem s hs' hname }
  · refine hr.crew.keep ⟨rfl, rfl, rfl, rfl⟩ hm ⟨rfl, rfl⟩ rfl rfl rfl (fun b' hb' => by simp at hb') ?_ ?_
    · refine { hl with
        holder := by simpa [hh] using hl.holder
        mirrors := ?_
        building := fun b' hb' => by simp at hb'
        dead := fun x hx => { hl.dead x hx with
          obsolete := List.mem_append_right _ (hl.dead x hx).obsolete }
        inputs := by simp
        suffix := List.nil_suffix
        input := by simp
        logged := fun ops prior hp => ⟨by simp, (hl.logged ops prior hp).2⟩ }
      intro h' hh'
      simp only [Option.some.injEq] at hh'
      subst hh'
      exact { hmir with runs := rfl }
    · intro t' hne hl'
      have hnone := hr.crew.other_hold (by simp [hh]) hne
      refine { hl' with
        mirrors := fun h' hh' => by simp [hnone] at hh'
        building := fun b' hb' => ?_
        dead := fun x hx => { hl'.dead x hx with
          obsolete := List.mem_append_right _ (hl'.dead x hx).obsolete }
        suffix := ?_ }
      · have hbuild' := hl'.building b' hb'
        have hseq : b.seq ≠ b'.seq := hr.crew.apart t t' b b' (Ne.symm hne) hb hb'
        refine { hbuild' with table := fun x hx => ?_ }
        obtain ⟨h1, h2, h3, h4⟩ := hbuild'.table x hx
        refine ⟨h1, h2, ?_, ?_⟩
        · intro hmem
          rcases List.mem_append.mp hmem with hmem | hmem
          · exact h4 (hobs x (hids x h1 hmem))
          · exact h3 hmem
        · intro hmem
          rcases hsub x hmem with hmem | rfl
          · exact h4 hmem
          · exact hseq (runFilename_injective (hrname.symm.trans h2))
      · by_cases hi : (A t').inputs = []
        · rw [hi]
          exact List.nil_suffix
        · have ht' := hl'.inputs hi
          exact hl'.suffix.trans (hsuf fun ht => hne (by rw [ht', ht]))

/-! ## Storing the manifest -/

theorem safe_storeManifest {Q : Own → Unit → Prop} {E : Own → Error → Prop} {q : ℕ} {ns : List Text}
    (hm : a.mode = .live) (hh : a.hold = some h)
    (hcommit : ∀ {Q' : Own → Except IoError Unit → Prop}, (∀ a', Q a' () → Q' a' (.ok ())) →
      (∀ x, e.Faulty t a → Q' { a with hold := some { h with tmp := x } } (.error .other)) →
      Does e t (.rename MANIFEST_TMP MANIFEST)
        { a with hold := some { h with tmp := some (.text (manifestText q ns)) } } Q')
    (herr : e.Faulty t a → ∀ x err, E { a with hold := some { h with tmp := x } } err) :
    SafeM e t Q E (storeManifest q ns) a := by
  refine SafeM.bind (SafeM.io (Does.safe ?_))
  refine does_create_manifest hm hh ?_ fun hf x => herr hf x _
  refine SafeM.bind (SafeM.io (Does.safe ?_))
  refine does_append_manifest (a := { a with hold := some { h with tmp := some (.text []) } })
    (h := { h with tmp := some (.text []) }) hm rfl rfl ?_ fun hf x => herr hf x _
  refine SafeM.bind (SafeM.io (Does.safe ?_))
  refine does_sync (a := { a with hold := some { h with tmp := some (.text (manifestText q ns)) } }) hm ?_
    fun hf => herr hf _ _
  refine SafeM.io (Does.safe ?_)
  exact hcommit (fun a' hq => hq) fun x hf => herr hf x _

end Commit
end LsmDb
