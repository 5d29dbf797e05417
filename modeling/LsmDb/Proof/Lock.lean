import LsmDb.Proof.Frame
import LsmDb.Proof.Lookups

/-! The write lock and what it protects. -/
namespace LsmDb
open Lib
set_option autoImplicit false

section Lock
variable [Deps] {e : Env} {g g' : Ghost} {w w' : World} {A : Tid → Own} {t : Tid} {a : Own} {h h' : Hold}

/-- What the lock's holder sees, as long as nothing is under way. -/
structure Settled (e : Env) (h : Hold) : Prop where
  buf : h.buf = h.memtable.iter
  within : ∀ d, e.Good d → ∀ x ∈ h.buf, e.Within x
  named : e.statFaults = false → names h.runs = h.ns.map runFilename
  ids : h.runs.Pairwise fun r r' => r.runId ≠ r'.runId
  wal : ∀ d, e.Good d → e.ioFaults = false → h.walOpen = d

theorem Session.numbered (hs : Session e g w) : Numbered w.known w.nextRunId := ⟨hs.id_lt, hs.id_ne⟩

theorem Session.runs_ids (hs : Session e g w) : w.runs.Pairwise fun r r' => r.runId ≠ r'.runId := by
  refine hs.runs_nodup.imp_of_mem ?_
  intro r r' hr hr' hne hid
  exact hne (hs.numbered.unique (hs.runs_known r hr) (hs.runs_known r' hr') hid)

def holdOf (g : Ghost) (w : World) : Hold :=
  ⟨w.memtable, w.runs, w.walOpen, look w.dir .manifestTmp, g.ns, g.buf⟩

theorem Running.lock (hr : Running e g w A) (hm : (A t).mode = .live) (hlock : w.lock = none) :
    Running e g { w with lock := some t } (Function.update A t { A t with hold := some (holdOf g w) }) where
  session := { hr.session with
    buf := fun hn => by simp at hn
    named := fun _ hn => by simp at hn
    wal := fun _ _ _ hn => by simp at hn }
  crew := by
    have hnone : ∀ t', (A t').hold = none := by
      intro t'
      by_contra hne
      have hl := (hr.crew.threads t').holder.mpr hne
      rw [hlock] at hl
      simp at hl
    refine hr.crew.keep ⟨rfl, rfl, rfl, rfl⟩ hm ⟨rfl, rfl⟩ rfl rfl rfl (fun b hb => ⟨b, hb, rfl⟩) ?_ ?_
    · have hl := hr.crew.threads t
      exact { hl with
        holder := by simp
        mirrors := by
          intro h hh
          simp only [Option.some.injEq] at hh
          subst hh
          exact ⟨rfl, rfl, rfl, rfl, rfl, rfl⟩
        building := fun b hb => { hl.building b hb with }
        logged := fun ops prior hp => ⟨by simp, (hl.logged ops prior hp).2⟩ }
    · intro t' ht hl
      exact { hl with
        holder := by simp [hnone t', Ne.symm ht]
        mirrors := fun h hh => by simp [hnone t'] at hh
        building := fun b hb => { hl.building b hb with } }

theorem Crew.lock_free (hc : Crew e g w A) (hh : (A t).hold = none) (ha : ∀ t' ∈ w.active, t' = t) :
    w.lock = none := by
  cases hl : w.lock with
  | none => rfl
  | some t' =>
    have hold := (hc.threads t').holder.mp hl
    have hmode : (A t').mode ≠ .idle := by
      intro hi
      rw [hc.shared.resting t' hi] at hold
      simp [Own.idle] at hold
    have hact : t' ∈ w.active := by
      by_contra hn
      exact hmode (hc.shared.inactive t' hn)
    rw [ha t' hact, hh] at hold
    simp at hold

theorem does_lock {Q : Own → Unit → Prop} (hm : a.mode = .live) (hh : a.hold = none)
    (hq : ∀ h, Settled e h → a.inputs.map Prod.fst <:+ h.runs → Q { a with hold := some h } ()) :
    Does e t .lock a Q := by
  refine Does.live hm ?_
  intro g w A hr ha
  subst ha
  refine ⟨hr.crew.lock_free hh, fun c r w' _ hx => ?_⟩
  simp only [exec] at hx
  split_ifs at hx with hlock
  simp only [Option.some.injEq, Prod.mk.injEq] at hx
  obtain ⟨_, rfl⟩ := hx
  refine ⟨g, _, hr.lock hm hlock, hq (holdOf g w) ⟨hr.session.buf hlock, ?_, ?_, hr.session.runs_ids, ?_⟩ ?_⟩
  · exact fun d hd => (hr.session.view d hd).within
  · exact fun hs => hr.session.named hs hlock
  · exact fun d hd hio => hr.session.wal d hd hio hlock
  · exact (hr.crew.threads t).suffix

/-- What must be in order when the lock is released: a buffer that was dropped is only excused for a
thread that will drop the engine. -/
structure Releasable (e : Env) (a : Own) (h : Hold) : Prop where
  buf : h.buf = h.memtable.iter ∨ h.memtable.iter = [] ∧ (a.opener = true ∨ ∀ d, ¬ e.Good d)
  named : e.statFaults = false → names h.runs = h.ns.map runFilename
  wal : ∀ d, e.Good d → e.ioFaults = false → h.walOpen = d
  phase : ∀ ops prior, a.phase ≠ .logged ops prior

theorem Running.unlock (hr : Running e g w A) (hm : (A t).mode = .live) (hh : (A t).hold = some h)
    (hrel : Releasable e (A t) h) :
    ∃ l lost, (h.buf = h.memtable.iter → l = (A t).lost) ∧
      Running e { g with buf := w.memtable.iter, lost := lost } { w with lock := none }
        (Function.update A t { A t with hold := none, lost := l }) := by
  have hmir := (hr.crew.threads t).mirrors h hh
  have hheld : (A t).hold ≠ none := by simp [hh]
  -- the flag stays, or it is raised by a thread that may
  obtain ⟨l, lost, hkeep, hbuf, hl, hlost⟩ : ∃ l lost, (h.buf = h.memtable.iter → l = (A t).lost) ∧
      (lost = g.lost ∧ g.buf = w.memtable.iter ∨ lost = true ∧ w.memtable.iter = []) ∧
      ((A t).opener = true → lost = l) ∧
      (lost = true → w.opener ≠ none ∨ ∀ d, ¬ e.Good d) := by
    by_cases heq : h.buf = h.memtable.iter
    · refine ⟨(A t).lost, g.lost, fun _ => rfl, Or.inl ⟨rfl, ?_⟩, (hr.crew.threads t).lost, hr.session.lost⟩
      rw [hmir.buf, hmir.memtable, heq]
    · obtain ⟨hnil, hwho⟩ := hrel.buf.resolve_left heq
      refine ⟨true, true, fun hb => absurd hb heq, Or.inr ⟨rfl, by rw [hmir.memtable, hnil]⟩, fun _ => rfl, ?_⟩
      intro _
      rcases hwho with ho | hno
      · left
        rw [(hr.crew.shared.opener t).mp ho]
        simp
      · exact Or.inr hno
  refine ⟨l, lost, hkeep, ?_, ?_⟩
  · refine { hr.session with
      durable := fun d hd => { hr.session.durable d hd with }
      buf := fun _ => rfl
      named := fun hs _ => by
        show names w.runs = g.ns.map runFilename
        rw [hmir.runs, hmir.ns]
        exact hrel.named hs
      lost := hlost
      view := fun d hd => ?_
      wal := fun d hd hio _ => by
        show w.walOpen = d
        rw [hmir.walOpen]
        exact hrel.wal d hd hio }
    have hv := hr.session.view d hd
    rcases hbuf with ⟨rfl, hb⟩ | ⟨rfl, hnil⟩
    · rw [← hb]
      exact hv
    · rw [hnil]
      exact { hv with
        within := by simp
        cur := by simp
        shadow := by simp }
  · refine hr.crew.keep ⟨rfl, rfl, rfl, rfl⟩ hm ⟨rfl, rfl⟩ rfl rfl rfl (fun b hb => ⟨b, hb, rfl⟩) ?_ ?_
    · have hl' := hr.crew.threads t
      exact { hl' with
        holder := by simp
        mirrors := fun h hh => by simp at hh
        building := fun b hb => { hl'.building b hb with }
        logged := fun ops prior hp => absurd hp (hrel.phase ops prior)
        lost := hl }
    · intro t' ht hl'
      have hnone := hr.crew.other_hold hheld ht
      exact { hl' with
        holder := by simp [hnone]
        mirrors := fun h hh => by simp [hnone] at hh
        building := fun b hb => { hl'.building b hb with }
        lost := fun ho => by simp [hr.crew.other_opener hm ht] at ho }

theorem does_unlock {Q : Own → Unit → Prop} (hm : a.mode = .live) (hh : a.hold = some h)
    (hrel : Releasable e a h)
    (hq : ∀ l, (h.buf = h.memtable.iter → l = a.lost) → Q { a with hold := none, lost := l } ()) :
    Does e t .unlock a Q := by
  refine Does.live hm ?_
  intro g w A hr ha
  subst ha
  refine ⟨trivial, fun c r w' _ hx => ?_⟩
  simp only [exec, Option.some.injEq, Prod.mk.injEq] at hx
  obtain ⟨_, rfl⟩ := hx
  obtain ⟨l, lost, hkeep, hr'⟩ := hr.unlock hm hh hrel
  exact ⟨_, _, hr', hq l hkeep⟩

theorem does_inner {Q : Own → MemTable × List SsTable × Bool → Prop} (hm : a.mode = .live)
    (hh : a.hold = some h) (hq : Q a (h.memtable, h.runs, h.walOpen)) : Does e t .inner a Q := by
  refine Does.look hm (fun _ => trivial) ?_
  intro g w A hr ha c r w' _ hx
  subst ha
  have hmir := (hr.crew.threads t).mirrors h hh
  simp only [exec, Option.some.injEq, Prod.mk.injEq] at hx
  obtain ⟨rfl, rfl⟩ := hx
  rw [hmir.memtable, hmir.runs, hmir.walOpen]
  exact ⟨rfl, hq⟩

/-! ## Steps of the holder -/

/-- What the other threads rely on, and the holder may not touch by itself. -/
structure Beside (g g' : Ghost) (w w' : World) : Prop where
  lock : w'.lock = w.lock
  runs : w'.runs = w.runs
  held : w'.held = w.held
  obsolete : w'.obsolete = w.obsolete
  known : w'.known = w.known
  nextSeq : w'.nextSeq = w.nextSeq
  files : ∀ n, n ≠ .manifest → n ≠ .manifestTmp → look w'.dir n = look w.dir n
  content : g'.content = g.content
  ns : g'.ns = g.ns
  lost : g'.lost = g.lost

theorem Building.beside {b : Build} (hb : Building e g w b) (hs : Beside g g' w w') : Building e g' w' b where
  lt := by rw [hs.nextSeq]; exact hb.lt
  tmp := by rw [hs.files _ (by simp) (by simp)]; exact hb.tmp
  run := by rw [hs.files _ (by simp) (by simp)]; exact hb.run
  side := by rw [hs.files _ (by simp) (by simp)]; exact hb.side
  sideTmp := by rw [hs.files _ (by simp) (by simp)]; exact hb.sideTmp
  content := by rw [hs.content]; exact hb.content
  only := by rw [hs.known]; exact hb.only
  table := by rw [hs.known, hs.obsolete, hs.runs]; exact hb.table
  unlisted := by rw [hs.ns]; exact hb.unlisted

theorem Local.beside (hl : Local e g w t a) (hs : Beside g g' w w') (hh : a.hold = none) :
    Local e g' w' t a where
  holder := by rw [hs.lock]; exact hl.holder
  mirrors := fun h h' => by simp [hh] at h'
  building := fun b hb => (hl.building b hb).beside hs
  held := by rw [hs.held]; exact hl.held
  dead := by rw [hs.known, hs.obsolete, hs.held]; exact hl.dead
  inputs := hl.inputs
  suffix := by rw [hs.runs]; exact hl.suffix
  input := by rw [hs.content]; exact hl.input
  logged := fun ops prior hp => absurd hh (hl.logged ops prior hp).1
  lost := by rw [hs.lost]; exact hl.lost

theorem Local.holding (hl : Local e g w t a) (hs : Beside g g' w w') (hh : a.hold = some h)
    (hmir : Mirrors g' w' h') {p : Phase}
    (hp : e.Good true → ∀ ops prior, p = .logged ops prior → ∀ x ∈ ops, find g'.log x.1 ≠ none) :
    Local e g' w' t { a with hold := some h', phase := p } where
  holder := by
    rw [hs.lock]
    simpa [hh] using hl.holder
  mirrors := fun m hm => by
    simp only [Option.some.injEq] at hm
    subst hm
    exact hmir
  building := fun b hb => (hl.building b hb).beside hs
  held := by rw [hs.held]; exact hl.held
  dead := by rw [hs.known, hs.obsolete, hs.held]; exact hl.dead
  inputs := hl.inputs
  suffix := by rw [hs.runs]; exact hl.suffix
  input := by rw [hs.content]; exact hl.input
  logged := fun ops prior hlog => ⟨by simp, fun hg => hp hg ops prior hlog⟩
  lost := by rw [hs.lost]; exact hl.lost

/-- A step of the holder that the others do not see, with a new phase. -/
theorem Crew.holding (hc : Crew e g w A) (hm : (A t).mode = .live) (hh : (A t).hold = some h)
    (hs : Beside g g' w w') (hw : SameTerms w w') (hseen : w'.spec.seen = w.spec.seen)
    (hmir : Mirrors g' w' h') {p : Phase}
    (hp : e.Good true → ∀ ops prior, p = .logged ops prior → ∀ x ∈ ops, find g'.log x.1 ≠ none)
    (htold : ∀ d, e.Good d → e.sequential = true →
      Told e d w'.spec (Function.update (fun t' => (A t').phase) t p)) :
    Crew e g' w' (Function.update A t { A t with hold := some h', phase := p }) := by
  refine hc.step hw hm ⟨rfl, rfl⟩ ?_ ?_ ((hc.threads t).holding hs hh hmir hp) ?_ htold
  · rw [hseen, ← hc.shared.seen, Function.update_eq_self]
  · intro b hb t' b' hne hb'
    exact hc.apart t t' b b' (Ne.symm hne) hb hb'
  · intro t' ht hl
    exact hl.beside hs (hc.other_hold (by simp [hh]) ht)

/-- The same with the phase and the history kept. -/
theorem Crew.holding_keep (hc : Crew e g w A) (hm : (A t).mode = .live) (hh : (A t).hold = some h)
    (hs : Beside g g' w w') (hw : SameTerms w w') (hspec : w'.spec = w.spec) (hlog : g'.log = g.log)
    (hmir : Mirrors g' w' h') : Crew e g' w' (Function.update A t { A t with hold := some h' }) := by
  refine hc.holding (p := (A t).phase) hm hh hs hw (by rw [hspec]) hmir ?_ ?_
  · intro hg ops prior hp
    rw [hlog]
    exact ((hc.threads t).logged ops prior hp).2 hg
  · intro d hd hseq
    rw [hspec, Function.update_eq_self]
    exact hc.told d hd hseq

theorem does_take {Q : Own → List Entry → Prop} (hm : a.mode = .live) (hh : a.hold = some h)
    (hq : Q { a with hold := some { h with memtable := MemTable.new } } h.memtable.iter) :
    Does e t .take a Q := by
  refine Does.live hm ?_
  intro g w A hr ha
  subst ha
  have hmir := (hr.crew.threads t).mirrors h hh
  have hlock : w.lock ≠ none := by simp [(hr.crew.threads t).holder.mpr (by simp [hh])]
  refine ⟨trivial, fun c r w' _ hx => ?_⟩
  simp only [exec, Option.some.injEq, Prod.mk.injEq] at hx
  obtain ⟨rfl, rfl⟩ := hx
  refine ⟨g, _, ⟨?_, ?_⟩, by rw [MemTable.take_fst, hmir.memtable]; exact hq⟩
  · exact { hr.session with buf := fun hn => absurd hn hlock }
  · exact hr.crew.holding_keep hm hh ⟨rfl, rfl, rfl, rfl, rfl, rfl, fun _ _ _ => rfl, rfl, rfl, rfl⟩
      ⟨rfl, rfl, rfl, rfl⟩ rfl rfl { hmir with memtable := rfl }

theorem does_setWal {Q : Own → Unit → Prop} (hm : a.mode = .live) (hh : a.hold = some h) {b : Bool}
    (hq : Q { a with hold := some { h with walOpen := b } } ()) : Does e t (.setWal b) a Q := by
  refine Does.live hm ?_
  intro g w A hr ha
  subst ha
  have hmir := (hr.crew.threads t).mirrors h hh
  have hlock : w.lock ≠ none := by simp [(hr.crew.threads t).holder.mpr (by simp [hh])]
  refine ⟨trivial, fun c r w' _ hx => ?_⟩
  simp only [exec, Option.some.injEq, Prod.mk.injEq] at hx
  obtain ⟨_, rfl⟩ := hx
  refine ⟨g, _, ⟨?_, ?_⟩, hq⟩
  · exact { hr.session with wal := fun _ _ _ hn => absurd hn hlock }
  · exact hr.crew.holding_keep hm hh ⟨rfl, rfl, rfl, rfl, rfl, rfl, fun _ _ _ => rfl, rfl, rfl, rfl⟩
      ⟨rfl, rfl, rfl, rfl⟩ rfl rfl { hmir with walOpen := rfl }

end Lock
end LsmDb
