import LsmDb.Engine.Mailbox
import LsmDb.Lib.Atomic

/-! The compactor's mailbox: no request and no shutdown is slept through, whatever the interleaving, and what the
threads do to it is what the engine's operations on it do. -/
namespace LsmDb
open Lib
set_option autoImplicit false

/-- The points of a round that has begun and not been reported. -/
def Pc.works : Pc → Bool
  | working | lockDone _ | done _ => true
  | _ => false

/-- The points from which somebody is about to be woken. -/
def Pc.notifies : Pc → Bool
  | signalNotify | dropNotify | doneNotify => true
  | _ => false

def Pc.sleeps : Pc → Bool
  | asleep | idleAsleep => true
  | _ => false

namespace Mailbox
variable {m m' : Mailbox} {t : Tid} {p : Pc}

/-! ## The invariant -/

/-- Who may be at a point, and when. -/
def Fits (m : Mailbox) (t : Tid) : Pc → Prop
  | .rest => t = compactorTid → m.spawned = false
  | .lockLoop | .loop | .asleep | .working | .lockDone _ | .done _ | .doneNotify | .doneUnlock =>
    t = compactorTid ∧ m.spawned = true
  | .exited => t = compactorTid ∧ m.spawned = true ∧ m.state.shutdown = true
  | .lockSignal | .signal | .signalNotify | .signalUnlock => t ≠ compactorTid ∧ t ∈ m.callers
  | .lockIdle | .idle | .idleAsleep => t ≠ compactorTid ∧ t ∈ m.callers ∧ m.spawned = true
  | .lockDrop | .drop => t ≠ compactorTid ∧ m.dropped = true
  | .dropNotify | .join | .joined => t ≠ compactorTid ∧ m.dropped = true ∧ m.state.shutdown = true

structure Sound (m : Mailbox) : Prop where
  exclusive : m.monitor.Exclusive
  fits : ∀ t, m.Fits t (m.monitor.pc t)
  dropped : m.dropped = true → m.callers = [] ∧ m.spawned = true
  shutdown : m.state.shutdown = true → m.dropped = true
  joined : ∀ t, m.monitor.pc t = .joined → m.monitor.pc compactorTid = .exited
  -- a compactor that sleeps has nothing to do, or is about to be woken
  asleep : m.monitor.pc compactorTid = .asleep → (m.state.pending = true → ∃ t, m.monitor.pc t = .signalNotify) ∧
    (m.state.shutdown = true → ∃ t, m.monitor.pc t = .dropNotify)
  idle : ∀ t, m.monitor.pc t = .idleAsleep → m.state.pending = true ∨ m.state.running = true ∨
    m.monitor.pc compactorTid = .doneNotify
  running : m.state.running = (m.monitor.pc compactorTid).works
  taken : m.state.pending = false → m.taken = m.asked
  generation : m.state.generation = m.ended % 2 ^ 64

theorem Sound.initial : Mailbox.initial.Sound where
  exclusive t := by simp [Mailbox.initial, Points.holds, Pc.holds]
  fits t := fun _ => rfl
  dropped h := by cases h
  shutdown h := by cases h
  joined t h := by cases h
  asleep h := by cases h
  idle t h := by cases h
  running := rfl
  taken _ := rfl
  generation := rfl

/-- What the others rely on only grows. -/
structure Grows (t : Tid) (m m' : Mailbox) : Prop where
  spawned : m'.spawned = m.spawned ∨ m'.spawned = true ∧ t = compactorTid
  dropped : m.dropped = true → m'.dropped = true
  shutdown : m.state.shutdown = true → m'.state.shutdown = true
  callers : ∀ t', t' ≠ t → t' ∈ m.callers → t' ∈ m'.callers

theorem Fits.grow {t' : Tid} (h : m.Fits t' p) (hg : Grows t m m') (ht : t' ≠ t) : m'.Fits t' p := by
  have hs : m.spawned = true → m'.spawned = true := fun hs => by
    rcases hg.spawned with hsame | ⟨hup, _⟩
    · exact hsame.trans hs
    · exact hup
  cases p with
  | rest =>
    intro hc
    rcases hg.spawned with hsame | ⟨_, htc⟩
    · exact hsame.trans (h hc)
    · exact absurd (hc.trans htc.symm) ht
  | lockLoop | loop | asleep | working | lockDone | done | doneNotify | doneUnlock => exact ⟨h.1, hs h.2⟩
  | exited => exact ⟨h.1, hs h.2.1, hg.shutdown h.2.2⟩
  | lockSignal | signal | signalNotify | signalUnlock => exact ⟨h.1, hg.callers t' ht h.2⟩
  | lockIdle | idle | idleAsleep => exact ⟨h.1, hg.callers t' ht h.2.1, hs h.2.2⟩
  | lockDrop | drop => exact ⟨h.1, hg.dropped h.2⟩
  | dropNotify | join | joined => exact ⟨h.1, hg.dropped h.2.1, hg.shutdown h.2.2⟩

theorem Fits.wake (h : m.Fits t p) : m.Fits t p.wake := by
  cases p <;> exact h

/-- The points of the compactor's own code. -/
theorem Sound.compactor (h : m.Sound) (hp : (m.monitor.pc t).works = true ∨ m.monitor.pc t = .asleep ∨
    m.monitor.pc t = .doneNotify ∨ m.monitor.pc t = .exited) : t = compactorTid := by
  have hfit := h.fits t
  generalize m.monitor.pc t = p at hp hfit
  cases p with
  | working | lockDone | done | asleep | doneNotify | exited => exact hfit.1
  | _ => simp [Pc.works] at hp

/-! ## Steps -/

/-- One thread goes on; what concerns sleepers is left to show. -/
theorem Sound.move (h : m.Sound) (hq : m'.monitor.Exclusive) (hpc : m'.monitor.pc = Function.update m.monitor.pc t p)
    (hg : Grows t m m') (hfit : m'.Fits t p) (hdropped : m'.dropped = true → m'.callers = [] ∧ m'.spawned = true)
    (hshutdown : m'.state.shutdown = true → m'.dropped = true) (hexited : m.monitor.pc t ≠ .exited)
    (hjoined : p = .joined → m.monitor.pc compactorTid = .exited)
    (hasleep : m'.monitor.pc compactorTid = .asleep →
      (m'.state.pending = true → ∃ t, m'.monitor.pc t = .signalNotify) ∧
        (m'.state.shutdown = true → ∃ t, m'.monitor.pc t = .dropNotify))
    (hidle : ∀ t, m'.monitor.pc t = .idleAsleep → m'.state.pending = true ∨ m'.state.running = true ∨
      m'.monitor.pc compactorTid = .doneNotify)
    (hrunning : m'.state.running = (m'.monitor.pc compactorTid).works)
    (htaken : m'.state.pending = false → m'.taken = m'.asked)
    (hgen : m'.state.generation = m'.ended % 2 ^ 64) : m'.Sound := by
  have hstays : m.monitor.pc compactorTid = .exited → m'.monitor.pc compactorTid = .exited := fun hx => by
    have ht : compactorTid ≠ t := by
      rintro rfl
      exact hexited hx
    rw [hpc, Function.update_of_ne ht]
    exact hx
  refine ⟨hq, fun t' => ?_, hdropped, hshutdown, fun t' hj => hstays ?_, hasleep, hidle, hrunning, htaken, hgen⟩
  · rw [hpc]
    by_cases ht : t' = t
    · subst ht
      rw [Function.update_self]
      exact hfit
    · rw [Function.update_of_ne ht]
      exact (h.fits t').grow hg ht
  · rw [hpc] at hj
    by_cases ht : t' = t
    · subst ht
      rw [Function.update_self] at hj
      exact hjoined hj
    · rw [Function.update_of_ne ht] at hj
      exact h.joined t' hj

/-- A step that changes no flag, falls asleep nowhere, and leaves no sleeper to wake. -/
theorem Sound.plain (h : m.Sound) (hq : m'.monitor.Exclusive) (hpc : m'.monitor.pc = Function.update m.monitor.pc t p)
    (hg : Grows t m m') (hfit : m'.Fits t p) (hdropped : m'.dropped = true → m'.callers = [] ∧ m'.spawned = true)
    (hsame : m'.state = m.state ∧ m'.taken = m.taken ∧ m'.asked = m.asked ∧ m'.ended = m.ended)
    (hexited : m.monitor.pc t ≠ .exited) (hp : p.sleeps = false ∧ p ≠ .joined)
    (hnotify : (m.monitor.pc t).notifies = true → ∀ t', (m.monitor.pc t').sleeps = false)
    (hworks : t = compactorTid → p.works = (m.monitor.pc t).works) : m'.Sound := by
  obtain ⟨hstate, htaken, hasked, hended⟩ := hsame
  have hold : ∀ {t' p'}, p' ≠ p → m'.monitor.pc t' = p' → m.monitor.pc t' = p' ∧ t' ≠ t := by
    intro t' p' hne hx
    rw [hpc] at hx
    have ht : t' ≠ t := by
      rintro rfl
      rw [Function.update_self] at hx
      exact hne hx.symm
    rw [Function.update_of_ne ht] at hx
    exact ⟨hx, ht⟩
  -- a notifier that has not moved is still there
  have hkeep : ∀ t₀ {t' p'}, (m.monitor.pc t₀).sleeps = true → p'.notifies = true → m.monitor.pc t' = p' →
      m'.monitor.pc t' = p' := by
    intro t₀ t' p' hsleeps hnot hx
    have ht : t' ≠ t := by
      rintro rfl
      have hnone := hnotify (by rw [hx]; exact hnot) t₀
      rw [hsleeps] at hnone
      cases hnone
    rw [hpc, Function.update_of_ne ht]
    exact hx
  refine h.move hq hpc hg hfit hdropped ?_ hexited (fun hj => absurd hj hp.2) ?_ ?_ ?_ ?_ ?_
  · rw [hstate]
    exact fun hs => hg.dropped (h.shutdown hs)
  · intro hx
    obtain ⟨hbefore, _⟩ := hold (by rintro rfl; cases hp.1) hx
    obtain ⟨hpend, hshut⟩ := h.asleep hbefore
    rw [hstate]
    refine ⟨fun hs => ?_, fun hs => ?_⟩
    · obtain ⟨t', ht'⟩ := hpend hs
      exact ⟨t', hkeep compactorTid (by rw [hbefore]; rfl) rfl ht'⟩
    · obtain ⟨t', ht'⟩ := hshut hs
      exact ⟨t', hkeep compactorTid (by rw [hbefore]; rfl) rfl ht'⟩
  · intro t' hx
    obtain ⟨hbefore, _⟩ := hold (by rintro rfl; cases hp.1) hx
    rw [hstate]
    rcases h.idle t' hbefore with hs | hs | hs
    · exact Or.inl hs
    · exact Or.inr (Or.inl hs)
    · exact Or.inr (Or.inr (hkeep t' (by rw [hbefore]; rfl) rfl hs))
  · rw [hstate, hpc, h.running]
    by_cases ht : compactorTid = t
    · subst ht
      rw [Function.update_self, hworks rfl]
    · rw [Function.update_of_ne ht]
  · rw [hstate, htaken, hasked]
    exact h.taken
  · rw [hstate, hended]
    exact h.generation

theorem wake_eq {p q : Pc} (h : p.wake = q) (hq : q ≠ .lockLoop) (hq' : q ≠ .lockIdle) : p = q := by
  cases p with
  | asleep => exact absurd h.symm hq
  | idleAsleep => exact absurd h.symm hq'
  | _ => exact h

/-- Waking everybody loses nothing. -/
theorem Sound.notifyAll (h : m.Sound) : Sound { m with monitor := m.monitor.notifyAll } := by
  have hsame : ∀ {t q}, m.monitor.notifyAll.pc t = q → q ≠ .lockLoop → q ≠ .lockIdle → m.monitor.pc t = q :=
    fun hx hq hq' => wake_eq hx hq hq'
  refine ⟨h.exclusive.notifyAll, fun t => (h.fits t).wake, h.dropped, h.shutdown, fun t hj => ?_, fun hx => ?_,
    fun t hx => ?_, ?_, h.taken, h.generation⟩
  · have hexited := h.joined t (hsame hj (by simp) (by simp))
    show (m.monitor.pc compactorTid).wake = .exited
    rw [hexited]
    rfl
  · have hasleep := hsame hx (by simp) (by simp)
    simp [Monitor.notifyAll_pc, Points.wake, hasleep, Pc.wake] at hx
  · have hasleep := hsame hx (by simp) (by simp)
    simp [Monitor.notifyAll_pc, Points.wake, hasleep, Pc.wake] at hx
  · show m.state.running = (m.monitor.pc compactorTid).wake.works
    rw [h.running]
    cases m.monitor.pc compactorTid <;> rfl

theorem notifyAll_sleeps (m : Mailbox) (t : Tid) : (m.monitor.notifyAll.pc t).sleeps = false := by
  show (m.monitor.pc t).wake.sleeps = false
  cases m.monitor.pc t <;> rfl

theorem Grows.refl (t : Tid) (m : Mailbox) (q : Monitor Pc) : Grows t m { m with monitor := q } :=
  ⟨Or.inl rfl, id, id, fun _ _ => id⟩

/-- A thread takes the mutex. -/
theorem Sound.acquire {q : Monitor Pc} (h : m.Sound) (ha : m.monitor.acquire t p = some q) (hp : p.holds = true)
    (hfit : m.Fits t p) (hpc : (m.monitor.pc t).sleeps = false ∧ (m.monitor.pc t).notifies = false)
    (hexited : m.monitor.pc t ≠ .exited) (hworks : p.works = (m.monitor.pc t).works) :
    Sound { m with monitor := q } := by
  obtain ⟨_, rfl⟩ := Monitor.acquire_eq ha
  have hp' : p.sleeps = false ∧ p ≠ .joined := by cases p <;> simp [Pc.holds, Pc.sleeps] at hp ⊢
  refine h.plain (h.exclusive.acquire ha hp) rfl (Grows.refl t m _) hfit h.dropped ⟨rfl, rfl, rfl, rfl⟩ hexited hp' ?_
    fun _ => hworks
  rw [hpc.2]
  simp

/-- A thread gives the mutex back, or goes on without it. -/
theorem Sound.leave {q : Monitor Pc} {callers : List Tid} (h : m.Sound) (hq : q.Exclusive)
    (hqpc : q.pc = Function.update m.monitor.pc t p) (hcallers : callers = m.callers ∨ callers = m.callers.erase t)
    (hfit : Fits { m with monitor := q, callers := callers } t p)
    (hexited : m.monitor.pc t ≠ .exited) (hp : p.sleeps = false ∧ p ≠ .joined)
    (hnotify : (m.monitor.pc t).notifies = true → ∀ t', (m.monitor.pc t').sleeps = false)
    (hworks : t = compactorTid → p.works = (m.monitor.pc t).works) :
    Sound { m with monitor := q, callers := callers } := by
  refine h.plain hq hqpc ⟨Or.inl rfl, id, id, fun t' ht hin => ?_⟩ hfit (fun hd => ?_) ⟨rfl, rfl, rfl, rfl⟩ hexited hp
    hnotify hworks
  · rcases hcallers with rfl | rfl
    · exact hin
    · exact (List.mem_erase_of_ne ht).mpr hin
  · obtain ⟨hnil, hs⟩ := h.dropped hd
    rcases hcallers with rfl | rfl
    · exact ⟨hnil, hs⟩
    · exact ⟨by simp [hnil], hs⟩

/-- The steps of `compactor_loop` after its test. -/
theorem Sound.loop (h : m.Sound) (hp : m.monitor.pc t = .loop) (hs : m.go t = some m') : m'.Sound := by
  have hfit := h.fits t
  rw [hp] at hfit
  obtain ⟨rfl, hspawned⟩ := hfit
  have hholds : (m.monitor.pc compactorTid).holds = true := by rw [hp]; rfl
  have hrest : m.state.running = false := by rw [h.running, hp]; rfl
  simp only [go, hp] at hs
  split_ifs at hs with hidle hdown
  · -- nothing to do
    obtain rfl := Option.some.inj hs
    simp only [Bool.and_eq_true, Bool.not_eq_true'] at hidle
    refine h.move (t := compactorTid) (p := .asleep) (h.exclusive.release hholds rfl) rfl (Grows.refl _ m _)
      ⟨rfl, hspawned⟩ h.dropped h.shutdown (by rw [hp]; simp) (by simp) (fun _ => ?_) (fun t' hx => ?_) ?_ h.taken
      h.generation
    · exact ⟨fun hpend => absurd (hidle.1.symm.trans hpend) (by simp),
        fun hshut => absurd (hidle.2.symm.trans hshut) (by simp)⟩
    · have ht : t' ≠ compactorTid := by
        rintro rfl
        simp at hx
      rw [Monitor.release_pc, Function.update_of_ne ht] at hx
      rcases h.idle t' hx with hpend | hrun | hnot
      · exact Or.inl hpend
      · exact Or.inr (Or.inl hrun)
      · rw [hp] at hnot
        cases hnot
    · simpa [Pc.works] using hrest
  · -- the handle is gone
    obtain rfl := Option.some.inj hs
    refine h.plain (t := compactorTid) (p := .exited) (h.exclusive.release hholds rfl) rfl (Grows.refl _ m _)
      ⟨rfl, hspawned, hdown⟩ h.dropped ⟨rfl, rfl, rfl, rfl⟩ (by rw [hp]; simp) ⟨rfl, by simp⟩ (by simp [hp, Pc.notifies])
      fun _ => by rw [hp]; rfl
  · -- a round begins
    obtain rfl := Option.some.inj hs
    refine h.move (t := compactorTid) (p := .working) (h.exclusive.release hholds rfl) rfl
      ⟨Or.inl rfl, id, id, fun _ _ => id⟩ ⟨rfl, hspawned⟩ h.dropped h.shutdown (by rw [hp]; simp) (by simp) (by simp)
      (fun _ _ => Or.inr (Or.inl rfl)) ?_ (fun _ => rfl) h.generation
    simp [Pc.works]

/-- The round is reported. -/
theorem Sound.done {result : Except Error Unit} (h : m.Sound) (hp : m.monitor.pc t = .done result)
    (hs : m.go t = some m') : m'.Sound := by
  have hfit := h.fits t
  rw [hp] at hfit
  obtain ⟨rfl, hspawned⟩ := hfit
  simp only [go, hp] at hs
  obtain rfl := Option.some.inj hs
  refine h.move (t := compactorTid) (p := .doneNotify) (h.exclusive.move ?_) rfl ⟨Or.inl rfl, id, id, fun _ _ => id⟩
    ⟨rfl, hspawned⟩ h.dropped h.shutdown (by rw [hp]; simp) (by simp) (by simp) (fun _ _ => Or.inr (Or.inr ?_)) ?_
    h.taken ?_
  · show Pc.holds _ = (m.monitor.pc compactorTid).holds
    rw [hp]
    rfl
  · simp
  · simp [Pc.works]
  · show (m.state.generation + 1) % 2 ^ 64 = (m.ended + 1) % 2 ^ 64
    rw [h.generation, Nat.mod_add_mod]

/-- A client asks for a compaction. -/
theorem Sound.signal (h : m.Sound) (hp : m.monitor.pc t = .signal) (hs : m.go t = some m') : m'.Sound := by
  have hfit := h.fits t
  rw [hp] at hfit
  obtain ⟨ht, hin⟩ := hfit
  simp only [go, hp] at hs
  obtain rfl := Option.some.inj hs
  refine h.move (t := t) (p := .signalNotify) (h.exclusive.move ?_) rfl ⟨Or.inl rfl, id, id, fun _ _ => id⟩ ⟨ht, hin⟩
    h.dropped h.shutdown (by rw [hp]; simp) (by simp) (fun hx => ⟨fun _ => ⟨t, by simp⟩, fun hshut => ?_⟩)
    (fun _ _ => Or.inl rfl) ?_ (fun hpend => by cases hpend) h.generation
  · show Pc.holds _ = (m.monitor.pc t).holds
    rw [hp]
    rfl
  · rw [Monitor.move_pc, Function.update_of_ne (Ne.symm ht)] at hx
    obtain ⟨t', ht'⟩ := (h.asleep hx).2 hshut
    have hne : t' ≠ t := by
      rintro rfl
      rw [hp] at ht'
      cases ht'
    exact ⟨t', by rw [Monitor.move_pc, Function.update_of_ne hne]; exact ht'⟩
  · rw [Monitor.move_pc, Function.update_of_ne (Ne.symm ht)]
    exact h.running

/-- A client tests whether the compactor is idle. -/
theorem Sound.idles (h : m.Sound) (hp : m.monitor.pc t = .idle) (hs : m.go t = some m') : m'.Sound := by
  have hfit := h.fits t
  rw [hp] at hfit
  obtain ⟨ht, hin, hspawned⟩ := hfit
  have hholds : (m.monitor.pc t).holds = true := by rw [hp]; rfl
  simp only [go, hp] at hs
  split_ifs at hs with hbusy
  · obtain rfl := Option.some.inj hs
    simp only [Bool.or_eq_true] at hbusy
    refine h.move (t := t) (p := .idleAsleep) (h.exclusive.release hholds rfl) rfl (Grows.refl _ m _)
      ⟨ht, hin, hspawned⟩ h.dropped h.shutdown (by rw [hp]; simp) (by simp) (fun hx => ?_) (fun _ _ => ?_) ?_ h.taken
      h.generation
    · rw [Monitor.release_pc, Function.update_of_ne (Ne.symm ht)] at hx
      obtain ⟨hpend, hshut⟩ := h.asleep hx
      have hstay : ∀ {t' p'}, p' ≠ .idle → m.monitor.pc t' = p' → (m.monitor.release t .idleAsleep).pc t' = p' := by
        intro t' p' hne hx
        rw [Monitor.release_pc, Function.update_of_ne]
        · exact hx
        · rintro rfl
          exact hne (hx.symm.trans hp)
      exact ⟨fun hs => (hpend hs).imp fun _ => hstay (by simp), fun hs => (hshut hs).imp fun _ => hstay (by simp)⟩
    · rcases hbusy with hs | hs
      · exact Or.inl hs
      · exact Or.inr (Or.inl hs)
    · rw [Monitor.release_pc, Function.update_of_ne (Ne.symm ht)]
      exact h.running
  · obtain rfl := Option.some.inj hs
    exact h.leave (h.exclusive.release hholds rfl) rfl (Or.inr rfl) (fun hc => absurd hc ht) (by rw [hp]; simp)
      ⟨rfl, by simp⟩ (by simp [hp, Pc.notifies]) fun hc => absurd hc ht

/-- The handle is dropped. -/
theorem Sound.drop (h : m.Sound) (hp : m.monitor.pc t = .drop) (hs : m.go t = some m') : m'.Sound := by
  have hfit := h.fits t
  rw [hp] at hfit
  obtain ⟨ht, hdropped⟩ := hfit
  have hholds : (m.monitor.pc t).holds = true := by rw [hp]; rfl
  simp only [go, hp] at hs
  obtain rfl := Option.some.inj hs
  refine h.move (t := t) (p := .dropNotify) (h.exclusive.release hholds rfl) rfl
    ⟨Or.inl rfl, id, fun _ => rfl, fun _ _ => id⟩ ⟨ht, hdropped, rfl⟩ h.dropped (fun _ => hdropped) (by rw [hp]; simp)
    (by simp) (fun hx => ⟨fun hpend => ?_, fun _ => ⟨t, by simp⟩⟩) (fun t' hx => ?_) ?_ h.taken h.generation
  · rw [Monitor.release_pc, Function.update_of_ne (Ne.symm ht)] at hx
    obtain ⟨t', ht'⟩ := (h.asleep hx).1 hpend
    have hne : t' ≠ t := by
      rintro rfl
      rw [hp] at ht'
      cases ht'
    exact ⟨t', by rw [Monitor.release_pc, Function.update_of_ne hne]; exact ht'⟩
  · have hne : t' ≠ t := by
      rintro rfl
      simp at hx
    rw [Monitor.release_pc, Function.update_of_ne hne] at hx
    rw [Monitor.release_pc, Function.update_of_ne (Ne.symm ht)]
    exact h.idle t' hx
  · rw [Monitor.release_pc, Function.update_of_ne (Ne.symm ht)]
    exact h.running

theorem Sound.join (h : m.Sound) (hp : m.monitor.pc t = .join) (hs : m.go t = some m') : m'.Sound := by
  have hfit := h.fits t
  rw [hp] at hfit
  have ht := hfit.1
  simp only [go, hp] at hs
  split_ifs at hs with hexited
  obtain rfl := Option.some.inj hs
  refine h.move (t := t) (p := .joined) (h.exclusive.move ?_) rfl (Grows.refl _ m _) hfit h.dropped h.shutdown
    (by rw [hp]; simp) (fun _ => hexited) (fun hx => ?_) (fun t' hx => ?_) ?_ h.taken h.generation
  · show Pc.holds _ = (m.monitor.pc t).holds
    rw [hp]
    rfl
  · rw [Monitor.move_pc, Function.update_of_ne (Ne.symm ht), hexited] at hx
    cases hx
  · have hne : t' ≠ t := by
      rintro rfl
      simp at hx
    rw [Monitor.move_pc, Function.update_of_ne hne] at hx
    rw [Monitor.move_pc, Function.update_of_ne (Ne.symm ht)]
    exact h.idle t' hx
  · rw [Monitor.move_pc, Function.update_of_ne (Ne.symm ht)]
    exact h.running

/-- Everybody is woken, and the thread goes on. -/
theorem Sound.notified (h : m.Sound) (hp : (m.monitor.pc t).notifies = true) (hnew : p.holds = (m.monitor.pc t).holds)
    (hfit : m.Fits t p) (hsleeps : p.sleeps = false ∧ p ≠ .joined) (hworks : p.works = (m.monitor.pc t).works) :
    Sound { m with monitor := m.monitor.notifyAll.move t p } := by
  have hw : m.monitor.notifyAll.pc t = m.monitor.pc t := by
    show (m.monitor.pc t).wake = _
    cases hpc : m.monitor.pc t <;> first | rfl | (rw [hpc] at hp; cases hp)
  refine h.notifyAll.leave (t := t) (p := p) (h.exclusive.notifyAll.move ?_) rfl (Or.inl rfl) hfit ?_ hsleeps
    (fun _ => notifyAll_sleeps m) fun _ => ?_
  · rw [hw]
    exact hnew
  · rw [hw]
    intro hx
    rw [hx] at hp
    cases hp
  · rw [hw]
    exact hworks

theorem Sound.go (h : m.Sound) (hs : m.go t = some m') : m'.Sound := by
  have hfit := h.fits t
  have hlock : ∀ p, (m.monitor.acquire t p).map (fun q => { m with monitor := q }) = some m' → p.holds = true →
      m.Fits t p → ((m.monitor.pc t).sleeps = false ∧ (m.monitor.pc t).notifies = false) → m.monitor.pc t ≠ .exited →
      p.works = (m.monitor.pc t).works → m'.Sound := by
    intro p ha hp hfit hpc hexited hworks
    obtain ⟨q, hq, rfl⟩ := Option.map_eq_some_iff.mp ha
    exact h.acquire hq hp hfit hpc hexited hworks
  cases hp : m.monitor.pc t with
  | rest | asleep | working | exited | idleAsleep | joined => simp [Mailbox.go, hp] at hs
  | loop => exact h.loop hp hs
  | done result => exact h.done hp hs
  | signal => exact h.signal hp hs
  | idle => exact h.idles hp hs
  | drop => exact h.drop hp hs
  | join => exact h.join hp hs
  | lockLoop | lockDone | lockSignal | lockIdle | lockDrop =>
    simp only [Mailbox.go, hp] at hs
    rw [hp] at hfit
    exact hlock _ hs rfl hfit (by rw [hp]; exact ⟨rfl, rfl⟩) (by rw [hp]; simp) (by rw [hp]; rfl)
  | doneNotify | signalNotify | dropNotify =>
    simp only [Mailbox.go, hp] at hs
    obtain rfl := Option.some.inj hs
    rw [hp] at hfit
    exact h.notified (by rw [hp]; rfl) (by rw [hp]; rfl) hfit ⟨rfl, by simp⟩ (by rw [hp]; rfl)
  | doneUnlock | signalUnlock =>
    have hholds : (m.monitor.pc t).holds = true := by rw [hp]; rfl
    simp only [Mailbox.go, hp] at hs
    obtain rfl := Option.some.inj hs
    rw [hp] at hfit
    refine h.leave (h.exclusive.release hholds rfl) rfl ?_ ?_ (by rw [hp]; simp) ⟨rfl, by simp⟩ (by simp [hp, Pc.notifies])
      fun _ => by rw [hp]; rfl
    · first | exact Or.inl rfl | exact Or.inr rfl
    · first | exact hfit | exact fun hc => absurd hc hfit.1

/-- A client takes the handle up. -/
theorem Sound.start {callers : List Tid} {dropped : Bool} (h : m.Sound) (ht : t ≠ compactorTid)
    (hp : m.monitor.pc t = .rest) (hnew : p.holds = false ∧ p.works = false ∧ p.sleeps = false ∧ p ≠ .joined)
    (hcallers : ∀ t', t' ∈ m.callers → t' ∈ callers) (hdropped : m.dropped = true → dropped = true)
    (hfit : Fits { m with monitor := m.monitor.move t p, callers := callers, dropped := dropped } t p)
    (hall : dropped = true → callers = [] ∧ m.spawned = true) :
    Sound { m with monitor := m.monitor.move t p, callers := callers, dropped := dropped } := by
  refine h.plain (t := t) (p := p) (h.exclusive.move ?_) rfl ⟨Or.inl rfl, hdropped, id, fun t' _ => hcallers t'⟩ hfit hall
    ⟨rfl, rfl, rfl, rfl⟩ (by rw [hp]; simp) hnew.2.2 (by simp [hp, Pc.notifies]) fun hc => absurd hc ht
  show p.holds = (m.monitor.pc t).holds
  rw [hp, hnew.1]
  rfl

theorem Sound.step {l : Move} (h : m.Sound) (hs : m.step l = some m') : m'.Sound := by
  cases l with
  | spawn =>
    simp only [Mailbox.step] at hs
    split_ifs at hs with hsp
    obtain rfl := Option.some.inj hs
    have hrest : m.monitor.pc compactorTid = .rest := by
      have hfit := h.fits compactorTid
      generalize m.monitor.pc compactorTid = p at hfit
      cases p with
      | rest => rfl
      | exited => exact absurd hfit.2.1 hsp
      | lockLoop | loop | asleep | working | lockDone | done | doneNotify | doneUnlock => exact absurd hfit.2 hsp
      | _ => exact absurd rfl hfit.1
    refine h.plain (t := compactorTid) (p := .lockLoop) (h.exclusive.move ?_) rfl
      ⟨Or.inr ⟨rfl, rfl⟩, id, id, fun _ _ => id⟩ ⟨rfl, rfl⟩ (fun hd => ⟨(h.dropped hd).1, rfl⟩) ⟨rfl, rfl, rfl, rfl⟩
      (by rw [hrest]; simp) ⟨rfl, by simp⟩ (by simp [hrest, Pc.notifies]) fun _ => by rw [hrest]; rfl
    show Pc.holds _ = (m.monitor.pc compactorTid).holds
    rw [hrest]
    rfl
  | start t errand =>
    have hok : ¬ (t = compactorTid ∨ m.monitor.pc t ≠ .rest ∨ m.dropped = true) := fun hbad => by
      simp only [Mailbox.step, if_pos hbad] at hs
      cases hs
    simp only [Mailbox.step, if_neg hok] at hs
    simp only [not_or, not_not] at hok
    obtain ⟨ht, hp, hlive⟩ := hok
    cases errand with
    | signalCompaction =>
      obtain rfl := Option.some.inj hs
      exact h.start ht hp ⟨rfl, rfl, rfl, by simp⟩ (fun _ => List.mem_cons_of_mem _) id ⟨ht, List.mem_cons_self ..⟩
        fun hd => absurd hd hlive
    | waitForIdle =>
      dsimp only at hs
      split_ifs at hs with hsp
      obtain rfl := Option.some.inj hs
      exact h.start ht hp ⟨rfl, rfl, rfl, by simp⟩ (fun _ => List.mem_cons_of_mem _) id
        ⟨ht, List.mem_cons_self .., hsp⟩ fun hd => absurd hd hlive
    | drop =>
      dsimp only at hs
      split_ifs at hs with hsp
      obtain rfl := Option.some.inj hs
      simp only [Bool.and_eq_true, List.isEmpty_iff] at hsp
      exact h.start ht hp ⟨rfl, rfl, rfl, by simp⟩ (fun _ => id) (fun _ => rfl) ⟨ht, rfl⟩ fun _ => ⟨hsp.2, hsp.1⟩
  | go t => exact h.go hs
  | wake t =>
    simp only [Mailbox.step] at hs
    have hfit := (h.fits t).wake
    split at hs <;> try (simp at hs; done)
    all_goals
      rename_i hp
      obtain rfl := Option.some.inj hs
      rw [hp] at hfit
      refine h.leave (t := t) (h.exclusive.move ?_) rfl (Or.inl rfl) ?_ (by rw [hp]; simp) ?_ (by simp [hp, Pc.notifies]) ?_
      · show (m.monitor.pc t).wake.holds = _
        rw [Pc.holds_wake]
        rfl
      · rw [hp]
        exact hfit
      · rw [hp]
        exact ⟨rfl, by simp [Pc.wake]⟩
      · rw [hp]
        exact fun _ => rfl
  | compacted result =>
    simp only [Mailbox.step] at hs
    split_ifs at hs with hp
    obtain rfl := Option.some.inj hs
    have hfit := h.fits compactorTid
    rw [hp] at hfit
    refine h.leave (t := compactorTid) (p := .lockDone result) (h.exclusive.move ?_) rfl (Or.inl rfl) hfit (by rw [hp]; simp)
      ⟨rfl, by simp⟩ (by simp [hp, Pc.notifies]) fun _ => by rw [hp]; rfl
    show Pc.holds _ = (m.monitor.pc compactorTid).holds
    rw [hp]
    rfl

theorem Reach.sound (h : Reach m) : m.Sound := by
  induction h with
  | initial => exact Sound.initial
  | step _ hs ih => exact ih.step hs

/-! ## Nothing is slept through -/

/-- A thread that has the mutex can go on. -/
theorem go_of_holds (h : (m.monitor.pc t).holds = true) : m.go t ≠ none := by
  intro hs
  cases hp : m.monitor.pc t with
  | loop | idle =>
    simp only [Mailbox.go, hp] at hs
    split_ifs at hs
  | done | doneNotify | doneUnlock | signal | signalNotify | signalUnlock | drop => simp [Mailbox.go, hp] at hs
  | _ =>
    rw [hp] at h
    cases h

/-- Nobody can go on: no thread has a step of its own, and no compaction is under way. -/
structure Still (m : Mailbox) : Prop where
  threads : ∀ t, m.go t = none
  work : m.monitor.pc compactorTid ≠ .working

/-- Where a thread may be that cannot go on. -/
theorem Still.point (h : m.Still) (hs : m.Sound) (t : Tid) : m.monitor.mutex = none ∧ (m.monitor.pc t = .rest ∨
    m.monitor.pc t = .asleep ∨ m.monitor.pc t = .exited ∨ m.monitor.pc t = .idleAsleep ∨ m.monitor.pc t = .joined ∨
    m.monitor.pc t = .join ∧ m.monitor.pc compactorTid ≠ .exited) := by
  have hfree : m.monitor.mutex = none := by
    by_contra hbusy
    obtain ⟨t', ht'⟩ := Option.ne_none_iff_exists'.mp hbusy
    exact go_of_holds ((hs.exclusive t').mp ht') (h.threads t')
  refine ⟨hfree, ?_⟩
  have hgo := h.threads t
  have hwork := h.work
  cases hp : m.monitor.pc t with
  | rest | asleep | exited | idleAsleep | joined => simp
  | working =>
    obtain rfl := hs.compactor (t := t) (by rw [hp]; exact Or.inl rfl)
    exact absurd hp hwork
  | join =>
    simp only [Mailbox.go, hp] at hgo
    split_ifs at hgo with hexited
    simp [hexited]
  | lockLoop | lockDone | lockSignal | lockIdle | lockDrop => simp [Mailbox.go, hp, Monitor.acquire, hfree] at hgo
  | dropNotify => simp [Mailbox.go, hp] at hgo
  | _ => exact absurd hgo (go_of_holds (by rw [hp]; rfl))

/-- Whatever the interleaving and the spurious wakeups: when nobody can go on, every client has returned from the
mailbox, and the compactor is not there yet, has left because the handle was dropped, or sleeps with no request and no
shutdown outstanding. -/
theorem nothing_slept_through (h : Reach m) (hstill : m.Still) :
    m.monitor.mutex = none ∧ (∀ t, t ≠ compactorTid → m.monitor.pc t = .rest ∨ m.monitor.pc t = .joined) ∧
      (m.spawned = false ∨ (m.monitor.pc compactorTid = .exited ∧ m.state.shutdown = true) ∨
        (m.monitor.pc compactorTid = .asleep ∧ m.state.pending = false ∧ m.state.shutdown = false ∧ m.taken = m.asked)) := by
  have hs := h.sound
  have hpoint := hstill.point hs
  -- nobody is about to wake the compactor
  have hasleep : m.monitor.pc compactorTid = .asleep → m.state.pending = false ∧ m.state.shutdown = false := by
    intro hx
    obtain ⟨hpend, hshut⟩ := hs.asleep hx
    constructor
    · by_contra hp
      obtain ⟨t, ht⟩ := hpend (by simpa using hp)
      have hat := (hpoint t).2
      simp [ht] at hat
    · by_contra hp
      obtain ⟨t, ht⟩ := hshut (by simpa using hp)
      have hat := (hpoint t).2
      simp [ht] at hat
  have hcompactor : m.monitor.pc compactorTid = .rest ∧ m.spawned = false ∨
      (m.monitor.pc compactorTid = .exited ∧ m.state.shutdown = true) ∨ m.monitor.pc compactorTid = .asleep := by
    have hfit := hs.fits compactorTid
    rcases (hpoint compactorTid).2 with hx | hx | hx | hx | hx | hx
    · rw [hx] at hfit
      exact Or.inl ⟨hx, hfit rfl⟩
    · exact Or.inr (Or.inr hx)
    · rw [hx] at hfit
      exact Or.inr (Or.inl ⟨hx, hfit.2.2⟩)
    · rw [hx] at hfit
      exact absurd rfl hfit.1
    · rw [hx] at hfit
      exact absurd rfl hfit.1
    · rw [hx.1] at hfit
      exact absurd rfl hfit.1
  refine ⟨(hpoint compactorTid).1, fun t ht => ?_, ?_⟩
  · have hfit := hs.fits t
    rcases (hpoint t).2 with hx | hx | hx | hx | hx | ⟨hx, hnot⟩
    · exact Or.inl hx
    · exact absurd (hs.compactor (Or.inr (Or.inl hx))) ht
    · exact absurd (hs.compactor (Or.inr (Or.inr (Or.inr hx)))) ht
    · -- a sleeper waits for work that the compactor would have done
      rw [hx] at hfit
      obtain ⟨_, hin, hspawned⟩ := hfit
      rcases hcompactor with ⟨_, hno⟩ | ⟨_, hshut⟩ | hsleep
      · rw [hspawned] at hno
        cases hno
      · have hnil := (hs.dropped (hs.shutdown hshut)).1
        rw [hnil] at hin
        cases hin
      · rcases hs.idle t hx with hp | hp | hp
        · rw [(hasleep hsleep).1] at hp
          cases hp
        · rw [hs.running, hsleep] at hp
          cases hp
        · rw [hsleep] at hp
          cases hp
    · exact Or.inr hx
    · -- the compactor that is waited for has seen the shutdown
      rw [hx] at hfit
      obtain ⟨_, hdropped, hshut⟩ := hfit
      rcases hcompactor with ⟨_, hno⟩ | ⟨hexited, _⟩ | hsleep
      · rw [(hs.dropped hdropped).2] at hno
        cases hno
      · exact absurd hexited hnot
      · rw [(hasleep hsleep).2] at hshut
        cases hshut
  · rcases hcompactor with ⟨_, hno⟩ | hexited | hsleep
    · exact Or.inl hno
    · exact Or.inr (Or.inl hexited)
    · obtain ⟨hpend, hshut⟩ := hasleep hsleep
      exact Or.inr (Or.inr ⟨hsleep, hpend, hshut, hs.taken hpend⟩)

/-- The compactor falls asleep, is woken by a request, compacts, and falls asleep again. -/
def oneRound : List Move := [.spawn, .go 0, .go 0, .start 1 .signalCompaction, .go 1, .go 1, .go 1, .go 1, .go 0, .go 0,
  .compacted (.ok ()), .go 0, .go 0, .go 0, .go 0, .go 0, .go 0]

theorem Reach.play {moves : List Move} (h : Reach m) (hp : moves.foldlM Mailbox.step m = some m') : Reach m' := by
  induction moves generalizing m with
  | nil =>
    obtain rfl := Option.some.inj hp
    exact h
  | cons l moves ih =>
    rw [List.foldlM_cons] at hp
    obtain ⟨m₁, hl, hrest⟩ := Option.bind_eq_some_iff.mp hp
    exact ih (h.step hl) hrest

theorem nothing_slept_through_round : ∃ m, Reach m ∧ m.Still ∧ m.ended = 1 ∧
    m.monitor.pc compactorTid = .asleep ∧ m.state.pending = false ∧ m.taken = m.asked := by
  obtain ⟨m, hm⟩ : ∃ m, oneRound.foldlM Mailbox.step Mailbox.initial = some m := ⟨_, rfl⟩
  have hreach : Reach m := Reach.initial.play hm
  have hstill : m.Still := by
    obtain rfl := Option.some.inj hm
    refine ⟨fun t => ?_, by decide⟩
    match t with
    | 0 => rfl
    | 1 => rfl
    | n + 2 => rfl
  have hafter : m.ended = 1 ∧ m.monitor.pc compactorTid = .asleep ∧ m.spawned = true := by
    obtain rfl := Option.some.inj hm
    exact ⟨rfl, rfl, rfl⟩
  obtain ⟨hended, hasleep, hspawned⟩ := hafter
  rcases (nothing_slept_through hreach hstill).2.2 with hno | ⟨hexited, _⟩ | ⟨_, hpend, _, htaken⟩
  · rw [hspawned] at hno
    cases hno
  · rw [hasleep] at hexited
    cases hexited
  · exact ⟨m, hreach, hstill, hended, hasleep, hpend, htaken⟩

/-! ## What a client may rely on -/

/-- A compactor that has left does not come back, and nothing is reported any more. -/
theorem exited_stays {l : Move} (h : m.Sound) (hx : m.monitor.pc compactorTid = .exited) (hs : m.step l = some m') :
    m'.monitor.pc compactorTid = .exited ∧ m'.ended = m.ended ∧ m'.lastError = m.lastError := by
  have hother : ∀ {t p}, m.monitor.pc t = p → p ≠ .exited → compactorTid ≠ t := by
    rintro t p hp hne rfl
    exact hne (hp.symm.trans hx)
  cases l with
  | spawn =>
    have hfit := h.fits compactorTid
    rw [hx] at hfit
    simp [Mailbox.step, hfit.2.1] at hs
  | compacted result => simp [Mailbox.step, hx] at hs
  | wake t =>
    simp only [Mailbox.step] at hs
    split at hs <;> try (simp at hs; done)
    all_goals
      rename_i hp
      obtain rfl := Option.some.inj hs
      refine ⟨?_, rfl, rfl⟩
      rw [Monitor.move_pc, Function.update_of_ne (hother hp (by simp))]
      exact hx
  | start t errand =>
    have hfit := h.fits compactorTid
    rw [hx] at hfit
    simp [Mailbox.step, h.shutdown hfit.2.2] at hs
  | go t =>
    simp only [Mailbox.step] at hs
    cases hp : m.monitor.pc t with
    | rest | asleep | working | exited | idleAsleep | joined => simp [Mailbox.go, hp] at hs
    | lockLoop | lockDone | lockSignal | lockIdle | lockDrop =>
      simp only [Mailbox.go, hp] at hs
      obtain ⟨q, hq, rfl⟩ := Option.map_eq_some_iff.mp hs
      obtain ⟨_, rfl⟩ := Monitor.acquire_eq hq
      exact ⟨(Function.update_of_ne (hother hp (by simp)) ..).trans hx, rfl, rfl⟩
    | loop | done =>
      have hfit := h.fits t
      rw [hp] at hfit
      exact absurd hfit.1.symm (hother hp (by simp))
    | doneNotify | signalNotify | dropNotify =>
      simp only [Mailbox.go, hp] at hs
      obtain rfl := Option.some.inj hs
      refine ⟨?_, rfl, rfl⟩
      rw [Monitor.move_pc, Function.update_of_ne (hother hp (by simp)), Monitor.notifyAll_pc, hx]
      rfl
    | doneUnlock | signal | signalUnlock | drop =>
      simp only [Mailbox.go, hp] at hs
      obtain rfl := Option.some.inj hs
      exact ⟨(Function.update_of_ne (hother hp (by simp)) ..).trans hx, rfl, rfl⟩
    | idle | join =>
      simp only [Mailbox.go, hp] at hs
      split_ifs at hs
      all_goals
        obtain rfl := Option.some.inj hs
        exact ⟨(Function.update_of_ne (hother hp (by simp)) ..).trans hx, rfl, rfl⟩

/-- `m'` can follow on `m`. -/
def Later (m m' : Mailbox) : Prop := Relation.ReflTransGen (fun a b => ∃ l, a.step l = some b) m m'

theorem Reach.later (h : Reach m) (hl : Later m m') : Reach m' := by
  induction hl with
  | refl => exact h
  | tail _ hs ih =>
    obtain ⟨l, hs⟩ := hs
    exact ih.step hs

/-- `wait_for_idle` returns only when every request so far was made before the last round began and that round is over;
and once `drop` has returned the compactor is gone for good and no compaction is ever reported again. -/
theorem waits_are_answered (h : Reach m) :
    (∀ t m', m.monitor.pc t = .idle → m.go t = some m' → m'.monitor.pc t = .rest →
      m.taken = m.asked ∧ (m.monitor.pc compactorTid).works = false) ∧
    ∀ t m', m.monitor.pc t = .joined → Later m m' → m'.monitor.pc compactorTid = .exited ∧ m'.state.running = false ∧
      m'.ended = m.ended ∧ m'.lastError = m.lastError := by
  have hs := h.sound
  refine ⟨fun t m' hp hgo hrest => ?_, fun t m' hp hl => ?_⟩
  · simp only [Mailbox.go, hp] at hgo
    split_ifs at hgo with hbusy
    · obtain rfl := Option.some.inj hgo
      simp at hrest
    · simp only [Bool.or_eq_true, not_or, Bool.not_eq_true] at hbusy
      exact ⟨hs.taken hbusy.1, hs.running.symm.trans hbusy.2⟩
  · have hgone : m'.monitor.pc compactorTid = .exited ∧ m'.ended = m.ended ∧ m'.lastError = m.lastError := by
      induction hl with
      | refl => exact ⟨hs.joined t hp, rfl, rfl⟩
      | tail hl hstep ih =>
        obtain ⟨l, hstep⟩ := hstep
        obtain ⟨hx, hended, herror⟩ := exited_stays (h.later hl).sound ih.1 hstep
        exact ⟨hx, hended.trans ih.2.1, herror.trans ih.2.2⟩
    refine ⟨hgone.1, ?_, hgone.2⟩
    rw [(h.later hl).sound.running, hgone.1]
    rfl

/-- A client waits until the compactor is idle, drops the handle and joins the compactor. -/
def untilGone : List Move := oneRound ++ [.start 1 .waitForIdle, .go 1, .go 1, .start 1 .drop, .go 1, .go 1, .go 1, .go 0,
  .go 0, .go 1]

theorem waits_are_answered_dropped : ∃ m, Reach m ∧ m.monitor.pc 1 = .joined ∧
    ∀ m', Later m m' → m'.monitor.pc compactorTid = .exited ∧ m'.state.running = false ∧
      m'.ended = m.ended ∧ m'.lastError = m.lastError := by
  obtain ⟨m, hm⟩ : ∃ m, untilGone.foldlM Mailbox.step Mailbox.initial = some m := ⟨_, rfl⟩
  have hreach : Reach m := Reach.initial.play hm
  have hjoined : m.monitor.pc 1 = .joined := by
    obtain rfl := Option.some.inj hm
    rfl
  exact ⟨m, hreach, hjoined, fun m' hl => (waits_are_answered hreach).2 1 m' hjoined hl⟩

end Mailbox

/-! ## The engine's operations -/

/-- What happens to the mailbox. -/
inductive Note where
  | requested
  | began
  | reported (result : Except Error Unit)
deriving DecidableEq

/-- The flags change at one step of a critical section. -/
def Mailbox.shows (m : Mailbox) : Mailbox.Move → Option Note
  | .go t =>
    match m.monitor.pc t with
    | .signal => some .requested
    | .loop => if m.state.pending && !m.state.shutdown then some .began else none
    | .done result => some (.reported result)
    | _ => none
  | _ => none

def Mailbox.lts : Lts Note := ⟨Mailbox, .initial, fun m ev m' => ∃ l, m.step l = some m' ∧ ev = m.shows l⟩

section Operations
variable [Deps] {m m' : Mailbox} {l : Mailbox.Move} {w : World}

/-- The mailbox as the engine's operations have it. -/
def World.mailLts : Lts Note where
  State := World
  initial := World.initial
  step w ev w' :=
    match ev with
    | none => w' = w
    | some .requested => ∃ t, exec t .signal .ok w = some ((), w')
    | some .began => exec compactorTid .awaitWork .ok w = some ((), w')
    | some (.reported result) => exec compactorTid (.finishWork result) .ok w = some ((), w')

structure World.Mails (m : Mailbox) (w : World) : Prop where
  pending : w.pending = m.state.pending
  running : w.running = m.state.running
  generation : w.generation = m.state.generation
  lastError : w.lastError = m.lastError

omit [Deps] in
theorem Mailbox.shows_eq {note : Note} (h : m.shows l = some note) : ∃ t, l = .go t ∧
    ((m.monitor.pc t = .signal ∧ note = .requested) ∨
      (m.monitor.pc t = .loop ∧ m.state.pending = true ∧ m.state.shutdown = false ∧ note = .began) ∨
      ∃ result, m.monitor.pc t = .done result ∧ note = .reported result) := by
  cases l with
  | go t =>
    refine ⟨t, rfl, ?_⟩
    simp only [Mailbox.shows] at h
    split at h
    · rename_i hp
      exact Or.inl ⟨hp, (Option.some.inj h).symm⟩
    · rename_i hp
      split_ifs at h with hflags
      simp only [Bool.and_eq_true, Bool.not_eq_true'] at hflags
      exact Or.inr (Or.inl ⟨hp, hflags.1, hflags.2, (Option.some.inj h).symm⟩)
    · rename_i result hp
      exact Or.inr (Or.inr ⟨result, hp, (Option.some.inj h).symm⟩)
    · cases h
  | _ => cases h

/-- A step that shows nothing only moves a thread. -/
theorem World.Mails.silent (h : World.Mails m w) (hs : m.step l = some m') (hn : m.shows l = none) : World.Mails m' w := by
  have hmove : m'.state.pending = m.state.pending ∧ m'.state.running = m.state.running ∧
      m'.state.generation = m.state.generation ∧ m'.lastError = m.lastError → World.Mails m' w :=
    fun ⟨hp, hr, hg, he⟩ => ⟨h.pending.trans hp.symm, h.running.trans hr.symm, h.generation.trans hg.symm,
      h.lastError.trans he.symm⟩
  cases l with
  | spawn | compacted =>
    simp only [Mailbox.step] at hs
    split_ifs at hs
    obtain rfl := Option.some.inj hs
    exact hmove ⟨rfl, rfl, rfl, rfl⟩
  | start t errand =>
    simp only [Mailbox.step] at hs
    cases errand <;> (split_ifs at hs <;> (obtain rfl := Option.some.inj hs; exact hmove ⟨rfl, rfl, rfl, rfl⟩))
  | wake t =>
    simp only [Mailbox.step] at hs
    split at hs <;> try (simp at hs; done)
    all_goals
      obtain rfl := Option.some.inj hs
      exact hmove ⟨rfl, rfl, rfl, rfl⟩
  | go t =>
    simp only [Mailbox.step] at hs
    cases hp : m.monitor.pc t with
    | rest | asleep | working | exited | idleAsleep | joined => simp [Mailbox.go, hp] at hs
    | lockLoop | lockDone | lockSignal | lockIdle | lockDrop =>
      simp only [Mailbox.go, hp] at hs
      obtain ⟨q, _, rfl⟩ := Option.map_eq_some_iff.mp hs
      exact hmove ⟨rfl, rfl, rfl, rfl⟩
    | doneNotify | doneUnlock | signalNotify | signalUnlock | dropNotify | drop =>
      simp only [Mailbox.go, hp] at hs
      obtain rfl := Option.some.inj hs
      exact hmove ⟨rfl, rfl, rfl, rfl⟩
    | idle | join =>
      simp only [Mailbox.go, hp] at hs
      split_ifs at hs <;> (obtain rfl := Option.some.inj hs; exact hmove ⟨rfl, rfl, rfl, rfl⟩)
    | loop =>
      simp only [Mailbox.go, hp] at hs
      simp only [Mailbox.shows, hp] at hn
      split_ifs at hs with hidle hdown <;> obtain rfl := Option.some.inj hs
      · exact hmove ⟨rfl, rfl, rfl, rfl⟩
      · exact hmove ⟨rfl, rfl, rfl, rfl⟩
      · simp [hdown] at hidle hn
        simp [hidle] at hn
    | signal | done => simp [Mailbox.shows, hp] at hn

theorem World.Mails.step (h : World.Mails m w) (hs : m.step l = some m') :
    ∃ w', World.mailLts.Run w (m.shows l).toList w' ∧ World.Mails m' w' := by
  cases hn : m.shows l with
  | none => exact ⟨w, .here, h.silent hs hn⟩
  | some note =>
    have hone : ∀ w', World.mailLts.step w (some note) w' → World.Mails m' w' →
        ∃ w', World.mailLts.Run w (some note).toList w' ∧ World.Mails m' w' := fun w' hstep hm => ⟨w', .one hstep, hm⟩
    obtain ⟨t, rfl, ⟨hp, rfl⟩ | ⟨hp, hpend, hshut, rfl⟩ | ⟨result, hp, rfl⟩⟩ := Mailbox.shows_eq hn
    · simp only [Mailbox.step, Mailbox.go, hp] at hs
      obtain rfl := Option.some.inj hs
      exact hone { w with pending := true } ⟨t, rfl⟩ ⟨rfl, h.running, h.generation, h.lastError⟩
    · simp only [Mailbox.step, Mailbox.go, hp, hpend, hshut] at hs
      obtain rfl := Option.some.inj hs
      exact hone { w with pending := false, running := true } (if_pos (h.pending.trans hpend))
        ⟨rfl, rfl, h.generation, h.lastError⟩
    · simp only [Mailbox.step, Mailbox.go, hp] at hs
      obtain rfl := Option.some.inj hs
      have hgen : (w.generation + 1) % 2 ^ 64 = (m.state.generation + 1) % 2 ^ 64 := by rw [h.generation]
      cases result with
      | ok v =>
        exact hone { w with running := false, generation := (w.generation + 1) % 2 ^ 64 } rfl
          ⟨h.pending, rfl, hgen, h.lastError⟩
      | error err =>
        exact hone { w with running := false, generation := (w.generation + 1) % 2 ^ 64, lastError := some err } rfl
          ⟨h.pending, rfl, hgen, rfl⟩

/-- Each critical section of the mailbox is one operation of the engine. -/
theorem mailbox_refines_operations {tr : List Note} (h : Mailbox.lts.Shows tr) : World.mailLts.Shows tr := by
  have hsim : Lts.Simulates (L := Mailbox.lts) (M := World.mailLts) fun m w => World.Mails m w := by
    refine ⟨⟨rfl, rfl, rfl, rfl⟩, ?_⟩
    rintro m ev m' w hR ⟨l, hs, rfl⟩
    exact hR.step hs
  exact hsim.shows h

end Operations
end LsmDb
