import LsmDb.Lib.Atomic
import LsmDb.Proof.Mirror

/-! The engine refines an atomic map. What clients see of any run, with any number of threads, sessions and crashes,
they could have seen of a map whose calls take effect one at a time. A write takes effect when it reaches the memtable,
a read at its snapshot, a flush when its manifest is renamed into place or the memtable is found empty. -/
namespace LsmDb
open Lib
set_option autoImplicit false

/-! ## The map -/

/-- A map, and what a crash would set it back to. -/
structure MapState where
  cur : Store
  kept : Store
  isOpen : Bool

namespace MapState

/-- With the log, what is written is kept. -/
def write (d : Bool) (ops : List Entry) (s : MapState) : MapState :=
  { s with cur := s.cur.apply ops, kept := if d then s.cur.apply ops else s.kept }

def save (s : MapState) : MapState := { s with kept := s.cur }

def stop (s : MapState) : MapState := ⟨s.kept, s.kept, false⟩

end MapState

/-- How a session ends. -/
inductive Stop where
  | crash
  | close
deriving DecidableEq

/-- The durable map. Without the log (`d = false`) it keeps what was saved, by a flush or of its own accord. If blocks
may be unreadable (`b`) a read may return an error in place of its answer. -/
def durableMap (d b : Bool) : Atomic where
  State := MapState
  Call := Call
  Reply := Reply
  Upset := Stop
  initial := ⟨Store.empty, Store.empty, false⟩
  effect call s s' :=
    match call with
    | .openWith _ _ => s.isOpen = false ∧ s' = { s with isOpen := true }
    | .flush => s.isOpen = true ∧ s' = s.save
    | .get _ | .scan _ => s.isOpen = true ∧ s' = s
    | .compact => False
    | call => s.isOpen = true ∧ s' = s.write d call.ops
  answers call s reply :=
    match call with
    | .get key => reply = .value (.ok (s.cur key)) ∨ b = true ∧ ∃ err, reply = .value (.error err)
    | .scan range => (∃ res, reply = .pairs (.ok res) ∧ ScanOf s.cur range res) ∨
        b = true ∧ ∃ err, reply = .pairs (.error err)
    | _ => reply = .unit (.ok ())
  own s s' := s' = s.save
  upset
    | .crash, s, s' => s' = s.stop
    | .close, s, s' => s.isOpen = true ∧ s' = s.stop

section Refinement
variable [Deps]

/-! ## The engine -/

/-- What clients see of a step. The rounds of the compactor are the engine's own. -/
def Config.shows (c : Config) : Label → Option (Atomic.Event Call Reply Stop)
  | .start t call => if call = .compact then none else some (.called t call)
  | .act _ _ => none
  | .finish t =>
    match c.threads t with
    | .running call (.done reply) => if call = .compact then none else some (.replied t call reply)
    | _ => none
  | .crash _ => some (.upset .crash)
  | .close => some (.upset .close)

def Env.lts (e : Env) : Lts (Atomic.Event Call Reply Stop) where
  State := Config
  initial := Config.initial
  step c ev c' := ∃ l, e.allows c l ∧ step c l = some c' ∧ ev = c.shows l

/-! ## The relation -/

variable {e : Env} {c c' : Config} {t : Tid} {w w' : World} {d b : Bool} {S : Tid → Stand} {m : MapState}
  {T : Tid → (durableMap d b).Task}

/-- The effect of the call is in the store. -/
def Stand.done : Stand → Bool
  | .at _ _ mark _ => mark = .after
  | _ => false

/-- How far the map is with a call. An open takes effect when it returns. -/
def Served (d b : Bool) (seen : Store) (done : Bool) : Call → (durableMap d b).Task → Prop
  | .compact, task => task = .none
  | .openWith config features, task => task = .waiting (Call.openWith config features)
  | call, task =>
    if done then ∃ s₀ : MapState, task = .took call s₀ ∧ (call.reads = true → s₀.cur = seen)
    else task = .waiting call

def Paired (d b : Bool) (seen : Store) (s : Stand) : Thread → (durableMap d b).Task → Prop
  | .running call _, task => Served d b seen s.done call task
  | _, task => task = .none

structure Tracks (e : Env) (d b : Bool) (c : Config) (S : Tid → Stand) (m : MapState) (T : Tid → (durableMap d b).Task) :
    Prop where
  stood : Stood e d c S
  cur : m.cur = c.world.spec.cur
  kept : m.kept = if d then c.world.spec.cur else c.world.spec.flushed
  isOpen : m.isOpen = c.world.ready
  serving : ∀ t call prog, c.threads t = .running call prog → (∀ config features, call ≠ .openWith config features) →
    c.world.ready = true
  opening : ∀ t config features prog, c.threads t = .running (.openWith config features) prog →
    c.world.ready = false ∧ c.world.opener = some t
  tasks : ∀ t, Paired d b (c.world.spec.seen t).cur (S t) (c.threads t) (T t)

theorem exec_ready {o : Act} {ch : Choice} {r : Res o} (ho : o ≠ .dropEngine) (h : exec t o ch w = some (r, w')) :
    w'.ready = w.ready := exec_differ h .ready (by cases o <;> simp [Act.touches] at ho ⊢)

theorem exec_unseen {o : Act} {ch : Choice} {r : Res o} (ho : ∀ want, o ≠ .snapshot want)
    (h : exec t o ch w = some (r, w')) : w'.spec.seen = w.spec.seen :=
  exec_differ h .seen (by cases o <;> simp [Act.touches] at ho ⊢)

theorem exec_seen_other {o : Act} {ch : Choice} {r : Res o} {t' : Tid} (ht : t' ≠ t)
    (h : exec t o ch w = some (r, w')) : w'.spec.seen t' = w.spec.seen t' := by
  by_cases ho : ∀ want, o ≠ .snapshot want
  · rw [exec_unseen ho h]
  · obtain ⟨want, hwant⟩ := not_forall.mp ho
    obtain rfl := not_not.mp hwant
    simp only [exec, if_pos (snapshot_free h)] at h
    obtain ⟨_, rfl⟩ := Prod.mk.inj (Option.some.inj h)
    exact Function.update_of_ne ht ..

/-- Only a rename of the manifest makes a flush. -/
theorem exec_flushed {o : Act} {ch : Choice} {r : Res o} (ho : ∀ source, o ≠ .rename source MANIFEST)
    (h : exec t o ch w = some (r, w')) : w'.spec.flushed = w.spec.flushed := by
  refine exec_differ h .flushed ?_
  cases o with
  | rename source target =>
    have hne : target ≠ MANIFEST := fun heq => ho source (by rw [heq])
    simp [Act.touches, hne]
  | _ => simp [Act.touches]

/-- One thread moves, and the map with it. -/
theorem Tracks.move {c' : Config} {s : Stand} {th : Thread} {m' : MapState} {task : (durableMap d b).Task}
    (h : Tracks e d b c S m T) (hS : Stood e d c' (Function.update S t s))
    (hthreads : c'.threads = Function.update c.threads t th) (hcur : m'.cur = c'.world.spec.cur)
    (hkept : m'.kept = if d then c'.world.spec.cur else c'.world.spec.flushed) (hopen : m'.isOpen = c'.world.ready)
    (hserving : ∀ t call prog, c'.threads t = .running call prog → (∀ config features, call ≠ .openWith config features) →
      c'.world.ready = true)
    (hopening : ∀ t config features prog, c'.threads t = .running (.openWith config features) prog →
      c'.world.ready = false ∧ c'.world.opener = some t)
    (hothers : ∀ t', t' ≠ t → c'.world.spec.seen t' = c.world.spec.seen t')
    (hpair : Paired d b (c'.world.spec.seen t).cur s th task) :
    Tracks e d b c' (Function.update S t s) m' (Function.update T t task) := by
  refine ⟨hS, hcur, hkept, hopen, hserving, hopening, fun t' => ?_⟩
  rw [hthreads]
  by_cases ht : t' = t
  · subst ht
    rw [Function.update_self, Function.update_self, Function.update_self]
    exact hpair
  · rw [Function.update_of_ne ht, Function.update_of_ne ht, Function.update_of_ne ht, hothers t' ht]
    exact h.tasks t'

/-! ## Operations -/

/-- What holds of an operation the engine makes, apart from what it does to the stores. -/
structure Acts (e : Env) (d : Bool) (c : Config) (S : Tid → Stand) (t : Tid) (call : Call) (prog : P Reply) (w : World)
    (s : Stand) : Prop where
  now : ∃ old, c.threads t = .running call old
  stood : Stood e d ⟨w, Function.update c.threads t (.running call prog)⟩ (Function.update S t s)
  ready : w.ready = c.world.ready
  opener : w.opener = c.world.opener
  seen : ∀ t', t' ≠ t → w.spec.seen t' = c.world.spec.seen t'

theorem Tracks.operate {call : Call} {prog : P Reply} {s : Stand} {m' : MapState} {task : (durableMap d b).Task}
    (h : Tracks e d b c S m T) (ha : Acts e d c S t call prog w s) (hcur : m'.cur = w.spec.cur)
    (hkept : m'.kept = if d then w.spec.cur else w.spec.flushed) (hopen : m'.isOpen = m.isOpen)
    (hpair : Paired d b (w.spec.seen t).cur s (.running call prog) task) :
    Tracks e d b ⟨w, Function.update c.threads t (.running call prog)⟩ (Function.update S t s) m'
      (Function.update T t task) := by
  obtain ⟨old, hth⟩ := ha.now
  refine h.move ha.stood rfl hcur hkept ?_ ?_ ?_ ha.seen hpair
  · rw [hopen, h.isOpen]
    exact ha.ready.symm
  · intro t' call' prog' hrun hclient
    rw [show (_ : Config).world.ready = c.world.ready from ha.ready]
    rcases running_update hrun with ⟨rfl, heq⟩ | ⟨_, hold⟩
    · obtain ⟨rfl, _⟩ := Thread.running.inj heq
      exact h.serving t' call old hth hclient
    · exact h.serving t' call' prog' hold hclient
  · intro t' config features prog' hrun
    rw [show (_ : Config).world.ready = c.world.ready from ha.ready,
      show (_ : Config).world.opener = c.world.opener from ha.opener]
    rcases running_update hrun with ⟨rfl, heq⟩ | ⟨_, hold⟩
    · obtain ⟨rfl, _⟩ := Thread.running.inj heq
      exact h.opening t' config features old hth
    · exact h.opening t' config features prog' hold

/-- An operation that the map does not notice. -/
theorem Tracks.silent {call : Call} {prog : P Reply} {s : Stand} (h : Tracks e d b c S m T)
    (ha : Acts e d c S t call prog w s) (hcur : w.spec.cur = c.world.spec.cur)
    (hflushed : w.spec.flushed = c.world.spec.flushed)
    (hpair : Paired d b (w.spec.seen t).cur s (.running call prog) (T t)) :
    Tracks e d b ⟨w, Function.update c.threads t (.running call prog)⟩ (Function.update S t s) m T := by
  have hsame := h.operate ha (h.cur.trans hcur.symm) (by rw [hcur, hflushed]; exact h.kept) rfl hpair
  rwa [Function.update_eq_self] at hsame

theorem StandStep.not_drop {o : Act} {r : Res o} {s s' : Stand} (hn : StandStep s o r s') (hs : s' ≠ .failed) :
    o ≠ .dropEngine := by
  rintro rfl
  cases hn with
  | keep _ ho => cases ho
  | drop => exact hs rfl

/-- The map has done its part, if any. -/
def Matched (e : Env) (d b : Bool) (c' : Config) (m : MapState) (T : Tid → (durableMap d b).Task) : Prop :=
  ∃ m' T' S', (durableMap d b).lts.Run (m, T) [] (m', T') ∧ Tracks e d b c' S' m' T'

/-- A client's call on an open session. -/
def Call.served : Call → Bool
  | .compact | .openWith _ _ => false
  | _ => true

omit [Deps] in
theorem Served.waiting {call : Call} {seen : Store} {task : (durableMap d b).Task} (hc : call.served = true)
    (h : Served d b seen false call task) : task = .waiting call := by
  cases call with
  | compact | openWith => cases hc
  | _ => exact h

omit [Deps] in
theorem served_took {call : Call} {seen : Store} (hc : call.served = true) (hm : call.reads = true → m.cur = seen) :
    Served d b seen true call (.took call m) := by
  cases call with
  | compact | openWith => cases hc
  | _ => exact ⟨m, rfl, hm⟩

omit [Deps] in
theorem Call.effect_of_writes {call : Call} {ops : List Entry} (h : .writes ops = call.aim) :
    call.served = true ∧ call.reads = false ∧
      (m.isOpen = true → (durableMap d b).effect call m (m.write d ops)) := by
  have hops : ops = call.ops := by
    rw [← call.aim_ops, ← h]
    rfl
  subst hops
  cases call with
  | put | delete | write => exact ⟨rfl, rfl, fun hopen => ⟨hopen, rfl⟩⟩
  | _ => cases h

section Act
variable {call : Call} {o : Act} {k : Res o → P Reply} {ch : Choice} {r : Res o} {s : Stand}

/-- Operations that change neither what readers see nor what is flushed. -/
theorem Tracks.unnoticed (h : Tracks e d b c S m T) (ha : Acts e d c S t call (k r) w s)
    (hx : exec t o ch c.world = some (r, w)) (hk : o.keeps = true) (hr : ∀ source, o ≠ .rename source MANIFEST)
    (hpair : Served d b (w.spec.seen t).cur s.done call (T t)) :
    Matched e d b ⟨w, Function.update c.threads t (.running call (k r))⟩ m T :=
  ⟨m, T, _, .here, h.silent ha (exec_cur hk hx) (exec_flushed hr hx) hpair⟩

/-- The call takes effect. -/
theorem Tracks.effect {m' : MapState} (h : Tracks e d b c S m T) (hth : c.threads t = .running call (.op o k))
    (ha : Acts e d c S t call (k r) w s) (hcall : call.served = true) (hdone : (S t).done = false) (hs : s.done = true)
    (he : m.isOpen = true → (durableMap d b).effect call m m') (hcur : m'.cur = w.spec.cur)
    (hkept : m'.kept = if d then w.spec.cur else w.spec.flushed) (hopen : m'.isOpen = m.isOpen)
    (hseen : call.reads = true → m.cur = (w.spec.seen t).cur) :
    Matched e d b ⟨w, Function.update c.threads t (.running call (k r))⟩ m T := by
  have hready : c.world.ready = true := by
    refine h.serving t call _ hth ?_
    rintro config features rfl
    cases hcall
  have hserved := h.tasks t
  rw [hth] at hserved
  have hwait : Served d b (c.world.spec.seen t).cur (S t).done call (T t) := hserved
  rw [hdone] at hwait
  refine ⟨m', _, _, Atomic.run_effect (hwait.waiting hcall) (he (h.isOpen.trans hready)), h.operate ha hcur hkept hopen ?_⟩
  show Served d b (w.spec.seen t).cur s.done call _
  rw [hs]
  exact served_took hcall hseen

/-- The manifest of a flush is in place. -/
theorem Tracks.commit (h : Tracks e d b c S m T) (hth : c.threads t = .running call (.op o k))
    (ha : Acts e d c S t call (k r) w s) (hcur : w.spec.cur = c.world.spec.cur)
    (hflushed : w.spec.flushed = c.world.spec.cur) (hseen : w.spec.seen = c.world.spec.seen)
    (hs : s.done = true) (hm : (S t).done = true ∨ call.aim = .flushes) :
    Matched e d b ⟨w, Function.update c.threads t (.running call (k r))⟩ m T := by
  have hkept : m.save.kept = if d then w.spec.cur else w.spec.flushed := by
    rw [hcur, hflushed, ite_self]
    exact h.cur
  have hcur' : m.save.cur = w.spec.cur := h.cur.trans hcur.symm
  have hserved := h.tasks t
  rw [hth] at hserved
  -- the map saves of its own accord
  have hown : Served d b (c.world.spec.seen t).cur true call (T t) →
      Matched e d b ⟨w, Function.update c.threads t (.running call (k r))⟩ m T := by
    intro htask
    have hsame : Tracks e d b ⟨w, Function.update c.threads t (.running call (k r))⟩ (Function.update S t s) m.save
        (Function.update T t (T t)) := by
      refine h.operate ha hcur' hkept rfl ?_
      show Served d b (w.spec.seen t).cur s.done call (T t)
      rw [hseen, hs]
      exact htask
    rw [Function.update_eq_self] at hsame
    exact ⟨_, _, _, Atomic.run_own rfl, hsame⟩
  cases hdone : (S t).done with
  | true =>
    refine hown ?_
    rw [← hdone]
    exact hserved
  | false =>
    have haim := hm.resolve_left (by rw [hdone]; simp)
    cases call with
    | flush => exact h.effect hth ha rfl hdone hs (fun hopen => ⟨hopen, rfl⟩) hcur' hkept rfl (by simp [Call.reads])
    | openWith config features => exact hown hserved
    | _ => cases haim

/-- An operation of a thread is matched by the map. -/
theorem Tracks.act (h : Tracks e d b c S m T) (hg : e.Good d) (hio : e.ioFaults = false)
    (hth : c.threads t = .running call (.op o k)) (ha : e.allowsAct c.world t o ch)
    (hx : exec t o ch c.world = some (r, w)) :
    Matched e d b ⟨w, Function.update c.threads t (.running call (k r))⟩ m T := by
  obtain ⟨s, hn, hs, hS⟩ := h.stood.act hg hio hth ha hx
  have hacts : Acts e d c S t call (k r) w s :=
    ⟨⟨_, hth⟩, hS, exec_ready (hn.not_drop hs) hx, exec_opener hx, fun t' ht => exec_seen_other ht hx⟩
  have hserved : Served d b (c.world.spec.seen t).cur (S t).done call (T t) := by
    have htask := h.tasks t
    rw [hth] at htask
    exact htask
  have hserves : (S t).Serves call := by
    have hat := h.stood.threads t
    rw [hth] at hat
    exact hat.2
  have hknows := h.stood.standing.knows t
  -- a step at which the call does not come further
  have hstill : o.keeps = true → (∀ source, o ≠ .rename source MANIFEST) → (∀ want, o ≠ .snapshot want) →
      s.done = (S t).done → Matched e d b ⟨w, Function.update c.threads t (.running call (k r))⟩ m T := by
    intro hk hr hsnap hdone
    refine h.unnoticed hacts hx hk hr ?_
    rw [exec_unseen hsnap hx, hdone]
    exact hserved
  generalize hst : S t = st at hn
  rw [hst] at hserved hserves hknows hstill
  cases hn with
  | keep _ ho =>
    refine hstill ?_ ?_ ?_ rfl
    · cases o <;> first | rfl | cases ho
    · rintro source rfl
      simp [Act.bare] at ho
    · rintro want rfl
      cases ho
  | read | start =>
    obtain ⟨config, features, rfl⟩ := hserves
    exact h.unnoticed hacts hx rfl (by simp) hserved
  | lock | unlock | append | unappended | take | rotate | unrotated => exact hstill rfl (by simp) (by simp) rfl
  | giveUp | drop => exact absurd rfl hs
  | await | enter | leave => exact hstill rfl (by simp) (by simp) rfl
  | inputs =>
    obtain rfl : call = .compact := hserves
    exact h.unnoticed hacts hx rfl (by simp) hserved
  | @applyLogged ops =>
    obtain ⟨hcall, hreads, heffect⟩ := Call.effect_of_writes hserves.2
    obtain rfl : true = d := hknows.1
    obtain ⟨_, rfl⟩ := Prod.mk.inj (Option.some.inj hx)
    have hcur : (m.write true ops).cur = c.world.spec.cur.apply ops := by rw [← h.cur]; rfl
    exact h.effect hth hacts hcall (by rw [hst]; rfl) rfl heffect hcur hcur rfl (by simp [hreads])
  | @apply ops =>
    obtain ⟨hcall, hreads, heffect⟩ := Call.effect_of_writes hserves.2
    obtain rfl : false = d := hknows.1
    obtain ⟨_, rfl⟩ := Prod.mk.inj (Option.some.inj hx)
    have hcur : (m.write false ops).cur = c.world.spec.cur.apply ops := by rw [← h.cur]; rfl
    exact h.effect hth hacts hcall (by rw [hst]; rfl) rfl heffect hcur h.kept rfl (by simp [hreads])
  | @empty d' _ hempty =>
    obtain ⟨hc, haim⟩ := hserves
    have hw := Prod.mk.inj (Option.some.inj hx)
    obtain rfl := hw.2
    rw [← hw.1] at hempty
    cases call with
    | flush =>
      -- nothing is in the memtable, so everything is flushed
      have hflushed : m.kept = m.cur := by
        rw [h.kept, h.cur]
        cases d with
        | true => rfl
        | false =>
          have hlock : c.world.lock = some t := (h.stood.standing.lock t).mpr (by rw [hst]; rfl)
          have hagree := h.stood.standing.held hknows.2.1 t hlock
          rw [hst] at hagree
          exact hagree.saved rfl hempty
      have hkept : m.save.kept = if d then c.world.spec.cur else c.world.spec.flushed := by
        rw [← h.kept, hflushed]
        rfl
      exact h.effect hth hacts rfl (by rw [hst]; rfl) rfl (fun hopen => ⟨hopen, rfl⟩) h.cur hkept rfl (by simp [Call.reads])
    | openWith config features =>
      refine h.unnoticed hacts hx rfl (by simp) ?_
      exact hserved
    | _ => cases haim
  | @commit d' aim mark _ hm hr =>
    obtain ⟨hc, haim⟩ := hserves
    subst hr
    have hne := hknows.2.2.1
    simp only [exec] at hx
    split at hx
    · simp at hx
    · split at hx
      · simp at hx
      · obtain ⟨_, rfl⟩ := Prod.mk.inj (Option.some.inj hx)
        refine h.commit hth hacts ?_ ?_ ?_ rfl ?_
        · dsimp only
          split_ifs <;> rfl
        · rw [if_pos ⟨trivial, hne⟩]
        · dsimp only
          split_ifs <;> rfl
        · rw [hst, ← haim]
          rcases hm with rfl | ⟨_, rfl⟩
          · exact Or.inl rfl
          · exact Or.inr rfl
  | uncommitted hr =>
    subst hr
    have hw : w = c.world := by
      simp only [exec] at hx
      split at hx
      · exact (Prod.mk.inj (Option.some.inj hx)).2.symm
      · split at hx
        · exact (Prod.mk.inj (Option.some.inj hx)).2.symm
        · simp at hx
    exact ⟨m, T, _, .here, h.silent hacts (by rw [hw]) (by rw [hw]) (by rw [hw]; exact hserved)⟩
  | swap =>
    obtain rfl : call = .compact := hserves
    obtain rfl : t = compactorTid := hknows.2
    have hflushed : w.spec.flushed = c.world.spec.flushed := by
      simp only [exec] at hx
      split at hx
      · obtain ⟨_, rfl⟩ := Prod.mk.inj (Option.some.inj hx)
        rfl
      · split at hx
        · obtain ⟨_, rfl⟩ := Prod.mk.inj (Option.some.inj hx)
          rfl
        · obtain ⟨_, rfl⟩ := Prod.mk.inj (Option.some.inj hx)
          rw [if_neg fun hx => hx.2 rfl]
    exact ⟨m, T, _, .here, h.silent hacts (exec_cur rfl hx) hflushed hserved⟩
  | snapshot =>
    obtain ⟨hc, haim⟩ := hserves
    have hseen : (w.spec.seen t).cur = c.world.spec.cur := by
      rw [exec_snapshot hx]
    have hcur := exec_cur rfl hx
    have hflushed := exec_flushed (by simp) hx
    cases call with
    | compact => exact absurd rfl hc
    | get key | scan range =>
      refine h.effect hth hacts rfl (by rw [hst]; rfl) rfl (fun hopen => ⟨hopen, rfl⟩) (h.cur.trans hcur.symm) ?_ rfl
        fun _ => h.cur.trans hseen.symm
      rw [hcur, hflushed]
      exact h.kept
    | _ => cases haim

end Act

/-! ## Calls start and return, sessions end -/

theorem Tracks.no_task (h : Tracks e d b c S m T) (hth : ∀ call prog, c.threads t ≠ .running call prog) :
    T t = .none := by
  have htask := h.tasks t
  cases hc : c.threads t with
  | idle | replied =>
    rw [hc] at htask
    exact htask
  | running call prog => exact absurd hc (hth call prog)

theorem Tracks.start {call : Call} (h : Tracks e d b c S m T) (hg : e.Good d) (ha : e.allows c (.start t call))
    (hs : step c (.start t call) = some c') :
    ∃ m' T' S', (durableMap d b).lts.Run (m, T) (c.shows (.start t call)).toList (m', T') ∧ Tracks e d b c' S' m' T' := by
  have hS := h.stood.start hg ha hs
  simp only [step] at hs
  split_ifs at hs with hcan
  obtain rfl := Option.some.inj hs
  have hin := (canStart_cases hcan).1
  have hnone : T t = .none := h.no_task fun _ _ hth => hin (h.stood.reach.active hth)
  have hspec : (started c.world t call).spec.cur = c.world.spec.cur ∧
      (started c.world t call).spec.flushed = c.world.spec.flushed ∧
      (started c.world t call).spec.seen = c.world.spec.seen ∧ (started c.world t call).ready = c.world.ready := by
    cases call <;> exact ⟨rfl, rfl, rfl, rfl⟩
  obtain ⟨hcur, hflushed, hseen, hready⟩ := hspec
  have hopener : (∀ config features, call ≠ .openWith config features) →
      (started c.world t call).opener = c.world.opener ∧ c.world.ready = true := by
    intro hclient
    cases call with
    | openWith config features => exact absurd rfl (hclient config features)
    | _ =>
      simp only [canStart, Bool.and_eq_true] at hcan
      exact ⟨rfl, hcan.1.1⟩
  have hdown : ∀ config features, call = .openWith config features →
      (started c.world t call).opener = some t ∧ c.world.ready = false ∧ c.world.active = [] := by
    rintro config features rfl
    simp only [canStart, Bool.and_eq_true, Bool.not_eq_true', List.isEmpty_iff] at hcan
    refine ⟨rfl, ?_, hcan.1.2⟩
    by_contra hup
    have hlive := (h.stood.reach.ready (by simpa using hup)).1
    rw [hcan.1.1] at hlive
    cases hlive
  have hmove : ∀ task, Served d b (c.world.spec.seen t).cur (call.stand c.world.features).done call task →
      Tracks e d b ⟨started c.world t call, Function.update c.threads t
        (.running call (call.program c.world.config c.world.features))⟩
        (Function.update S t (call.stand c.world.features)) m (Function.update T t task) := by
    intro task htask
    refine h.move hS rfl (h.cur.trans hcur.symm) (by rw [hcur, hflushed]; exact h.kept) (h.isOpen.trans hready.symm) ?_ ?_
      (fun t' _ => by rw [hseen]) (by rw [hseen]; exact htask)
    · intro t' call' prog' hrun hclient
      rw [hready]
      rcases running_update hrun with ⟨rfl, heq⟩ | ⟨_, hold⟩
      · obtain ⟨rfl, _⟩ := Thread.running.inj heq
        exact (hopener hclient).2
      · exact h.serving t' call' prog' hold hclient
    · intro t' config features prog' hrun
      rw [hready]
      rcases running_update hrun with ⟨rfl, heq⟩ | ⟨_, hold⟩
      · obtain ⟨rfl, _⟩ := Thread.running.inj heq
        exact ⟨(hdown config features rfl).2.1, (hdown config features rfl).1⟩
      · obtain ⟨hdown', hmine⟩ := h.opening t' config features prog' hold
        by_cases hopen : ∀ config features, call ≠ .openWith config features
        · exact ⟨hdown', (hopener hopen).1.trans hmine⟩
        · -- nothing runs when an open starts
          simp only [not_forall, not_not] at hopen
          obtain ⟨config', features', hcall⟩ := hopen
          have hin' := h.stood.reach.active hold
          rw [(hdown config' features' hcall).2.2] at hin'
          cases hin'
  by_cases hc : call = .compact
  · subst hc
    have hsame := hmove .none rfl
    rw [← hnone, Function.update_eq_self] at hsame
    exact ⟨m, T, _, .here, hsame⟩
  · simp only [Config.shows, if_neg hc]
    refine ⟨m, _, _, Atomic.run_call hnone, hmove (.waiting call) ?_⟩
    cases call with
    | compact => exact absurd rfl hc
    | _ => exact rfl

/-- What a call is told that has taken effect. -/
theorem Answered.answers {seen : Sight} {call : Call} {reply : Reply} (h : Answered e seen call reply) (hg : e.Good d)
    (hio : e.ioFaults = false) (hsmall : e.small = true) (hread : b = false → e.Readable) (hc : call ≠ .compact)
    (hcur : call.reads = true → m.cur = seen.cur) : (durableMap d b).answers call m reply := by
  have herror : ¬ e.Readable → b = true := fun hno => by
    by_contra hb
    exact hno (hread (by simpa using hb))
  cases call with
  | compact => exact absurd rfl hc
  | get key =>
    rcases reply with r | r | r
    · exact absurd h id
    · cases r with
      | error err => exact Or.inr ⟨herror h, err, rfl⟩
      | ok v =>
        obtain ⟨ess, hs, hv⟩ := h
        refine Or.inl ?_
        rw [hv hsmall hg.laws, hs.get_eq hg, hcur rfl]
    · exact absurd h id
  | scan range =>
    rcases reply with r | r | r
    · exact absurd h id
    · exact absurd h id
    · cases r with
      | error err => exact Or.inr ⟨herror h, err, rfl⟩
      | ok res =>
        obtain ⟨ess, hs, hv⟩ := h
        rw [hs.get_eq hg, ← hcur rfl] at hv
        exact Or.inl ⟨res, rfl, hv⟩
  | _ => exact h.unit_ok (hg.no_trouble hio) rfl hc

theorem ended_spec (w : World) (t : Tid) (call : Call) (reply : Reply) :
    (ended w t call reply).spec.cur = w.spec.cur ∧ (ended w t call reply).spec.flushed = w.spec.flushed ∧
      (ended w t call reply).spec.seen = w.spec.seen := by
  cases call with
  | openWith config features => exact ⟨rfl, rfl, rfl⟩
  | _ => simp only [ended]; split_ifs <;> exact ⟨rfl, rfl, rfl⟩

/-- A thread returns, and the map has done all it had to. -/
theorem Tracks.leave {call : Call} {reply : Reply} {m' : MapState} (h : Tracks e d b c S m T)
    (hth : c.threads t = .running call (.done reply)) (hcur : m'.cur = m.cur) (hkept : m'.kept = m.kept)
    (hopen : m'.isOpen = (ended c.world t call reply).ready)
    (hready : (∀ config features, call ≠ .openWith config features) →
      (ended c.world t call reply).ready = c.world.ready ∧ (ended c.world t call reply).opener = c.world.opener) :
    Tracks e d b ⟨ended c.world t call reply, Function.update c.threads t (.replied call reply)⟩
      (Function.update S t .idle) m' (Function.update T t .none) := by
  obtain ⟨hsame, hflushed, hseen⟩ := ended_spec c.world t call reply
  -- an open returns when nothing else runs
  have hclient : ∀ t' call' prog', t' ≠ t → c.threads t' = .running call' prog' →
      ∀ config features, call ≠ .openWith config features := by
    rintro t' call' prog' ht hrun config features rfl
    exact ht (h.stood.reach.alone (h.opening t config features _ hth).2 hrun)
  refine h.move (h.stood.finish hth).2 rfl ?_ ?_ hopen ?_ ?_ (fun t' _ => by rw [hseen]) rfl
  · rw [hcur, h.cur]
    exact hsame.symm
  · rw [hkept, h.kept, hsame, hflushed]
  · intro t' call' prog' hrun hcall'
    rcases running_update hrun with ⟨_, heq⟩ | ⟨ht, hold⟩
    · cases heq
    · rw [(hready (hclient t' call' prog' ht hold)).1]
      exact h.serving t' call' prog' hold hcall'
  · intro t' config features prog' hrun
    rcases running_update hrun with ⟨_, heq⟩ | ⟨ht, hold⟩
    · cases heq
    · obtain ⟨hsameReady, hsameOpener⟩ := hready (hclient t' _ prog' ht hold)
      rw [hsameReady, hsameOpener]
      exact h.opening t' config features prog' hold

theorem Tracks.finish (h : Tracks e d b c S m T) (hg : e.Good d) (hio : e.ioFaults = false) (hsmall : e.small = true)
    (hread : b = false → e.Readable) (hs : step c (.finish t) = some c') :
    ∃ m' T' S', (durableMap d b).lts.Run (m, T) (c.shows (.finish t)).toList (m', T') ∧ Tracks e d b c' S' m' T' := by
  simp only [step] at hs
  split at hs
  · rename_i call reply hth
    obtain rfl := Option.some.inj hs
    have hans := (h.stood.finish hth).2.reach.seen (t := t) (Function.update_self ..)
    have hserved : Served d b (c.world.spec.seen t).cur (S t).done call (T t) := by
      have htask := h.tasks t
      rw [hth] at htask
      exact htask
    simp only [Config.shows, hth]
    have hseen := (ended_spec c.world t call reply).2.2
    have hclient : (∀ config features, call ≠ .openWith config features) →
        (ended c.world t call reply).ready = c.world.ready ∧ (ended c.world t call reply).opener = c.world.opener := by
      intro hcall
      cases call with
      | openWith config features => exact absurd rfl (hcall config features)
      | _ => simp only [ended]; split_ifs <;> exact ⟨rfl, rfl⟩
    have hanswers : ∀ s₀ : MapState, call ≠ .compact → (call.reads = true → s₀.cur = (c.world.spec.seen t).cur) →
        (durableMap d b).answers call s₀ reply := by
      intro s₀ hc hcur
      refine hans.answers hg hio hsmall hread hc fun hreads => ?_
      rw [hseen]
      exact hcur hreads
    cases call with
    | compact =>
      have hdone := h.leave hth rfl rfl (h.isOpen.trans (hclient (by simp)).1.symm) hclient
      rw [← show T t = .none from hserved, Function.update_eq_self] at hdone
      exact ⟨m, T, _, .here, hdone⟩
    | openWith config features =>
      have hok := hanswers m (by simp) (by simp [Call.reads])
      obtain rfl : reply = .unit (.ok ()) := hok
      obtain ⟨hdown, _⟩ := h.opening t config features _ hth
      have heffect : (durableMap d b).effect (Call.openWith config features) m { m with isOpen := true } :=
        ⟨h.isOpen.trans hdown, rfl⟩
      have hrun := Atomic.run_effect (A := durableMap d b) (T := T) hserved heffect
      have hreply := Atomic.run_reply (A := durableMap d b) (t := t)
        (T := Function.update T t (.took (Call.openWith config features) m)) (s := { m with isOpen := true })
        (Function.update_self ..) rfl
      rw [Function.update_idem] at hreply
      exact ⟨_, _, _, hrun.trans hreply, h.leave hth rfl rfl rfl hclient⟩
    | _ =>
      have hend := (h.stood.finish hth).1
      rcases hend with ⟨d', hst⟩ | ⟨hst, _⟩
      · rw [hst] at hserved
        obtain ⟨s₀, htook, hcur⟩ := hserved
        have hdone := h.leave hth rfl rfl (h.isOpen.trans (hclient (by simp)).1.symm) hclient
        exact ⟨m, _, _, Atomic.run_reply htook (hanswers s₀ (by simp) hcur), hdone⟩
      · have hknows := h.stood.standing.knows t
        rw [hst] at hknows
        exact absurd hknows id
  · simp at hs

/-- The map is set back as far as the engine is, once the call that had reached the log has taken effect. -/
theorem Tracks.before_stop (h : Tracks e d b c S m T) (hg : e.Good d) :
    ∃ m' T', (durableMap d b).lts.Run (m, T) [] (m', T') ∧ m'.kept = c.world.spec.durable d ∧ m'.isOpen = m.isOpen := by
  cases d with
  | false => exact ⟨m, T, .here, h.kept, rfl⟩
  | true =>
    rcases h.stood.logged hg with hsame | ⟨t, call, prog, _, hth, ⟨b', zone, hst⟩, hlogged⟩
    · exact ⟨m, T, .here, h.kept.trans hsame.symm, rfl⟩
    · by_cases hwrites : ∃ ops, .writes ops = call.aim
      · obtain ⟨ops, haim⟩ := hwrites
        obtain ⟨hcall, _, heffect⟩ := Call.effect_of_writes (d := true) (b := b) (m := m) haim
        have hready : c.world.ready = true := by
          refine h.serving t call prog hth ?_
          rintro config features rfl
          cases hcall
        have hserved := h.tasks t
        rw [hth, hst] at hserved
        have hwait : T t = .waiting call := Served.waiting hcall hserved
        refine ⟨_, _, Atomic.run_effect hwait (heffect (h.isOpen.trans hready)), ?_, rfl⟩
        show m.cur.apply ops = c.world.spec.logged
        rw [hlogged, h.cur, ← call.aim_ops, ← haim]
        rfl
      · have hops : call.ops = [] := by
          cases call with
          | put | delete | write => exact absurd ⟨_, rfl⟩ hwrites
          | _ => rfl
        rw [hops] at hlogged
        exact ⟨m, T, .here, h.kept.trans hlogged.symm, rfl⟩

/-- What a session leaves. -/
theorem tracks_stopped (hS : Stood e d c' fun _ => .idle) (hcur : c'.world.spec.cur = m.kept)
    (hflushed : d = false → c'.world.spec.flushed = m.kept) (hready : c'.world.ready = false)
    (hidle : ∀ t call prog, c'.threads t ≠ .running call prog) :
    Tracks e d b c' (fun _ => .idle) m.stop fun _ => .none := by
  refine ⟨hS, hcur.symm, ?_, hready.symm, fun t call prog hth => absurd hth (hidle t call prog),
    fun t config features prog hth => absurd hth (hidle t _ prog), fun t => ?_⟩
  · cases d with
    | true => exact hcur.symm
    | false => exact (hflushed rfl).symm
  · cases hth : c'.threads t with
    | running call prog => exact absurd hth (hidle t call prog)
    | idle | replied => exact rfl

theorem Tracks.crash (h : Tracks e d b c S m T) (hg : e.Good d) (damage : List (ℕ × Option Bytes)) :
    ∃ m' T' S', (durableMap d b).lts.Run (m, T) [.upset .crash] (m', T') ∧
      Tracks e d b ⟨crashed c.world damage, fun _ => .idle⟩ S' m' T' := by
  obtain ⟨m₁, T₁, hrun, hkept, _⟩ := h.before_stop hg
  have hcur : (crashed c.world damage).spec.cur = c.world.spec.durable d := h.stood.reach.cur_dropEngine hg
  have hupset : (durableMap d b).upset Stop.crash m₁ m₁.stop := rfl
  refine ⟨_, _, _, hrun.trans (Atomic.run_upset hupset), tracks_stopped (h.stood.crash damage) (hcur.trans hkept.symm) ?_ rfl (by simp)⟩
  rintro rfl
  exact hkept.symm

theorem Tracks.close (h : Tracks e d b c S m T) (hg : e.Good d) (hready : c.world.ready = true)
    (hidle : c.world.active = []) :
    ∃ m' T' S', (durableMap d b).lts.Run (m, T) [.upset .close] (m', T') ∧
      Tracks e d b ⟨c.world.dropEngine, c.threads⟩ S' m' T' := by
  obtain ⟨m₁, T₁, hrun, hkept, hopen⟩ := h.before_stop hg
  have hcur : c.world.dropEngine.spec.cur = c.world.spec.durable d := h.stood.reach.cur_dropEngine hg
  have hupset : (durableMap d b).upset Stop.close m₁ m₁.stop := ⟨hopen.trans (h.isOpen.trans hready), rfl⟩
  refine ⟨_, _, _, hrun.trans (Atomic.run_upset hupset),
    tracks_stopped (h.stood.close hready hidle).2 (hcur.trans hkept.symm) ?_ rfl ?_⟩
  · rintro rfl
    exact hkept.symm
  · intro t call prog hth
    have hin := h.stood.reach.active hth
    rw [hidle] at hin
    cases hin

/-! ## Every run -/

theorem simulates_map (hg : e.Good d) (hio : e.ioFaults = false) (hsmall : e.small = true) (hread : b = false → e.Readable) :
    Lts.Simulates (L := e.lts) (M := (durableMap d b).lts) fun c a => ∃ S, Tracks e d b c S a.1 a.2 where
  initial := ⟨fun _ => .idle, ⟨.initial, .gone rfl rfl, fun _ => rfl⟩, rfl, (ite_self _).symm, rfl, nofun, nofun,
    fun _ => rfl⟩
  step := by
    rintro c ev c' ⟨m, T⟩ ⟨S, h⟩ ⟨l, ha, hs, rfl⟩
    have hgoal : (∃ m' T' S', (durableMap d b).lts.Run (m, T) (c.shows l).toList (m', T') ∧ Tracks e d b c' S' m' T') →
        ∃ a', (durableMap d b).lts.Run (m, T) (c.shows l).toList a' ∧ ∃ S, Tracks e d b c' S a'.1 a'.2 := by
      rintro ⟨m', T', S', hrun, ht⟩
      exact ⟨(m', T'), hrun, S', ht⟩
    apply hgoal
    cases l with
    | start t call => exact h.start hg ha hs
    | finish t => exact h.finish hg hio hsmall hread hs
    | act t ch =>
      simp only [LsmDb.step] at hs
      split at hs
      · rename_i call o k hth
        cases hx : exec t o ch c.world with
        | none => simp [hx] at hs
        | some q =>
          obtain ⟨r, w⟩ := q
          simp only [hx] at hs
          obtain rfl := Option.some.inj hs
          exact h.act hg hio hth (ha call o k hth) hx
      · simp at hs
    | crash damage =>
      obtain rfl := Option.some.inj hs
      exact h.crash hg damage
    | close =>
      simp only [LsmDb.step] at hs
      split_ifs at hs with hcan
      obtain rfl := Option.some.inj hs
      exact h.close hg hcan.1 hcan.2

theorem worn_simulates_map (laws : BloomLaws) (d b : Bool) :
    Lts.Simulates (L := (Env.worn d b).lts) (M := (durableMap d b).lts) fun c a =>
      ∃ S, Tracks (Env.worn d b) d b c S a.1 a.2 := by
  have hg := Env.good_worn laws d b
  refine simulates_map hg rfl rfl ?_
  rintro rfl
  exact ⟨rfl, ⟨_, rfl, le_rfl⟩, d, hg⟩

/-- Whatever clients see of the engine, with any number of threads and sessions, crashes at any point and blocks that
cannot be read, they could have seen of the durable map. -/
theorem engine_refines_map (laws : BloomLaws) {tr : List (Atomic.Event Call Reply Stop)}
    (h : (Env.worn d b).lts.Shows tr) : (durableMap d b).lts.Shows tr :=
  (worn_simulates_map laws d b).shows h

/-! ## What a schedule shows -/

def Call.shown (t : Tid) (call : Call) : List (Atomic.Event Call Reply Stop) :=
  if call = .compact then [] else [.called t call]

/-- The reply that a thread has just given. -/
def Config.given (c : Config) (t : Tid) : List (Atomic.Event Call Reply Stop) :=
  match c.threads t with
  | .replied call reply => if call = .compact then [] else [.replied t call reply]
  | _ => []

/-- What a move shows that ended in this configuration. -/
def Move.shows (c : Config) : Move → List (Atomic.Event Call Reply Stop)
  | .alone t _ call => call.shown t ++ c.given t
  | .start t call => call.shown t
  | .acts _ _ => []
  | .finish t => c.given t
  | .crash _ => [.upset .crash]
  | .close => [.upset .close]

/-- Play a schedule and note what it shows. -/
def Env.observe (e : Env) : List Move → Config → Option (List (Atomic.Event Call Reply Stop))
  | [], _ => some []
  | m :: moves, c => (m.play e c).bind fun c' => (e.observe moves c').map (m.shows c' ++ ·)

theorem shows_start (t : Tid) (call : Call) : (c.shows (.start t call)).toList = call.shown t := by
  simp only [Config.shows, Call.shown]
  split_ifs <;> rfl

theorem Config.given_finish (hs : step c (.finish t) = some c') : (c.shows (.finish t)).toList = c'.given t := by
  simp only [LsmDb.step] at hs
  split at hs
  · rename_i call reply hth
    obtain rfl := Option.some.inj hs
    simp only [Config.shows, Config.given, hth, Function.update_self]
    split_ifs <;> rfl
  · simp at hs

/-- One step of a run, with what it shows. -/
theorem Env.run_step {l : Label} (ha : e.allows c l) (hs : step c l = some c') : e.lts.Run c (c.shows l).toList c' := by
  have hstep : e.lts.step c (c.shows l) c' := ⟨l, ha, hs, rfl⟩
  exact Lts.Run.one hstep

theorem Env.run_act {tr : List (Atomic.Event Call Reply Stop)} {c₁ c₂ : Config} {choice : Choice}
    (h : e.lts.Run c tr c₁) (ha : e.allows c₁ (.act t choice)) (hs : step c₁ (.act t choice) = some c₂) :
    e.lts.Run c tr c₂ := by
  have hrun := h.trans (Env.run_step ha hs)
  rwa [show (c₁.shows (.act t choice)).toList = [] from rfl, List.append_nil] at hrun

theorem Move.run_play {m : Move} (hp : m.play e c = some c') : e.lts.Run c (m.shows c') c' := by
  cases m with
  | alone t pick call =>
    simp only [Move.play] at hp
    split_ifs at hp with hcan
    simp only [Bool.and_eq_true, Bool.or_eq_true, beq_iff_eq] at hcan
    obtain ⟨⟨reply, w⟩, hprog, rfl⟩ := Option.map_eq_some_iff.mp hp
    have hstart := Env.run_step (e := e) (l := .start t call)
      (fun ht => Env.allowsCall_of_permits (hcan.2.resolve_left ht)) (step_start hcan.1)
    rw [shows_start] at hstart
    have hdone := playProg_keeps (t := t) (fun _ _ _ h => Env.run_act h) hstart (Function.update_self ..) hprog
    rw [Function.update_idem] at hdone
    have hfinish : step ⟨w, Function.update c.threads t (.running call (.done reply))⟩ (.finish t) =
        some ⟨ended w t call reply, Function.update c.threads t (.replied call reply)⟩ := by
      simp only [LsmDb.step, Function.update_self, Function.update_idem]
    have hreply := Env.run_step (e := e) (l := .finish t) trivial hfinish
    rw [Config.given_finish hfinish] at hreply
    exact hdone.trans hreply
  | start t call =>
    simp only [Move.play] at hp
    split_ifs at hp with hcan
    simp only [Bool.or_eq_true, beq_iff_eq] at hcan
    have hrun := Env.run_step (l := .start t call) (fun ht => Env.allowsCall_of_permits (hcan.resolve_left ht)) hp
    rwa [shows_start] at hrun
  | acts t choices => exact playActs_keeps (fun _ _ _ h => Env.run_act h) Lts.Run.here hp
  | finish t =>
    have hrun := Env.run_step (e := e) (l := .finish t) trivial hp
    rwa [Config.given_finish hp] at hrun
  | crash damage => exact Env.run_step (e := e) (l := .crash damage) trivial hp
  | close => exact Env.run_step (e := e) (l := .close) trivial hp

theorem Env.run_observe {moves : List Move} {tr : List (Atomic.Event Call Reply Stop)} (h : e.observe moves c = some tr) :
    ∃ c', e.lts.Run c tr c' := by
  induction moves generalizing c tr with
  | nil =>
    obtain rfl := Option.some.inj h
    exact ⟨c, .here⟩
  | cons m moves ih =>
    obtain ⟨c₁, hm, hrest⟩ := Option.bind_eq_some_iff.mp h
    obtain ⟨tr', htr, rfl⟩ := Option.map_eq_some_iff.mp hrest
    obtain ⟨c', hrun⟩ := ih htr
    exact ⟨c', (Move.run_play hm).trans hrun⟩

omit [Deps] in
/-- The machine goes down inside a put that has reached the log: the put never returns, and is there afterwards. -/
theorem engine_refines_map_logged : letI := Deps.concrete
    let opens : Call := .openWith LsmConfig.default ⟨true, false⟩
    let tr : List (Atomic.Event Call Reply Stop) := [.called 1 opens, .replied 1 opens (.unit (.ok ())),
      .called 1 (.put [1] [7]), .upset .crash, .called 1 opens, .replied 1 opens (.unit (.ok ())),
      .called 2 (.get [1]), .replied 2 (.get [1]) (.value (.ok (some [7])))]
    (Env.worn true false).lts.Shows tr ∧ (durableMap true false).lts.Shows tr := by
  let _ := Deps.concrete
  intro opens tr
  have hplay : (Env.worn true false).observe
      [.alone 1 allOk opens, .start 1 (.put [1] [7]), .acts 1 [.ok, .ok, .ok], .crash [], .alone 1 allOk opens,
        .alone 2 allOk (.get [1])] Config.initial = some tr := by
    decide +kernel
  have hshows : (Env.worn true false).lts.Shows tr := Env.run_observe hplay
  exact ⟨hshows, engine_refines_map concrete_laws hshows⟩

end Refinement
end LsmDb
