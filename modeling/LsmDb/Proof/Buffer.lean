import LsmDb.Proof.Crashes
import LsmDb.Proof.Protocol

/-! The write buffer: its counter is the number of bytes it holds, and whoever releases the write lock leaves a
buffer that is empty or below the configured capacity. -/
namespace LsmDb
open Lib
set_option autoImplicit false

section Buffer
variable [Deps] {e : Env} {c c' : Config} {t : Tid} {w w' : World} {config : LsmConfig} {features : Features}

/-- Empty or below capacity. -/
def Small (capacity : ℕ) (m : MemTable) : Prop := m.iter = [] ∨ m.approxSize < capacity

/-! ## Operations that leave the buffer alone -/

structure Aside (w w' : World) : Prop where
  memtable : w'.memtable = w.memtable
  lock : w'.lock = w.lock
  live : w'.live = w.live
  ready : w'.ready = w.ready
  config : w'.config = w.config
  opener : w'.opener = w.opener
  active : w'.active = w.active

theorem exec_aside {o : Act} {ch : Choice} {r : Res o} (ho : o.aside = true) (h : exec t o ch w = some (r, w')) :
    Aside w w' := by
  have hd := exec_differ h
  have hno : ∀ f ∈ [Field.memtable, .lock, .live, .ready, .config, .opener, .active], f ∉ o.touches := by
    cases o <;> simp [Act.aside, Act.touches] at ho ⊢
  exact ⟨hd .memtable (hno _ (by simp)), hd .lock (hno _ (by simp)), hd .live (hno _ (by simp)),
    hd .ready (hno _ (by simp)), hd .config (hno _ (by simp)), hd .opener (hno _ (by simp)),
    hd .active (hno _ (by simp))⟩

/-! ## The stages of a thread -/

/-- Outside the lock before or after the first flush of an open, or inside it with a buffer that is small or may have
outgrown its capacity. -/
inductive Place where
  | fresh
  | out
  | clean
  | dirty

/-- `opening` is an open without an engine yet; `flag` says that the thread opened the engine. -/
inductive Room where
  | rest
  | opening
  | at (capacity : ℕ) (flag : Bool) (place : Place)

def Room.holds : Room → Bool
  | .at _ _ .clean | .at _ _ .dirty => true
  | _ => false

inductive RoomStep : Room → (o : Act) → Res o → Room → Prop
  | aside {s : Room} {o : Act} {r : Res o} (hs : s ≠ .rest) (h : o.aside = true) : RoomStep s o r s
  | lock {n : ℕ} {b : Bool} {r : Unit} : RoomStep (.at n b .out) .lock r (.at n b .clean)
  | lockFresh {n : ℕ} {b : Bool} {r : Unit} : RoomStep (.at n b .fresh) .lock r (.at n b .dirty)
  | look {n : ℕ} {b : Bool} {r : MemTable × List SsTable × Bool} (h : Small n r.1) :
      RoomStep (.at n b .dirty) .inner r (.at n b .clean)
  | apply {n : ℕ} {b : Bool} {ops : List Entry} {r : Unit} :
      RoomStep (.at n b .clean) (.apply ops) r (.at n b .dirty)
  | take {n : ℕ} {b : Bool} {r : List Entry} : RoomStep (.at n b .dirty) .take r (.at n b .clean)
  | takeClean {n : ℕ} {b : Bool} {r : List Entry} : RoomStep (.at n b .clean) .take r (.at n b .clean)
  | unlock {n : ℕ} {b : Bool} {r : Unit} : RoomStep (.at n b .clean) .unlock r (.at n b .out)
  | start {config : LsmConfig} {features : Features} {m : MemTable} {runs : List SsTable} {open_ : Bool} {q : ℕ}
      {r : Unit} (h : m.Exact) :
      RoomStep .opening (.startEngine config features m runs open_ q) r (.at config.memtableCapacity true .fresh)
  | drop {n : ℕ} {r : Unit} : RoomStep (.at n true .out) .dropEngine r .opening

def RoomEnds (call : Call) (s : Room) (reply : Reply) : Prop :=
  match call with
  | .openWith _ _ => if reply.isOk then ∃ n, s = .at n true .out else s = .opening
  | _ => ∃ n, s = .at n false .out

/-! ## The programs -/

/-- Stages of the thread in a stretch beside the buffer. -/
theorem FollowsM.beside {α : Type} {x : M α} {s : Room} {Q : Room → α → Prop} {E : Room → Error → Prop}
    (hx : AsideP x.run) (hs : s ≠ .rest) (hq : ∀ v, Q s v) (he : ∀ err, E s err) : FollowsM RoomStep Q E x s :=
  FollowsM.still hx (fun _ _ ho => .aside hs ho) hq he

omit [Deps] in
theorem small_of_isEmpty {n : ℕ} {m : MemTable} (h : m.isEmpty = true) : Small n m := Or.inl (m.isEmpty_iff.mp h)

/-- A flush takes the buffer first, and does not touch it again. -/
theorem room_flushLocked {n : ℕ} {b : Bool} {s : Room} (hs : s = .at n b .clean ∨ s = .at n b .dirty) :
    FollowsM RoomStep (fun s _ => s = .at n b .clean) (fun s _ => s = .at n b .clean) (flushLocked config features) s := by
  have htake : ∀ r, RoomStep s .take r (.at n b .clean) := by
    intro r
    rcases hs with rfl | rfl
    · exact .takeClean
    · exact .take
  have hrest : ∀ {α : Type} {x : M α} {Q : Room → α → Prop}, AsideP x.run → (∀ v, Q (.at n b .clean) v) →
      FollowsM RoomStep Q (fun s _ => s = .at n b .clean) x (.at n b .clean) := fun hx hq =>
    FollowsM.beside hx (by simp) hq fun _ => rfl
  refine FollowsM.perform fun entries => ⟨_, htake entries, ?_⟩
  refine hrest (uses_perform rfl fun seq => ?_) fun _ => rfl
  refine uses_bind (quiet_buildRun ..).aside fun table => ?_
  refine uses_perform rfl fun inner => uses_perform rfl fun nextSeq => ?_
  refine uses_bind (aside_storeManifest _ _) fun _ => uses_perform rfl fun _ => ?_
  refine uses_bind (aside_rotate features) fun _ => ?_
  split_ifs
  · exact uses_last rfl
  · trivial

theorem room_flush {b : Bool} {n : ℕ} {s : Room} (hs : s = .at n b .out ∨ s = .at n b .fresh) :
    FollowsM RoomStep (fun s _ => s = .at n b .out) (fun s _ => s = .at n b .out) (flush config features) s := by
  -- from either side the lock is taken; an empty buffer is small
  obtain ⟨s₁, hlock, hs₁⟩ : ∃ s₁, RoomStep s .lock () s₁ ∧ (s₁ = .at n b .clean ∨ s₁ = .at n b .dirty) := by
    rcases hs with rfl | rfl
    · exact ⟨_, .lock, Or.inl rfl⟩
    · exact ⟨_, .lockFresh, Or.inr rfl⟩
  refine FollowsM.withGuard hlock (FollowsM.perform fun inner => ?_)
  cases hempty : inner.1.isEmpty with
  | true =>
    refine ⟨.at n b .clean, ?_, ?_⟩
    · rcases hs₁ with rfl | rfl
      · exact .aside (by simp) rfl
      · exact .look (small_of_isEmpty hempty)
    · rw [if_pos rfl]
      exact ⟨_, .unlock, rfl⟩
  | false =>
    refine ⟨s₁, .aside (by rcases hs₁ with rfl | rfl <;> simp) rfl, ?_⟩
    rw [if_neg (by simp)]
    refine Prog.Follows.mono (room_flushLocked hs₁) fun s r hr => ?_
    cases r with
    | ok v => exact ⟨_, by rw [hr]; exact .unlock, rfl⟩
    | error err => exact ⟨_, by rw [hr]; exact .unlock, rfl⟩

theorem room_writeOps (ops : List Entry) {b : Bool} :
    FollowsM RoomStep (fun s _ => s = .at config.memtableCapacity b .out) (fun s _ => s = .at config.memtableCapacity b .out)
      (writeOps config features ops) (.at config.memtableCapacity b .out) := by
  refine FollowsM.withGuard .lock ?_
  refine FollowsM.bind (FollowsM.beside (aside_logOps features ops) (by simp) (fun _ => ?_) fun _ => ⟨_, .unlock, rfl⟩)
  refine FollowsM.perform fun _ => ⟨_, .apply, ?_⟩
  refine FollowsM.perform fun inner => ?_
  by_cases hfull : (!inner.1.isEmpty && decide (config.memtableCapacity ≤ inner.1.approxSize)) = true
  · refine ⟨_, .aside (by simp) rfl, ?_⟩
    simp only [hfull, if_true]
    refine Prog.Follows.mono (room_flushLocked (Or.inr rfl)) fun s r hr => ?_
    cases r with
    | ok v => exact ⟨_, by rw [hr]; exact .unlock, rfl⟩
    | error err => exact ⟨_, by rw [hr]; exact .unlock, rfl⟩
  · have hsmall : Small config.memtableCapacity inner.1 := by
      rcases hempty : inner.1.isEmpty with _ | _
      · refine Or.inr ?_
        simpa [hempty] using hfull
      · exact small_of_isEmpty hempty
    refine ⟨_, .look hsmall, ?_⟩
    simp only [hfull]
    exact ⟨_, .unlock, rfl⟩

theorem room_mergeRuns {n : ℕ} (inputs : List SsTable) :
    FollowsM RoomStep (fun s _ => s = .at n false .out) (fun s _ => s = .at n false .out) (mergeRuns features inputs)
      (.at n false .out) := by
  have hout : ∀ {α : Type} {x : M α} {Q : Room → α → Prop}, AsideP x.run → (∀ v, Q (.at n false .out) v) →
      FollowsM RoomStep Q (fun s _ => s = .at n false .out) x (.at n false .out) := fun hx hq =>
    FollowsM.beside hx (by simp) hq fun _ => rfl
  unfold mergeRuns
  refine FollowsM.perform fun seq => ⟨_, .aside (by simp) rfl, ?_⟩
  refine FollowsM.perform fun faults => ⟨_, .aside (by simp) rfl, ?_⟩
  refine FollowsM.bind (hout (quiet_buildRun ..).aside fun output => ?_)
  refine FollowsM.withGuard .lock (FollowsM.beside ?_ (by simp) (fun _ => ⟨_, .unlock, rfl⟩) fun _ => ⟨_, .unlock, rfl⟩)
  refine uses_perform rfl fun inner => uses_perform rfl fun nextSeq => ?_
  exact uses_bind (aside_storeManifest _ _) fun _ => uses_last rfl

theorem room_compactorRound {n : ℕ} :
    FollowsM RoomStep (fun s _ => s = .at n false .out) (fun s _ => s = .at n false .out) (compactorRound features)
      (.at n false .out) := by
  have hstep : ∀ {o : Act} {r : Res o}, o.aside = true → RoomStep (.at n false .out) o r (.at n false .out) :=
    fun ho => .aside (by simp) ho
  refine follows_perform fun _ => ⟨_, hstep rfl, ?_⟩
  -- the flags are beside the buffer; what is between them is the merge
  have honce : (compactOnce features).run.Follows RoomStep (fun s _ => s = .at n false .out) (.at n false .out) := by
    refine follows_perform fun busy => ⟨_, hstep rfl, ?_⟩
    cases busy with
    | true => exact rfl
    | false =>
      refine Prog.Follows.bind (Prog.Follows.mono (Q := fun s _ => s = .at n false .out) ?_ fun s r hs => ?_)
      · refine follows_perform fun snap => ⟨_, hstep rfl, ?_⟩
        dsimp only
        split_ifs
        · exact rfl
        · refine Prog.Follows.bind (Prog.Follows.mono (room_mergeRuns snap.2) fun s r hs => ?_)
          have hs' : s = .at n false .out := by cases r <;> exact hs
          subst hs'
          refine Prog.Follows.bind ((quiet_dropRuns snap.2).aside.follows (fun _ _ ho => hstep ho) fun _ => ?_)
          exact rfl
      · subst hs
        exact follows_perform fun _ => ⟨_, hstep rfl, rfl⟩
  refine Prog.Follows.bind (Prog.Follows.mono honce fun s r hs => ?_)
  subst hs
  refine follows_perform fun _ => ⟨_, hstep rfl, ?_⟩
  cases r with
  | ok v => exact rfl
  | error err => exact rfl

omit [Deps] in
theorem replayLog_exact {records : List Bytes} {m m' : MemTable} (hm : m.Exact) (h : replayLog m records = .ok m') :
    m'.Exact := by
  induction records generalizing m with
  | nil =>
    obtain rfl := Except.ok.inj h
    exact hm
  | cons record records ih =>
    simp only [replayLog, bind, Except.bind] at h
    split at h
    · simp at h
    · exact ih (hm.applyAll _) h

theorem room_openLog : FollowsM RoomStep (fun s m => s = .opening ∧ m.Exact) (fun s _ => s = .opening) (openLog features)
    .opening := by
  unfold openLog
  split_ifs
  · refine FollowsM.bind (FollowsM.beside (uses_io (uses_op rfl)) (by simp) (fun _ => ?_) fun _ => rfl)
    refine FollowsM.bind (x := ExceptT.mk (perform .walIter)) (FollowsM.beside (uses_op (o := .walIter) rfl) (by simp)
      (fun records => ?_) fun _ => rfl)
    cases hreplay : replayLog MemTable.new records with
    | error err => exact rfl
    | ok m => exact ⟨rfl, replayLog_exact MemTable.exact_new hreplay⟩
  · exact ⟨rfl, MemTable.exact_new⟩

theorem room_openWith : FollowsM RoomStep (fun s _ => ∃ n, s = .at n true .out) (fun s _ => s = .opening)
    (openWith config features) .opening := by
  have hopening : ∀ {α : Type} {x : M α} {Q : Room → α → Prop}, AsideP x.run → (∀ v, Q .opening v) →
      FollowsM RoomStep Q (fun s _ => s = .opening) x .opening := fun hx hq =>
    FollowsM.beside hx (by simp) hq fun _ => rfl
  unfold openWith
  refine FollowsM.bind (hopening (uses_io (uses_op rfl)) fun _ => ?_)
  refine FollowsM.bind (hopening quiet_loadManifest.aside fun manifest => ?_)
  refine FollowsM.bind (hopening (quiet_openRuns ..).aside fun runs => ?_)
  refine FollowsM.bind (hopening (uses_io (uses_op rfl)) fun found => ?_)
  refine FollowsM.bind (hopening (quiet_reclaim ..).aside fun nextSeq => ?_)
  have hengine : ∀ m : MemTable, m.Exact → FollowsM RoomStep (fun s _ => ∃ n, s = .at n true .out) (fun s _ => s = .opening) (do
      perform (.startEngine config features m runs features.durability nextSeq)
      orDrop do
        flush config features
        io "spawn compaction thread" (perform .spawn) : M Unit) .opening := by
    intro m hm
    refine FollowsM.perform fun _ => ⟨_, .start hm, ?_⟩
    have hflush : FollowsM RoomStep (fun s _ => s = .at config.memtableCapacity true .out)
        (fun s _ => s = .at config.memtableCapacity true .out) (do
          flush config features
          io "spawn compaction thread" (perform .spawn) : M Unit) (.at config.memtableCapacity true .fresh) := by
      refine FollowsM.bind (Prog.Follows.mono (room_flush (Or.inr rfl)) fun s r hr => ?_)
      cases r with
      | error err => exact hr
      | ok v =>
        obtain rfl : s = _ := hr
        exact FollowsM.beside (uses_io (uses_op rfl)) (by simp) (fun _ => rfl) fun _ => rfl
    refine Prog.Follows.bind (Prog.Follows.mono hflush fun s r hr => ?_)
    cases r with
    | ok v => exact ⟨_, hr⟩
    | error err =>
      obtain rfl : s = _ := hr
      exact follows_perform fun _ => ⟨_, .drop, rfl⟩
  have hrest : FollowsM RoomStep (fun s _ => ∃ n, s = .at n true .out) (fun s _ => s = .opening) (do
      let memtable ← openLog features
      perform (.startEngine config features memtable runs features.durability nextSeq)
      orDrop do
        flush config features
        io "spawn compaction thread" (perform .spawn) : M Unit) .opening := by
    refine FollowsM.bind (Prog.Follows.mono room_openLog fun s r hr => ?_)
    cases r with
    | error err => exact hr
    | ok m =>
      obtain ⟨rfl, hm⟩ := hr
      exact hengine m hm
  dsimp only
  split_ifs
  · exact rfl
  · exact hrest

theorem aside_of_reading {o : Act} (h : o.reading = true) : o.aside = true := by
  cases o <;> first | rfl | simp [Act.reading, Act.quiet] at h

/-- The stage a call starts in. -/
def startRoom (w : World) : Call → Room
  | .openWith _ _ => .opening
  | _ => .at w.config.memtableCapacity false .out

theorem room_call (call : Call) :
    (call.program w.config w.features).Follows RoomStep (RoomEnds call) (startRoom w call) := by
  have hread : ∀ {α : Type} {x : P α} {f : α → Reply} {call : Call}, Reader x →
      (∀ s reply, RoomEnds call s reply ↔ ∃ n, s = .at n false .out) →
      (f <$> x).Follows RoomStep (RoomEnds call) (.at w.config.memtableCapacity false .out) := by
    intro α x f call hx hends
    refine Prog.Follows.bind ((hx.reading.mono fun _ => aside_of_reading).follows
      (fun _ _ ho => .aside (by simp) ho) fun v => ?_)
    exact (hends _ _).mpr ⟨_, rfl⟩
  have hunit : ∀ {x : M Unit} {call : Call}, FollowsM RoomStep (fun s _ => s = .at w.config.memtableCapacity false .out)
      (fun s _ => s = .at w.config.memtableCapacity false .out) x (.at w.config.memtableCapacity false .out) →
      (∀ s reply, RoomEnds call s reply ↔ ∃ n, s = .at n false .out) →
      (Reply.unit <$> x.run : P Reply).Follows RoomStep (RoomEnds call) (.at w.config.memtableCapacity false .out) := by
    intro x call hx hends
    refine Prog.Follows.bind (Prog.Follows.mono hx fun s r hr => (hends _ _).mpr ⟨w.config.memtableCapacity, ?_⟩)
    cases r <;> exact hr
  cases call with
  | put key value => exact hunit (room_writeOps _) fun _ _ => Iff.rfl
  | delete key => exact hunit (room_writeOps _) fun _ _ => Iff.rfl
  | write batch => exact hunit (room_writeOps _) fun _ _ => Iff.rfl
  | get key => exact hread (reader_get key) fun _ _ => Iff.rfl
  | scan range => exact hread (reader_scan range) fun _ _ => Iff.rfl
  | flush => exact hunit (room_flush (Or.inl rfl)) fun _ _ => Iff.rfl
  | compact => exact hunit room_compactorRound fun _ _ => Iff.rfl
  | openWith config features =>
    refine Prog.Follows.bind (Prog.Follows.mono room_openWith fun s r hr => ?_)
    cases r with
    | ok v => exact hr
    | error err => exact hr

/-! ## The invariant -/

structure Roomy (w : World) (S : Tid → Room) : Prop where
  exact : w.memtable.Exact
  holder : ∀ t, w.lock = some t ↔ (S t).holds = true
  clean : ∀ t n b, S t = .at n b .clean → Small n w.memtable
  free : w.live = true → w.lock = none → (∀ t n b, S t ≠ .at n b .fresh) →
    Small w.config.memtableCapacity w.memtable
  capacity : ∀ t n b p, S t = .at n b p → w.live = true ∧ w.config.memtableCapacity = n
  closed : ∀ t, S t = .opening → w.live = false ∧ w.opener = some t
  opener : ∀ t n p, S t = .at n true p → w.opener = some t
  fresh : ∀ t n b, S t = .at n b .fresh → b = true
  alone : ∀ t, w.opener = some t → ∀ t', t' ≠ t → S t' = .rest
  active : ∀ t, S t ≠ .rest → t ∈ w.active
  ready : w.ready = true → w.live = true ∧ w.opener = none

theorem Roomy.lock_none {S : Tid → Room} (h : Roomy w S) (hall : ∀ t, (S t).holds = false) : w.lock = none := by
  cases hl : w.lock with
  | none => rfl
  | some t =>
    have := (h.holder t).mp hl
    rw [hall t] at this
    cases this

/-- Nobody is fresh while a thread is past that stage. -/
theorem Roomy.no_fresh {S : Tid → Room} (h : Roomy w S) (hs : S t ≠ .rest) (hf : ∀ n b, S t ≠ .at n b .fresh) :
    ∀ t' n b, S t' ≠ .at n b .fresh := by
  intro t' n b hfresh
  have hb := h.fresh t' n b hfresh
  subst hb
  have hopen := h.opener t' n _ hfresh
  by_cases ht : t = t'
  · subst ht
    exact hf n true hfresh
  · exact hs (h.alone t' hopen t ht)

theorem Roomy.aside {S : Tid → Room} (h : Roomy w S) (ha : Aside w w') : Roomy w' S where
  exact := by rw [ha.memtable]; exact h.exact
  holder t := by rw [ha.lock]; exact h.holder t
  clean t n b ht := by rw [ha.memtable]; exact h.clean t n b ht
  free := by rw [ha.live, ha.lock, ha.config, ha.memtable]; exact h.free
  capacity t n b p ht := by rw [ha.live, ha.config]; exact h.capacity t n b p ht
  closed t ht := by rw [ha.live, ha.opener]; exact h.closed t ht
  opener t n p ht := by rw [ha.opener]; exact h.opener t n p ht
  fresh := h.fresh
  alone := by rw [ha.opener]; exact h.alone
  active := by rw [ha.active]; exact h.active
  ready := by rw [ha.ready, ha.live, ha.opener]; exact h.ready

/-- A thread moves between places, and changes the buffer only while it holds the lock. -/
theorem Roomy.move {S : Tid → Room} {n : ℕ} {b : Bool} {p p' : Place} (h : Roomy w S) (hs : S t = .at n b p)
    (hw : w' = { w with memtable := w'.memtable, lock := w'.lock, spec := w'.spec }) (hexact : w'.memtable.Exact)
    (hlock : w'.lock = some t ∧ (p' = .clean ∨ p' = .dirty) ∧ (w.lock = none ∨ w.lock = some t) ∨
      w'.lock = none ∧ w.lock = some t ∧ p' = .out)
    (hclean : p' = .clean ∨ p' = .out → Small n w'.memtable) (hmem : w'.memtable = w.memtable ∨ w.lock = some t) :
    Roomy w' (Function.update S t (.at n b p')) := by
  have hother : ∀ {t' : Tid}, t' ≠ t → (S t').holds = false := by
    intro t' ht
    rw [Bool.eq_false_iff]
    intro hholds
    have hl := (h.holder t').mpr hholds
    rcases hlock with ⟨_, _, hnone | hsome⟩ | ⟨_, hsome, _⟩
    · rw [hnone] at hl
      cases hl
    · rw [hsome] at hl
      exact ht (Option.some.inj hl).symm
    · rw [hsome] at hl
      exact ht (Option.some.inj hl).symm
  have hplace : p' ≠ .fresh := by
    rcases hlock with ⟨_, rfl | rfl, _⟩ | ⟨_, _, rfl⟩ <;> simp
  obtain ⟨hlive, hcap⟩ := h.capacity t n b p hs
  have hlive' : w'.live = w.live := by rw [hw]
  have hconf : w'.config = w.config := by rw [hw]
  have hopener : w'.opener = w.opener := by rw [hw]
  have hactive : w'.active = w.active := by rw [hw]
  have hready : w'.ready = w.ready := by rw [hw]
  refine ⟨hexact, fun t' => ?_, ?_, ?_, ?_, ?_, ?_, ?_, ?_, ?_, ?_⟩
  · by_cases ht : t' = t
    · subst ht
      rw [Function.update_self]
      rcases hlock with ⟨hl, rfl | rfl, _⟩ | ⟨hl, _, rfl⟩ <;> simp [hl, Room.holds]
    · rw [Function.update_of_ne ht, hother ht]
      rcases hlock with ⟨hl, _⟩ | ⟨hl, _⟩ <;> simp [hl, Ne.symm ht]
  · intro t' m c
    by_cases ht : t' = t
    · subst ht
      rw [Function.update_self]
      rintro ⟨⟩
      exact hclean (Or.inl rfl)
    · rw [Function.update_of_ne ht]
      intro ht'
      have hno := hother ht
      rw [ht'] at hno
      cases hno
  · intro _ hnone _
    rcases hlock with ⟨hl, _⟩ | ⟨_, _, rfl⟩
    · rw [hl] at hnone
      cases hnone
    · rw [hconf, hcap]
      exact hclean (Or.inr rfl)
  · intro t' m c q
    rw [hlive', hconf]
    by_cases ht : t' = t
    · subst ht
      rw [Function.update_self]
      rintro ⟨⟩
      exact ⟨hlive, hcap⟩
    · rw [Function.update_of_ne ht]
      exact h.capacity t' m c q
  · intro t'
    rw [hlive', hopener]
    by_cases ht : t' = t
    · subst ht
      rw [Function.update_self]
      rintro ⟨⟩
    · rw [Function.update_of_ne ht]
      exact h.closed t'
  · intro t' m q
    rw [hopener]
    by_cases ht : t' = t
    · subst ht
      rw [Function.update_self]
      rintro ⟨⟩
      exact h.opener t' n p hs
    · rw [Function.update_of_ne ht]
      exact h.opener t' m q
  · intro t' m c
    by_cases ht : t' = t
    · subst ht
      rw [Function.update_self]
      rintro ⟨⟩
      exact absurd rfl hplace
    · rw [Function.update_of_ne ht]
      exact h.fresh t' m c
  · intro t₀ ho t' ht'
    rw [hopener] at ho
    by_cases ht : t' = t
    · subst ht
      have hrest := h.alone t₀ ho t' ht'
      rw [hs] at hrest
      cases hrest
    · rw [Function.update_of_ne ht]
      exact h.alone t₀ ho t' ht'
  · intro t'
    rw [hactive]
    by_cases ht : t' = t
    · subst ht
      exact fun _ => h.active t' (by rw [hs]; simp)
    · rw [Function.update_of_ne ht]
      exact h.active t'
  · rw [hready, hlive', hopener]
    exact h.ready

/-- Nobody is around but a thread that opens, if anybody. -/
theorem roomy_sole {S : Tid → Room} {s : Room} (hrest : ∀ t', t' ≠ t → S t' = .rest) (hexact : w.memtable.Exact)
    (hlock : w.lock = none)
    (hs : (s = .opening ∨ s = .rest) ∧ w.live = false ∨ s = .at w.config.memtableCapacity true .fresh ∧ w.live = true)
    (hopener : s ≠ .rest → w.opener = some t ∧ t ∈ w.active) (honly : ∀ t', w.opener = some t' → t' = t)
    (hready : w.ready = false) : Roomy w (Function.update S t s) := by
  have hat : ∀ {t' : Tid}, Function.update S t s t' ≠ .rest → t' = t := by
    intro t' hne
    by_contra ht
    rw [Function.update_of_ne ht] at hne
    exact hne (hrest t' ht)
  have hstage : ∀ {t' : Tid} {x : Room}, x ≠ .rest → Function.update S t s t' = x → t' = t ∧ s = x := by
    intro t' x hx heq
    obtain rfl := hat (by rw [heq]; exact hx)
    rw [Function.update_self] at heq
    exact ⟨rfl, heq⟩
  refine ⟨hexact, fun t' => ?_, ?_, ?_, ?_, ?_, ?_, ?_, ?_, ?_, ?_⟩
  · rw [hlock]
    refine ⟨fun h => (by cases h), fun h => ?_⟩
    have hne : Function.update S t s t' ≠ .rest := fun heq => by rw [heq] at h; cases h
    rw [hat hne, Function.update_self] at h
    rcases hs with ⟨rfl | rfl, _⟩ | ⟨rfl, _⟩ <;> cases h
  · intro t' n b heq
    obtain ⟨_, rfl⟩ := hstage (by simp) heq
    simp at hs
  · intro hlive _ hno
    rcases hs with ⟨_, hdead⟩ | ⟨rfl, _⟩
    · rw [hdead] at hlive
      cases hlive
    · exact absurd (Function.update_self ..) (hno t _ _)
  · intro t' n b p heq
    obtain ⟨_, rfl⟩ := hstage (by simp) heq
    rcases hs with ⟨hs | hs, _⟩ | ⟨hs, hlive⟩
    · cases hs
    · cases hs
    · cases hs
      exact ⟨hlive, rfl⟩
  · intro t' heq
    obtain ⟨rfl, rfl⟩ := hstage (by simp) heq
    rcases hs with ⟨_, hdead⟩ | ⟨hs, _⟩
    · exact ⟨hdead, (hopener (by simp)).1⟩
    · cases hs
  · intro t' n p heq
    obtain ⟨rfl, rfl⟩ := hstage (by simp) heq
    exact (hopener (by simp)).1
  · intro t' n b heq
    obtain ⟨_, rfl⟩ := hstage (by simp) heq
    rcases hs with ⟨hs | hs, _⟩ | ⟨hs, _⟩ <;> cases hs
    rfl
  · intro t₀ ho t' ht'
    rw [honly t₀ ho] at ht'
    rw [Function.update_of_ne ht']
    exact hrest t' ht'
  · intro t' hne
    have ht := hat hne
    subst ht
    rw [Function.update_self] at hne
    exact (hopener hne).2
  · intro hr
    rw [hready] at hr
    cases hr

theorem Roomy.others_rest {S : Tid → Room} (h : Roomy w S) (ho : w.opener = some t) : ∀ t', t' ≠ t → S t' = .rest :=
  h.alone t ho

theorem Roomy.step {S : Tid → Room} {o : Act} {ch : Choice} {r : Res o} {s : Room} (h : Roomy w S)
    (hx : exec t o ch w = some (r, w')) (hn : RoomStep (S t) o r s) : Roomy w' (Function.update S t s) := by
  generalize hst : S t = st at hn
  cases hn with
  | aside hs ho =>
    rw [← hst, Function.update_eq_self]
    exact h.aside (exec_aside ho hx)
  | lock =>
    simp only [exec] at hx
    split_ifs at hx with hlock
    obtain ⟨_, rfl⟩ := Prod.mk.inj (Option.some.inj hx)
    obtain ⟨hlive, hcap⟩ := h.capacity t _ _ _ hst
    have hsmall := h.free hlive hlock (h.no_fresh (t := t) (by rw [hst]; simp) (by rw [hst]; simp))
    exact h.move hst rfl h.exact (Or.inl ⟨rfl, Or.inl rfl, Or.inl hlock⟩) (fun _ => by rw [← hcap]; exact hsmall)
      (Or.inl rfl)
  | lockFresh =>
    simp only [exec] at hx
    split_ifs at hx with hlock
    obtain ⟨_, rfl⟩ := Prod.mk.inj (Option.some.inj hx)
    exact h.move hst rfl h.exact (Or.inl ⟨rfl, Or.inr rfl, Or.inl hlock⟩) (by simp) (Or.inl rfl)
  | look hsmall =>
    obtain ⟨rfl, rfl⟩ := Prod.mk.inj (Option.some.inj hx)
    have hlock := (h.holder t).mpr (by rw [hst]; rfl)
    exact h.move hst rfl h.exact (Or.inl ⟨hlock, Or.inl rfl, Or.inr hlock⟩) (fun _ => hsmall) (Or.inl rfl)
  | apply =>
    obtain ⟨_, rfl⟩ := Prod.mk.inj (Option.some.inj hx)
    have hlock := (h.holder t).mpr (by rw [hst]; rfl)
    exact h.move hst rfl (h.exact.applyAll _) (Or.inl ⟨hlock, Or.inr rfl, Or.inr hlock⟩) (by simp) (Or.inr hlock)
  | take =>
    obtain ⟨_, rfl⟩ := Prod.mk.inj (Option.some.inj hx)
    have hlock := (h.holder t).mpr (by rw [hst]; rfl)
    exact h.move hst rfl (MemTable.exact_take w.memtable) (Or.inl ⟨hlock, Or.inl rfl, Or.inr hlock⟩) (fun _ => Or.inl rfl)
      (Or.inr hlock)
  | takeClean =>
    obtain ⟨_, rfl⟩ := Prod.mk.inj (Option.some.inj hx)
    have hlock := (h.holder t).mpr (by rw [hst]; rfl)
    exact h.move hst rfl (MemTable.exact_take w.memtable) (Or.inl ⟨hlock, Or.inl rfl, Or.inr hlock⟩) (fun _ => Or.inl rfl)
      (Or.inr hlock)
  | unlock =>
    obtain ⟨_, rfl⟩ := Prod.mk.inj (Option.some.inj hx)
    have hlock := (h.holder t).mpr (by rw [hst]; rfl)
    exact h.move hst rfl h.exact (Or.inr ⟨rfl, hlock, rfl⟩) (fun _ => h.clean t _ _ hst) (Or.inl rfl)
  | start hexact =>
    obtain ⟨_, rfl⟩ := Prod.mk.inj (Option.some.inj hx)
    obtain ⟨hdead, ho⟩ := h.closed t hst
    have hready : w.ready = false := by
      rw [Bool.eq_false_iff]
      intro hr
      rw [(h.ready hr).1] at hdead
      cases hdead
    exact roomy_sole (h.others_rest ho) hexact rfl (Or.inr ⟨rfl, rfl⟩)
      (fun _ => ⟨ho, h.active t (by rw [hst]; simp)⟩) (fun t' ht' => Option.some.inj (ht'.symm.trans ho)) hready
  | drop =>
    obtain ⟨_, rfl⟩ := Prod.mk.inj (Option.some.inj hx)
    have ho := h.opener t _ _ hst
    exact roomy_sole (h.others_rest ho) MemTable.exact_new rfl (Or.inl ⟨Or.inl rfl, rfl⟩)
      (fun _ => ⟨ho, h.active t (by rw [hst]; simp)⟩) (fun t' ht' => Option.some.inj (ht'.symm.trans ho)) rfl

/-- A client starts or ends a call outside the lock. -/
theorem Roomy.outside {S : Tid → Room} {s : Room} (h : Roomy w S) (hmem : w'.memtable = w.memtable)
    (hlock : w'.lock = w.lock) (hlive : w'.live = w.live) (hready : w'.ready = w.ready) (hconf : w'.config = w.config)
    (hopener : w'.opener = w.opener) (hactive : ∀ t', t' ≠ t → t' ∈ w.active → t' ∈ w'.active)
    (hold : (S t).holds = false) (hfresh : ∀ n b, S t ≠ .at n b .fresh)
    (hs : s = .rest ∨ s = .at w.config.memtableCapacity false .out ∧ w.live = true ∧ w.opener = none ∧ t ∈ w'.active) :
    Roomy w' (Function.update S t s) := by
  have hstage : ∀ {t' : Tid} {x : Room}, Function.update S t s t' = x → t' = t ∧ s = x ∨ t' ≠ t ∧ S t' = x := by
    intro t' x heq
    by_cases ht : t' = t
    · subst ht
      rw [Function.update_self] at heq
      exact Or.inl ⟨rfl, heq⟩
    · rw [Function.update_of_ne ht] at heq
      exact Or.inr ⟨ht, heq⟩
  refine ⟨by rw [hmem]; exact h.exact, fun t' => ?_, ?_, ?_, ?_, ?_, ?_, ?_, ?_, ?_, ?_⟩
  · rw [hlock]
    by_cases ht : t' = t
    · subst ht
      rw [h.holder, hold, Function.update_self]
      rcases hs with rfl | ⟨rfl, _⟩ <;> simp [Room.holds]
    · rw [Function.update_of_ne ht]
      exact h.holder t'
  · intro t' n b heq
    rw [hmem]
    rcases hstage heq with ⟨_, rfl⟩ | ⟨_, heq⟩
    · simp at hs
    · exact h.clean t' n b heq
  · rw [hlive, hlock, hconf, hmem]
    intro hl hn hno
    refine h.free hl hn fun t' n b heq => ?_
    by_cases ht : t' = t
    · subst ht
      exact hfresh n b heq
    · exact hno t' n b (by rw [Function.update_of_ne ht]; exact heq)
  · intro t' n b p heq
    rw [hlive, hconf]
    rcases hstage heq with ⟨_, rfl⟩ | ⟨_, heq⟩
    · rcases hs with hs | ⟨hs, hl, _⟩
      · cases hs
      · cases hs
        exact ⟨hl, rfl⟩
    · exact h.capacity t' n b p heq
  · intro t' heq
    rw [hlive, hopener]
    rcases hstage heq with ⟨_, rfl⟩ | ⟨_, heq⟩
    · simp at hs
    · exact h.closed t' heq
  · intro t' n p heq
    rw [hopener]
    rcases hstage heq with ⟨_, rfl⟩ | ⟨_, heq⟩
    · simp at hs
    · exact h.opener t' n p heq
  · intro t' n b heq
    rcases hstage heq with ⟨_, rfl⟩ | ⟨_, heq⟩
    · simp at hs
    · exact h.fresh t' n b heq
  · intro t₀ ho t' ht'
    rw [hopener] at ho
    by_cases ht : t' = t
    · subst ht
      rw [Function.update_self]
      rcases hs with rfl | ⟨_, _, hnone, _⟩
      · rfl
      · rw [hnone] at ho
        cases ho
    · rw [Function.update_of_ne ht]
      exact h.alone t₀ ho t' ht'
  · intro t' hne
    by_cases ht : t' = t
    · subst ht
      rw [Function.update_self] at hne
      rcases hs with rfl | ⟨_, _, _, hin⟩
      · exact absurd rfl hne
      · exact hin
    · rw [Function.update_of_ne ht] at hne
      exact hactive t' ht (h.active t' hne)
  · rw [hready, hlive, hopener]
    exact h.ready

theorem Roomy.start {S : Tid → Room} {call : Call} (h : Roomy w S) (hcan : canStart w t call = true) :
    Roomy (started w t call) (Function.update S t (startRoom w call)) := by
  have hclient : w.ready = true → w.active.contains t = false → startRoom w call = .at w.config.memtableCapacity false .out →
      (started w t call).active = t :: w.active → (started w t call).memtable = w.memtable →
      (started w t call).lock = w.lock → (started w t call).live = w.live → (started w t call).ready = w.ready →
      (started w t call).config = w.config → (started w t call).opener = w.opener →
      Roomy (started w t call) (Function.update S t (startRoom w call)) := by
    intro hready hnew hroom hactive hmem hlock hlive hready' hconf hopener
    obtain ⟨hl, ho⟩ := h.ready hready
    have hrest : S t = .rest := by
      by_contra hne
      have hin := h.active t hne
      simp [hin] at hnew
    refine h.outside hmem hlock hlive hready' hconf hopener (fun t' _ hin => ?_) (by rw [hrest]; rfl) (by rw [hrest]; simp) ?_
    · rw [hactive]
      exact List.mem_cons_of_mem _ hin
    · exact Or.inr ⟨hroom, hl, ho, by rw [hactive]; exact List.mem_cons_self⟩
  cases call with
  | openWith config features =>
    simp only [canStart, Bool.and_eq_true, Bool.not_eq_true', List.isEmpty_iff] at hcan
    obtain ⟨⟨hdead, hidle⟩, _⟩ := hcan
    have hrest : ∀ t', S t' = .rest := by
      intro t'
      by_contra hne
      have hin := h.active t' hne
      rw [hidle] at hin
      cases hin
    have hready : w.ready = false := by
      rw [Bool.eq_false_iff]
      intro hr
      rw [(h.ready hr).1] at hdead
      cases hdead
    refine roomy_sole (fun t' _ => hrest t') h.exact ?_ (Or.inl ⟨Or.inl rfl, hdead⟩)
      (fun _ => ⟨rfl, List.mem_cons_self⟩) (fun t' ht' => (Option.some.inj ht').symm) hready
    exact h.lock_none fun t' => by rw [hrest t']; rfl
  | compact =>
    simp only [canStart, Bool.and_eq_true, Bool.not_eq_true'] at hcan
    exact hclient hcan.1.1 hcan.2 rfl rfl rfl rfl rfl rfl rfl rfl
  | _ =>
    simp only [canStart, Bool.and_eq_true, Bool.not_eq_true'] at hcan
    exact hclient hcan.1.1 hcan.2 rfl rfl rfl rfl rfl rfl rfl rfl

theorem Roomy.finish {S : Tid → Room} {call : Call} {reply : Reply} (h : Roomy w S) (hend : RoomEnds call (S t) reply) :
    Roomy (ended w t call reply) (Function.update S t .rest) := by
  have hclient : ∀ w₁ : World, (∃ n, S t = .at n false .out) → w₁.active = w.active.erase t → w₁.memtable = w.memtable →
      w₁.lock = w.lock → w₁.live = w.live → w₁.ready = w.ready → w₁.config = w.config → w₁.opener = w.opener →
      Roomy w₁ (Function.update S t .rest) := by
    rintro w₁ ⟨n, hs⟩ hactive hmem hlock hlive hready hconf hopener
    refine h.outside hmem hlock hlive hready hconf hopener (fun t' ht hin => ?_) (by rw [hs]; rfl) (by rw [hs]; simp)
      (Or.inl rfl)
    rw [hactive]
    exact (List.mem_erase_of_ne ht).mpr hin
  cases call with
  | openWith config features =>
    simp only [RoomEnds] at hend
    have hrest : ∀ n p, S t = .at n true p ∨ S t = .opening → ∀ t', t' ≠ t → S t' = .rest := by
      rintro n p (hs | hs)
      · exact h.others_rest (h.opener t n p hs)
      · exact h.others_rest (h.closed t hs).2
    have hdone : ∀ t', Function.update S t Room.rest t' = .rest := by
      intro t'
      by_cases ht : t' = t
      · rw [ht, Function.update_self]
      · rw [Function.update_of_ne ht]
        split_ifs at hend
        · obtain ⟨n, hs⟩ := hend
          exact hrest n _ (Or.inl hs) t' ht
        · exact hrest 0 .out (Or.inr hend) t' ht
    have hlock : w.lock = none := by
      refine h.lock_none fun t' => ?_
      by_cases ht : t' = t
      · subst ht
        split_ifs at hend
        · obtain ⟨n, hs⟩ := hend
          rw [hs]
          rfl
        · rw [hend]
          rfl
      · have := hdone t'
        rw [Function.update_of_ne ht] at this
        rw [this]
        rfl
    have hno : ∀ {t' : Tid} {x : Room}, x ≠ .rest → Function.update S t Room.rest t' ≠ x := by
      intro t' x hx heq
      rw [hdone t'] at heq
      exact hx heq.symm
    refine ⟨h.exact, fun t' => ?_, fun t' n b hs => absurd hs (hno (by simp)), ?_, fun t' n b p hs => absurd hs (hno (by simp)),
      fun t' hs => absurd hs (hno (by simp)), fun t' n p hs => absurd hs (hno (by simp)),
      fun t' n b hs => absurd hs (hno (by simp)), fun t' ho => ?_, fun t' hne => absurd (hdone t') hne, ?_⟩
    · show w.lock = some t' ↔ _
      rw [hlock, hdone t']
      simp [Room.holds]
    · intro hlive _ _
      have hlive : w.live = true := hlive
      split_ifs at hend
      · obtain ⟨n, hs⟩ := hend
        exact h.free hlive hlock (h.no_fresh (t := t) (by rw [hs]; simp) (by rw [hs]; simp))
      · rw [(h.closed t hend).1] at hlive
        cases hlive
    · cases ho
    · intro hok
      have hok : reply.isOk = true := hok
      rw [if_pos hok] at hend
      obtain ⟨n, hs⟩ := hend
      exact ⟨(h.capacity t n _ _ hs).1, rfl⟩
  | _ =>
    simp only [ended]
    split_ifs
    all_goals exact hclient _ hend rfl rfl rfl rfl rfl rfl rfl

theorem roomy_gone (S : Tid → Room) (h : ∀ t, S t = .rest) (hdead : w.live = false) (hexact : w.memtable.Exact)
    (hlock : w.lock = none) (hopener : w.opener = none) (hready : w.ready = false) : Roomy w S := by
  have hsole := roomy_sole (t := 0) (s := .rest) (fun t' _ => h t') hexact hlock (Or.inl ⟨Or.inr rfl, hdead⟩)
    (fun hne => absurd rfl hne) (fun t' ho => by rw [hopener] at ho; cases ho) hready
  rwa [← h 0, Function.update_eq_self] at hsole

/-- The write lock and the size of the buffer. -/
def roomProtocol : Protocol := ⟨Room, .rest, RoomStep, RoomEnds, Roomy⟩

theorem roomProtocol_sound (e : Env) : roomProtocol.Sound e fun _ _ => True where
  initial := roomy_gone _ (fun _ => rfl) rfl MemTable.exact_new rfl rfl rfl
  start c S t call h _ hcan := ⟨startRoom c.world call, room_call call, Roomy.start h.inv hcan⟩
  act c S t call o k choice r w s h _ _ hx hn _ := Roomy.step h.inv hx hn
  finish c S t call reply h _ hend := Roomy.finish h.inv hend
  crash c S damage _ := roomy_gone _ (fun _ => rfl) rfl MemTable.exact_new rfl rfl rfl
  close c S h hready hidle := by
    have hroom : Roomy c.world S := h.inv
    refine roomy_gone _ (fun t => ?_) rfl MemTable.exact_new rfl (hroom.ready hready).2 rfl
    by_contra hne
    have hin := hroom.active t hne
    rw [hidle] at hin
    cases hin

/-! ## The counter and the threshold -/

/-- The counter of a memtable is the sum of its key and value lengths, whatever is applied and taken; and in every run
of the engine, failures included, whoever releases the write lock leaves a memtable that is empty or below capacity. -/
theorem memtable_accounting (h : Reach e c) :
    (∀ uses : List MemTable.Use, let m := uses.foldl MemTable.use MemTable.new
      m.approxSize = MemTable.total m.iter ∧ (∀ key old, m.get key = some old → old.valueLen ≤ m.approxSize) ∧
        Ascending m.iter ∧ ∀ key, find m.iter key = uses.foldl MemTable.Use.note (fun _ => none) key) ∧
      c.world.memtable.approxSize = MemTable.total c.world.memtable.iter ∧
      (c.world.ready = true → c.world.lock = none → Small c.world.config.memtableCapacity c.world.memtable) ∧
      ∀ t call k choice c', c.threads t = .running call (.op .unlock k) → step c (.act t choice) = some c' →
        Small c'.world.config.memtableCapacity c'.world.memtable := by
  obtain ⟨S, hholds⟩ := (roomProtocol_sound e).at_runs h.runs
  have hroom : Roomy c.world S := hholds.inv
  refine ⟨fun uses => ?_, hroom.exact, fun hready hlock => ?_, fun t call k choice c' hth hstep => ?_⟩
  · obtain ⟨hexact, hlast⟩ := @MemTable.used_spec uses _ (fun _ => none) MemTable.exact_new fun _ => rfl
    exact ⟨hexact, fun key old => hexact.no_underflow, MemTable.iter_ascending _, hlast⟩
  · obtain ⟨hlive, hopener⟩ := hroom.ready hready
    refine hroom.free hlive hlock fun t n b hs => ?_
    have hb := hroom.fresh t n b hs
    subst hb
    rw [hroom.opener t n _ hs] at hopener
    cases hopener
  · have hfol := hholds.at_stage t
    rw [hth] at hfol
    obtain ⟨s, hnext, _⟩ := hfol ()
    rw [step_act hth (show exec t .unlock choice c.world = some ((), { c.world with lock := none }) from rfl)] at hstep
    obtain rfl := Option.some.inj hstep
    generalize hst : S t = st at hnext
    cases hnext with
    | aside _ ho => cases ho
    | unlock =>
      have hsmall := hroom.clean t _ _ hst
      rw [← (hroom.capacity t _ _ _ hst).2] at hsmall
      exact hsmall

omit [Deps] in
/-- A put that fills the memtable, one that does not, and a flush that fails. -/
theorem memtable_accounting_filled : letI := Deps.concrete
    ∃ c, Reach Env.wild c ∧ c.world.memtable.iter = [([2], .value [])] ∧
      Small c.world.config.memtableCapacity c.world.memtable ∧
      c.world.memtable.approxSize = MemTable.total c.world.memtable.iter := by
  let _ := Deps.concrete
  have hplay : Env.wild.leads [.alone 1 allOk (.openWith (LsmConfig.default.withMemtableCapacity 2) ⟨true, false⟩),
      .alone 1 allOk (.put [1] [7]), .alone 1 allOk (.put [3] []), .alone 2 (fun _ _ => .fail 0) .flush,
      .alone 1 allOk (.put [2] [])]
      (fun c => c.world.memtable.iter = [([2], .value [])] ∧ c.world.ready = true ∧ c.world.lock = none) = true := by
    decide +kernel
  obtain ⟨c, hreach, hc⟩ := Env.reach_leads hplay
  obtain ⟨hiter, hready, hlock⟩ := of_decide_eq_true hc
  obtain ⟨_, hexact, hsmall, _⟩ := memtable_accounting hreach
  exact ⟨c, hreach, hiter, hsmall hready hlock, hexact⟩

end Buffer
end LsmDb
