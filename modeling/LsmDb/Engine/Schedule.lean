import LsmDb.Engine.Alone
import LsmDb.Engine.During

/-! Schedules: runs of the system given as lists of moves. Playing a schedule checks that the environment
allows each step, so what it leads to can be reached. -/
namespace LsmDb
open Lib
set_option autoImplicit false

section Schedule
variable [Deps]

def Env.permitsAct (e : Env) (w : World) (t : Tid) (c : Choice) (o : Act) : Bool :=
  match o with
  | .fetchAdd => w.nextSeq + 1 < 2 ^ 64
  | .register _ run _ => !e.small ||
      (w.nextRunId < 2 ^ 64 && (!w.live || run.index.length ≤ 2 ^ 32 || !w.cache.enabled))
  | .startEngine config _ _ runs _ _ => !e.small || runs.all (fun r => r.index.length ≤ 2 ^ 32) ||
      !(BlockCache.new config.blockCacheCapacity).enabled
  | .readBlock _ _ | .readFaults => e.blockFaults || !c.faulty
  | .exists _ => e.statFaults || !c.faulty
  | .walOpen | .walIter | .walAppend _ | .walRemove | .remove _ => e.ioFaults || !o.fails w c
  | o =>
    if t = compactorTid ∨ w.opener = some t then e.ioFaults || !o.fails w c
    else e.flushFaults || !o.fails w c

theorem Env.allowsAct_of_permits {e : Env} {w : World} {t : Tid} {c : Choice} {o : Act}
    (h : e.permitsAct w t c o = true) : e.allowsAct w t o c := by
  cases o <;> simp only [Env.permitsAct, Env.allowsAct] at h ⊢ <;> try simpa using h
  case register name run filter =>
    intro hs
    simp only [hs, Bool.not_true, Bool.false_or, Bool.and_eq_true, Bool.or_eq_true, decide_eq_true_eq,
      Bool.not_eq_true'] at h
    refine ⟨h.1, fun hl => ?_⟩
    rw [hl] at h
    simpa using h.2
  case startEngine config features memtable runs walOpen nextSeq =>
    intro hs
    simpa [hs] using h

def Env.permitsCall (e : Env) (w : World) (call : Call) : Bool :=
  (e.limit.all fun l => call.ops.all fun op => op.1.length ≤ MAX_RECORD_LEN && op.2.valueLen ≤ l) &&
  (!e.counted || call.ops.length < 2 ^ 32) &&
  (!e.sequential || w.active.all fun t => t = compactorTid) &&
  match call with
  | .openWith _ features => e.durability.all fun d => features.durability = d
  | _ => true

theorem Env.allowsCall_of_permits {e : Env} {w : World} {call : Call} (h : e.permitsCall w call = true) :
    e.allowsCall w call := by
  simp only [Env.permitsCall, Bool.and_eq_true] at h
  obtain ⟨⟨⟨hsize, hcount⟩, hseq⟩, hopen⟩ := h
  refine ⟨fun l hl op hop => ?_, fun hc => ?_, fun hs t ht => ?_, ?_⟩
  · rw [hl] at hsize
    simp only [Option.all_some, List.all_eq_true, Bool.and_eq_true, decide_eq_true_eq] at hsize
    exact hsize op hop
  · simpa [hc] using hcount
  · simp only [hs, Bool.not_true, Bool.false_or, List.all_eq_true, decide_eq_true_eq] at hseq
    exact hseq t ht
  · rintro config features rfl d hd
    rw [hd] at hopen
    simpa using hopen

/-- Anything may happen. -/
def Env.wild : Env := ⟨true, true, true, true, none, false, false, false, none⟩

/-! ## Playing -/

/-- `runAlone`, with every choice checked. -/
def playProg (e : Env) (t : Tid) (pick : Act → World → Choice) : P Reply → World → Option (Reply × World)
  | .done reply, w => some (reply, w)
  | .op o k, w =>
    if e.permitsAct w t (pick o w) o then
      match exec t o (pick o w) w with
      | some (r, w') => playProg e t pick (k r) w'
      | none => none
    else none

inductive Move where
  /-- A call from start to return with nobody else moving. -/
  | alone (t : Tid) (pick : Act → World → Choice) (call : Call)
  /-- A call starts. -/
  | start (t : Tid) (call : Call)
  /-- A thread performs some operations. -/
  | acts (t : Tid) (choices : List Choice)
  | finish (t : Tid)
  | crash (damage : List (ℕ × Option Bytes))
  | close

def playActs (e : Env) (t : Tid) : List Choice → Config → Option Config
  | [], c => some c
  | choice :: choices, c =>
    match c.threads t with
    | .running _ (.op o _) =>
      if e.permitsAct c.world t choice o then (step c (.act t choice)).bind (playActs e t choices) else none
    | _ => none

def Move.play (e : Env) (c : Config) : Move → Option Config
  | .alone t pick call =>
    if canStart c.world t call && (t == compactorTid || e.permitsCall c.world call) then
      (playProg e t pick (call.program c.world.config c.world.features) (started c.world t call)).map fun r =>
        ⟨ended r.2 t call r.1, Function.update c.threads t (.replied call r.1)⟩
    else none
  | .start t call =>
    if t == compactorTid || e.permitsCall c.world call then step c (.start t call) else none
  | .acts t choices => playActs e t choices c
  | .finish t => step c (.finish t)
  | .crash damage => step c (.crash damage)
  | .close => step c .close

def Env.play (e : Env) (moves : List Move) : Option Config := moves.foldlM (Move.play e) Config.initial

variable {e : Env} {c c' : Config} {ok : World → Call → Prop}

/-- Runs in which every call meets a condition on the world it starts in. -/
inductive Runs (e : Env) (ok : World → Call → Prop) : Config → Prop
  | initial : Runs e ok Config.initial
  | step {c c' : Config} {l : Label} (hr : Runs e ok c) (hok : ∀ t call, l = .start t call → ok c.world call)
      (ha : e.allows c l) (hs : LsmDb.step c l = some c') : Runs e ok c'

theorem Runs.reach (h : Runs e ok c) : Reach e c := by
  induction h with
  | initial => exact .initial
  | step _ _ ha hs ih => exact .step ih ha hs

theorem Reach.runs (h : Reach e c) : Runs e (fun _ _ => True) c := by
  induction h with
  | initial => exact .initial
  | step _ ha hs ih => exact .step ih (fun _ _ _ => trivial) ha hs

/-! ## What a move keeps -/

/-- What every step of a thread keeps, its program keeps. -/
theorem playProg_keeps {K : Config → Prop} {t : Tid} {pick : Act → World → Choice} {call : Call} {prog : P Reply}
    {reply : Reply} {w : World}
    (hstep : ∀ c₁ c₂ choice, K c₁ → e.allows c₁ (.act t choice) → step c₁ (.act t choice) = some c₂ → K c₂)
    (h : K c) (hth : c.threads t = .running call prog) (hp : playProg e t pick prog c.world = some (reply, w)) :
    K ⟨w, Function.update c.threads t (.running call (.done reply))⟩ := by
  induction prog generalizing c with
  | done v =>
    simp only [playProg, Option.some.injEq, Prod.mk.injEq] at hp
    obtain ⟨rfl, rfl⟩ := hp
    rw [← hth, Function.update_eq_self]
    exact h
  | op o k ih =>
    simp only [playProg] at hp
    split_ifs at hp with hallow
    cases hx : exec t o (pick o c.world) c.world with
    | none => simp [hx] at hp
    | some p =>
      obtain ⟨r, w'⟩ := p
      simp only [hx] at hp
      have hnext := ih r (hstep _ _ _ h (allows_act hth (Env.allowsAct_of_permits hallow)) (step_act hth hx))
        (Function.update_self ..) hp
      rwa [Function.update_idem] at hnext

theorem playActs_keeps {K : Config → Prop} {t : Tid} {choices : List Choice}
    (hstep : ∀ c₁ c₂ choice, K c₁ → e.allows c₁ (.act t choice) → step c₁ (.act t choice) = some c₂ → K c₂)
    (h : K c) (hp : playActs e t choices c = some c') : K c' := by
  induction choices generalizing c with
  | nil =>
    obtain rfl := Option.some.inj hp
    exact h
  | cons choice choices ih =>
    simp only [playActs] at hp
    split at hp
    · rename_i call o k hth
      split_ifs at hp with hallow
      obtain ⟨c₁, hs, hrest⟩ := Option.bind_eq_some_iff.mp hp
      exact ih (hstep _ _ _ h (allows_act hth (Env.allowsAct_of_permits hallow)) hs) hrest
    · simp at hp

theorem step_start {t : Tid} {call : Call} (hcan : canStart c.world t call = true) :
    step c (.start t call) = some ⟨started c.world t call, Function.update c.threads t
      (.running call (call.program c.world.config c.world.features))⟩ := by
  simp only [step, hcan, if_true]

/-- The steps a move is made of. -/
def Move.emits : Move → Label → Prop
  | .alone t _ call, l => l = .start t call ∨ (∃ choice, l = .act t choice) ∨ l = .finish t
  | .start t call, l => l = .start t call
  | .acts t _, l => ∃ choice, l = .act t choice
  | .finish t, l => l = .finish t
  | .crash damage, l => l = .crash damage
  | .close, l => l = .close

/-- A move keeps what each of its steps keeps; a call starts where the move does. -/
theorem Move.keeps {K : Config → Prop} {m : Move}
    (hstep : ∀ c₁ c₂ l, m.emits l → (∀ t call, l = .start t call → c₁ = c) → K c₁ → e.allows c₁ l →
      step c₁ l = some c₂ → K c₂) (h : K c) (hp : m.play e c = some c') : K c' := by
  cases m with
  | alone t pick call =>
    simp only [Move.play] at hp
    split_ifs at hp with hcan
    simp only [Bool.and_eq_true, Bool.or_eq_true, beq_iff_eq] at hcan
    obtain ⟨⟨reply, w⟩, hprog, rfl⟩ := Option.map_eq_some_iff.mp hp
    have hstart := hstep _ _ _ (Or.inl rfl) (fun _ _ _ => rfl) h
      (fun ht => Env.allowsCall_of_permits (hcan.2.resolve_left ht)) (step_start hcan.1)
    have hdone := playProg_keeps (t := t)
      (fun c₁ c₂ choice => hstep c₁ c₂ _ (Or.inr (Or.inl ⟨choice, rfl⟩)) (by simp)) hstart (Function.update_self ..) hprog
    rw [Function.update_idem] at hdone
    refine hstep _ _ (.finish t) (Or.inr (Or.inr rfl)) (by simp) hdone trivial ?_
    simp only [LsmDb.step, Function.update_self, Function.update_idem]
  | start t call =>
    simp only [Move.play] at hp
    split_ifs at hp with hcan
    simp only [Bool.or_eq_true, beq_iff_eq] at hcan
    exact hstep _ _ _ rfl (fun _ _ _ => rfl) h (fun ht => Env.allowsCall_of_permits (hcan.resolve_left ht)) hp
  | acts t choices => exact playActs_keeps (fun c₁ c₂ choice => hstep c₁ c₂ _ ⟨choice, rfl⟩ (by simp)) h hp
  | finish t => exact hstep _ _ _ rfl (by simp) h trivial hp
  | crash damage => exact hstep _ _ _ rfl (by simp) h trivial hp
  | close => exact hstep _ _ _ rfl (by simp) h trivial hp

/-- The call a move starts. -/
def Move.call : Move → Option Call
  | .alone _ _ call | .start _ call => some call
  | _ => none

theorem Move.call_of_emits {m : Move} {t : Tid} {call : Call} (h : m.emits (.start t call)) : m.call = some call := by
  cases m <;> simp [Move.emits] at h <;> simp [Move.call, h]

theorem Runs.move {m : Move} (h : Runs e ok c) (hok : ∀ call, m.call = some call → ok c.world call)
    (hp : m.play e c = some c') : Runs e ok c' := by
  refine Move.keeps (fun c₁ c₂ l hl hfirst hr ha hs => hr.step (fun t call hstart => ?_) ha hs) h hp
  rw [hfirst t call hstart]
  exact hok call (Move.call_of_emits (hstart ▸ hl))

theorem Runs.moves {moves : List Move} (h : Runs e ok c)
    (hok : ∀ m ∈ moves, ∀ w call, m.call = some call → ok w call)
    (hp : moves.foldlM (Move.play e) c = some c') : Runs e ok c' := by
  induction moves generalizing c with
  | nil =>
    obtain rfl := Option.some.inj hp
    exact h
  | cons m moves ih =>
    rw [List.foldlM_cons] at hp
    obtain ⟨c₁, hm, hrest⟩ := Option.bind_eq_some_iff.mp hp
    have hnext := h.move (fun call hcall => hok m (by simp) _ call hcall) hm
    exact ih hnext (fun m' hm' => hok m' (List.mem_cons_of_mem _ hm')) hrest

theorem Reach.moves {moves : List Move} (h : Reach e c) (hp : moves.foldlM (Move.play e) c = some c') :
    Reach e c' := (h.runs.moves (fun _ _ _ _ _ => trivial) hp).reach

/-! ## Within a call -/

/-- A step of the thread itself, or of somebody else. -/
theorem During.step {t : Tid} {log : List Event} {c'' : Config} {l : Label} (h : During e t c log c')
    (hl : l.spares t ∨ ∃ choice, l = .act t choice) (ha : e.allows c' l) (hs : LsmDb.step c' l = some c'') :
    ∃ log, During e t c log c'' := by
  rcases hl with hl | ⟨choice, rfl⟩
  · exact ⟨log, h.other hl ha hs⟩
  · simp only [LsmDb.step] at hs
    split at hs
    · rename_i call o k hth
      split at hs
      · rename_i r w hx
        obtain rfl := Option.some.inj hs
        exact ⟨_, h.own hth (ha call o k hth) hx⟩
      · simp at hs
    · simp at hs

/-- A move that neither starts a call of the thread, nor ends one, nor the process. -/
def Move.within (t : Tid) : Move → Bool
  | .alone t' _ _ | .start t' _ | .finish t' => t' ≠ t
  | .acts _ _ => true
  | .crash _ | .close => false

theorem Move.spares_of_within {m : Move} {t : Tid} {l : Label} (h : m.within t = true) (hl : m.emits l) :
    l.spares t ∨ ∃ choice, l = .act t choice := by
  cases m with
  | alone t' pick call =>
    have hne : t' ≠ t := of_decide_eq_true h
    rcases hl with rfl | ⟨choice, rfl⟩ | rfl <;> exact Or.inl hne
  | acts t' choices =>
    obtain ⟨choice, rfl⟩ := hl
    by_cases ht : t' = t
    · exact Or.inr ⟨choice, by rw [ht]⟩
    · exact Or.inl ht
  | start t' call | finish t' =>
    obtain rfl := hl
    have hne : t' ≠ t := of_decide_eq_true h
    exact Or.inl hne
  | crash damage => cases h
  | close => cases h

theorem During.moves {t : Tid} {log : List Event} {c'' : Config} {moves : List Move} (h : During e t c log c')
    (hin : moves.all (Move.within t) = true) (hp : moves.foldlM (Move.play e) c' = some c'') :
    ∃ log, During e t c log c'' := by
  induction moves generalizing c' log with
  | nil =>
    obtain rfl := Option.some.inj hp
    exact ⟨log, h⟩
  | cons m moves ih =>
    rw [List.foldlM_cons] at hp
    obtain ⟨c₁, hm, hrest⟩ := Option.bind_eq_some_iff.mp hp
    simp only [List.all_cons, Bool.and_eq_true] at hin
    have hnext : ∃ log, During e t c log c₁ := by
      refine Move.keeps (K := fun c₁ => ∃ log, During e t c log c₁) (fun c₁ c₂ l hl _ hd ha hs => ?_) ⟨log, h⟩ hm
      obtain ⟨log₁, hd⟩ := hd
      exact hd.step (Move.spares_of_within hin.1 hl) ha hs
    obtain ⟨log₁, hd⟩ := hnext
    exact ih hd hin.2 hrest

/-- A call that starts and runs by itself up to its return. -/
theorem Reach.playCall {t : Tid} {pick : Act → World → Choice} {call : Call} {reply : Reply} {w : World}
    (h : Reach e c) (hcan : canStart c.world t call = true) (ha : e.allows c (.start t call))
    (hp : LsmDb.playProg e t pick (call.program c.world.config c.world.features) (started c.world t call) =
      some (reply, w)) :
    ∃ c₁ log c₂, Reach e c₁ ∧ c₁.world = started c.world t call ∧
      c₁.threads t = .running call (call.program c.world.config c.world.features) ∧ During e t c₁ log c₂ ∧
      c₂.world = w ∧ c₂.threads t = .running call (.done reply) := by
  let c₁ : Config := ⟨started c.world t call, Function.update c.threads t
    (.running call (call.program c.world.config c.world.features))⟩
  have hth : c₁.threads t = .running call (call.program c.world.config c.world.features) := Function.update_self ..
  obtain ⟨log, hd⟩ := playProg_keeps (K := fun c' => ∃ log, During e t c₁ log c')
    (fun c₂ c₃ choice ⟨log, hd⟩ => hd.step (Or.inr ⟨choice, rfl⟩)) ⟨[], .here⟩ hth hp
  exact ⟨c₁, log, _, h.step ha (step_start hcan), rfl, hth, hd, rfl, Function.update_self ..⟩

/-- What a schedule leads to can be reached. -/
theorem Env.reach_play {moves : List Move} (hp : e.play moves = some c) : Reach e c := Reach.initial.moves hp

/-- A schedule and a check of what it leads to. -/
def Env.leads (e : Env) (moves : List Move) (check : Config → Bool) : Bool := (e.play moves).any check

theorem Env.reach_leads {moves : List Move} {check : Config → Bool} (h : e.leads moves check = true) :
    ∃ c, Reach e c ∧ check c = true := by
  obtain ⟨c, hp, hc⟩ := (Option.any_eq_true _ _).mp h
  exact ⟨c, Env.reach_play hp, hc⟩

/-- A schedule, a call that starts there, what happens during the call, and a check of where it started and ended. -/
def Env.spans (e : Env) (moves : List Move) (t : Tid) (call : Call) (inside : List Move)
    (check : Config → Config → Bool) : Bool :=
  inside.all (Move.within t) && (e.play (moves ++ [.start t call])).any fun c =>
    (inside.foldlM (Move.play e) c).any (check c)

theorem Env.during_spans {moves inside : List Move} {t : Tid} {call : Call} {check : Config → Config → Bool}
    (h : e.spans moves t call inside check = true) :
    ∃ c config features log c', Reach e c ∧ c.threads t = .running call (call.program config features) ∧
      During e t c log c' ∧ check c c' = true := by
  simp only [Env.spans, Bool.and_eq_true] at h
  obtain ⟨c, hp, hc⟩ := (Option.any_eq_true _ _).mp h.2
  obtain ⟨c', hp', hcheck⟩ := (Option.any_eq_true _ _).mp hc
  obtain ⟨log, hd⟩ := During.here.moves h.1 hp'
  have hreach := Env.reach_play hp
  simp only [Env.play, List.foldlM_append, List.foldlM_cons, List.foldlM_nil] at hp
  obtain ⟨c₀, _, hlast⟩ := Option.bind_eq_some_iff.mp hp
  obtain ⟨c₁, hstart, hsame⟩ := Option.bind_eq_some_iff.mp hlast
  obtain rfl := Option.some.inj hsame
  clear hlast hp
  simp only [Move.play] at hstart
  split_ifs at hstart
  simp only [LsmDb.step] at hstart
  split_ifs at hstart
  obtain rfl := Option.some.inj hstart
  exact ⟨_, c₀.world.config, c₀.world.features, log, c', hreach, Function.update_self .., hd, hcheck⟩

/-- The answer a call of the thread is about to return. -/
def Config.returning (c : Config) (t : Tid) : Option (Call × Reply) :=
  match c.threads t with
  | .running call (.done reply) => some (call, reply)
  | _ => none

theorem Config.returning_eq {t : Tid} {call : Call} {reply : Reply} (h : c.returning t = some (call, reply)) :
    c.threads t = .running call (.done reply) := by
  unfold Config.returning at h
  split at h
  · rename_i call' reply' hth
    obtain ⟨rfl, rfl⟩ := Prod.mk.inj (Option.some.inj h)
    exact hth
  · simp at h

/-- The last answer a thread got, while it makes no other call. -/
def Config.reply (c : Config) (t : Tid) : Option (Call × Reply) :=
  match c.threads t with
  | .replied call reply => some (call, reply)
  | _ => none

theorem Config.reply_eq {t : Tid} {call : Call} {reply : Reply} (h : c.reply t = some (call, reply)) :
    c.threads t = .replied call reply := by
  unfold Config.reply at h
  split at h
  · rename_i call' reply' hth
    obtain ⟨rfl, rfl⟩ := Prod.mk.inj (Option.some.inj h)
    exact hth
  · simp at h

end Schedule
end LsmDb
