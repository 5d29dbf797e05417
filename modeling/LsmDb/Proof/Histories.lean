import LsmDb.Proof.Refinement

/-! What the map says about histories: a write that was acknowledged is what later reads return, until the key is
written again. -/
namespace LsmDb
open Lib
set_option autoImplicit false

/-! ## One key of the map -/

def Call.touches (key : Bytes) (call : Call) : Prop := key ∈ call.ops.map Prod.fst

section Key
variable {d b : Bool} {m m' : MapState} {call : Call} {key : Bytes} {v : Option Bytes} {t t' : Tid}
  {T T' : Tid → (durableMap d b).Task} {ev : Option (Atomic.Event Call Reply Stop)}

theorem effect_untouched (h : (durableMap d b).effect call m m') (hk : ¬ call.touches key) :
    m'.cur key = m.cur key ∧ (m'.kept key = m.kept key ∨ m'.kept key = m.cur key) := by
  cases call with
  | openWith | get | scan =>
    obtain ⟨_, rfl⟩ := h
    exact ⟨rfl, .inl rfl⟩
  | flush =>
    obtain ⟨_, rfl⟩ := h
    exact ⟨rfl, .inr rfl⟩
  | compact => exact absurd h id
  | _ =>
    obtain ⟨_, rfl⟩ := h
    have hsame := apply_of_notMem hk m.cur
    refine ⟨hsame, ?_⟩
    cases d with
    | false => exact .inl rfl
    | true => exact .inr hsame

theorem effect_touched (h : (durableMap d b).effect call m m') (hk : call.touches key) :
    m' = m.write d call.ops := by
  cases call with
  | put | delete | write => exact h.2
  | _ => cases hk

/-- The key has its value, and keeps it over a crash. -/
structure Rests (d : Bool) (key : Bytes) (v : Option Bytes) (m : MapState) : Prop where
  cur : m.cur key = v
  kept : d = true → m.kept key = v

theorem Rests.save (h : Rests d key v m) : Rests d key v m.save := ⟨h.cur, fun _ => h.cur⟩

theorem Rests.stop (h : Rests d key v m) (hd : d = true) : Rests d key v m.stop := ⟨h.kept hd, fun _ => h.kept hd⟩

theorem Rests.untouched (h : Rests d key v m) (he : (durableMap d b).effect call m m') (hk : ¬ call.touches key) :
    Rests d key v m' := by
  obtain ⟨hcur, hkept⟩ := effect_untouched he hk
  refine ⟨hcur.trans h.cur, fun hd => ?_⟩
  rcases hkept with hkept | hkept
  · exact hkept.trans (h.kept hd)
  · exact hkept.trans h.cur

theorem rests_written (he : (durableMap d b).effect call m m') (hk : call.touches key)
    (hv : ∀ s : Store, s.apply call.ops key = v) : Rests d key v m' := by
  obtain rfl := effect_touched he hk
  refine ⟨hv _, ?_⟩
  rintro rfl
  exact hv _

/-! ## Phases of a history -/

/-- Only the call of `t` may be writing the key; once it has taken effect the key rests. -/
structure Landing (key : Bytes) (v : Option Bytes) (t : Tid) (call : Call) (a : (durableMap d b).lts.State) : Prop where
  only : ∀ t' call', (a.2 t').call = some call' → call'.touches key → t' = t ∧ call' = call
  landed : ∀ s₀, a.2 t = .took call s₀ → Rests d key v a.1

/-- Nobody is writing the key, which rests. -/
structure Undisturbed (key : Bytes) (v : Option Bytes) (a : (durableMap d b).lts.State) : Prop where
  rests : Rests d key v a.1
  none : ∀ t' call', (a.2 t').call = some call' → ¬ call'.touches key

/-- What a reader of the key has seen. -/
def Saw (key : Bytes) (v : Option Bytes) (t : Tid) (a : (durableMap d b).lts.State) : Prop :=
  ∀ s₀ : MapState, a.2 t = .took (Call.get key) s₀ → s₀.cur key = v

/-- An update of the tasks, seen by what the threads are in. -/
theorem task_update {task : (durableMap d b).Task} {call' : Call}
    (h : (Function.update T t task t').call = some call') :
    (t' = t ∧ task.call = some call') ∨ (t' ≠ t ∧ (T t').call = some call') := by
  by_cases ht : t' = t
  · subst ht
    rw [Function.update_self] at h
    exact .inl ⟨rfl, h⟩
  · rw [Function.update_of_ne ht] at h
    exact .inr ⟨ht, h⟩

theorem Landing.step {a a' : (durableMap d b).lts.State} (h : Landing key v t call a) (hk : call.touches key)
    (hv : ∀ s : Store, s.apply call.ops key = v)
    (hev : ∀ t' call', ev = some (.called t' call') → call'.touches key → t' = t ∧ call' = call)
    (hs : (durableMap d b).lts.step a ev a') : Landing key v t call a' := by
  have hs' : (durableMap d b).Step a ev a' := hs
  cases hs' with
  | @call s T t₁ call₁ hnone =>
    refine ⟨fun t' call' htask hin => ?_, fun s₀ htook => ?_⟩
    · rcases task_update htask with ⟨rfl, hcall⟩ | ⟨_, hold⟩
      · obtain rfl := Option.some.inj hcall
        exact hev _ _ rfl hin
      · exact h.only t' call' hold hin
    · by_cases ht : t = t₁
      · subst ht
        simp [Function.update_self] at htook
      · simp only [Function.update_of_ne ht] at htook
        exact h.landed s₀ htook
  | @effect s s' T t₁ call₁ hwait he =>
    refine ⟨fun t' call' htask hin => ?_, fun s₀ htook => ?_⟩
    · rcases task_update htask with ⟨rfl, hcall⟩ | ⟨_, hold⟩
      · obtain rfl := Option.some.inj hcall
        exact h.only t' call₁ (congrArg Atomic.Task.call hwait) hin
      · exact h.only t' call' hold hin
    · by_cases hin : call₁.touches key
      · obtain ⟨rfl, rfl⟩ := h.only t₁ call₁ (congrArg Atomic.Task.call hwait) hin
        exact rests_written he hk hv
      · have ht : t ≠ t₁ := by
          rintro rfl
          simp only [Function.update_self] at htook
          obtain ⟨rfl, _⟩ := Atomic.Task.took.inj htook
          exact hin hk
        simp only [Function.update_of_ne ht] at htook
        exact (h.landed s₀ htook).untouched he hin
  | @reply s s₀ T t₁ call₁ reply htook₁ ha =>
    refine ⟨fun t' call' htask hin => ?_, fun s₁ htook => ?_⟩
    · rcases task_update htask with ⟨_, hcall⟩ | ⟨_, hold⟩
      · cases hcall
      · exact h.only t' call' hold hin
    · by_cases ht : t = t₁
      · subst ht
        simp [Function.update_self] at htook
      · simp only [Function.update_of_ne ht] at htook
        exact h.landed s₁ htook
  | own hown =>
    have hsave : _ = MapState.save _ := hown
    subst hsave
    exact ⟨h.only, fun s₀ htook => (h.landed s₀ htook).save⟩
  | upset hu => exact ⟨fun t' call' htask => (by cases htask), fun s₀ htook => (by cases htook)⟩

theorem Undisturbed.step {a a' : (durableMap d b).lts.State} (h : Undisturbed key v a)
    (hev : ∀ t' call', ev = some (.called t' call') → ¬ call'.touches key)
    (hstop : ∀ u, ev = some (.upset u) → d = true)
    (hs : (durableMap d b).lts.step a ev a') : Undisturbed key v a' := by
  have hs' : (durableMap d b).Step a ev a' := hs
  cases hs' with
  | @call s T t₁ call₁ hnone =>
    refine ⟨h.rests, fun t' call' htask => ?_⟩
    rcases task_update htask with ⟨rfl, hcall⟩ | ⟨_, hold⟩
    · obtain rfl := Option.some.inj hcall
      exact hev _ _ rfl
    · exact h.none t' call' hold
  | @effect s s' T t₁ call₁ hwait he =>
    have hquiet := h.none t₁ call₁ (congrArg Atomic.Task.call hwait)
    refine ⟨h.rests.untouched he hquiet, fun t' call' htask => ?_⟩
    rcases task_update htask with ⟨rfl, hcall⟩ | ⟨_, hold⟩
    · obtain rfl := Option.some.inj hcall
      exact hquiet
    · exact h.none t' call' hold
  | reply htook ha =>
    refine ⟨h.rests, fun t' call' htask => ?_⟩
    rcases task_update htask with ⟨_, hcall⟩ | ⟨_, hold⟩
    · cases hcall
    · exact h.none t' call' hold
  | own hown =>
    have hsave : _ = MapState.save _ := hown
    subst hsave
    exact ⟨h.rests.save, h.none⟩
  | @upset s s' T u hu =>
    have hback : s' = MapState.stop s := by
      cases u with
      | crash => exact hu
      | close => exact hu.2
    subst hback
    exact ⟨h.rests.stop (hstop u rfl), fun t' call' htask => by cases htask⟩

theorem Saw.step {a a' : (durableMap d b).lts.State} (h : Saw key v t a) (hq : Undisturbed key v a)
    (hs : (durableMap d b).lts.step a ev a') : Saw key v t a' := by
  have hs' : (durableMap d b).Step a ev a' := hs
  intro s₀ htook
  cases hs' with
  | @effect s s' T t₁ call₁ hwait he =>
    by_cases ht : t = t₁
    · subst ht
      simp only [Function.update_self] at htook
      obtain ⟨_, rfl⟩ := Atomic.Task.took.inj htook
      exact hq.rests.cur
    · simp only [Function.update_of_ne ht] at htook
      exact h s₀ htook
  | @call s T t₁ _ _ | @reply s _ T t₁ _ _ _ _ =>
    by_cases ht : t = t₁
    · subst ht
      simp [Function.update_self] at htook
    · simp only [Function.update_of_ne ht] at htook
      exact h s₀ htook
  | own => exact h s₀ htook
  | upset => cases htook

section Run
variable {a a' : (durableMap d b).lts.State} {tr : List (Atomic.Event Call Reply Stop)}

theorem Landing.run (h : Landing key v t call a) (hr : (durableMap d b).lts.Run a tr a') (hk : call.touches key)
    (hv : ∀ s : Store, s.apply call.ops key = v)
    (hev : ∀ t' call', .called t' call' ∈ tr → call'.touches key → t' = t ∧ call' = call) : Landing key v t call a' := by
  refine hr.keeps h fun x ev x' hin hx hI => hI.step hk hv ?_ hx
  rintro t' call' rfl
  exact hev t' call' (hin _ rfl)

theorem Undisturbed.run (h : Undisturbed key v a) (hr : (durableMap d b).lts.Run a tr a')
    (hev : ∀ t' call', .called t' call' ∈ tr → ¬ call'.touches key) (hstop : ∀ u, .upset u ∈ tr → d = true) :
    Undisturbed key v a' := by
  refine hr.keeps h fun x ev x' hin hx hI => hI.step ?_ ?_ hx
  · rintro t' call' rfl
    exact hev t' call' (hin _ rfl)
  · rintro u rfl
    exact hstop u (hin _ rfl)

theorem Saw.run (h : Saw key v t a) (hq : Undisturbed key v a) (hr : (durableMap d b).lts.Run a tr a')
    (hev : ∀ t' call', .called t' call' ∈ tr → ¬ call'.touches key) (hstop : ∀ u, .upset u ∈ tr → d = true) :
    Saw key v t a' := by
  have hboth : Undisturbed key v a' ∧ Saw key v t a' := by
    refine hr.keeps (I := fun x => Undisturbed key v x ∧ Saw key v t x) ⟨hq, h⟩ fun x ev x' hin hx hI => ?_
    refine ⟨hI.1.step ?_ ?_ hx, hI.2.step hI.1 hx⟩
    · rintro t' call' rfl
      exact hev t' call' (hin _ rfl)
    · rintro u rfl
      exact hstop u (hin _ rfl)
  exact hboth.2

end Run
end Key

/-! ## Acknowledged writes -/

section Acknowledged
variable [Deps] {d b : Bool}

/-- A write is acknowledged. A get of the key that is called afterwards, from any thread and with any other calls under
way, returns what was written, as long as nobody else writes the key; with the log, also over crashes and closes. -/
theorem acknowledged_is_read (laws : BloomLaws) {t t' : Tid} {call : Call} {key : Bytes} {v : Option Bytes}
    {reply answer : Reply} {tr₀ tr₁ tr₂ tr₃ : List (Atomic.Event Call Reply Stop)}
    (h : (Env.worn d b).lts.Shows (tr₀ ++ (.called t call :: tr₁ ++ [.replied t call reply]) ++
      (tr₂ ++ [.called t' (.get key)]) ++ (tr₃ ++ [.replied t' (.get key) answer])))
    (hv : ∀ s : Store, s.apply call.ops key = v)
    (hbefore : ∀ t'' call'', Atomic.inProgress tr₀ t'' = some call'' → ¬ call''.touches key)
    (hwhile : ∀ t'' call'', .called t'' call'' ∈ tr₁ ++ tr₂ ++ tr₃ → ¬ call''.touches key)
    (hstop : ∀ u, .upset u ∈ tr₂ ++ tr₃ → d = true) :
    answer = .value (.ok v) ∨ b = true ∧ ∃ err, answer = .value (.error err) := by
  have hk : call.touches key := by
    by_contra hk
    have hnone := (apply_of_notMem hk Store.empty).symm.trans (hv _)
    have hsome := (apply_of_notMem hk fun _ => some []).symm.trans (hv _)
    exact absurd (hnone.trans hsome.symm) (by simp [Store.empty])
  obtain ⟨a, hrun⟩ := (worn_simulates_map laws d b).shows h
  obtain ⟨a₃, hrun, hlast⟩ := hrun.split
  obtain ⟨a₂, hrun, hmiddle⟩ := hrun.split
  obtain ⟨a₀, hrun, hfirst⟩ := hrun.split
  obtain ⟨a₁, hwrite, hack⟩ := hfirst.split
  obtain ⟨b₁, b₁', hto₁, hstep₁, hfrom₁⟩ := hack.event
  obtain ⟨a₂', hquiet, hcalls⟩ := hmiddle.split
  obtain ⟨b₂, b₂', hto₂, hstep₂, hfrom₂⟩ := hcalls.event
  obtain ⟨a₃', hreads, hret⟩ := hlast.split
  obtain ⟨b₃, b₃', hto₃, hstep₃, _⟩ := hret.event
  have hland₀ : Landing key v t call a₀ := by
    refine ⟨fun t'' call'' htask hin => ?_, fun s₀ htook => ?_⟩
    · rw [Atomic.run_inProgress hrun] at htask
      exact absurd hin (hbefore t'' call'' htask)
    · have htask := Atomic.run_inProgress hrun t
      rw [htook] at htask
      exact absurd hk (hbefore t call htask.symm)
  have hland₁ : Landing key v t call a₁ := by
    refine hland₀.run hwrite hk hv fun t'' call'' hmem htouch => ?_
    rcases List.mem_cons.mp hmem with heq | hmem
    · obtain ⟨rfl, rfl⟩ := Atomic.Event.called.inj heq
      exact ⟨rfl, rfl⟩
    · exact absurd htouch (hwhile t'' call'' (List.mem_append_left _ (List.mem_append_left _ hmem)))
  have hland : Landing key v t call b₁ := hland₁.run hto₁ hk hv nofun
  -- the acknowledgement
  have hstill : Undisturbed key v b₁' := by
    have hs : (durableMap d b).Step b₁ (some (.replied t call reply)) b₁' := hstep₁
    cases hs with
    | reply htook ha =>
      refine ⟨hland.landed _ htook, fun t'' call'' htask hin => ?_⟩
      rcases task_update htask with ⟨_, hnone⟩ | ⟨ht, hold⟩
      · cases hnone
      · exact ht (hland.only t'' call'' hold hin).1
  have hstill₂ : Undisturbed key v b₂ := by
    refine ((hstill.run hfrom₁ nofun nofun).run hquiet (fun t'' call'' hmem => ?_) fun u hmem => ?_).run hto₂ nofun nofun
    · exact hwhile t'' call'' (List.mem_append_left _ (List.mem_append_right _ hmem))
    · exact hstop u (List.mem_append_left _ hmem)
  have hcalled : Undisturbed key v b₂' := by
    refine hstill₂.step (fun t'' call'' hev => ?_) (fun u hev => ?_) hstep₂
    · obtain ⟨_, rfl⟩ := Atomic.Event.called.inj (Option.some.inj hev)
      exact List.not_mem_nil
    · cases hev
  have hsaw : Saw key v t' b₂' := by
    have hs : (durableMap d b).Step b₂ (some (.called t' (.get key))) b₂' := hstep₂
    cases hs with
    | call hnone =>
      intro s₀ htook
      simp [Function.update_self] at htook
  -- the reader, from its call to its reply
  have hsaw₂ : Saw key v t' a₃ := hsaw.run hcalled hfrom₂ nofun nofun
  have hwhile₃ : ∀ t'' call'', .called t'' call'' ∈ tr₃ → ¬ call''.touches key := fun t'' call'' hmem =>
    hwhile t'' call'' (List.mem_append_right _ hmem)
  have hstop₃ : ∀ u, .upset u ∈ tr₃ → d = true := fun u hmem => hstop u (List.mem_append_right _ hmem)
  have hcalled₂ : Undisturbed key v a₃ := hcalled.run hfrom₂ nofun nofun
  have hsaw₃ : Saw key v t' b₃ :=
    (hsaw₂.run hcalled₂ hreads hwhile₃ hstop₃).run (hcalled₂.run hreads hwhile₃ hstop₃) hto₃ nofun nofun
  have hs : (durableMap d b).Step b₃ (some (.replied t' (.get key) answer)) b₃' := hstep₃
  cases hs with
  | reply htook ha =>
    rw [← hsaw₃ _ htook]
    exact ha

omit [Deps] in
/-- A put is acknowledged, with a delete of another key under way; the machine goes down, and the next session reads it. -/
theorem acknowledged_is_read_reopened : letI := Deps.concrete
    let opens : Call := .openWith LsmConfig.default ⟨true, false⟩
    let tr₀ : List (Atomic.Event Call Reply Stop) :=
      [.called 1 opens, .replied 1 opens (.unit (.ok ())), .called 2 (.delete [2])]
    let tr₂ : List (Atomic.Event Call Reply Stop) :=
      [.upset .crash, .called 1 opens, .replied 1 opens (.unit (.ok ()))]
    let answer : Reply := .value (.ok (some [7]))
    (Env.worn true false).lts.Shows
        (tr₀ ++ (.called 1 (.put [1] [7]) :: [] ++ [.replied 1 (.put [1] [7]) (.unit (.ok ()))]) ++
          (tr₂ ++ [.called 3 (.get [1])]) ++ ([] ++ [.replied 3 (.get [1]) answer])) ∧
      (answer = .value (.ok (some [7])) ∨ false = true ∧ ∃ err, answer = .value (.error err)) := by
  let _ := Deps.concrete
  intro opens tr₀ tr₂ answer
  have hshows : (Env.worn true false).lts.Shows
      (tr₀ ++ (.called 1 (.put [1] [7]) :: [] ++ [.replied 1 (.put [1] [7]) (.unit (.ok ()))]) ++
        (tr₂ ++ [.called 3 (.get [1])]) ++ ([] ++ [.replied 3 (.get [1]) answer])) := by
    have hplay : (Env.worn true false).observe
        [.alone 1 allOk opens, .start 2 (.delete [2]), .alone 1 allOk (.put [1] [7]), .crash [], .alone 1 allOk opens,
          .alone 3 allOk (.get [1])] Config.initial =
        some (tr₀ ++ (.called 1 (.put [1] [7]) :: [] ++ [.replied 1 (.put [1] [7]) (.unit (.ok ()))]) ++
          (tr₂ ++ [.called 3 (.get [1])]) ++ ([] ++ [.replied 3 (.get [1]) answer])) := by
      decide +kernel
    exact Env.run_observe hplay
  have hread := acknowledged_is_read (v := some [7]) concrete_laws hshows
  refine ⟨hshows, hread (fun s => ?_) ?_ ?_ fun _ _ => rfl⟩
  · simp [Call.ops, Store.apply, Lib.write]
  · have hdelete : Atomic.inProgress tr₀ = Function.update (fun _ => none) 2 (some (.delete [2])) := by
      funext t
      by_cases ht : t = 1
      · subst ht
        rfl
      · simp [tr₀, Atomic.inProgress, Atomic.note, Function.update_apply]
    intro t call htask
    rw [hdelete, Function.update_apply] at htask
    split_ifs at htask
    obtain rfl := Option.some.inj htask
    simp [Call.touches, Call.ops]
  · intro t call hmem
    simp only [tr₂, List.nil_append, List.append_nil, List.mem_cons, reduceCtorEq, Atomic.Event.called.injEq,
      List.not_mem_nil, or_false, false_or] at hmem
    obtain ⟨_, rfl⟩ := hmem
    exact List.not_mem_nil

end Acknowledged
end LsmDb
