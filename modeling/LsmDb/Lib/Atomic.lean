import Mathlib.Logic.Function.Basic
import Mathlib.Data.Nat.Notation

/-! Systems that show events, forward simulations between them, and atomic objects: objects whose calls take effect
one at a time, each at one instant between its start and its return. -/
namespace LsmDb.Lib
set_option autoImplicit false

/-! ## Traces -/

/-- A system whose steps may show an event. -/
structure Lts (Event : Type) where
  State : Type
  initial : State
  step : State → Option Event → State → Prop

namespace Lts
variable {Event : Type} {L M : Lts Event}

/-- The runs from a state, with the events they show. -/
inductive Run (L : Lts Event) (s : L.State) : List Event → L.State → Prop
  | here : L.Run s [] s
  | step {tr : List Event} {s' s'' : L.State} {ev : Option Event} (h : L.Run s tr s') (hs : L.step s' ev s'') :
      L.Run s (tr ++ ev.toList) s''

def Shows (L : Lts Event) (tr : List Event) : Prop := ∃ s, L.Run L.initial tr s

theorem Run.one {s s' : L.State} {ev : Option Event} (hs : L.step s ev s') : L.Run s ev.toList s' := Run.here.step hs

theorem Run.trans {s s' s'' : L.State} {tr tr' : List Event} (h : L.Run s tr s') (h' : L.Run s' tr' s'') :
    L.Run s (tr ++ tr') s'' := by
  induction h' with
  | here =>
    rw [List.append_nil]
    exact h
  | step _ hs ih =>
    rw [← List.append_assoc]
    exact ih.step hs

theorem Run.split {s s'' : L.State} {tr tr' : List Event} (h : L.Run s (tr ++ tr') s'') :
    ∃ s', L.Run s tr s' ∧ L.Run s' tr' s'' := by
  generalize htr : tr ++ tr' = all at h
  induction h generalizing tr' with
  | here =>
    obtain ⟨rfl, rfl⟩ := List.append_eq_nil_iff.mp htr
    exact ⟨s, .here, .here⟩
  | @step tr₀ s₁ s₂ ev h hs ih =>
    cases ev with
    | none =>
      obtain ⟨s', h₁, h₂⟩ := ih (htr.trans (List.append_nil tr₀))
      refine ⟨s', h₁, ?_⟩
      have hlast := h₂.step hs
      rwa [Option.toList_none, List.append_nil] at hlast
    | some ev =>
      rcases List.eq_nil_or_concat tr' with rfl | ⟨init, last, rfl⟩
      · rw [List.append_nil] at htr
        subst htr
        exact ⟨s₂, h.step hs, .here⟩
      · rw [List.concat_eq_append, ← List.append_assoc] at htr
        obtain ⟨hinit, hlast⟩ := List.append_inj' htr (by simp)
        obtain ⟨s', h₁, h₂⟩ := ih hinit
        rw [List.concat_eq_append, hlast]
        exact ⟨s', h₁, h₂.step hs⟩

/-- The step of a run that shows its event. -/
theorem Run.event {s s' : L.State} {ev : Event} (h : L.Run s [ev] s') :
    ∃ a b, L.Run s [] a ∧ L.step a (some ev) b ∧ L.Run b [] s' := by
  generalize htr : [ev] = tr at h
  induction h with
  | here => cases htr
  | @step tr₀ s₁ s₂ ev' h hs ih =>
    cases ev' with
    | none =>
      obtain ⟨a, b, ha, hab, hb⟩ := ih (htr.trans (List.append_nil tr₀))
      exact ⟨a, b, ha, hab, hb.step hs⟩
    | some ev' =>
      obtain ⟨hinit, hlast⟩ := List.append_inj' (show [] ++ [ev] = _ from htr) rfl
      subst hinit
      obtain rfl := (List.cons.inj hlast).1
      exact ⟨s₁, s₂, h, hs, .here⟩

/-- What holds at the start of a run and is kept by its steps holds at its end. -/
theorem Run.keeps {I : L.State → Prop} {s s' : L.State} {tr : List Event} (h : L.Run s tr s') (hs : I s)
    (hstep : ∀ a ev a', (∀ x, ev = some x → x ∈ tr) → L.step a ev a' → I a → I a') : I s' := by
  induction h with
  | here => exact hs
  | @step tr₀ s₁ s₂ ev h hlast ih =>
    have hbefore := ih fun a ev a' hin hx ha => hstep a ev a' (fun x hx => List.mem_append_left _ (hin x hx)) hx ha
    exact hstep _ _ _ (fun x hx => by simp [hx]) hlast hbefore

/-- Every step of `L` is matched by a run of `M` that shows the same. -/
structure Simulates (R : L.State → M.State → Prop) : Prop where
  initial : R L.initial M.initial
  step : ∀ s ev s' m, R s m → L.step s ev s' → ∃ m', M.Run m ev.toList m' ∧ R s' m'

theorem Simulates.run {R : L.State → M.State → Prop} {tr : List Event} {s : L.State} (h : Simulates R)
    (hr : L.Run L.initial tr s) : ∃ m, M.Run M.initial tr m ∧ R s m := by
  induction hr with
  | here => exact ⟨_, .here, h.initial⟩
  | step _ hs ih =>
    obtain ⟨m, hm, hR⟩ := ih
    obtain ⟨m', hm', hR'⟩ := h.step _ _ _ m hR hs
    exact ⟨m', hm.trans hm', hR'⟩

theorem Simulates.shows {R : L.State → M.State → Prop} {tr : List Event} (h : Simulates R) (ht : L.Shows tr) :
    M.Shows tr := by
  obtain ⟨s, hr⟩ := ht
  obtain ⟨m, hm, _⟩ := h.run hr
  exact ⟨m, hm⟩

end Lts

/-! ## Atomic objects -/

structure Atomic where
  State : Type
  Call : Type
  Reply : Type
  /-- What may happen to the object from outside. -/
  Upset : Type
  initial : State
  effect : Call → State → State → Prop
  /-- The replies of a call that takes effect in this state. -/
  answers : Call → State → Reply → Prop
  /-- Steps of the object's own. -/
  own : State → State → Prop
  upset : Upset → State → State → Prop

namespace Atomic

/-- What a client sees. -/
inductive Event (Call Reply Upset : Type) where
  | called (t : ℕ) (call : Call)
  | replied (t : ℕ) (call : Call) (reply : Reply)
  | upset (u : Upset)
deriving DecidableEq

/-- A thread without a call, with one that has not taken effect, with one that took effect in a state. -/
inductive Task (A : Atomic) where
  | none
  | waiting (call : A.Call)
  | took (call : A.Call) (s : A.State)

/-- The call a thread is in. -/
def Task.call {A : Atomic} : A.Task → Option A.Call
  | .none => Option.none
  | .waiting call | .took call _ => some call

inductive Step (A : Atomic) :
    A.State × (ℕ → A.Task) → Option (Event A.Call A.Reply A.Upset) → A.State × (ℕ → A.Task) → Prop
  | call {s : A.State} {T : ℕ → A.Task} {t : ℕ} {call : A.Call} (h : T t = .none) :
      A.Step (s, T) (some (.called t call)) (s, Function.update T t (.waiting call))
  | effect {s s' : A.State} {T : ℕ → A.Task} {t : ℕ} {call : A.Call} (h : T t = .waiting call) (he : A.effect call s s') :
      A.Step (s, T) none (s', Function.update T t (.took call s))
  | reply {s s₀ : A.State} {T : ℕ → A.Task} {t : ℕ} {call : A.Call} {reply : A.Reply} (h : T t = .took call s₀)
      (ha : A.answers call s₀ reply) : A.Step (s, T) (some (.replied t call reply)) (s, Function.update T t .none)
  | own {s s' : A.State} {T : ℕ → A.Task} (h : A.own s s') : A.Step (s, T) none (s', T)
  -- whatever was under way is gone
  | upset {s s' : A.State} {T : ℕ → A.Task} {u : A.Upset} (h : A.upset u s s') :
      A.Step (s, T) (some (.upset u)) (s', fun _ => .none)

/-- Any number of clients on the object. -/
def lts (A : Atomic) : Lts (Event A.Call A.Reply A.Upset) := 
  ⟨A.State × (ℕ → A.Task), (A.initial, fun _ => .none), A.Step⟩

variable {A : Atomic} {s s' : A.State} {T : ℕ → A.Task} {t : ℕ} {call : A.Call}

theorem run_call (h : T t = .none) : A.lts.Run (s, T) [.called t call] (s, Function.update T t (.waiting call)) :=
  have hs : A.lts.step (s, T) (some (.called t call)) (s, Function.update T t (.waiting call)) := Step.call h
  Lts.Run.one hs

theorem run_effect (h : T t = .waiting call) (he : A.effect call s s') :
    A.lts.Run (s, T) [] (s', Function.update T t (.took call s)) :=
  have hs : A.lts.step (s, T) none (s', Function.update T t (.took call s)) := Step.effect h he
  Lts.Run.one hs

theorem run_reply {s₀ : A.State} {reply : A.Reply} (h : T t = .took call s₀) (ha : A.answers call s₀ reply) :
    A.lts.Run (s, T) [.replied t call reply] (s, Function.update T t .none) :=
  have hs : A.lts.step (s, T) (some (.replied t call reply)) (s, Function.update T t .none) := Step.reply h ha
  Lts.Run.one hs

theorem run_own (h : A.own s s') : A.lts.Run (s, T) [] (s', T) :=
  have hs : A.lts.step (s, T) none (s', T) := Step.own h
  Lts.Run.one hs

theorem run_upset {u : A.Upset} (h : A.upset u s s') : A.lts.Run (s, T) [.upset u] (s', fun _ => .none) :=
  have hs : A.lts.step (s, T) (some (.upset u)) (s', fun _ => .none) := Step.upset h
  Lts.Run.one hs

/-! ## Calls in progress -/

/-- The calls in progress after a trace, noted event by event. -/
def note {Call Reply Upset : Type} (open_ : ℕ → Option Call) : Event Call Reply Upset → ℕ → Option Call
  | .called t call => Function.update open_ t (some call)
  | .replied t _ _ => Function.update open_ t none
  | .upset _ => fun _ => none

def inProgress {Call Reply Upset : Type} (tr : List (Event Call Reply Upset)) : ℕ → Option Call :=
  tr.foldl note fun _ => none

theorem run_inProgress {tr : List (Event A.Call A.Reply A.Upset)} {a : A.lts.State} (h : A.lts.Run A.lts.initial tr a) (t : ℕ) :
    (a.2 t).call = inProgress tr t := by
  have hupdate : ∀ (T : ℕ → A.Task) (tasks : ℕ → Option A.Call) (t' : ℕ) (task : A.Task),
      (∀ t, (T t).call = tasks t) → ∀ t, (Function.update T t' task t).call = Function.update tasks t' task.call t := by
    intro T tasks t' task hT t
    by_cases ht : t = t'
    · subst ht
      rw [Function.update_self, Function.update_self]
    · rw [Function.update_of_ne ht, Function.update_of_ne ht]
      exact hT t
  revert t
  induction h with
  | here => exact fun t => rfl
  | @step tr a a' ev h hs ih =>
    have hs' : A.Step a ev a' := hs
    cases hs' with
    | call hnone =>
      simp only [inProgress, Option.toList_some, List.foldl_append, List.foldl_cons, List.foldl_nil]
      exact hupdate _ _ _ _ ih
    | @effect s s' T t' call hwait he =>
      simp only [inProgress, Option.toList_none, List.append_nil]
      intro t
      rw [hupdate T (inProgress tr) t' (.took call s) ih t]
      refine congrFun (Function.update_eq_self_iff.mpr ?_) t
      exact (ih _).symm.trans (congrArg Task.call hwait) |>.symm
    | reply htook ha =>
      simp only [inProgress, Option.toList_some, List.foldl_append, List.foldl_cons, List.foldl_nil]
      exact hupdate _ _ _ _ ih
    | own h =>
      simp only [inProgress, Option.toList_none, List.append_nil]
      exact ih
    | upset h =>
      simp only [inProgress, Option.toList_some, List.foldl_append, List.foldl_cons, List.foldl_nil]
      exact fun t => rfl

end Atomic
end LsmDb.Lib
