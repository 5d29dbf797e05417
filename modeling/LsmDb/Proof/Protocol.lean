import LsmDb.Engine.Schedule
import LsmDb.Proof.Stages

/-! Protocols: each thread is at a stage that its operations move, and an invariant ties the stages of all threads
to the world. Once every program is seen to keep to the protocol, the invariant holds in every reachable state. -/
namespace LsmDb
open Lib
set_option autoImplicit false

section Protocol
variable [Deps] {e : Env} {c : Config}

/-! ## Who runs -/

theorem exec_opener {t : Tid} {o : Act} {ch : Choice} {r : Res o} {w w' : World} (h : exec t o ch w = some (r, w')) :
    w'.opener = w.opener := exec_differ h .opener (by cases o <;> simp [Act.touches])

theorem Reach.active (h : Reach e c) {t : Tid} {call : Call} {prog : P Reply} (hth : c.threads t = .running call prog) :
    t ∈ c.world.active := by
  obtain ⟨A, hs⟩ := h.sound
  have ht := hs.threads t
  rw [hth] at ht
  exact ht.1

theorem Reach.ready (h : Reach e c) (hready : c.world.ready = true) : c.world.live = true ∧ c.world.opener = none := by
  obtain ⟨A, hs⟩ := h.sound
  exact hs.inv.shared.ready hready

/-- While an open runs, nothing else does. -/
theorem Reach.alone (h : Reach e c) {t t' : Tid} {call : Call} {prog : P Reply} (ho : c.world.opener = some t)
    (hth : c.threads t' = .running call prog) : t' = t := by
  induction h generalizing t' call prog with
  | initial => cases ho
  | @step c c' l hr ha hs ih =>
    cases l with
    | start t₀ call₀ =>
      simp only [LsmDb.step] at hs
      split_ifs at hs with hcan
      obtain rfl := Option.some.inj hs
      by_cases ht : t' = t₀
      · cases call₀ with
        | openWith config features => exact ht.trans (Option.some.inj ho)
        | _ =>
          simp only [canStart, Bool.and_eq_true] at hcan
          have hnone := (hr.ready hcan.1.1).2
          exact absurd (ho.symm.trans hnone) (by simp)
      · have hold : c.threads t' = .running call prog := (Function.update_of_ne ht ..).symm.trans hth
        have hin := hr.active hold
        cases call₀ with
        | openWith config features =>
          simp only [canStart, Bool.and_eq_true, List.isEmpty_iff] at hcan
          rw [hcan.1.2] at hin
          cases hin
        | _ => exact ih ho hold
    | act t₀ choice =>
      simp only [LsmDb.step] at hs
      split at hs
      · rename_i call₀ o k hth₀
        split at hs
        · rename_i r w hx
          obtain rfl := Option.some.inj hs
          have hbefore : c.world.opener = some t := (exec_opener hx).symm.trans ho
          by_cases ht : t' = t₀
          · subst ht
            exact ih hbefore hth₀
          · exact ih hbefore ((Function.update_of_ne ht ..).symm.trans hth)
        · simp at hs
      · simp at hs
    | finish t₀ =>
      simp only [LsmDb.step] at hs
      split at hs
      · rename_i call₀ reply hth₀
        obtain rfl := Option.some.inj hs
        have ht : t' ≠ t₀ := by
          rintro rfl
          cases (Function.update_self ..).symm.trans hth
        have hbefore : c.world.opener = some t := by
          cases call₀ with
          | openWith config features => cases ho
          | _ =>
            simp only [ended] at ho
            split_ifs at ho <;> exact ho
        exact ih hbefore ((Function.update_of_ne ht ..).symm.trans hth)
      · simp at hs
    | crash damage =>
      obtain rfl := Option.some.inj hs
      cases ho
    | close =>
      simp only [LsmDb.step] at hs
      split_ifs at hs with hcan
      obtain rfl := Option.some.inj hs
      exact ih ho hth

/-! ## Stages -/

structure Protocol where
  Stage : Type
  /-- Where a thread is that makes no call. -/
  rest : Stage
  next : Stage → (o : Act) → Res o → Stage → Prop
  /-- The stages a call may end in. -/
  ends : Call → Stage → Reply → Prop
  Inv : World → (Tid → Stage) → Prop

/-- The thread is where its stage says. -/
def Protocol.At (p : Protocol) (s : p.Stage) : Thread → Prop
  | .running call prog => prog.Follows p.next (p.ends call) s
  | _ => s = p.rest

/-- The protocol holds of a configuration. -/
structure Protocol.Holds (p : Protocol) (e : Env) (c : Config) (S : Tid → p.Stage) : Prop where
  reach : Reach e c
  inv : p.Inv c.world S
  at_stage : ∀ t, p.At (S t) (c.threads t)

theorem Protocol.Holds.rest {p : Protocol} {S : Tid → p.Stage} {t : Tid} (h : p.Holds e c S)
    (hth : ∀ call prog, c.threads t ≠ .running call prog) : S t = p.rest := by
  have hat := h.at_stage t
  cases hc : c.threads t with
  | idle | replied =>
    rw [hc] at hat
    exact hat
  | running call prog => exact absurd hc (hth call prog)

/-- Programs keep to the protocol, and steps keep the invariant, when calls start as `ok` asks. -/
structure Protocol.Sound (p : Protocol) (e : Env) (ok : World → Call → Prop) : Prop where
  initial : p.Inv World.initial fun _ => p.rest
  start : ∀ c S t call, p.Holds e c S → ok c.world call → canStart c.world t call = true →
    ∃ s, (call.program c.world.config c.world.features).Follows p.next (p.ends call) s ∧
      p.Inv (started c.world t call) (Function.update S t s)
  act : ∀ c S t call o k choice r w s, p.Holds e c S → c.threads t = .running call (.op o k) →
    e.allowsAct c.world t o choice → exec t o choice c.world = some (r, w) → p.next (S t) o r s →
    (k r).Follows p.next (p.ends call) s → p.Inv w (Function.update S t s)
  finish : ∀ c S t call reply, p.Holds e c S → c.threads t = .running call (.done reply) → p.ends call (S t) reply →
    p.Inv (ended c.world t call reply) (Function.update S t p.rest)
  crash : ∀ c S damage, p.Holds e c S → p.Inv (crashed c.world damage) fun _ => p.rest
  close : ∀ c S, p.Holds e c S → c.world.ready = true → c.world.active = [] → p.Inv c.world.dropEngine S

theorem Protocol.Sound.at_runs {p : Protocol} {ok : World → Call → Prop} (h : p.Sound e ok) (hr : Runs e ok c) :
    ∃ S, p.Holds e c S := by
  induction hr with
  | initial => exact ⟨fun _ => p.rest, .initial, h.initial, fun _ => rfl⟩
  | @step c c' l hr hok ha hs ih =>
    obtain ⟨S, hh⟩ := ih
    have hreach := hh.reach.step ha hs
    -- one thread moves, the others stay
    have hmove : ∀ (t : Tid) (s : p.Stage) (th : Thread), p.At s th →
        ∀ t', p.At (Function.update S t s t') (Function.update c.threads t th t') := by
      intro t s th hth t'
      by_cases ht : t' = t
      · subst ht
        rw [Function.update_self, Function.update_self]
        exact hth
      · rw [Function.update_of_ne ht, Function.update_of_ne ht]
        exact hh.at_stage t'
    cases l with
    | start t call =>
      simp only [LsmDb.step] at hs
      split_ifs at hs with hcan
      obtain rfl := Option.some.inj hs
      obtain ⟨s, hprog, hinv'⟩ := h.start c S t call hh (hok t call rfl) hcan
      exact ⟨_, hreach, hinv', hmove t s _ hprog⟩
    | act t choice =>
      simp only [LsmDb.step] at hs
      split at hs
      · rename_i call o k hth
        cases hx : exec t o choice c.world with
        | none => simp [hx] at hs
        | some q =>
          obtain ⟨r, w⟩ := q
          simp only [hx] at hs
          obtain rfl := Option.some.inj hs
          have hfol := hh.at_stage t
          rw [hth] at hfol
          obtain ⟨s, hnext, hrest⟩ := hfol r
          have hinv' := h.act c S t call o k choice r w s hh hth (ha call o k hth) hx hnext hrest
          exact ⟨_, hreach, hinv', hmove t s _ hrest⟩
      · simp at hs
    | finish t =>
      simp only [LsmDb.step] at hs
      split at hs
      · rename_i call reply hth
        obtain rfl := Option.some.inj hs
        have hend := hh.at_stage t
        rw [hth] at hend
        exact ⟨_, hreach, h.finish c S t call reply hh hth hend, hmove t p.rest _ rfl⟩
      · simp at hs
    | crash damage =>
      obtain rfl := Option.some.inj hs
      exact ⟨_, hreach, h.crash c S damage hh, fun _ => rfl⟩
    | close =>
      simp only [LsmDb.step] at hs
      split_ifs at hs with hcan
      obtain rfl := Option.some.inj hs
      exact ⟨S, hreach, h.close c S hh hcan.1 hcan.2, hh.at_stage⟩

end Protocol
end LsmDb
