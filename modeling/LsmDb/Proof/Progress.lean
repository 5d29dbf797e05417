import LsmDb.Engine.Schedule
import LsmDb.Proof.Stages

/-! A call that is made when nobody else is around returns: no operation of a client ever has to wait for a lock
that its own call holds, or for anything else. -/
namespace LsmDb
open Lib
set_option autoImplicit false

section Progress
variable [Deps] {e : Env} {t : Tid} {c : Config} {w : World} {call : Call}

/-- With nobody else moving, the program returns, with `Q` of its reply and of the world then. -/
abbrev Ends (e : Env) (t : Tid) (Q : Reply → World → Prop) (prog : P Reply) (w : World) : Prop :=
  machine.Ends t (fun o ch w => e.allowsAct w t o ch) .ok Q prog w

/-- A call made when nobody else is around can start, and it returns with `Q` of its reply and of the world it
leaves. -/
def Returns (e : Env) (t : Tid) (call : Call) (w : World) (Q : Reply → World → Prop) : Prop :=
  canStart w t call = true ∧
    Ends e t (fun reply w' => Q reply (ended w' t call reply)) (call.program w.config w.features) (started w t call)

theorem Returns.mono {Q Q' : Reply → World → Prop} (h : Returns e t call w Q) (hq : ∀ reply w, Q reply w → Q' reply w) :
    Returns e t call w Q' := ⟨h.1, h.2.mono fun reply w' => hq reply (ended w' t call reply)⟩

theorem exec_ok {o : Act} (ht : t ≠ compactorTid) (halone : ∀ t' ∈ w.active, t' = t) (hg : guardAct e t o w) :
    exec t o .ok w ≠ none := by
  cases o with
  | lock | snapshot _ =>
    have hlock : w.lock = none := hg halone
    simp [exec, hlock]
  | awaitWork => exact absurd hg ht
  | readText name | read name | rename _ name | remove name =>
    simp only [exec]
    split <;> simp
  | append name data =>
    simp only [exec]
    split
    · simp
    · split_ifs <;> simp
  | walAppend | walRemove =>
    simp only [exec]
    split <;> simp
  | _ => simp [exec]

theorem ended_active (w : World) (t : Tid) (call : Call) (reply : Reply) :
    (ended w t call reply).active = w.active.erase t := by
  unfold ended
  split
  · rfl
  · split_ifs <;> rfl

/-- `J` speaks of the rest of the call and the world. -/
theorem Reach.ends {prog : P Reply} {J : P Reply → World → Prop} {Q : Reply → World → Prop} (h : Reach e c)
    (hth : c.threads t = .running call prog) (ht : t ≠ compactorTid) (halone : ∀ t' ∈ c.world.active, t' = t)
    (hj : J prog c.world)
    (hstep : ∀ o k ch (r : Res o) w w', guardAct e t o w → e.allowsAct w t o ch → exec t o ch w = some (r, w') →
      J (.op o k) w → J (k r) w')
    (hq : ∀ reply w', Reach e ⟨w', Function.update c.threads t (.running call (.done reply))⟩ →
      w'.active = c.world.active → J (.done reply) w' → Q reply w') : Ends e t Q prog c.world := by
  have hguard : ∀ (prog : P Reply) (w : World) (o : Act) (k : Res o → P Reply), prog = .op o k →
      Reach e ⟨w, Function.update c.threads t (.running call prog)⟩ → guardAct e t o w := by
    rintro _ w o k rfl hr
    exact hr.guard (t := t) (by simp [Thread.next])
  have hstart : Reach e ⟨c.world, Function.update c.threads t (.running call prog)⟩ := by
    rw [← hth, Function.update_eq_self]
    exact h
  refine Machine.Ends.of_inv (I := fun (prog : P Reply) (w : World) => Reach e ⟨w, Function.update c.threads t (.running call prog)⟩ ∧
    w.active = c.world.active ∧ J prog w) ⟨hstart, rfl, hj⟩ ?_ ?_ ?_
  · rintro o k w ⟨hr, hact, _⟩
    exact exec_ok ht (by rw [hact]; exact halone) (hguard _ w o k rfl hr)
  · rintro o k ch r w w' ⟨hr, hact, hJ⟩ ha hx
    have hnext := hr.step (allows_act (t := t) (Function.update_self ..) ha)
      (step_act (t := t) (Function.update_self ..) hx)
    rw [Function.update_idem] at hnext
    exact ⟨hnext, (exec_active hx).trans hact, hstep o k ch r w w' (hguard _ w o k rfl hr) ha hx hJ⟩
  · rintro reply w ⟨hr, hact, hJ⟩
    exact hq reply w hr hact hJ

/-- A call of a client, from its start to its return. -/
theorem Reach.returns {J : P Reply → World → Prop} {Q : Reply → World → Prop} (h : Reach e c)
    (hidle : c.world.active = []) (hcan : canStart c.world t call = true) (ht : t ≠ compactorTid)
    (ha : e.allowsCall c.world call) (hj : J (call.program c.world.config c.world.features) (started c.world t call))
    (hstep : ∀ o k ch (r : Res o) w w', guardAct e t o w → e.allowsAct w t o ch → exec t o ch w = some (r, w') →
      J (.op o k) w → J (k r) w')
    (hq : ∀ c', Reach e c' → c'.world.active = [] → ∀ reply w', c'.threads t = .replied call reply →
      c'.world = ended w' t call reply → J (.done reply) w' → Q reply c'.world) :
    Returns e t call c.world Q := by
  have hr := h.step (l := .start t call) (fun _ => ha) (step_start hcan)
  have hactive : (started c.world t call).active = [t] := by
    cases call <;> simp [started, hidle]
  refine ⟨hcan, @Reach.ends _ e t _ call _ J _ hr (Function.update_self ..) ht ?_ hj hstep ?_⟩
  · intro t' ht'
    rw [hactive] at ht'
    exact List.mem_singleton.mp ht'
  · intro reply w' hr' hact hJ
    have hfin := @Reach.step _ e _ ⟨ended w' t call reply, Function.update c.threads t (.replied call reply)⟩ (.finish t) hr'
      trivial (by simp only [LsmDb.step, Function.update_self, Function.update_idem])
    refine hq _ hfin ?_ reply w' (Function.update_self ..) rfl hJ
    show (ended w' t call reply).active = []
    rw [ended_active, hact]
    show (started c.world t call).active.erase t = []
    rw [hactive]
    simp

end Progress
end LsmDb
