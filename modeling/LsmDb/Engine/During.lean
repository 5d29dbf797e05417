import LsmDb.Engine.System

/-! One call among everything else: the operations its thread performs, with the worlds around them, while
other threads start, move and return in between. -/
namespace LsmDb
open Lib
set_option autoImplicit false

section During
variable [Deps] {e : Env} {t : Tid} {c c' : Config}

structure Event where
  op : Act
  result : Res op
  before : World
  after : World

/-- A step of somebody else. -/
def Label.spares (t : Tid) : Label → Prop
  | .start t' _ | .act t' _ | .finish t' => t' ≠ t
  | .crash _ | .close => False

/-- From `c` to a later configuration, within one call of `t`. -/
inductive During (e : Env) (t : Tid) (c : Config) : List Event → Config → Prop
  | here : During e t c [] c
  | own {log : List Event} {c' : Config} {call : Call} {o : Act} {k : Res o → P Reply} {choice : Choice} {r : Res o}
      {w : World} (h : During e t c log c') (hth : c'.threads t = .running call (.op o k))
      (ha : e.allowsAct c'.world t o choice) (hx : exec t o choice c'.world = some (r, w)) :
      During e t c (log ++ [⟨o, r, c'.world, w⟩]) ⟨w, Function.update c'.threads t (.running call (k r))⟩
  | other {log : List Event} {c' c'' : Config} {l : Label} (h : During e t c log c') (hl : l.spares t)
      (ha : e.allows c' l) (hs : step c' l = some c'') : During e t c log c''

theorem allows_act {call : Call} {o : Act} {k : Res o → P Reply} {choice : Choice}
    (hth : c.threads t = .running call (.op o k)) (ha : e.allowsAct c.world t o choice) : e.allows c (.act t choice) := by
  intro call' o' k' hth'
  obtain ⟨_, hp⟩ := Thread.running.inj (hth.symm.trans hth')
  obtain ⟨rfl, _⟩ := Prog.op.inj hp
  exact ha

theorem step_act {call : Call} {o : Act} {k : Res o → P Reply} {choice : Choice} {r : Res o} {w : World}
    (hth : c.threads t = .running call (.op o k)) (hx : exec t o choice c.world = some (r, w)) :
    step c (.act t choice) = some ⟨w, Function.update c.threads t (.running call (k r))⟩ := by
  simp only [step, hth, hx]

theorem During.reach {log : List Event} (h : During e t c log c') (hr : Reach e c) : Reach e c' := by
  induction h with
  | here => exact hr
  | own _ hth ha hx ih => exact ih.step (allows_act hth ha) (step_act hth hx)
  | other _ _ ha hs ih => exact ih.step ha hs

/-- Somebody else's step leaves the thread where it is. -/
theorem step_spares {l : Label} (hl : l.spares t) (hs : step c l = some c') : c'.threads t = c.threads t := by
  cases l with
  | start t' call =>
    simp only [step] at hs
    split_ifs at hs
    obtain rfl := Option.some.inj hs
    exact Function.update_of_ne (Ne.symm hl) ..
  | act t' choice =>
    simp only [step] at hs
    split at hs
    · split at hs
      · obtain rfl := Option.some.inj hs
        exact Function.update_of_ne (Ne.symm hl) ..
      · simp at hs
    · simp at hs
  | finish t' =>
    simp only [step] at hs
    split at hs
    · obtain rfl := Option.some.inj hs
      exact Function.update_of_ne (Ne.symm hl) ..
    · simp at hs
  | crash damage => exact absurd hl id
  | close => exact absurd hl id

end During
end LsmDb
