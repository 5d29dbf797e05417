import LsmDb.Engine.System

/-! Programs and calls running by themselves: what they return and the world they leave, as equations. -/
namespace LsmDb
open Lib
set_option autoImplicit false

section Alone
variable [Deps] {α β : Type} {t : Tid} {pick : Act → World → Choice} {w w' : World} {config : LsmConfig} {features : Features}

/-- An environment in which nothing fails and directories are listed in name order. -/
def allOk : Act → World → Choice := fun _ _ => .ok

abbrev alone (t : Tid) (pick : Act → World → Choice) (p : P α) (w : World) : Option (α × World) :=
  machine.runAlone t pick p w

theorem alone_perform {o : Act} {r : Res o} (h : exec t o (pick o w) w = some (r, w')) (f : Res o → P β) :
    alone t pick (perform o >>= f) w = alone t pick (f r) w' := by
  simp only [alone, perform, Prog.op_bind, Machine.runAlone, h]
  rfl

theorem alone_bind {p : P α} {a : α} (h : alone t pick p w = some (a, w')) (f : α → P β) :
    alone t pick (p >>= f) w = alone t pick (f a) w' := by
  unfold alone at h ⊢
  rw [Machine.runAlone_bind, h]
  rfl

theorem alone_bind_ok {x : M α} {a : α} (h : alone t pick x.run w = some (.ok a, w')) (f : α → M β) :
    alone t pick (x >>= f).run w = alone t pick (f a).run w' := alone_bind h _

theorem alone_bind_error {x : M α} {err : Error} (h : alone t pick x.run w = some (.error err, w'))
    (f : α → M β) : alone t pick (x >>= f).run w = some (.error err, w') := alone_bind h _

theorem alone_lift {o : Act} {r : Res o} (h : exec t o (pick o w) w = some (r, w')) (f : Res o → M β) :
    alone t pick ((perform o : P (Res o)) >>= f : M β).run w = alone t pick (f r).run w' := by
  refine alone_bind_ok (x := ((perform o : P (Res o)) : M (Res o))) ?_ f
  exact alone_perform h _

theorem alone_mk {o : Act} {r : Res o} (h : exec t o (pick o w) w = some (r, w')) :
    alone t pick (perform o) w = some (r, w') := alone_perform h _

theorem alone_io {context : String} {x : P (Except IoError α)} {r : Except IoError α}
    (h : alone t pick x w = some (r, w')) :
    alone t pick (io context x).run w = some (ioResult context r, w') := alone_bind h _

theorem alone_io_ok {context : String} {x : P (Except IoError α)} {a : α} (h : alone t pick x w = some (.ok a, w')) :
    alone t pick (io context x).run w = some (.ok a, w') := alone_io h

theorem alone_withGuard {body : M α} {r : Except Error α} (hlock : w.lock = none)
    (h : alone t allOk body.run { w with lock := some t } = some (r, w')) :
    alone t allOk (withGuard body).run w = some (r, { w' with lock := none }) := by
  have hl : exec t .lock .ok w = some ((), { w with lock := some t }) := by simp [exec, hlock]
  have hu : exec t .unlock .ok w' = some ((), { w' with lock := none }) := rfl
  have hrun : (withGuard body).run = perform .lock >>= fun _ => body.run >>= fun r => perform .unlock >>= fun _ =>
      pure r := rfl
  rw [hrun, alone_perform hl, alone_bind h, alone_perform hu]
  rfl

/-- A flush of an empty memtable. -/
theorem alone_flush_empty (hlock : w.lock = none) (hempty : w.memtable.isEmpty = true) :
    alone t allOk (flush config features).run w = some (.ok (), w) := by
  have hbody : alone t allOk (do
      let inner ← perform .inner
      if inner.1.isEmpty then pure () else flushLocked config features : M Unit).run { w with lock := some t } =
      some (.ok (), { w with lock := some t }) := by
    rw [alone_lift (show exec t .inner .ok { w with lock := some t } =
      some ((w.memtable, w.runs, w.walOpen), { w with lock := some t }) from rfl)]
    simp only [hempty, if_true]
    rfl
  have hdone := alone_withGuard hlock hbody
  rw [flush, hdone, ← hlock]

/-! ## Calls -/

/-- A call from start to return with nobody else moving: the reply and the world it leaves. -/
def callAlone (t : Tid) (pick : Act → World → Choice) (call : Call) (w : World) : Option (Reply × World) :=
  if canStart w t call then
    (alone t pick (call.program w.config w.features) (started w t call)).map fun r =>
      (r.1, ended r.2 t call r.1)
  else none

theorem callAlone_eq {call : Call} {reply : Reply} (hcan : canStart w t call = true)
    (h : alone t allOk (call.program w.config w.features) (started w t call) = some (reply, w')) :
    callAlone t allOk call w = some (reply, ended w' t call reply) := by
  simp only [callAlone, hcan, if_true, h, Option.map_some]

theorem alone_unit {x : M Unit} {r : Except Error Unit} (h : alone t allOk x.run w = some (r, w')) :
    alone t allOk (Reply.unit <$> x.run) w = some (.unit r, w') := alone_bind h _

end Alone
end LsmDb
