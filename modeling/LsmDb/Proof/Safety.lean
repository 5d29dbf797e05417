import LsmDb.Proof.Invariant

/-! The invariant logic at the engine's operations, with the guards it checks, and the rules for programs
that may return early with an error. -/
namespace LsmDb
open Lib
set_option autoImplicit false

section Safety
variable [Deps]

/-- The runs the manifest on disk lists. -/
def listed (w : World) : List Text :=
  match w.dir.get? MANIFEST with
  | some (.text text) =>
    match parseManifest text with
    | .ok m => m.runs
    | .error _ => []
  | _ => []

/-- The swap of a compaction: its inputs are the oldest runs and make way for one output, which holds
the live newest records of the inputs. -/
def Swap (w : World) (inputs runs : List SsTable) : Prop :=
  ∃ fresh output ess items, w.runs = fresh ++ inputs ∧ runs = fresh ++ [output] ∧
    List.Forall₂ (fun r es => ∃ bs, TableOf r es bs) inputs ess ∧ MergeOf Record.live ess items ∧
    (∃ bs, TableOf output (valueEntries items) bs) ∧ listed w = names runs

/-- What must hold when an operation is about to be performed. -/
def guardAct (e : Env) (t : Tid) (o : Act) (w : World) : Prop :=
  match o with
  | .remove name => name ≠ MANIFEST ∧ (e.statFaults = false → ∀ s, name = runFilename s →
      name ∉ listed w ∧ (∀ r ∈ w.runs, r.name ≠ name) ∧ ∀ h ∈ w.held, h.2.name ≠ name)
  | .create name _ => ∃ n : Name, name = n.text
  | .rename _ target => (∃ n : Name, target = n.text) ∧ ∀ s, target = runFilename s →
      w.dir.get? target = none ∧ w.dir.get? (sidecarPath target) = none ∧
        (∀ r ∈ w.runs, r.name ≠ target) ∧ ∀ h ∈ w.held, h.2.name ≠ target
  | .install inputs runs => t = compactorTid → Swap w inputs runs
  | .lock | .snapshot _ => (∀ t' ∈ w.active, t' = t) → w.lock = none
  | .awaitWork => t = compactorTid
  | _ => True

/-- The engine's operations, its choices and its invariant. -/
def engine (e : Env) : Logic Act Res where
  toMachine := machine
  Ann := Own
  allows t o c w := e.allowsAct w t o c
  guard := guardAct e
  Inv := Inv e

variable {e : Env} {t : Tid} {α β : Type}

/-- One operation, from an annotation to a postcondition. -/
def Does (e : Env) (t : Tid) (o : Act) (a : Own) (Q : Own → Res o → Prop) : Prop :=
  ∀ w A, Inv e w A → A t = a → guardAct e t o w ∧
    ∀ c r w', e.allowsAct w t o c → exec t o c w = some (r, w') →
      ∃ a', Inv e w' (Function.update A t a') ∧ Q a' r

theorem Does.mono {o : Act} {a : Own} {Q Q' : Own → Res o → Prop} (h : Does e t o a Q)
    (hq : ∀ a r, Q a r → Q' a r) : Does e t o a Q' := by
  intro w A hinv ha
  obtain ⟨hg, hstep⟩ := h w A hinv ha
  refine ⟨hg, fun c r w' hc he => ?_⟩
  obtain ⟨a', hinv', hr⟩ := hstep c r w' hc he
  exact ⟨a', hinv', hq a' r hr⟩

theorem Does.safe {o : Act} {a : Own} {Q : Own → Res o → Prop} (h : Does e t o a Q) :
    (engine e).Safe t Q (perform o) a := h

/-- A program without early returns. -/
abbrev SafeP (e : Env) (t : Tid) (Q : Own → α → Prop) (p : P α) (a : Own) : Prop := (engine e).Safe t Q p a

theorem SafeP.bind {Q : Own → β → Prop} {p : P α} {f : α → P β} {a : Own}
    (h : SafeP e t (fun a v => SafeP e t Q (f v) a) p a) : SafeP e t Q (p >>= f) a := Logic.Safe.bind h

theorem SafeP.pure {Q : Own → α → Prop} {v : α} {a : Own} (h : Q a v) : SafeP e t Q (pure v) a := h

theorem SafeP.perform {o : Act} {Q : Own → β → Prop} {f : Res o → P β} {a : Own}
    (h : Does e t o a fun a r => SafeP e t Q (f r) a) : SafeP e t Q (LsmDb.perform o >>= f) a :=
  SafeP.bind h

theorem SafeP.map {Q : Own → β → Prop} {p : P α} {f : α → β} {a : Own}
    (h : SafeP e t (fun a v => Q a (f v)) p a) : SafeP e t Q (f <$> p) a := SafeP.bind h

/-! ## Early returns -/

def Outcome (Q : Own → α → Prop) (E : Own → Error → Prop) (a : Own) : Except Error α → Prop
  | .ok v => Q a v
  | .error err => E a err

/-- A program with early returns, and what it leaves behind in either case. -/
def SafeM (e : Env) (t : Tid) (Q : Own → α → Prop) (E : Own → Error → Prop) (p : M α) (a : Own) : Prop :=
  SafeP e t (Outcome Q E) p.run a

variable {Q : Own → α → Prop} {E : Own → Error → Prop} {a : Own}

theorem SafeM.mono {Q' : Own → α → Prop} {E' : Own → Error → Prop} {p : M α} (h : SafeM e t Q E p a)
    (hq : ∀ a v, Q a v → Q' a v) (he : ∀ a err, E a err → E' a err) : SafeM e t Q' E' p a := by
  refine Logic.Safe.mono h ?_
  intro a r hr
  cases r with
  | ok v => exact hq a v hr
  | error err => exact he a err hr

theorem SafeM.pure {v : α} (h : Q a v) : SafeM e t Q E (Pure.pure v) a := h

theorem SafeM.throw {err : Error} (h : E a err) : SafeM e t Q E (MonadExcept.throw err) a := h

theorem SafeM.bind {Q : Own → β → Prop} {p : M α} {f : α → M β}
    (h : SafeM e t (fun a v => SafeM e t Q E (f v) a) E p a) : SafeM e t Q E (p >>= f) a := by
  refine Logic.Safe.bind (Logic.Safe.mono h ?_)
  intro a r hr
  cases r with
  | ok v => exact hr
  | error err => exact hr

theorem SafeM.lift {r : Except Error α} (hok : ∀ v, r = .ok v → Q a v) (herr : ∀ err, r = .error err → E a err) :
    SafeM e t Q E (lift r) a := by
  cases r with
  | ok v => exact hok v rfl
  | error err => exact herr err rfl

/-- An operation that cannot fail. -/
theorem SafeM.perform {o : Act} {Q : Own → β → Prop} {f : Res o → M β}
    (h : Does e t o a fun a r => SafeM e t Q E (f r) a) :
    SafeM e t Q E ((LsmDb.perform o : P (Res o)) >>= f) a := SafeP.bind h

theorem SafeM.last {o : Act} {Q : Own → Res o → Prop} (h : Does e t o a Q) :
    SafeM e t Q E (LsmDb.perform o : P (Res o)) a := SafeP.bind h

/-- An I/O operation, whose error carries a context. -/
theorem SafeM.io {context : String} {x : P (Except IoError α)}
    (h : SafeP e t (fun a r => match r with
      | .ok v => Q a v
      | .error err => E a (.io context err)) x a) : SafeM e t Q E (io context x) a := by
  refine Logic.Safe.bind (Logic.Safe.mono h ?_)
  intro a r hr
  cases r with
  | ok v => exact hr
  | error err => exact hr

end Safety
end LsmDb
