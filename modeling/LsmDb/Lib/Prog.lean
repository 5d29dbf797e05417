import Mathlib.Data.Nat.Notation
import Mathlib.Logic.Function.Basic

/-! Programs as trees of atomic operations, and an invariant logic for threads that run them.

A thread carries an annotation: what it knows and owns. `Inv` relates the shared world to the
annotations of all threads, so a step that keeps `Inv` has respected what every other thread knows.
`Safe` follows one program through its operations, whatever the other threads do in between. -/
namespace LsmDb.Lib
set_option autoImplicit false

inductive Prog (Op : Type) (Res : Op → Type) (α : Type) where
  | done (a : α)
  | op (o : Op) (k : Res o → Prog Op Res α)

namespace Prog

variable {Op : Type} {Res : Op → Type} {α β : Type}

protected def bind (p : Prog Op Res α) (f : α → Prog Op Res β) : Prog Op Res β :=
  match p with
  | done a => f a
  | op o k => op o fun r => (k r).bind f

instance : Monad (Prog Op Res) where
  pure := done
  bind := Prog.bind

@[simp] theorem pure_eq (a : α) : (pure a : Prog Op Res α) = done a := rfl
@[simp] theorem done_bind (a : α) (f : α → Prog Op Res β) : (done a >>= f) = f a := rfl
@[simp] theorem op_bind (o : Op) (k : Res o → Prog Op Res α) (f : α → Prog Op Res β) :
    (op o k >>= f) = op o fun r => k r >>= f := rfl

/-! ## Protocols -/

variable {σ : Type} {p q : Op → Prop} {next : σ → (o : Op) → Res o → σ → Prop} {s : σ}

/-- Every operation the program may come to satisfies `p`. -/
def Uses (p : Op → Prop) : Prog Op Res α → Prop
  | .done _ => True
  | .op o k => p o ∧ ∀ r, (k r).Uses p

theorem Uses.mono {x : Prog Op Res α} (h : x.Uses p) (hpq : ∀ o, p o → q o) : x.Uses q := by
  induction x with
  | done v => trivial
  | op o k ih => exact ⟨hpq o h.1, fun r => ih r (h.2 r)⟩

theorem Uses.bind {x : Prog Op Res α} {f : α → Prog Op Res β} (h : x.Uses p) (hf : ∀ v, (f v).Uses p) :
    (x >>= f).Uses p := by
  induction x with
  | done v => exact hf v
  | op o k ih => exact ⟨h.1, fun r => ih r (h.2 r)⟩

/-- From stage `s` the program keeps to the protocol `next`, whatever its operations return, and ends with
`Q`. -/
def Follows (next : σ → (o : Op) → Res o → σ → Prop) (Q : σ → α → Prop) : Prog Op Res α → σ → Prop
  | .done v, s => Q s v
  | .op o k, s => ∀ r, ∃ s', next s o r s' ∧ (k r).Follows next Q s'

theorem Follows.mono {Q Q' : σ → α → Prop} {x : Prog Op Res α} (h : x.Follows next Q s)
    (hq : ∀ s v, Q s v → Q' s v) : x.Follows next Q' s := by
  induction x generalizing s with
  | done v => exact hq s v h
  | op o k ih =>
    intro r
    obtain ⟨s', hs, hrest⟩ := h r
    exact ⟨s', hs, ih r hrest⟩

/-- A program that keeps to a protocol uses the operations of the protocol. -/
theorem Follows.uses {Q : σ → α → Prop} {x : Prog Op Res α} (hres : ∀ o, Nonempty (Res o))
    (hp : ∀ s o r s', next s o r s' → p o) (h : x.Follows next Q s) : x.Uses p := by
  induction x generalizing s with
  | done v => trivial
  | op o k ih =>
    refine ⟨?_, fun r => ?_⟩
    · obtain ⟨r⟩ := hres o
      obtain ⟨s', hs, _⟩ := h r
      exact hp s o r s' hs
    · obtain ⟨s', _, hrest⟩ := h r
      exact ih r hrest

theorem Follows.bind {Q : σ → β → Prop} {x : Prog Op Res α} {f : α → Prog Op Res β}
    (h : x.Follows next (fun s v => (f v).Follows next Q s) s) : (x >>= f).Follows next Q s := by
  induction x generalizing s with
  | done v => exact h
  | op o k ih =>
    intro r
    obtain ⟨s', hs, hrest⟩ := h r
    exact ⟨s', hs, ih r hrest⟩

/-- A program whose operations do not move the stage. -/
theorem Uses.follows {Q : σ → α → Prop} {x : Prog Op Res α} (h : x.Uses p)
    (hn : ∀ o r, p o → next s o r s) (hq : ∀ v, Q s v) : x.Follows next Q s := by
  induction x with
  | done v => exact hq v
  | op o k ih => exact fun r => ⟨s, hn o r h.1, ih r (h.2 r)⟩

end Prog

/-- The meaning of the operations. -/
structure Machine (Op : Type) (Res : Op → Type) where
  World : Type
  Choice : Type
  /-- One operation of a thread, under a choice of the environment; none when it must wait. -/
  exec : ℕ → (o : Op) → Choice → World → Option (Res o × World)

namespace Machine

variable {Op : Type} {Res : Op → Type} {α β : Type} (m : Machine Op Res) (t : ℕ)

/-- Run to the end with no other thread moving; `pick` makes the environment's choices. -/
def runAlone (pick : Op → m.World → m.Choice) : Prog Op Res α → m.World → Option (α × m.World)
  | .done v, w => some (v, w)
  | .op o k, w =>
    match m.exec t o (pick o w) w with
    | none => none
    | some (r, w') => runAlone pick (k r) w'

variable {m t} {pick : Op → m.World → m.Choice}

theorem runAlone_bind (p : Prog Op Res α) (f : α → Prog Op Res β) (w : m.World) :
    m.runAlone t pick (p >>= f) w =
      (m.runAlone t pick p w).bind fun r => m.runAlone t pick (f r.1) r.2 := by
  induction p generalizing w with
  | done v => rfl
  | op o k ih =>
    simp only [Prog.op_bind, runAlone]
    cases m.exec t o (pick o w) w with
    | none => rfl
    | some r => exact ih r.1 r.2

/-! ## Total correctness -/

variable (m t) in
/-- With nobody else moving: the program never has to wait, and however the environment chooses among
`allows` it ends with `Q`. -/
def Ends (allows : Op → m.Choice → m.World → Prop) (calm : m.Choice) (Q : α → m.World → Prop) :
    Prog Op Res α → m.World → Prop
  | .done v, w => Q v w
  | .op o k, w => m.exec t o calm w ≠ none ∧ ∀ c r w', allows o c w → m.exec t o c w = some (r, w') →
      Ends allows calm Q (k r) w'

variable {allows : Op → m.Choice → m.World → Prop} {calm : m.Choice} {Q Q' : α → m.World → Prop}

theorem Ends.mono {p : Prog Op Res α} {w : m.World} (h : m.Ends t allows calm Q p w) (hq : ∀ v w, Q v w → Q' v w) :
    m.Ends t allows calm Q' p w := by
  induction p generalizing w with
  | done v => exact hq v w h
  | op o k ih => exact ⟨h.1, fun c r w' hc he => ih r (h.2 c r w' hc he)⟩

/-- An invariant of the rest of the program and the world. -/
theorem Ends.of_inv {I : Prog Op Res α → m.World → Prop} {p : Prog Op Res α} {w : m.World} (h : I p w)
    (hgo : ∀ o k w, I (.op o k) w → m.exec t o calm w ≠ none)
    (hstep : ∀ o k c r w w', I (.op o k) w → allows o c w → m.exec t o c w = some (r, w') → I (k r) w')
    (hdone : ∀ v w, I (.done v) w → Q v w) : m.Ends t allows calm Q p w := by
  induction p generalizing w with
  | done v => exact hdone v w h
  | op o k ih => exact ⟨hgo o k w h, fun c r w' hc he => ih r (hstep o k c r w w' h hc he)⟩

end Machine

/-- The meaning of the operations and the invariant a family of programs maintains. -/
structure Logic (Op : Type) (Res : Op → Type) extends Machine Op Res where
  Ann : Type
  /-- The choices under consideration. -/
  allows : ℕ → Op → Choice → World → Prop
  /-- What must hold whenever a thread is about to perform an operation. -/
  guard : ℕ → Op → World → Prop
  Inv : World → (ℕ → Ann) → Prop

namespace Logic

variable {Op : Type} {Res : Op → Type} {α β : Type} (L : Logic Op Res) (t : ℕ)

/-- From annotation `a`, every run of the program keeps the invariant, meets every guard, and ends with
`Q`. -/
def Safe (Q : L.Ann → α → Prop) : Prog Op Res α → L.Ann → Prop
  | .done v, a => Q a v
  | .op o k, a => ∀ w A, L.Inv w A → A t = a → L.guard t o w ∧
      ∀ c r w', L.allows t o c w → L.exec t o c w = some (r, w') →
        ∃ a', L.Inv w' (Function.update A t a') ∧ Safe Q (k r) a'

variable {L} {t}

theorem Safe.mono {Q Q' : L.Ann → α → Prop} {p : Prog Op Res α} {a : L.Ann} (h : L.Safe t Q p a)
    (hq : ∀ a v, Q a v → Q' a v) : L.Safe t Q' p a := by
  induction p generalizing a with
  | done v => exact hq a v h
  | op o k ih =>
    intro w A hinv ha
    obtain ⟨hg, hstep⟩ := h w A hinv ha
    refine ⟨hg, fun c r w' hc he => ?_⟩
    obtain ⟨a', hinv', hsafe⟩ := hstep c r w' hc he
    exact ⟨a', hinv', ih r hsafe⟩

/-- Programs in sequence. -/
theorem Safe.bind {Q : L.Ann → β → Prop} {p : Prog Op Res α} {f : α → Prog Op Res β} {a : L.Ann}
    (h : L.Safe t (fun a v => L.Safe t Q (f v) a) p a) : L.Safe t Q (p >>= f) a := by
  induction p generalizing a with
  | done v => exact h
  | op o k ih =>
    intro w A hinv ha
    obtain ⟨hg, hstep⟩ := h w A hinv ha
    refine ⟨hg, fun c r w' hc he => ?_⟩
    obtain ⟨a', hinv', hsafe⟩ := hstep c r w' hc he
    exact ⟨a', hinv', ih r hsafe⟩

/-! ## A program running alone -/

variable (L t) in
/-- Every choice made along the run is one under consideration. -/
def Clean (pick : Op → L.World → L.Choice) : Prog Op Res α → L.World → Prop
  | .done _, _ => True
  | .op o k, w => L.allows t o (pick o w) w ∧
    ∀ r w', L.exec t o (pick o w) w = some (r, w') → Clean pick (k r) w'

variable {pick : Op → L.World → L.Choice}

theorem clean_of_forall {p : Prog Op Res α} {w : L.World} (h : ∀ o w, L.allows t o (pick o w) w) :
    L.Clean t pick p w := by
  induction p generalizing w with
  | done v => trivial
  | op o k ih => exact ⟨h o w, fun r w' _ => ih r⟩

/-- A clean run that never has to wait ends, with the invariant and the postcondition. `S` says that
nobody else is around. -/
theorem Safe.run {Q : L.Ann → α → Prop} {p : Prog Op Res α} {w : L.World} {A : ℕ → L.Ann} {S : L.World → Prop}
    (h : L.Safe t Q p (A t)) (hinv : L.Inv w A) (hclean : L.Clean t pick p w) (hs : S w)
    (hkeep : ∀ o c w r w', S w → L.guard t o w → L.exec t o c w = some (r, w') → S w')
    (hgo : ∀ o w, S w → L.guard t o w → L.exec t o (pick o w) w ≠ none) :
    ∃ v w' a', L.toMachine.runAlone t pick p w = some (v, w') ∧ L.Inv w' (Function.update A t a') ∧ S w' ∧ Q a' v := by
  induction p generalizing w A with
  | done v => exact ⟨v, w, A t, rfl, by rwa [Function.update_eq_self], hs, h⟩
  | op o k ih =>
    obtain ⟨hg, hstep⟩ := h w A hinv rfl
    obtain ⟨hallow, hrest⟩ := hclean
    cases he : L.exec t o (pick o w) w with
    | none => exact absurd he (hgo o w hs hg)
    | some r =>
      obtain ⟨v, w'⟩ := r
      obtain ⟨a', hinv', hsafe⟩ := hstep _ v w' hallow he
      have hsafe' : L.Safe t Q (k v) (Function.update A t a' t) := by rwa [Function.update_self]
      obtain ⟨x, w'', a'', hrun, hinv'', hs'', hq⟩ :=
        ih v hsafe' hinv' (hrest v w' he) (hkeep o _ w v w' hs hg he)
      refine ⟨x, w'', a'', ?_, by rwa [Function.update_idem] at hinv'', hs'', hq⟩
      simp only [Machine.runAlone, he]
      exact hrun

end Logic
end LsmDb.Lib
