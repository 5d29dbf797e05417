import LsmDb.Lib.Prog
import Mathlib.Logic.Hydra

/-! Termination of interleavings: when each of finitely many threads can take only finitely many steps, no order of
their steps goes on forever. -/
namespace LsmDb.Lib
set_option autoImplicit false

section Interleave
variable {ι α : Type} [DecidableEq ι] {r : α → α → Prop}

/-- One of the threads of `F` takes a step of its own. -/
def Interleaved (r : α → α → Prop) (F : Finset ι) (f' f : ι → α) : Prop :=
  ∃ t ∈ F, ∃ a, r a (f t) ∧ f' = Function.update f t a

theorem wellFounded_interleaved (hr : WellFounded r) (F : Finset ι) : WellFounded (Interleaved r F) := by
  refine Subrelation.wf ?_ (InvImage.wf (fun f : ι → α => F.val.map f) hr.cutExpand)
  rintro f' f ⟨t, ht, a, ha, rfl⟩
  have hsplit : ∀ g : ι → α, F.val.map g = g t ::ₘ (F.erase t).val.map g := fun g => by
    rw [← Multiset.map_cons, Finset.erase_val, Multiset.cons_erase ht]
  have hrest : (F.erase t).val.map (Function.update f t a) = (F.erase t).val.map f := by
    refine Multiset.map_congr rfl fun t' ht' => Function.update_of_ne ?_ ..
    rintro rfl
    exact Finset.notMem_erase _ _ ht'
  show Relation.CutExpand r (F.val.map (Function.update f t a)) (F.val.map f)
  rw [hsplit, hsplit f, hrest, Function.update_self]
  simp only [← Multiset.singleton_add]
  exact Relation.cutExpand_single_add ha _

end Interleave

namespace Prog
variable {Op : Type} {Res : Op → Type} {α : Type}

/-- What is left of a program after its first operation. -/
inductive Left : Prog Op Res α → Prog Op Res α → Prop
  | op {o : Op} {k : Res o → Prog Op Res α} (r : Res o) : Left (k r) (.op o k)

theorem wellFounded_left : WellFounded (Left : Prog Op Res α → Prog Op Res α → Prop) := by
  refine ⟨fun p => ?_⟩
  induction p with
  | done v => exact ⟨_, fun q hq => by cases hq⟩
  | op o k ih =>
    refine ⟨_, fun q hq => ?_⟩
    cases hq with
    | op r => exact ih r

end Prog
end LsmDb.Lib
