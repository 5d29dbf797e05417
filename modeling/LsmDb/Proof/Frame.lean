import LsmDb.Proof.Safety

/-! Replacing one thread's annotation: what the other threads know stays as it is. -/
namespace LsmDb
open Lib
set_option autoImplicit false

section Frame
variable [Deps] {e : Env} {g g' : Ghost} {w w' : World} {A : Tid → Own} {t : Tid} {a : Own}

theorem forall_update {P : Tid → Own → Prop} (hown : P t a) (hother : ∀ t', t' ≠ t → P t' (A t')) (t' : Tid) :
    P t' (Function.update A t a t') := by
  by_cases h : t' = t
  · subst h
    rwa [Function.update_self]
  · rw [Function.update_of_ne h]
    exact hother t' h

/-- The fields that say who is around. -/
structure SameTerms (w w' : World) : Prop where
  opener : w'.opener = w.opener
  active : w'.active = w.active
  ready : w'.ready = w.ready
  live : w'.live = w.live

/-- The annotation still says the same about who the thread is. -/
structure Kin (a a' : Own) : Prop where
  mode : a'.mode = a.mode
  opener : a'.opener = a.opener

theorem SameTerms.is_ready (hw : SameTerms w w') (h : Shared w A) (hr : w'.ready = true) :
    w'.live = true ∧ w'.opener = none := by
  rw [hw.ready] at hr
  rw [hw.live, hw.opener]
  exact h.ready hr

theorem Shared.set (h : Shared w A) (hopener : w'.opener = w.opener) (hactive : w'.active = w.active)
    (hready : w'.ready = true → w'.live = true ∧ w'.opener = none) (hn : (A t).mode ≠ .idle) (hn' : a.mode ≠ .idle)
    (ho : a.opener = (A t).opener) (hs : w'.spec.seen = Function.update w.spec.seen t a.seen) :
    Shared w' (Function.update A t a) where
  opener := forall_update (P := fun t' a => a.opener = true ↔ w'.opener = some t')
    (by rw [ho, hopener]; exact h.opener t) (fun t' _ => by rw [hopener]; exact h.opener t')
  seen t' := by
    rw [hs]
    by_cases ht : t' = t
    · subst ht
      simp
    · rw [Function.update_of_ne ht, Function.update_of_ne ht]
      exact h.seen t'
  resting := forall_update (P := fun _ a => a.mode = .idle → a = Own.idle a.seen)
    (fun hi => absurd hi hn') (fun t' _ => h.resting t')
  inactive := forall_update (P := fun t' a => t' ∉ w'.active → a.mode = .idle)
    (fun hi => absurd (h.inactive t (by rwa [hactive] at hi)) hn)
    (fun t' _ hi => h.inactive t' (by rwa [hactive] at hi))
  alone t' ho' := forall_update (P := fun t'' a => t'' ≠ t' → a.mode = .idle)
    (fun hne => absurd (h.alone t' (by rwa [hopener] at ho') t hne) hn)
    (fun t'' _ hne => h.alone t' (by rwa [hopener] at ho') t'' hne)
  ready := hready

theorem phases_update (A : Tid → Own) (t : Tid) (a : Own) :
    (fun t' => (Function.update A t a t').phase) = Function.update (fun t' => (A t').phase) t a.phase := by
  funext t'
  by_cases h : t' = t
  · subst h
    simp
  · simp [Function.update_of_ne h]

theorem phases_keep (hp : a.phase = (A t).phase) :
    (fun t' => (Function.update A t a t').phase) = fun t' => (A t').phase := by
  rw [phases_update, hp, Function.update_eq_self]

/-- One thread moves; the others keep what they know. -/
theorem Crew.step (h : Crew e g w A) (hw : SameTerms w w') (hm : (A t).mode = .live) (hk : Kin (A t) a)
    (hs : w'.spec.seen = Function.update w.spec.seen t a.seen)
    (hb : ∀ b, a.build = some b → ∀ t' b', t' ≠ t → (A t').build = some b' → b.seq ≠ b'.seq)
    (hown : Local e g' w' t a) (hother : ∀ t', t' ≠ t → Local e g w t' (A t') → Local e g' w' t' (A t'))
    (htold : ∀ d, e.Good d → e.sequential = true →
      Told e d w'.spec (Function.update (fun t' => (A t').phase) t a.phase)) :
    Crew e g' w' (Function.update A t a) where
  shared := h.shared.set hw.opener hw.active (hw.is_ready h.shared) (by rw [hm]; simp) (by rw [hk.mode, hm]; simp) hk.opener hs
  modes := forall_update (P := fun _ a => a.mode = .idle ∨ a.mode = .live)
    (Or.inr (hk.mode.trans hm)) (fun t' _ => h.modes t')
  threads := forall_update hown fun t' ht => hother t' ht (h.threads t')
  apart := by
    intro t₁ t₂ b₁ b₂ hne h₁ h₂
    by_cases ht₁ : t₁ = t
    · subst ht₁
      rw [Function.update_self] at h₁
      rw [Function.update_of_ne (Ne.symm hne)] at h₂
      exact hb b₁ h₁ t₂ b₂ (Ne.symm hne) h₂
    · rw [Function.update_of_ne ht₁] at h₁
      by_cases ht₂ : t₂ = t
      · subst ht₂
        rw [Function.update_self] at h₂
        exact Ne.symm (hb b₂ h₂ t₁ b₁ ht₁ h₁)
      · rw [Function.update_of_ne ht₂] at h₂
        exact h.apart t₁ t₂ b₁ b₂ hne h₁ h₂
  told d hd hseq := by
    rw [phases_update]
    exact htold d hd hseq

/-- The same when the history and the thread's phase stay. -/
theorem Crew.keep (h : Crew e g w A) (hw : SameTerms w w') (hm : (A t).mode = .live) (hk : Kin (A t) a)
    (hspec : w'.spec = w.spec) (hseen : a.seen = (A t).seen) (hp : a.phase = (A t).phase)
    (hb : ∀ b, a.build = some b → ∃ b', (A t).build = some b' ∧ b.seq = b'.seq)
    (hown : Local e g' w' t a) (hother : ∀ t', t' ≠ t → Local e g w t' (A t') → Local e g' w' t' (A t')) :
    Crew e g' w' (Function.update A t a) := by
  refine h.step hw hm hk ?_ ?_ hown hother ?_
  · rw [hspec, hseen, ← h.shared.seen, Function.update_eq_self]
  · intro b hb' t' b₂ hne h₂
    obtain ⟨b₁, h₁, heq⟩ := hb b hb'
    rw [heq]
    exact h.apart t t' b₁ b₂ (Ne.symm hne) h₁ h₂
  · intro d hd hseq
    rw [hspec, hp, Function.update_eq_self]
    exact h.told d hd hseq

/-! ## Facts every operation starts from -/

theorem Inv.running (h : Inv e w A) (hm : (A t).mode = .live) : ∃ g, Running e g w A := by
  obtain ⟨g, hr | hr⟩ := h
  · exact ⟨g, hr⟩
  · rcases hr.modes t with ha | ha <;> rw [ha] at hm <;> simp [Own.idle] at hm

theorem Does.live {o : Act} {Q : Own → Res o → Prop} (hm : a.mode = .live)
    (h : ∀ g w A, Running e g w A → A t = a → guardAct e t o w ∧
      ∀ c r w', e.allowsAct w t o c → exec t o c w = some (r, w') →
        ∃ g' a', Running e g' w' (Function.update A t a') ∧ Q a' r) : Does e t o a Q := by
  intro w A hinv ha
  obtain ⟨g, hr⟩ := hinv.running (show (A t).mode = .live by rw [ha, hm])
  obtain ⟨hg, hstep⟩ := h g w A hr ha
  refine ⟨hg, fun c r w' hc hx => ?_⟩
  obtain ⟨g', a', hr', hq⟩ := hstep c r w' hc hx
  exact ⟨a', ⟨g', Or.inl hr'⟩, hq⟩

/-- An operation that leaves the world as it is. -/
theorem Does.look {o : Act} {Q : Own → Res o → Prop} (hm : a.mode = .live) (hg : ∀ w, guardAct e t o w)
    (h : ∀ g w A, Running e g w A → A t = a → ∀ c r w', e.allowsAct w t o c →
      exec t o c w = some (r, w') → w' = w ∧ Q a r) : Does e t o a Q := by
  refine Does.live hm ?_
  intro g w A hr ha
  refine ⟨hg w, fun c r w' hc hx => ?_⟩
  obtain ⟨rfl, hq⟩ := h g w A hr ha c r w' hc hx
  refine ⟨g, a, ?_, hq⟩
  rw [← ha, Function.update_eq_self]
  exact hr

/-- Only one thread has the lock. -/
theorem Crew.other_hold (h : Crew e g w A) (hh : (A t).hold ≠ none) {t' : Tid} (ht : t' ≠ t) :
    (A t').hold = none := by
  by_contra hne
  have h1 := (h.threads t).holder.mpr hh
  have h2 := (h.threads t').holder.mpr hne
  rw [h1] at h2
  exact ht (Option.some.inj h2).symm

theorem Crew.other_opener (h : Crew e g w A) (hm : (A t).mode = .live) {t' : Tid} (ht : t' ≠ t) :
    (A t').opener = false := by
  by_contra hne
  have ho := (h.shared.opener t').mp (by simpa using hne)
  have hi := h.shared.alone t' ho t (Ne.symm ht)
  rw [hm] at hi
  simp at hi

end Frame
end LsmDb
