import LsmDb.Engine.Effects
import LsmDb.Proof.Calls

/-! Every reachable configuration satisfies the invariant, and every thread is on its way to a right answer. -/
namespace LsmDb
open Lib
set_option autoImplicit false

section Reachable
variable [Deps] {e : Env} {g : Ghost} {w : World} {A : Tid → Own} {t : Tid} {a : Own} {c c' : Config}
  {config : LsmConfig} {features : Features}

/-! ## Configurations -/

/-- What each thread's call is to end with. -/
abbrev Goal := Tid → Call → Own → Reply → Prop

/-- The usual goal: every call keeps its promise. -/
def Goal.usual (e : Env) : Goal := fun _ => Post e

/-- What is known about a thread. -/
def ThreadInv (e : Env) (Q : Goal) (w : World) (t : Tid) : Thread → Own → Prop
  | .idle, a => a.mode = .idle
  | .replied call reply, a => a.mode = .idle ∧ Answered e a.seen call reply
  | .running call prog, a => t ∈ w.active ∧ SafeP e t (Q t call) prog a

structure Sound (e : Env) (Q : Goal) (c : Config) (A : Tid → Own) : Prop where
  inv : Inv e c.world A
  threads : ∀ t, ThreadInv e Q c.world t (c.threads t) (A t)

variable {Q : Goal}

theorem Inv.shared (h : Inv e w A) : Shared w A := by
  obtain ⟨g, hr | hr⟩ := h
  · exact hr.crew.shared
  · exact hr.shared

theorem Inv.disk (h : Inv e w A) : ∃ g, Disk e g w := by
  obtain ⟨g, hr | hr⟩ := h
  · exact ⟨g, hr.session.disk⟩
  · exact ⟨g, hr.stored, hr.durable⟩

theorem Inv.durable_eq (h : Inv e w A) {d : Bool} (hd : e.Good d) :
    w.spec.durable w.features.durability = w.spec.durable d := by
  obtain ⟨g, hr | hr⟩ := h
  · exact hr.session.durable_eq hd
  · exact hr.features d hd

/-- The other threads do not notice. -/
theorem ThreadInv.other {w' : World} {th : Thread} (h : ThreadInv e Q w t th a)
    (hactive : t ∈ w.active → t ∈ w'.active) : ThreadInv e Q w' t th a := by
  cases th with
  | idle => exact h
  | replied call reply => exact h
  | running call prog => exact ⟨hactive h.1, h.2⟩

theorem exec_active {o : Act} {ch : Choice} {r : Res o} {w' : World} (h : exec t o ch w = some (r, w')) :
    w'.active = w.active := exec_differ h .active (by cases o <;> simp [Act.touches])

theorem forall_threads {w' : World} {threads : Tid → Thread} {th : Thread} (hown : ThreadInv e Q w' t th a)
    (hother : ∀ t', t' ≠ t → ThreadInv e Q w' t' (threads t') (A t')) (t' : Tid) :
    ThreadInv e Q w' t' (Function.update threads t th t') (Function.update A t a t') := by
  by_cases ht : t' = t
  · subst ht
    rw [Function.update_self, Function.update_self]
    exact hown
  · rw [Function.update_of_ne ht, Function.update_of_ne ht]
    exact hother t' ht

theorem SafeP.step {α : Type} {Q : Own → α → Prop} {o : Act} {k : Res o → P α} (h : SafeP e t Q (.op o k) (A t))
    (hinv : Inv e w A) {ch : Choice} {r : Res o} {w' : World} (ha : e.allowsAct w t o ch)
    (hx : exec t o ch w = some (r, w')) : ∃ a' : Own, Inv e w' (Function.update A t a') ∧ SafeP e t Q (k r) a' :=
  (h w A hinv rfl).2 ch r w' ha hx

/-- One operation of a running thread. -/
theorem Sound.act {ch : Choice} (h : Sound e Q c A) (ha : e.allows c (.act t ch)) (hs : step c (.act t ch) = some c') :
    ∃ A', Sound e Q c' A' := by
  simp only [step] at hs
  cases hth : c.threads t with
  | idle => simp [hth] at hs
  | replied call reply => simp [hth] at hs
  | running call prog =>
    cases prog with
    | done reply => simp [hth] at hs
    | op o k =>
      have hrun := h.threads t
      rw [hth] at hrun
      obtain ⟨hact, hsafe⟩ := hrun
      simp only [hth] at hs
      cases hx : exec t o ch c.world with
      | none => simp [hx] at hs
      | some p =>
        obtain ⟨r, w'⟩ := p
        simp only [hx, Option.some.injEq] at hs
        subst hs
        obtain ⟨a', hinv', hsafe'⟩ := hsafe.step h.inv (ha call o k hth) hx
        have hactive : w'.active = c.world.active := exec_active hx
        refine ⟨Function.update A t a', hinv', forall_threads ⟨by rw [hactive]; exact hact, hsafe'⟩ fun t' _ => ?_⟩
        exact (h.threads t').other fun hm => by rw [hactive]; exact hm

/-! ## Crashing and closing -/

omit [Deps] in
theorem look_damage [Deps] (dir : SortedMap Text Data) (damage : List (ℕ × Option Bytes)) (n : Name)
    (hn : ∀ s, n ≠ .side s) : look (damage.foldl damageSidecar dir) n = look dir n := by
  induction damage generalizing dir with
  | nil => rfl
  | cons x damage ih =>
    rw [List.foldl_cons, ih]
    have hne : ¬ n.text = (Name.side x.1).text := by simpa using hn x.1
    unfold damageSidecar
    cases x.2 with
    | none =>
      show look (dir.erase (Name.side x.1).text) n = _
      rw [look_erase_text, if_neg hne]
    | some bytes =>
      simp only
      split_ifs
      · show look (dir.insert (Name.side x.1).text _) n = _
        rw [look_insert, Function.update_of_ne (hn x.1)]
      · rfl

theorem side_damage {content : ℕ → List Entry} {dir : SortedMap Text Data} (damage : List (ℕ × Option Bytes))
    (h : ∀ s d, look dir (.side s) = some d → SideFile content s d) (s : ℕ) (d : Data)
    (hd : look (damage.foldl damageSidecar dir) (.side s) = some d) : SideFile content s d := by
  induction damage generalizing dir with
  | nil => exact h s d hd
  | cons x damage ih =>
    rw [List.foldl_cons] at hd
    refine ih ?_ hd
    intro q y hy
    unfold damageSidecar at hy
    cases hx : x.2 with
    | none =>
      simp only [hx] at hy
      have hy' : look (dir.erase (Name.side x.1).text) (.side q) = some y := hy
      rw [look_erase_text] at hy'
      split_ifs at hy'
      exact h q y hy'
    | some bytes =>
      simp only [hx] at hy
      split_ifs at hy with hbad
      · have hy' : look (dir.insert (Name.side x.1).text (.bin bytes)) (.side q) = some y := hy
        rw [look_insert] at hy'
        by_cases hq : q = x.1
        · subst hq
          rw [Function.update_self] at hy'
          refine ⟨bytes, (Option.some.inj hy').symm, fun f hf => ?_⟩
          have hnone := hbad.2
          rw [hf] at hnone
          simp at hnone
        · rw [Function.update_of_ne (by simp [hq])] at hy'
          exact h q y hy'
      · exact h q y hy

theorem Disk.crashed (hd : Disk e g w) (damage : List (ℕ × Option Bytes)) : Disk e g (crashed w damage) where
  stored := by
    have hkeep := fun n hn => look_damage w.dir damage n hn
    refine ⟨fun s d h => hd.stored.run s d ?_, side_damage damage hd.stored.side, ?_, hd.stored.nodup, ?_⟩
    · have h' : look (damage.foldl damageSidecar w.dir) (.run s) = some d := h
      rwa [hkeep _ (by simp)] at h'
    · show (look (damage.foldl damageSidecar w.dir) .manifest = none ∧ _) ∨ _
      rw [show look (LsmDb.crashed w damage).dir .manifest = look w.dir .manifest from hkeep _ (by simp),
        hkeep _ (by simp)]
      exact hd.stored.manifest
    · intro hstat s hs
      show look (damage.foldl damageSidecar w.dir) (.run s) ≠ none
      rw [hkeep _ (by simp)]
      exact hd.stored.present hstat s hs
  durable d hg := { hd.durable d hg with }

theorem Sound.crash {damage : List (ℕ × Option Bytes)} (h : Sound e Q c A) :
    Sound e Q ⟨crashed c.world damage, fun _ => .idle⟩ fun t => Own.idle (A t).seen := by
  obtain ⟨g, hd⟩ := h.inv.disk
  have hs := h.inv.shared
  refine ⟨⟨g, Or.inr ?_⟩, fun t => rfl⟩
  have hdc := hd.crashed damage
  exact {
    stored := hdc.stored
    durable := hdc.durable
    shared := {
      opener := fun t => by simp [Own.idle, crashed]
      seen := fun t => hs.seen t
      resting := fun t _ => rfl
      inactive := fun t _ => rfl
      alone := fun t ho => by simp [crashed] at ho
      ready := fun hr => by simp [crashed, World.dropEngine] at hr }
    told := fun d hg _ => told_dropEngine (h.inv.durable_eq hg)
    live := rfl
    runs := rfl
    held := rfl
    obsolete := rfl
    modes := fun t => Or.inl rfl
    cur := fun d hg => h.inv.durable_eq hg
    features := fun d hg => h.inv.durable_eq hg }

theorem Sound.close (h : Sound e Q c A) (hactive : c.world.active = []) :
    Sound e Q ⟨c.world.dropEngine, c.threads⟩ A := by
  obtain ⟨g, hd⟩ := h.inv.disk
  have hs := h.inv.shared
  have hidle : ∀ t, A t = Own.idle (A t).seen := fun t =>
    hs.resting t (hs.inactive t (by rw [hactive]; simp))
  refine ⟨⟨g, Or.inr (resting_dropEngine hd (fun d hg => h.inv.durable_eq hg) ?_ fun t => Or.inl (hidle t))⟩,
    fun t => (h.threads t).other id⟩
  exact { hs with
    ready := fun hr => by simp [World.dropEngine] at hr }

/-! ## Starting a call -/

/-- A thread that builds nothing is apart from all others. -/
theorem Crew.apart_of_none (hc : Crew e g w A) (ha : a.build = none) (t₁ t₂ : Tid) (b₁ b₂ : Build) (hne : t₁ ≠ t₂)
    (h₁ : (Function.update A t a t₁).build = some b₁) (h₂ : (Function.update A t a t₂).build = some b₂) :
    b₁.seq ≠ b₂.seq := by
  have hold : ∀ x b, (Function.update A t a x).build = some b → (A x).build = some b := by
    intro x b hx
    by_cases hxt : x = t
    · subst hxt
      rw [Function.update_self, ha] at hx
      simp at hx
    · rwa [Function.update_of_ne hxt] at hx
  exact hc.apart t₁ t₂ b₁ b₂ hne (hold t₁ b₁ h₁) (hold t₂ b₂ h₂)

theorem Running.start (hr : Running e g w A) (hi : (A t).mode = .idle) (hready : w.ready = true) {p : Phase}
    {u : List Entry} (hp : ∀ ops prior, p ≠ .logged ops prior)
    (htold : ∀ d, e.Good d → e.sequential = true →
      Told e d { w.spec with unsure := u } (Function.update (fun t' => (A t').phase) t p)) :
    Running e g { w with active := t :: w.active, spec := { w.spec with unsure := u } }
      (Function.update A t (Own.client (A t).seen p)) where
  session := { hr.session with
    durable := fun d hd => { hr.session.durable d hd with }
    view := fun d hd => { hr.session.view d hd with } }
  crew := by
    have hs := hr.crew.shared
    have ho : w.opener = none := (hs.ready hready).2
    have hidle := hs.resting t hi
    have hl := hr.crew.threads t
    rw [hidle] at hl
    exact {
      shared := {
        opener := forall_update (P := fun t' a => a.opener = true ↔ w.opener = some t')
          (by simp [Own.client, Own.idle, ho]) fun t' _ => hs.opener t'
        seen := forall_update (P := fun t' a => w.spec.seen t' = a.seen) (hs.seen t) fun t' _ => hs.seen t'
        resting := forall_update (P := fun _ a => a.mode = .idle → a = Own.idle a.seen)
          (fun hm => by simp [Own.client] at hm) fun t' _ => hs.resting t'
        inactive := forall_update (P := fun t' a => t' ∉ t :: w.active → a.mode = .idle)
          (fun hn => by simp at hn) fun t' _ hn => hs.inactive t' fun hm => hn (List.mem_cons_of_mem _ hm)
        alone := fun t' ho' => by simp [ho] at ho'
        ready := hs.ready }
      modes := forall_update (P := fun _ a => a.mode = .idle ∨ a.mode = .live) (Or.inr rfl) fun t' _ => hr.crew.modes t'
      threads := forall_update (P := fun t' a => Local e g _ t' a)
        { hl with
          building := fun b hb => by simp [Own.client, Own.idle] at hb
          mirrors := fun h hh => by simp [Own.client, Own.idle] at hh
          logged := fun ops prior hph => absurd hph (hp ops prior)
          lost := fun ho' => by simp [Own.client, Own.idle] at ho' }
        fun t' _ => { hr.crew.threads t' with
          mirrors := fun h hh => { (hr.crew.threads t').mirrors h hh with }
          building := fun b hb => { (hr.crew.threads t').building b hb with } }
      apart := hr.crew.apart_of_none rfl
      told := fun d hd hseq => by
        rw [phases_update]
        exact htold d hd hseq }

theorem Told.start {d : Bool} {s : Spec} {phase : Tid → Phase} (h : Told e d s phase)
    (hq : ∀ t, phase t = .quiet) (ht : t ≠ compactorTid) (ops : List Entry) :
    Told e d { s with unsure := ops ++ s.unsure }
      (Function.update phase t (.pending ops s.unsure)) := by
  refine Told.move (fun t' _ => hq t') (fun hc => absurd hc ht) ?_ ⟨rfl, ?_⟩ ?_
  · intro k hk
    refine h.agree k fun hm => hk ?_
    rw [List.map_append]
    exact List.mem_append_right _ hm
  · exact fun k hk => h.agree k hk
  · intro hio
    exact ⟨(h.sure hio).2 hq, fun hp => by simp at hp⟩

/-- Without overlapping calls everybody is quiet when a call starts. -/
theorem Crew.quiet {d : Bool} (hc : Crew e g w A) (hd : e.Good d) (hseq : e.sequential = true)
    (hactive : ∀ t ∈ w.active, t = compactorTid) (t : Tid) : (A t).phase = .quiet := by
  by_cases hm : t ∈ w.active
  · rw [hactive t hm]
    exact (hc.told d hd hseq).compactor
  · rw [hc.shared.resting t (hc.shared.inactive t hm)]
    rfl

theorem Env.Good.logSized (hg : e.Good true) {ops : List Entry}
    (hsize : ∀ l, e.limit = some l → ∀ op ∈ ops, op.1.length ≤ MAX_RECORD_LEN ∧ op.2.valueLen ≤ l)
    (hcount : e.counted = true → ops.length < 2 ^ 32) : LogSized ops := by
  obtain ⟨l, hl, _, hle⟩ := hg.limit
  refine ⟨hcount (hg.counted rfl), fun x hx => ?_⟩
  have hx' := hsize l hl x hx
  exact ⟨hx'.1, hx'.2.trans (hle rfl)⟩

theorem Inv.running_of_ready (h : Inv e w A) (hready : w.ready = true) : ∃ g, Running e g w A := by
  obtain ⟨g, hr | hr⟩ := h
  · exact ⟨g, hr⟩
  · have hlive := (hr.shared.ready hready).1
    rw [hr.live] at hlive
    simp at hlive

/-- A call of a client or of the compactor. -/
theorem Sound.start_call {call : Call} (h : Sound e Q c A) (hopen : ∀ config features, call ≠ .openWith config features)
    (hready : c.world.ready = true) (ht : t = compactorTid ↔ call = .compact) (hidle : t ∉ c.world.active)
    (ha : t ≠ compactorTid → e.allowsCall c.world call) (hq : ∀ a r, Post e call a r → Q t call a r) :
    ∃ A', Sound e Q ⟨{ c.world with
        active := t :: c.world.active
        spec := { c.world.spec with unsure := call.ops ++ c.world.spec.unsure } },
      Function.update c.threads t (.running call (call.program c.world.config c.world.features))⟩ A' := by
  obtain ⟨g, hr⟩ := h.inv.running_of_ready hready
  have hi := hr.crew.shared.inactive t hidle
  have hf : ∀ d, e.Good d → c.world.features.durability = d := fun d hd => (hr.session.view d hd).durability
  have hown : ∀ p : Phase, p.Begins call →
      SafeP e t (Post e call) (call.program c.world.config c.world.features) (Own.client (A t).seen p) := by
    intro p hp
    by_cases htc : t = compactorTid
    · obtain rfl := ht.mp htc
      exact safe_call ht hopen hf (by simp [Call.ops]) (fun _ => ⟨by simp [Call.ops], by simp [Call.ops]⟩) hp
    · obtain ⟨hsize, hcount, _, _⟩ := ha htc
      exact safe_call ht hopen hf (fun x hx l hl => hsize l hl x hx) (fun hg => hg.logSized hsize hcount) hp
  have hgo : ∀ p : Phase, (∀ ops prior, p ≠ .logged ops prior) →
      (∀ d, e.Good d → e.sequential = true →
        Told e d { c.world.spec with unsure := call.ops ++ c.world.spec.unsure }
          (Function.update (fun t' => (A t').phase) t p)) →
      p.Begins call → ∃ A', Sound e Q ⟨{ c.world with
        active := t :: c.world.active
        spec := { c.world.spec with unsure := call.ops ++ c.world.spec.unsure } },
      Function.update c.threads t (.running call (call.program c.world.config c.world.features))⟩ A' := by
    intro p hlog htold hp
    refine ⟨_, ⟨g, Or.inl (hr.start hi hready hlog htold)⟩, forall_threads ⟨List.mem_cons_self, (hown p hp).mono hq⟩ ?_⟩
    exact fun t' _ => (h.threads t').other fun hm => List.mem_cons_of_mem _ hm
  have hwrite : t ≠ compactorTid → ∀ d, e.Good d → e.sequential = true →
      Told e d { c.world.spec with unsure := call.ops ++ c.world.spec.unsure }
        (Function.update (fun t' => (A t').phase) t (.pending call.ops c.world.spec.unsure)) := by
    intro htc d hd hseq
    exact (hr.crew.told d hd hseq).start
      (fun t' => hr.crew.quiet hd hseq ((ha htc).2.2.1 hseq) t') htc call.ops
  have hread : call.ops = [] → ∀ d, e.Good d → e.sequential = true →
      Told e d { c.world.spec with unsure := call.ops ++ c.world.spec.unsure }
        (Function.update (fun t' => (A t').phase) t .quiet) := by
    intro hnil d hd hseq
    have hq : (A t).phase = .quiet := by rw [hr.crew.shared.resting t hi]; rfl
    rw [hnil, ← hq, Function.update_eq_self]
    exact hr.crew.told d hd hseq
  have hclient : call ≠ .compact → t ≠ compactorTid := fun hne htc => hne (ht.mp htc)
  cases call with
  | put key value => exact hgo _ (by simp) (hwrite (hclient (by simp))) ⟨_, rfl⟩
  | delete key => exact hgo _ (by simp) (hwrite (hclient (by simp))) ⟨_, rfl⟩
  | write batch => exact hgo _ (by simp) (hwrite (hclient (by simp))) ⟨_, rfl⟩
  | flush => exact hgo _ (by simp) (hwrite (hclient (by simp))) ⟨_, rfl⟩
  | get key => exact hgo .quiet (by simp) (hread rfl) rfl
  | scan range => exact hgo .quiet (by simp) (hread rfl) rfl
  | compact => exact hgo .quiet (by simp) (hread rfl) rfl
  | openWith config features => exact absurd rfl (hopen config features)

/-- A call that opens the directory. -/
theorem Sound.start_open (h : Sound e Q c A) (hlive : c.world.live = false) (hactive : c.world.active = [])
    (ht : t ≠ compactorTid) (hf : ∀ d, e.Good d → features.durability = d)
    (hq : ∀ a r, Post e (.openWith config features) a r → Q t (.openWith config features) a r) :
    ∃ A', Sound e Q ⟨{ c.world with
        opener := some t
        features := features
        known := []
        active := t :: c.world.active },
      Function.update c.threads t (.running (.openWith config features)
        ((Call.openWith config features).program c.world.config c.world.features))⟩ A' := by
  obtain ⟨g, hr⟩ : ∃ g, Resting e g c.world A := by
    obtain ⟨g, hr | hr⟩ := h.inv
    · have hl := hr.session.live
      rw [hlive] at hl
      simp at hl
    · exact ⟨g, hr⟩
  have hs := hr.shared
  have hidle : ∀ t, A t = Own.idle (A t).seen := fun t => hs.resting t (hs.inactive t (by rw [hactive]; simp))
  have hd : Disk e g { c.world with
      opener := some t
      features := features
      known := []
      active := t :: c.world.active } := ⟨hr.stored, hr.durable⟩
  have hnot : c.world.ready ≠ true := fun hready => by
    have hl := (hs.ready hready).1
    rw [hlive] at hl
    simp at hl
  refine ⟨Function.update A t (Own.opens (A t).seen _), ⟨g, Or.inr ?_⟩,
    forall_threads ⟨List.mem_cons_self, (safe_open_call hd rfl hf ht).mono hq⟩
      fun t' _ => (h.threads t').other fun hm => List.mem_cons_of_mem _ hm⟩
  exact {
    stored := hr.stored
    durable := hr.durable
    shared := {
      opener := fun t' => by
        by_cases htt : t' = t
        · subst htt
          simp [Own.opens]
        · rw [Function.update_of_ne htt, hidle t']
          simp [Own.idle, Ne.symm htt]
      seen := forall_update (P := fun t' a => c.world.spec.seen t' = a.seen) (hs.seen t) fun t' _ => hs.seen t'
      resting := forall_update (P := fun _ a => a.mode = .idle → a = Own.idle a.seen)
        (fun hm => by simp [Own.opens] at hm) fun t' _ => hs.resting t'
      inactive := forall_update (P := fun t' a => t' ∉ t :: c.world.active → a.mode = .idle)
        (fun hn => by simp at hn) fun t' _ hn => hs.inactive t' fun hm => hn (List.mem_cons_of_mem _ hm)
      alone := fun t' ho => by
        have htt : t = t' := Option.some.inj ho
        subst htt
        intro t'' hne
        rw [Function.update_of_ne hne, hidle t'']
        rfl
      ready := fun hready => absurd hready hnot }
    told := fun d hg hseq => by
      rw [phases_keep (by rw [hidle t]; rfl)]
      exact hr.told d hg hseq
    live := hlive
    runs := hr.runs
    held := hr.held
    obsolete := hr.obsolete
    modes := forall_update (P := fun _ a => a = Own.idle a.seen ∨ a = Own.opens a.seen _) (Or.inr rfl)
      fun t' _ => Or.inl (hidle t')
    cur := hr.cur
    features := fun d hg => by rw [show features.durability = d from hf d hg] }

/-! ## Returning -/

/-- A call that is over leaves its thread quiet. -/
theorem Told.rest {d : Bool} {s : Spec} {phase : Tid → Phase} (h : Told e d s phase)
    (hs : e.ioFaults = false → phase t ≠ .quiet → s.unsure = []) : Told e d s (Function.update phase t .quiet) := by
  by_cases hp : phase t = .quiet
  · rw [← hp, Function.update_eq_self]
    exact h
  · refine Told.move (fun t' ht => h.others hp ht) (fun _ => rfl) h.agree trivial ?_
    exact fun hio => ⟨trivial, fun _ => hs hio hp⟩

/-- The writes of a call are acknowledged. -/
theorem Told.acknowledge {d : Bool} {s : Spec} {phase : Tid → Phase} {ops prior : List Entry} (h : Told e d s phase)
    (hp : phase t = .applied ops prior) :
    Told e d { s with
        acked := s.acked.apply ops
        unsure := s.unsure.filter fun x => x.1 ∉ ops.map Prod.fst }
      (Function.update phase t .quiet) := by
  obtain ⟨hun, hkeys⟩ := hp ▸ h.holds t
  refine Told.move (fun t' ht => h.others (by rw [hp]; simp) ht) (fun _ => rfl) ?_ trivial ?_
  · intro k hk
    refine hkeys k ?_
    by_contra hno
    obtain ⟨hprior, hops⟩ := not_or.mp hno
    obtain ⟨x, hx, hxk⟩ := List.mem_map.mp (not_not.mp hprior)
    refine hk (List.mem_map.mpr ⟨x, List.mem_filter.mpr ⟨?_, ?_⟩, hxk⟩)
    · rw [hun]
      exact List.mem_append_right _ hx
    · rw [hxk]
      exact decide_eq_true hops
  · intro hio
    have hsure := (h.sure hio).1 t
    rw [hp] at hsure
    have hprior : prior = [] := hsure
    refine ⟨trivial, fun _ => ?_⟩
    show s.unsure.filter _ = []
    rw [hun, hprior, List.append_nil, List.filter_eq_nil_iff]
    intro x hx
    simp only [decide_not, Bool.not_eq_true', decide_eq_false_iff_not, not_not]
    exact List.mem_map_of_mem hx

/-- A thread puts down its annotation. -/
theorem Crew.leave {o : Option Tid} {ready : Bool} {x : Store} {u : List Entry} (hc : Crew e g w A)
    (hhold : (A t).hold = none) (hheld : (A t).held = [])
    (hopener : ∀ t', (Function.update A t (Own.idle (A t).seen) t').opener = true ↔ o = some t')
    (halone : ∀ t', o = some t' → w.opener = some t') (hready : ready = true → w.live = true ∧ o = none)
    (htold : ∀ d, e.Good d → e.sequential = true →
      Told e d { w.spec with acked := x, unsure := u } (Function.update (fun t' => (A t').phase) t .quiet)) :
    Crew e g { w with
        active := w.active.erase t
        opener := o
        ready := ready
        spec := { w.spec with acked := x, unsure := u } }
      (Function.update A t (Own.idle (A t).seen)) where
  shared := {
    opener := hopener
    seen := forall_update (P := fun t' a => w.spec.seen t' = a.seen) (hc.shared.seen t) fun t' _ => hc.shared.seen t'
    resting := forall_update (P := fun _ a => a.mode = .idle → a = Own.idle a.seen)
      (fun _ => rfl) fun t' _ => hc.shared.resting t'
    inactive := forall_update (P := fun t' a => t' ∉ w.active.erase t → a.mode = .idle) (fun _ => rfl)
      fun t' hne hn => hc.shared.inactive t' fun hm => hn ((List.mem_erase_of_ne hne).mpr hm)
    alone := fun t' ho => forall_update (P := fun t'' a => t'' ≠ t' → a.mode = .idle) (fun _ => rfl)
      fun t'' _ hne => hc.shared.alone t' (halone t' ho) t'' hne
    ready := hready }
  modes := forall_update (P := fun _ a => a.mode = .idle ∨ a.mode = .live) (Or.inl rfl) fun t' _ => hc.modes t'
  threads := by
    have hl := hc.threads t
    have hlock : w.lock ≠ some t := fun h => hl.holder.mp h hhold
    exact forall_update (P := fun t' a => Local e g _ t' a)
      { holder := by simp [Own.idle, hlock]
        mirrors := fun h hh => by simp [Own.idle] at hh
        building := fun b hb => by simp [Own.idle] at hb
        held := hl.held.trans hheld
        dead := fun r hd => by simp [Own.idle] at hd
        inputs := fun hi => by simp [Own.idle] at hi
        suffix := List.nil_suffix
        input := fun x hx => by simp [Own.idle] at hx
        logged := fun ops prior hph => by simp [Own.idle] at hph
        lost := fun ho => by simp [Own.idle] at ho }
      fun t' _ => { hc.threads t' with
        mirrors := fun h hh => { (hc.threads t').mirrors h hh with }
        building := fun b hb => { (hc.threads t').building b hb with } }
  apart := hc.apart_of_none rfl
  told := fun d hd hseq => by
    rw [phases_update]
    exact htold d hd hseq

/-- A call other than an open returns. -/
theorem Running.finish (hr : Running e g w A) (hf : Free (A t)) {x : Store} {u : List Entry}
    (htold : ∀ d, e.Good d → e.sequential = true →
      Told e d { w.spec with acked := x, unsure := u } (Function.update (fun t' => (A t').phase) t .quiet)) :
    Running e g { w with active := w.active.erase t, spec := { w.spec with acked := x, unsure := u } }
      (Function.update A t (Own.idle (A t).seen)) where
  session := { hr.session with
    durable := fun d hd => { hr.session.durable d hd with }
    view := fun d hd => { hr.session.view d hd with } }
  crew := by
    have hs := hr.crew.shared
    have hopen : w.opener ≠ some t := fun h => by
      have ho := (hs.opener t).mpr h
      rw [hf.opener] at ho
      simp at ho
    refine hr.crew.leave hf.hold hf.held ?_ (fun _ ho => ho) hs.ready htold
    exact forall_update (P := fun t' a => a.opener = true ↔ w.opener = some t')
      (by simp [Own.idle, hopen]) fun t' _ => hs.opener t'

/-- An open returns `Ok`: from now on nothing may be lost. -/
theorem Running.opened (hr : Running e g w A) {x : Option Build} (ha : A t = { Own.starts (A t).seen with build := x }) :
    Running e g { w with active := w.active.erase t, opener := none, ready := true }
      (Function.update A t (Own.idle (A t).seen)) where
  session := { hr.session with
    lost := fun hlost => by
      have hl := (hr.crew.threads t).lost (by rw [ha]; rfl)
      rw [hlost, ha] at hl
      simp [Own.starts, Own.idle] at hl
    durable := fun d hd => { hr.session.durable d hd with }
    view := fun d hd => { hr.session.view d hd with } }
  crew := by
    have hs := hr.crew.shared
    have hme : w.opener = some t := (hs.opener t).mp (by rw [ha]; rfl)
    refine hr.crew.leave (x := w.spec.acked) (u := w.spec.unsure) (by rw [ha]; rfl) (by rw [ha]; rfl) ?_ (by simp)
      (fun _ => ⟨hr.session.live, rfl⟩) fun d hd hseq => ?_
    · refine forall_update (P := fun t' a => a.opener = true ↔ none = some t') (by simp [Own.idle]) fun t' hne => ?_
      rw [hs.opener t', hme]
      simp [Ne.symm hne]
    · have hq : (A t).phase = .quiet := by rw [ha]; rfl
      exact (hr.crew.told d hd hseq).rest fun _ hno => absurd hq hno

/-- An open that failed. -/
theorem Resting.failed (hr : Resting e g w A) {w' : World} (ha : A t = Own.opens (A t).seen w') :
    Resting e g { w with active := w.active.erase t, opener := none, ready := false }
      (Function.update A t (Own.idle (A t).seen)) := by
  have hs := hr.shared
  have hme : w.opener = some t := (hs.opener t).mp (by rw [ha]; rfl)
  have hidle : ∀ t', t' ≠ t → A t' = Own.idle (A t').seen := fun t' hne => hs.resting t' (hs.alone t hme t' hne)
  exact { hr with
    durable := fun d hd => { hr.durable d hd with }
    shared := {
      opener := forall_update (P := fun t' a => a.opener = true ↔ none = some t') (by simp [Own.idle])
        fun t' hne => by rw [hidle t' hne]; simp [Own.idle]
      seen := forall_update (P := fun t' a => w.spec.seen t' = a.seen) (hs.seen t) fun t' _ => hs.seen t'
      resting := forall_update (P := fun _ a => a.mode = .idle → a = Own.idle a.seen)
        (fun _ => rfl) fun t' _ => hs.resting t'
      inactive := forall_update (P := fun t' a => t' ∉ w.active.erase t → a.mode = .idle) (fun _ => rfl)
        fun t' hne _ => hs.alone t hme t' hne
      alone := fun t' ho => by simp at ho
      ready := fun hready => by simp at hready }
    told := fun d hd hseq => by
      rw [phases_keep (by rw [ha]; rfl)]
      exact hr.told d hd hseq
    modes := forall_update (P := fun _ a => a = Own.idle a.seen ∨ a = _) (Or.inl rfl)
      fun t' hne => Or.inl (hidle t' hne) }

/-- Only a call in trouble ends with its writes unsure. -/
theorem Post.unsure {call : Call} {reply : Reply} (h : Post e call a reply)
    (hopen : ∀ config features, call ≠ .openWith config features) (hno : reply.isOk = false) (hp : a.phase ≠ .quiet) :
    e.Trouble := by
  obtain ⟨hans, hpost⟩ := h
  cases call with
  | openWith config features => exact absurd rfl (hopen config features)
  | get key => exact absurd hpost.2 hp
  | scan range => exact absurd hpost.2 hp
  | compact => exact absurd hpost.2 hp
  | put _ _ | delete _ | write _ | flush =>
    rcases reply with (err | v) | (err | v) | (err | v)
    · exact hans
    all_goals simp [Answered, Reply.isOk] at hans hno

/-- A call that returned `Ok` has applied its writes, or had none. -/
theorem Post.applied {call : Call} {reply : Reply} (h : Post e call a reply)
    (hopen : ∀ config features, call ≠ .openWith config features) (hok : reply.isOk = true) :
    Free a ∧ ((∃ prior, a.phase = .applied call.ops prior) ∨ call.ops = [] ∧ (a.phase = .saved ∨ a.phase = .quiet)) := by
  obtain ⟨_, hpost⟩ := h
  cases call with
  | openWith config features => exact absurd rfl (hopen config features)
  | get key => exact ⟨hpost.1, Or.inr ⟨rfl, Or.inr hpost.2⟩⟩
  | scan range => exact ⟨hpost.1, Or.inr ⟨rfl, Or.inr hpost.2⟩⟩
  | compact => exact ⟨hpost.1, Or.inr ⟨rfl, Or.inr hpost.2⟩⟩
  | flush => exact ⟨hpost.1, Or.inr ⟨rfl, Or.inl (hpost.2 hok)⟩⟩
  | put key value => exact ⟨hpost.1, Or.inl (hpost.2 hok)⟩
  | delete key => exact ⟨hpost.1, Or.inl (hpost.2 hok)⟩
  | write batch => exact ⟨hpost.1, Or.inl (hpost.2 hok)⟩

theorem Post.free {call : Call} {reply : Reply} (h : Post e call a reply)
    (hopen : ∀ config features, call ≠ .openWith config features) : Free a := by
  obtain ⟨_, hpost⟩ := h
  cases call with
  | openWith config features => exact absurd rfl (hopen config features)
  | get _ | scan _ | compact | flush | put _ _ | delete _ | write _ => exact hpost.1

theorem ended_ok {call : Call} {reply : Reply} (hopen : ∀ config features, call ≠ .openWith config features)
    (hok : reply.isOk = true) : ended w t call reply = { w with
      active := w.active.erase t
      spec := { w.spec with
        acked := w.spec.acked.apply call.ops
        unsure := w.spec.unsure.filter fun x => x.1 ∉ call.ops.map Prod.fst } } := by
  cases call with
  | openWith config features => exact absurd rfl (hopen config features)
  | get _ | scan _ | compact | flush | put _ _ | delete _ | write _ => simp only [ended, hok, if_true]

theorem ended_error {call : Call} {reply : Reply} (hopen : ∀ config features, call ≠ .openWith config features)
    (hno : reply.isOk = false) : ended w t call reply = { w with active := w.active.erase t } := by
  cases call with
  | openWith config features => exact absurd rfl (hopen config features)
  | get _ | scan _ | compact | flush | put _ _ | delete _ | write _ =>
    simp only [ended, hno, Bool.false_eq_true, if_false]

/-- A client or the compactor returns. -/
theorem Sound.finish_call {call : Call} {reply : Reply} (h : Sound e Q c A)
    (hth : c.threads t = .running call (.done reply)) (hopen : ∀ config features, call ≠ .openWith config features)
    (hq : ∀ a r, Q t call a r → Post e call a r) :
    ∃ A', Sound e Q ⟨ended c.world t call reply, Function.update c.threads t (.replied call reply)⟩ A' := by
  have hrun := h.threads t
  rw [hth] at hrun
  obtain ⟨_, hpost⟩ := hrun
  have hpost : Post e call (A t) reply := hq _ _ hpost
  have hfree := hpost.free hopen
  obtain ⟨g, hr⟩ := h.inv.running (t := t) hfree.mode
  have hgo : ∀ x u, ended c.world t call reply = { c.world with
        active := c.world.active.erase t
        spec := { c.world.spec with acked := x, unsure := u } } →
      (∀ d, e.Good d → e.sequential = true →
        Told e d { c.world.spec with acked := x, unsure := u } (Function.update (fun t' => (A t').phase) t .quiet)) →
      ∃ A', Sound e Q ⟨ended c.world t call reply, Function.update c.threads t (.replied call reply)⟩ A' := by
    intro x u hw htold
    rw [hw]
    refine ⟨_, ⟨g, Or.inl (hr.finish hfree htold)⟩, forall_threads ⟨rfl, hpost.1⟩ fun t' hne => ?_⟩
    exact (h.threads t').other fun hm => (List.mem_erase_of_ne hne).mpr hm
  cases hok : reply.isOk with
  | true =>
    obtain ⟨_, ⟨prior, hph⟩ | ⟨hnil, hph⟩⟩ := hpost.applied hopen hok
    · refine hgo _ _ (ended_ok hopen hok) fun d hd hseq => ?_
      exact (hr.crew.told d hd hseq).acknowledge hph
    · refine hgo c.world.spec.acked c.world.spec.unsure ?_ fun d hd hseq => ?_
      · rw [ended_ok hopen hok, hnil]
        simp [Store.apply]
      · refine (hr.crew.told d hd hseq).rest fun hio hq => ?_
        have hsure := ((hr.crew.told d hd hseq).sure hio).1 t
        rw [hph.resolve_right hq] at hsure
        exact hsure
  | false =>
    refine hgo c.world.spec.acked c.world.spec.unsure (ended_error hopen hok) fun d hd hseq => ?_
    refine (hr.crew.told d hd hseq).rest fun hio hq => ?_
    rcases hpost.unsure hopen hok hq with hbad | hbad
    · rw [hio] at hbad
      simp at hbad
    · exact absurd hd (hbad d)

theorem Sound.finish_open {reply : Reply} (h : Sound e Q c A)
    (hth : c.threads t = .running (.openWith config features) (.done reply))
    (hq : ∀ a r, Q t (.openWith config features) a r → Post e (.openWith config features) a r) :
    ∃ A', Sound e Q ⟨ended c.world t (.openWith config features) reply,
      Function.update c.threads t (.replied (.openWith config features) reply)⟩ A' := by
  have hrun := h.threads t
  rw [hth] at hrun
  obtain ⟨_, hpost⟩ := hrun
  have hpost : Post e (.openWith config features) (A t) reply := hq _ _ hpost
  obtain ⟨hans, hok, herr⟩ := hpost
  have hother : ∀ {w' : World}, w'.active = c.world.active.erase t →
      ∀ t', t' ≠ t → ThreadInv e Q w' t' (c.threads t') (A t') := fun hw t' hne =>
    (h.threads t').other fun hm => by rw [hw]; exact (List.mem_erase_of_ne hne).mpr hm
  cases hr : reply.isOk with
  | true =>
    obtain ⟨x, ha⟩ := hok hr
    obtain ⟨g, hrun⟩ := h.inv.running (t := t) (by rw [ha]; rfl)
    have hw : ended c.world t (.openWith config features) reply =
        { c.world with active := c.world.active.erase t, opener := none, ready := true } := by simp only [ended, hr]
    rw [hw]
    exact ⟨_, ⟨g, Or.inl (hrun.opened ha)⟩, forall_threads ⟨rfl, hans⟩ (hother rfl)⟩
  | false =>
    obtain ⟨w', ha, _⟩ := herr hr
    have hw : ended c.world t (.openWith config features) reply =
        { c.world with active := c.world.active.erase t, opener := none, ready := false } := by simp only [ended, hr]
    rw [hw]
    obtain ⟨g, hrun | hrest⟩ := h.inv
    · rcases hrun.crew.modes t with hm | hm <;> rw [ha] at hm <;> simp [Own.opens] at hm
    · refine ⟨_, ⟨g, Or.inr (hrest.failed ha)⟩, forall_threads ⟨rfl, hans⟩ (hother rfl)⟩

/-! ## Runs -/

/-- Nothing has been written. -/
def Ghost.empty : Ghost := ⟨fun _ => [], [], [], [], false⟩

theorem Sound.initial : Sound e Q Config.initial fun _ => Own.idle Sight.blank := by
  have hnone : ∀ n, look World.initial.dir n = none := fun n => rfl
  refine ⟨⟨Ghost.empty, Or.inr ?_⟩, fun t => rfl⟩
  exact {
    stored := {
      run := fun s d h => by simp [Config.initial, hnone] at h
      side := fun s d h => by simp [Config.initial, hnone] at h
      manifest := Or.inl ⟨rfl, rfl⟩
      nodup := List.nodup_nil
      present := fun _ s hs => by simp [Ghost.empty] at hs }
    durable := fun d _ => {
      within := fun s hs => by simp [Ghost.empty] at hs
      flushed := fun _ => rfl
      log := fun _ => rfl
      sized := fun _ ops hops => by simp [Ghost.empty] at hops
      logged := fun _ => rfl }
    shared := {
      opener := fun t => by simp [Own.idle, Config.initial, World.initial]
      seen := fun t => rfl
      resting := fun t _ => rfl
      inactive := fun t _ => rfl
      alone := fun t ho => by simp [Config.initial, World.initial] at ho
      ready := fun h => by simp [Config.initial, World.initial] at h }
    told := fun d _ _ => {
      solo := fun t _ h => absurd rfl h
      compactor := rfl
      agree := fun k _ => ⟨rfl, fun _ => rfl⟩
      holds := fun t => trivial
      sure := fun _ => ⟨fun t => trivial, fun _ => rfl⟩ }
    live := rfl
    runs := rfl
    held := rfl
    obsolete := rfl
    modes := fun t => Or.inl rfl
    cur := fun d _ => by cases d <;> rfl
    features := fun d _ => by cases d <;> rfl }

/-- A call starts. -/
theorem Sound.start {call : Call} (h : Sound e Q c A) (ha : e.allows c (.start t call))
    (hs : step c (.start t call) = some c') (hq : ∀ a r, Post e call a r → Q t call a r) : ∃ A', Sound e Q c' A' := by
  simp only [step] at hs
  split_ifs at hs with hcan
  obtain rfl := Option.some.inj hs
  have hclient : ∀ call, t ≠ compactorTid → call ≠ Call.compact → (t = compactorTid ↔ call = .compact) :=
    fun call ht hc => ⟨fun h => absurd h ht, fun h => absurd h hc⟩
  cases call with
  | openWith config features =>
    simp only [canStart, Bool.and_eq_true, Bool.not_eq_true', List.isEmpty_iff, bne_iff_ne, ne_eq] at hcan
    obtain ⟨⟨hlive, hactive⟩, ht⟩ := hcan
    refine h.start_open hlive hactive ht (fun d hd => ?_) hq
    exact (ha ht).2.2.2 config features rfl d hd.durability
  | compact =>
    simp only [canStart, Bool.and_eq_true, Bool.not_eq_true', beq_iff_eq] at hcan
    obtain ⟨⟨hready, ht⟩, hnot⟩ := hcan
    exact h.start_call (by simp) hready ⟨fun _ => rfl, fun _ => ht⟩ (by simpa using hnot)
      (fun hne => absurd ht hne) hq
  | get _ | scan _ | flush | put _ _ | delete _ | write _ =>
    simp only [canStart, Bool.and_eq_true, Bool.not_eq_true', bne_iff_ne, ne_eq] at hcan
    obtain ⟨⟨hready, ht⟩, hnot⟩ := hcan
    exact h.start_call (by simp) hready (hclient _ ht (by simp)) (by simpa using hnot) ha hq

theorem Sound.finish (h : Sound e Q c A) (hs : LsmDb.step c (.finish t) = some c')
    (hq : ∀ call a r, Q t call a r → Post e call a r) : ∃ A', Sound e Q c' A' := by
  simp only [LsmDb.step] at hs
  cases hth : c.threads t with
  | idle => simp [hth] at hs
  | replied call reply => simp [hth] at hs
  | running call prog =>
    cases prog with
    | op o k => simp [hth] at hs
    | done reply =>
      simp only [hth, Option.some.injEq] at hs
      subst hs
      by_cases hopen : ∃ config features, call = .openWith config features
      · obtain ⟨config, features, rfl⟩ := hopen
        exact h.finish_open hth (hq _)
      · exact h.finish_call hth (fun config features hcall => hopen ⟨config, features, hcall⟩) (hq call)

/-- One step of the system. -/
theorem Sound.step {l : Label} (h : Sound e (Goal.usual e) c A) (ha : e.allows c l)
    (hs : LsmDb.step c l = some c') : ∃ A', Sound e (Goal.usual e) c' A' := by
  cases l with
  | start t call => exact h.start ha hs fun _ _ hp => hp
  | act t choice => exact h.act ha hs
  | finish t => exact h.finish hs fun _ _ _ hp => hp
  | crash damage =>
    obtain rfl := Option.some.inj hs
    exact ⟨_, h.crash⟩
  | close =>
    simp only [LsmDb.step] at hs
    split_ifs at hs with hready
    obtain rfl := Option.some.inj hs
    exact ⟨_, h.close hready.2⟩

theorem Reach.sound (h : Reach e c) : ∃ A, Sound e (Goal.usual e) c A := by
  induction h with
  | initial => exact ⟨_, Sound.initial⟩
  | step _ ha hs ih =>
    obtain ⟨A, hA⟩ := ih
    exact hA.step ha hs

/-- What a thread is about to do. -/
def Thread.next : Thread → Option Act
  | .running _ (.op o _) => some o
  | _ => none

theorem Sound.guard {o : Act} (h : Sound e Q c A) (hn : (c.threads t).next = some o) : guardAct e t o c.world := by
  cases hth : c.threads t with
  | idle => simp [hth, Thread.next] at hn
  | replied call reply => simp [hth, Thread.next] at hn
  | running call prog =>
    cases prog with
    | done reply => simp [hth, Thread.next] at hn
    | op o' k =>
      simp only [hth, Thread.next, Option.some.injEq] at hn
      subst hn
      have hrun := h.threads t
      rw [hth] at hrun
      exact (hrun.2 c.world A h.inv rfl).1

/-- Whatever a thread is about to do, in whatever state, its guard holds. -/
theorem Reach.guard {o : Act} (h : Reach e c) (hn : (c.threads t).next = some o) : guardAct e t o c.world := by
  obtain ⟨A, hs⟩ := h.sound
  exact hs.guard hn

end Reachable
end LsmDb
