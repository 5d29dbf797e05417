import LsmDb.Proof.Refinement
import LsmDb.Proof.Scribes

/-! Reads return what was written: whatever fails and whatever crashes, a key and a value that a get or a scan returns
were written together by a call made before. -/
namespace LsmDb
open Lib
set_option autoImplicit false

section Written
variable [Deps] {e : Env} {c c' : Config} {t : Tid} {w w' : World} {V : Entry → Prop}

/-! ## Threads and the world -/

namespace Scribe

def draft : Scribe → Option Draft
  | serving _ d => d
  | _ => none

def opens : Scribe → Bool
  | opening => true
  | serving b _ => b
  | _ => false

end Scribe

/-- The data are made of `V`, and the runs that threads write are their own and hold what they wrote. -/
structure Honest (V : Entry → Prop) (w : World) (S : Tid → Scribe) : Prop where
  data : w.From V
  sound : ∀ t, S t ≠ .misled
  opener : ∀ t, (S t).opens = true → w.opener = some t
  low : ∀ t d, (S t).draft = some d → d.seq < w.nextSeq
  apart : ∀ t t' d d', t ≠ t' → (S t).draft = some d → (S t').draft = some d' → d.seq ≠ d'.seq
  temp : ∀ t d file, (S t).draft = some d → d.file = some file → look w.dir (.runTmp d.seq) = some (.bin file)

variable {S : Tid → Scribe} {s : Scribe} {b : Bool} {q : ℕ} {f f' : Option Bytes}

/-- Nobody writes a run. -/
theorem honest_blank (hdata : w.From V) (hdraft : ∀ t, (S t).draft = none) (hsound : ∀ t, S t ≠ .misled)
    (hopener : ∀ t, (S t).opens = true → w.opener = some t) : Honest V w S := by
  refine ⟨hdata, hsound, hopener, fun t d hd => ?_, fun t t' d d' _ hd => ?_, fun t d file hd => ?_⟩
  all_goals
    rw [hdraft t] at hd
    cases hd

/-- One thread moves; the runs the others write are left alone. -/
theorem Honest.move (h : Honest V w S) (hdata : w'.From V) (hs : s ≠ .misled) (ho : s.opens = true → w'.opener = some t)
    (hothers : ∀ t', t' ≠ t → (S t').opens = true → w'.opener = some t') (hseq : w.nextSeq ≤ w'.nextSeq)
    (hlow : ∀ d, s.draft = some d → d.seq < w'.nextSeq)
    (hapart : ∀ t' d d', t' ≠ t → s.draft = some d → (S t').draft = some d' → d.seq ≠ d'.seq)
    (htemp : ∀ d file, s.draft = some d → d.file = some file → look w'.dir (.runTmp d.seq) = some (.bin file))
    (htemps : ∀ t' d, t' ≠ t → (S t').draft = some d → look w'.dir (.runTmp d.seq) = look w.dir (.runTmp d.seq)) :
    Honest V w' (Function.update S t s) := by
  have hcases : ∀ (P : Tid → Scribe → Prop), P t s → (∀ t', t' ≠ t → P t' (S t')) →
      ∀ t', P t' (Function.update S t s t') := by
    intro P ht hne t'
    by_cases heq : t' = t
    · subst heq
      rwa [Function.update_self]
    · rw [Function.update_of_ne heq]
      exact hne t' heq
  refine ⟨hdata, ?_, ?_, ?_, ?_, ?_⟩
  · exact hcases (fun _ x => x ≠ .misled) hs fun t' _ => h.sound t'
  · exact hcases (fun t' x => x.opens = true → w'.opener = some t') ho hothers
  · refine hcases (fun _ x => ∀ d, x.draft = some d → d.seq < w'.nextSeq) hlow fun t' _ d hd => ?_
    exact lt_of_lt_of_le (h.low t' d hd) hseq
  · intro t₁ t₂ d d' hne hd hd'
    by_cases h₁ : t₁ = t
    · subst h₁
      rw [Function.update_self] at hd
      rw [Function.update_of_ne (Ne.symm hne)] at hd'
      exact hapart t₂ d d' (Ne.symm hne) hd hd'
    rw [Function.update_of_ne h₁] at hd
    by_cases h₂ : t₂ = t
    · subst h₂
      rw [Function.update_self] at hd'
      exact Ne.symm (hapart t₁ d' d h₁ hd' hd)
    · rw [Function.update_of_ne h₂] at hd'
      exact h.apart t₁ t₂ d d' hne hd hd'
  · refine hcases (fun _ x => ∀ d file, x.draft = some d → d.file = some file → look w'.dir (.runTmp d.seq) = some (.bin file))
      htemp fun t' ht d file hd hfile => ?_
    rw [htemps t' d ht hd]
    exact h.temp t' d file hd hfile

/-- The thread goes on with the run it writes. -/
theorem Honest.write (h : Honest V w S) (hS : S t = .serving b (some ⟨q, f⟩)) (hdata : w'.From V)
    (ho : w'.opener = w.opener) (hseq : w'.nextSeq = w.nextSeq)
    (htemps : ∀ q', q' ≠ q → look w'.dir (.runTmp q') = look w.dir (.runTmp q'))
    (htemp : ∀ file, f' = some file → look w'.dir (.runTmp q) = some (.bin file)) :
    Honest V w' (Function.update S t (.serving b (some ⟨q, f'⟩))) := by
  have hmine : (S t).draft = some ⟨q, f⟩ := by rw [hS]; rfl
  refine h.move hdata (by simp) (fun hb => ?_) (fun t' _ hopens => ho.trans (h.opener t' hopens)) hseq.ge ?_ ?_ ?_ ?_
  · exact ho.trans (h.opener t (by rw [hS]; exact hb))
  · rintro d hd
    obtain rfl := Option.some.inj hd
    rw [hseq]
    exact h.low t ⟨q, f⟩ hmine
  · rintro t' d d' ht hd hd'
    obtain rfl := Option.some.inj hd
    exact h.apart t t' ⟨q, f⟩ d' (Ne.symm ht) hmine hd'
  · rintro d file hd hfile
    obtain rfl := Option.some.inj hd
    exact htemp file hfile
  · intro t' d ht hd
    exact htemps _ (h.apart t' t d _ ht hd hmine)

/-! ## Steps -/

omit [Deps] in
theorem look_draft (dir : SortedMap Text Data) (q : ℕ) (d : Data) :
    (∀ q', look (dir.insert (tmpPath (runFilename q)) d) (.run q') = look dir (.run q')) ∧
      (∀ q', q' ≠ q → look (dir.insert (tmpPath (runFilename q)) d) (.runTmp q') = look dir (.runTmp q')) ∧
      look (dir.insert (tmpPath (runFilename q)) d) (.runTmp q) = some d := by
  have hupdate : look (dir.insert (tmpPath (runFilename q)) d) = Function.update (look dir) (.runTmp q) (some d) :=
    look_insert dir (.runTmp q) d
  refine ⟨fun q' => ?_, fun q' hne => ?_, ?_⟩
  · rw [hupdate, Function.update_of_ne (by simp)]
  · rw [hupdate, Function.update_of_ne (by simpa using hne)]
  · rw [hupdate, Function.update_self]

/-- The temporary of the run has new contents, which may be known. -/
theorem Honest.redraft (h : Honest V w S) (hS : S t = .serving b (some ⟨q, f⟩)) {d : Data}
    (hd : ∀ file, f' = some file → d = .bin file) :
    Honest V { w with dir := w.dir.insert (tmpPath (runFilename q)) d }
      (Function.update S t (.serving b (some ⟨q, f'⟩))) := by
  obtain ⟨hrun, htemps, htemp⟩ := look_draft w.dir q d
  refine h.write hS { h.data with files := fun q' x hx => h.data.files q' x (by rwa [hrun] at hx) } rfl rfl htemps ?_
  intro file hfile
  rw [htemp, hd file hfile]

/-- Nothing happened to the temporary, or nothing is known about it any more. -/
theorem Honest.forget (h : Honest V w S) (hS : S t = .serving b (some ⟨q, f⟩)) :
    Honest V w (Function.update S t (.serving b (some ⟨q, none⟩))) :=
  h.write hS h.data rfl rfl (fun _ _ => rfl) fun _ hfile => (by cases hfile)

theorem Honest.unwritten (h : Honest V w S) (hS : S t = .serving b (some ⟨q, f⟩)) {o : Act} {ch : Choice} {r : Res o}
    (ho : (∃ d, o = .create (tmpPath (runFilename q)) d) ∨ ∃ d, o = .append (tmpPath (runFilename q)) d)
    (hx : exec t o ch w = some (r, w')) : Honest V w' (Function.update S t (.serving b (some ⟨q, none⟩))) := by
  have hlost : ∀ d : Data, Honest V { w with dir := w.dir.insert (tmpPath (runFilename q)) d }
      (Function.update S t (.serving b (some ⟨q, none⟩))) := fun d => h.redraft hS fun _ hfile => (by cases hfile)
  rcases ho with ⟨d, rfl⟩ | ⟨d, rfl⟩
  · simp only [exec] at hx
    split at hx
    · obtain ⟨_, rfl⟩ := Prod.mk.inj (Option.some.inj hx)
      exact h.forget hS
    · obtain ⟨_, rfl⟩ := Prod.mk.inj (Option.some.inj hx)
      exact hlost _
    · obtain ⟨_, rfl⟩ := Prod.mk.inj (Option.some.inj hx)
      exact hlost _
  · simp only [exec] at hx
    split at hx
    · obtain ⟨_, rfl⟩ := Prod.mk.inj (Option.some.inj hx)
      exact h.forget hS
    split at hx
    · obtain ⟨_, rfl⟩ := Prod.mk.inj (Option.some.inj hx)
      exact hlost _
    split_ifs at hx
    · obtain ⟨_, rfl⟩ := Prod.mk.inj (Option.some.inj hx)
      exact hlost _
    · obtain ⟨_, rfl⟩ := Prod.mk.inj (Option.some.inj hx)
      exact h.forget hS

theorem Honest.created (h : Honest V w S) (hS : S t = .serving b (some ⟨q, f⟩)) {ch : Choice}
    (hx : exec t (.create (tmpPath (runFilename q)) (.bin [])) ch w = some (.ok (), w')) :
    Honest V w' (Function.update S t (.serving b (some ⟨q, some []⟩))) := by
  simp only [exec] at hx
  split at hx
  · simp at hx
  · simp at hx
  · obtain ⟨_, rfl⟩ := Prod.mk.inj (Option.some.inj hx)
    exact h.redraft hS fun file hfile => by rw [← Option.some.inj hfile]

/-- An append that succeeds fits, and adds its bytes. -/
theorem Honest.appended (h : Honest V w S) {file bytes : Bytes} (hS : S t = .serving b (some ⟨q, some file⟩)) {ch : Choice}
    (hx : exec t (.append (tmpPath (runFilename q)) (.bin bytes)) ch w = some (.ok (), w')) :
    file.length + bytes.length ≤ MAX_FILE_LEN ∧ Honest V w' (Function.update S t (.serving b (some ⟨q, some (file ++ bytes)⟩))) := by
  have hget : w.dir.get? (tmpPath (runFilename q)) = some (.bin file) := h.temp t ⟨q, some file⟩ file (by rw [hS]; rfl) rfl
  simp only [exec, hget] at hx
  split at hx
  · simp at hx
  · split_ifs at hx with hfits
    · obtain ⟨_, rfl⟩ := Prod.mk.inj (Option.some.inj hx)
      exact ⟨of_decide_eq_true hfits, h.redraft hS fun x hfile => by rw [← Option.some.inj hfile]; rfl⟩
    · simp at hx

/-- A complete run takes its name. -/
theorem Honest.installed (h : Honest V w S) {file : Bytes} (hS : S t = .serving b (some ⟨q, some file⟩)) (hfile : FileFrom V file)
    {ch : Choice} {r : Res (.rename (tmpPath (runFilename q)) (runFilename q))}
    (hx : exec t (.rename (tmpPath (runFilename q)) (runFilename q)) ch w = some (r, w')) :
    Honest V w' (Function.update S t (.serving b (some ⟨q, none⟩))) := by
  have hget : w.dir.get? (tmpPath (runFilename q)) = some (.bin file) := h.temp t ⟨q, some file⟩ file (by rw [hS]; rfl) rfl
  have hdir : look ((w.dir.erase (tmpPath (runFilename q))).insert (runFilename q) (.bin file)) =
      Function.update (Function.update (look w.dir) (.runTmp q) none) (.run q) (some (.bin file)) := by
    rw [← look_erase]
    exact look_insert _ (.run q) _
  simp only [exec, hget] at hx
  split at hx
  · obtain ⟨_, rfl⟩ := Prod.mk.inj (Option.some.inj hx)
    exact h.forget hS
  · obtain ⟨_, rfl⟩ := Prod.mk.inj (Option.some.inj hx)
    refine h.write hS { h.data with files := fun q' x hx' => ?_ } rfl rfl (fun q' hne => ?_) fun _ hf => (by cases hf)
    · dsimp only at hx'
      rw [hdir] at hx'
      by_cases heq : q' = q
      · subst heq
        rw [Function.update_self] at hx'
        exact ⟨file, (Option.some.inj hx').symm, hfile⟩
      · rw [Function.update_of_ne (by simpa using heq), Function.update_of_ne (by simp)] at hx'
        exact h.data.files q' x hx'
    · dsimp only
      rw [hdir, Function.update_of_ne (by simp), Function.update_of_ne (by simpa using hne)]

theorem World.From.dropped (h : w.From V) : w.dropEngine.From V :=
  ⟨by simp [World.dropEngine], by simp [World.dropEngine], h.log, BlockCache.coherent_new _ _, h.files⟩

theorem World.From.initial : World.initial.From V where
  memtable := by simp [World.initial]
  runs := by simp [World.initial]
  log := by simp [World.initial]
  cache := BlockCache.coherent_new _ _
  files q d hd := by cases hd

theorem World.From.crashed (h : w.From V) (damage : List (ℕ × Option Bytes)) : (crashed w damage).From V where
  memtable := h.dropped.memtable
  runs := h.dropped.runs
  log := h.log
  cache := h.dropped.cache
  files q d hd := h.files q d (by rwa [← look_damage _ damage _ (by simp)])

/-- An open is alone: nobody writes a run that it could disturb. -/
theorem honest_solo (halone : ∀ t', t' ≠ t → S t' = .idle) (hdata : w'.From V) (hs : s ≠ .misled)
    (hdraft : s.draft = none) (ho : s.opens = true → w'.opener = some t) : Honest V w' (Function.update S t s) := by
  refine honest_blank hdata (fun t' => ?_) (fun t' => ?_) fun t' => ?_
  all_goals
    by_cases ht : t' = t
    · subst ht
      rw [Function.update_self]
      assumption
    · rw [Function.update_of_ne ht, halone t' ht]
      first | rfl | simp | exact fun hopens => by cases hopens

theorem Honest.act (h : Honest V w S) (hl : w.Lists) {o : Act} {ch : Choice} {r : Res o} (ha : e.allowsAct w t o ch)
    (hx : exec t o ch w = some (r, w')) (hn : OriginStep V (S t) o r s)
    (halone : (S t).opens = true → ∀ t', t' ≠ t → S t' = .idle) : Honest V w' (Function.update S t s) := by
  have hopener := exec_opener hx
  generalize hS : S t = s₀ at hn halone
  cases hn with
  | keep ho =>
    obtain ⟨_, hdata, hseq, htemps⟩ := exec_from h.data hl ho hx
    rw [← hS, Function.update_eq_self]
    refine ⟨hdata, h.sound, fun t' ht' => hopener.trans (h.opener t' ht'), fun t' d hd => hseq ▸ h.low t' d hd, h.apart, ?_⟩
    exact fun t' d file hd hfile => (htemps _).trans (h.temp t' d file hd hfile)
  | mislead ho hbad => exact absurd (exec_from h.data hl ho hx).1 hbad
  | misled => exact absurd hS (h.sound t)
  | sweep =>
    have hmine : w'.opener = some t := hopener.trans (h.opener t (by rw [hS]; rfl))
    refine honest_solo (halone rfl) ?_ (by simp) rfl fun _ => hmine
    rcases exec_unlink hx with rfl | rfl
    · exact h.data
    · exact h.data.erase _
  | start hm hruns =>
    have hmine : w'.opener = some t := hopener.trans (h.opener t (by rw [hS]; rfl))
    obtain ⟨_, rfl⟩ := Prod.mk.inj (Option.some.inj hx)
    exact honest_solo (halone rfl) ⟨hm, hruns, h.data.log, BlockCache.coherent_new _ _, h.data.files⟩ (by simp) rfl fun _ => hmine
  | drop =>
    obtain ⟨_, rfl⟩ := Prod.mk.inj (Option.some.inj hx)
    exact honest_solo (halone rfl) h.data.dropped (by simp) rfl fun hopens => (by cases hopens)
  | @reserve b d _ =>
    obtain ⟨rfl, rfl⟩ := Prod.mk.inj (Option.some.inj hx)
    have hlt : w.nextSeq + 1 < 2 ^ 64 := ha
    have hnext : (w.nextSeq + 1) % 2 ^ 64 = w.nextSeq + 1 := Nat.mod_eq_of_lt hlt
    refine h.move ⟨h.data.memtable, h.data.runs, h.data.log, h.data.cache, h.data.files⟩ (by simp) (fun hb => ?_)
      (fun t' _ hopens => h.opener t' hopens) (by dsimp only; omega) ?_ ?_ ?_ fun _ _ _ _ => rfl
    · exact h.opener t (by rw [hS]; exact hb)
    · rintro d' hd'
      obtain rfl := Option.some.inj hd'
      show w.nextSeq < (w.nextSeq + 1) % 2 ^ 64
      omega
    · rintro t' d₁ d₂ _ hd₁ hd₂
      obtain rfl := Option.some.inj hd₁
      exact (h.low t' d₂ hd₂).ne'
    · rintro d' file hd' hfile
      obtain rfl := Option.some.inj hd'
      cases hfile
  | create hr =>
    subst hr
    exact h.created hS hx
  | append hr hfits =>
    subst hr
    exact (h.appended hS hx).2
  | overlong hr hfits =>
    subst hr
    exact absurd (h.appended hS hx).1 hfits
  | unwritten ho => exact h.unwritten hS ho hx
  | install hfile => exact h.installed hS hfile hx

/-! ## Every run -/

def originProtocol (V : Entry → Prop) : Protocol :=
  ⟨Scribe, .idle, OriginStep V, fun call s reply => s = .misled ∨ Reply.From V call reply, Honest V⟩

theorem Reach.lists (h : Reach e c) : c.world.Lists := by
  intro text m hget hparse n hn
  obtain ⟨g, hd⟩ := h.disk
  rcases hd.stored.manifest with ⟨hnone, _⟩ | ⟨q, hq, hman⟩
  · cases hget.symm.trans hnone
  · have htext : text = manifestText q (g.ns.map runFilename) := by
      have heq := Option.some.inj (hget.symm.trans hman)
      simpa using heq
    rw [htext, parseManifest_manifestText hq (by simp)] at hparse
    obtain rfl := Except.ok.inj hparse
    obtain ⟨i, _, rfl⟩ := List.mem_map.mp hn
    exact ⟨i, rfl⟩

theorem World.From.started (h : w.From V) (call : Call) : (LsmDb.started w t call).From V := by
  cases call <;> exact ⟨h.memtable, h.runs, h.log, h.cache, h.files⟩

theorem World.From.ended (h : w.From V) (call : Call) (reply : Reply) : (LsmDb.ended w t call reply).From V := by
  cases call with
  | openWith => exact ⟨h.memtable, h.runs, h.log, h.cache, h.files⟩
  | _ => simp only [LsmDb.ended]; split_ifs <;> exact ⟨h.memtable, h.runs, h.log, h.cache, h.files⟩

theorem Honest.begin {call : Call} (h : Honest V w S) (hcan : canStart w t call = true)
    (hidle : w.active = [] → ∀ t', S t' = .idle) : Honest V (started w t call) (Function.update S t call.scribe) := by
  cases call with
  | openWith config features =>
    simp only [canStart, Bool.and_eq_true, List.isEmpty_iff] at hcan
    exact honest_solo (fun t' _ => hidle hcan.1.2 t') (h.data.started _) (by simp [Call.scribe]) rfl fun _ => rfl
  | _ =>
    refine h.move (h.data.started _) (by simp [Call.scribe]) (fun hopens => by cases hopens) (fun t' _ => h.opener t') le_rfl
      (fun d hd => by cases hd) (fun t' d d' _ hd => by cases hd) (fun d file hd => by cases hd) fun _ _ _ _ => rfl

theorem Honest.finish {call : Call} {reply : Reply} (h : Honest V w S) (hothers : ∀ t', t' ≠ t → (S t').opens = false) :
    Honest V (ended w t call reply) (Function.update S t .idle) := by
  have hsame : (ended w t call reply).nextSeq = w.nextSeq ∧ (ended w t call reply).dir = w.dir := by
    cases call with
    | openWith => exact ⟨rfl, rfl⟩
    | _ => simp only [ended]; split_ifs <;> exact ⟨rfl, rfl⟩
  refine h.move (h.data.ended _ _) (by simp) (fun hopens => by cases hopens) (fun t' ht hopens => ?_) hsame.1.ge
    (fun d hd => by cases hd) (fun t' d d' _ hd => by cases hd) (fun d file hd => by cases hd) fun _ d _ _ => by rw [hsame.2]
  rw [hothers t' ht] at hopens
  cases hopens

theorem originProtocol_sound (hV : ∀ x, V x → x.FitsU32) :
    (originProtocol V).Sound e fun _ call => ∀ x ∈ call.ops, V x where
  initial := by
    exact honest_blank .initial (fun _ => rfl) (fun _ => by simp [originProtocol]) fun _ hopens => by cases hopens
  start := by
    intro c S t call h hcall hcan
    have hinv : Honest V c.world S := h.inv
    refine ⟨call.scribe, traces_program hV _ _ hcall, hinv.begin hcan fun hnone t' => h.rest fun _ _ hth => ?_⟩
    have hin := h.reach.active hth
    rw [hnone] at hin
    cases hin
  act := by
    intro c S t call o k choice r w s h hth ha hx hn _
    have hinv : Honest V c.world S := h.inv
    exact hinv.act h.reach.lists ha hx hn fun hopens t' ht =>
      h.rest fun _ _ hrun => ht (h.reach.alone (hinv.opener t hopens) hrun)
  finish := by
    intro c S t call reply h hth _
    have hinv : Honest V c.world S := h.inv
    refine hinv.finish fun t' ht => ?_
    by_contra hopens
    exact ht (h.reach.alone (hinv.opener t' (by simpa using hopens)) hth).symm
  crash := by
    intro c S damage h
    have hdata : c.world.From V := Honest.data h.inv
    exact honest_blank (hdata.crashed damage) (fun _ => rfl) (fun _ => by simp [originProtocol])
      fun _ hopens => by cases hopens
  close := by
    intro c S h _ hnone
    have hinv : Honest V c.world S := h.inv
    have hidle : ∀ t, S t = Scribe.idle := fun t => h.rest fun _ _ hth => by
      have hin := h.reach.active hth
      rw [hnone] at hin
      cases hin
    refine honest_blank hinv.data.dropped (fun t => ?_) (fun t => ?_) fun t hopens => ?_
    · rw [hidle t]
      rfl
    · exact hinv.sound t
    · rw [hidle t] at hopens
      cases hopens

/-- In a run that shows only calls of `V`, every call is one of `V`. -/
theorem runs_of_shown {tr : List (Atomic.Event Call Reply Stop)} (h : e.lts.Run Config.initial tr c)
    (hcalls : ∀ t call, Atomic.Event.called t call ∈ tr → ∀ x ∈ call.ops, V x) :
    Runs e (fun _ call => ∀ x ∈ call.ops, V x) c := by
  refine Lts.Run.keeps (I := fun c => Runs e (fun _ call => ∀ x ∈ call.ops, V x) c) h .initial ?_
  rintro a ev a' hin ⟨l, ha, hs, rfl⟩ hruns
  refine .step hruns (fun t call hl => ?_) ha hs
  subst hl
  by_cases hcompact : call = .compact
  · subst hcompact
    simp [Call.ops]
  · exact hcalls t call (hin _ (by simp [Config.shows, hcompact]))

/-- A reply shows when its call ends. -/
theorem shows_replied {l : Label} {call : Call} {reply : Reply} (h : c.shows l = some (.replied t call reply)) :
    c.threads t = .running call (.done reply) := by
  cases l with
  | start t' call' =>
    simp only [Config.shows] at h
    split_ifs at h
    cases h
  | act t' choice => cases h
  | finish t' =>
    simp only [Config.shows] at h
    split at h
    · rename_i call' reply' hth
      split_ifs at h
      obtain ⟨rfl, rfl, rfl⟩ := Atomic.Event.replied.inj (Option.some.inj h)
      exact hth
    · cases h
  | crash damage => cases h
  | close => cases h

/-- Whatever fails, in whatever order threads run and however often the process crashes: a key and a value that a get or
a scan returns were written together, by a put or a batch that was called before, as long as no key or value that is
written is `2 ^ 32` bytes long. -/
theorem reads_were_written {tr : List (Atomic.Event Call Reply Stop)} {call : Call} {reply : Reply}
    (h : e.lts.Shows (tr ++ [.replied t call reply]))
    (hfits : ∀ t call, Atomic.Event.called t call ∈ tr → ∀ x ∈ call.ops, x.FitsU32) :
    ∀ p ∈ reply.tells call, ∃ t' call', Atomic.Event.called t' call' ∈ tr ∧ (p.1, Record.value p.2) ∈ call'.ops := by
  obtain ⟨c₂, hrun⟩ := h
  obtain ⟨c₀, h₀, hlast⟩ := hrun.split
  obtain ⟨c, c₁, hquiet, ⟨l, ha, hs, hshow⟩, _⟩ := hlast.event
  have hwhole := h₀.trans hquiet
  rw [List.append_nil] at hwhole
  have hruns := runs_of_shown (V := fun x => ∃ t' call', Atomic.Event.called t' call' ∈ tr ∧ x ∈ call'.ops) hwhole
    fun t call hin x hx => ⟨t, call, hin, hx⟩
  obtain ⟨S, hholds⟩ := (originProtocol_sound (e := e) fun x ⟨t', call', hin, hx⟩ => hfits t' call' hin x hx).at_runs hruns
  have hinv : Honest _ c.world S := hholds.inv
  have hend := hholds.at_stage t
  rw [shows_replied hshow.symm] at hend
  exact Or.resolve_left hend (hinv.sound t)

omit [Deps] in
/-- A flush fails, the process crashes, and the next session reads what the log kept. -/
theorem reads_were_written_logged : letI := Deps.concrete
    let opens : Call := .openWith LsmConfig.default ⟨true, false⟩
    let tr : List (Atomic.Event Call Reply Stop) := [.called 1 opens, .replied 1 opens (.unit (.ok ())),
      .called 1 (.put [1] [2]), .replied 1 (.put [1] [2]) (.unit (.ok ())), .called 1 .flush,
      .replied 1 .flush (.unit (.error (.io "create sorted run" .other))), .upset .crash, .called 1 opens,
      .replied 1 opens (.unit (.ok ())), .called 2 (.scan ⟨.unbounded, .unbounded⟩)]
    let reply : Reply := .pairs (.ok [([1], [2])])
    Env.wild.lts.Shows (tr ++ [.replied 2 (.scan ⟨.unbounded, .unbounded⟩) reply]) ∧
      ∀ p ∈ reply.tells (.scan ⟨.unbounded, .unbounded⟩),
        ∃ t' call', Atomic.Event.called t' call' ∈ tr ∧ (p.1, Record.value p.2) ∈ call'.ops := by
  let _ := Deps.concrete
  intro opens tr reply
  have hplay : Env.wild.observe [.alone 1 allOk opens, .alone 1 allOk (.put [1] [2]), .start 1 .flush,
      .acts 1 [.ok, .ok, .ok, .ok, .fail 0, .ok], .finish 1, .crash [], .alone 1 allOk opens,
      .alone 2 allOk (.scan ⟨.unbounded, .unbounded⟩)] Config.initial =
      some (tr ++ [.replied 2 (.scan ⟨.unbounded, .unbounded⟩) reply]) := by
    decide +kernel
  have hshows : Env.wild.lts.Shows (tr ++ [.replied 2 (.scan ⟨.unbounded, .unbounded⟩) reply]) := Env.run_observe hplay
  have hfits : ∀ t call, Atomic.Event.called t call ∈ tr → ∀ x ∈ call.ops, x.FitsU32 := by
    intro t call hin x hx
    simp only [tr, List.mem_cons, Atomic.Event.called.injEq, reduceCtorEq, List.not_mem_nil, false_or, or_false] at hin
    rcases hin with ⟨_, rfl⟩ | ⟨_, rfl⟩ | ⟨_, rfl⟩ | ⟨_, rfl⟩ | ⟨_, rfl⟩
    · cases hx
    · rw [List.mem_singleton.mp hx]
      decide
    · cases hx
    · cases hx
    · cases hx
  exact ⟨hshows, reads_were_written hshows hfits⟩

end Written
end LsmDb
