import LsmDb.Engine.Alone
import LsmDb.Engine.Effects

/-! Sequence numbers on an arbitrary directory: what recovery computes from the manifest and the file names,
and what the counter hands out from there. Both are sixty-four bits wide and wrap. -/
namespace LsmDb
open Lib
set_option autoImplicit false

/-! ## Run files among the names -/

theorem parseU64_lt {text : Text} {n : ℕ} (h : parseU64 text = some n) : n < 2 ^ 64 := by
  unfold parseU64 at h
  simp only at h
  split_ifs at h
  simpa using (Option.filter_eq_some_iff.mp h).2

theorem seqOf_some {name : Text} {s : ℕ} (h : seqOf name = some s) :
    s < 2 ^ 64 ∧ name.getLast? = some 't' := by
  unfold seqOf at h
  obtain ⟨rest, hpre, h⟩ := Option.bind_eq_some_iff.mp h
  obtain ⟨digits, hsuf, h⟩ := Option.bind_eq_some_iff.mp h
  refine ⟨parseU64_lt h, ?_⟩
  unfold stripPrefix at hpre
  unfold stripSuffix at hsuf
  split_ifs at hpre hsuf with hp hs
  obtain ⟨front, hfront⟩ := List.isPrefixOf_iff_prefix.mp hp
  obtain ⟨back, hback⟩ := List.isSuffixOf_iff_suffix.mp hs
  have hrest : name.drop RUN.length = rest := Option.some.inj hpre
  rw [← hfront, List.drop_left] at hrest
  rw [← hfront, hrest, ← hback]
  simp [SST]

theorem isSuffixOf_getLast {suf name : Text} {c : Char} (hs : suf.getLast? = some c)
    (h : suf.isSuffixOf name = true) : name.getLast? = some c := by
  obtain ⟨front, rfl⟩ := List.isSuffixOf_iff_suffix.mp h
  rw [List.getLast?_append, hs]
  rfl

theorem seqOf_not_tmp {name : Text} {s : ℕ} (h : seqOf name = some s) : TMP.isSuffixOf name = false := by
  by_contra hne
  have hlast := isSuffixOf_getLast (c := 'p') rfl (by simpa using hne)
  rw [(seqOf_some h).2] at hlast
  simp at hlast

theorem seqOf_not_bloom {name : Text} {s : ℕ} (h : seqOf name = some s) : stripSuffix BLOOM name = none := by
  unfold stripSuffix
  split_ifs with hb
  · have hlast := isSuffixOf_getLast (c := 'm') rfl hb
    rw [(seqOf_some h).2] at hlast
    simp at hlast
  · rfl

/-! ## What recovery computes -/

/-- The number after one more name of the directory. -/
def passed (nextSeq : ℕ) (name : Text) : ℕ :=
  match seqOf name with
  | some s => max nextSeq ((s + 1) % 2 ^ 64)
  | none => nextSeq

/-- What the loop removes. -/
def garbage (live : List Text) (name : Text) : Bool :=
  if TMP.isSuffixOf name then true
  else
    match stripSuffix BLOOM name with
    | some run => run ∉ live
    | none =>
      match seqOf name with
      | some _ => name ∉ live
      | none => false

section Sequence
variable [Deps] {t : Tid} {pick : Act → World → Choice} {α β : Type}

theorem alone_bind_eq_ok {x : M α} {f : α → M β} {w w' : World} {b : β}
    (h : alone t pick (x >>= f).run w = some (.ok b, w')) :
    ∃ a w₁, alone t pick x.run w = some (.ok a, w₁) ∧ alone t pick (f a).run w₁ = some (.ok b, w') := by
  cases hx : alone t pick x.run w with
  | none =>
    have hnone : alone t pick (x >>= f).run w = none := by
      show machine.runAlone t pick (x.run >>= ExceptT.bindCont f) w = none
      unfold alone at hx
      rw [Machine.runAlone_bind, hx]
      rfl
    rw [hnone] at h
    simp at h
  | some r =>
    obtain ⟨r, w₁⟩ := r
    cases r with
    | error err =>
      rw [alone_bind_error hx] at h
      simp at h
    | ok a =>
      rw [alone_bind_ok hx] at h
      exact ⟨a, w₁, rfl, h⟩

/-- One name of the directory: garbage is removed, and a run file pushes the number. -/
theorem reclaim_cons (live : List Text) (q : ℕ) (name : Text) (rest : List Text) :
    ∃ context, reclaim live q (name :: rest) =
      if garbage live name then
        (do
          io context (perform (.remove name))
          reclaim live (passed q name) rest)
      else reclaim live (passed q name) rest := by
  have hskip : seqOf name = none → passed q name = q := fun hs => by rw [passed, hs]
  rw [reclaim]
  by_cases htmp : TMP.isSuffixOf name = true
  · have hnone : seqOf name = none := by
      by_contra hne
      obtain ⟨s, hs⟩ := Option.ne_none_iff_exists'.mp hne
      rw [seqOf_not_tmp hs] at htmp
      simp at htmp
    refine ⟨"remove temporary file", ?_⟩
    rw [if_pos htmp, hskip hnone]
    simp [garbage, htmp]
  · rw [if_neg htmp]
    cases hb : stripSuffix BLOOM name with
    | some run =>
      have hnone : seqOf name = none := by
        by_contra hne
        obtain ⟨s, hs⟩ := Option.ne_none_iff_exists'.mp hne
        rw [seqOf_not_bloom hs] at hb
        simp at hb
      refine ⟨"remove orphan bloom sidecar", ?_⟩
      rw [hskip hnone]
      by_cases hl : run ∈ live
      · simp [garbage, htmp, hb, hl]
      · simp [garbage, htmp, hb, hl]
    | none =>
      refine ⟨"remove orphan run", ?_⟩
      cases hs : seqOf name with
      | none => simp [garbage, htmp, hb, hs, hskip hs]
      | some s =>
        by_cases hl : name ∈ live
        · simp [garbage, htmp, hb, hs, hl, passed]
        · simp [garbage, htmp, hb, hs, hl, passed]

/-- Whatever is removed on the way and however calls turn out: if the loop gets to its end, it returns the
maximum, in wrapping arithmetic. -/
theorem reclaim_returns {live : List Text} {names : List Text} {q q' : ℕ} {w w' : World}
    (h : alone t pick (reclaim live q names).run w = some (.ok q', w')) : q' = names.foldl passed q := by
  induction names generalizing q w with
  | nil =>
    have hq := Prod.mk.inj (Option.some.inj h)
    exact (Except.ok.inj hq.1).symm
  | cons name names ih =>
    obtain ⟨context, heq⟩ := reclaim_cons live q name names
    rw [List.foldl_cons]
    rw [heq] at h
    split_ifs at h
    · obtain ⟨_, w₁, _, h⟩ := alone_bind_eq_ok h
      exact ih h
    · exact ih h

omit [Deps] in
theorem le_foldl_passed (names : List Text) (q : ℕ) : q ≤ names.foldl passed q := by
  induction names generalizing q with
  | nil => exact Nat.le_refl q
  | cons name names ih =>
    refine Nat.le_trans ?_ (ih (passed q name))
    unfold passed
    split
    · exact Nat.le_max_left _ _
    · exact Nat.le_refl q

omit [Deps] in
theorem lt_foldl_passed {names : List Text} {name : Text} {s : ℕ} (h : name ∈ names) (hs : seqOf name = some s)
    (hlt : s + 1 < 2 ^ 64) (q : ℕ) : s < names.foldl passed q := by
  induction names generalizing q with
  | nil => simp at h
  | cons n names ih =>
    rcases List.mem_cons.mp h with rfl | h
    · refine Nat.lt_of_lt_of_le ?_ (le_foldl_passed names (passed q name))
      simp only [passed, hs, Nat.mod_eq_of_lt hlt]
      omega
    · exact ih h (passed q n)

omit [Deps] in
theorem foldl_passed_le {names : List Text} {q b : ℕ} (hq : q ≤ b)
    (h : ∀ name ∈ names, ∀ s, seqOf name = some s → s + 1 ≤ b) : names.foldl passed q ≤ b := by
  induction names generalizing q with
  | nil => exact hq
  | cons n names ih =>
    refine ih ?_ fun name hn => h name (List.mem_cons_of_mem _ hn)
    unfold passed
    split
    · rename_i s hs
      refine Nat.max_le.mpr ⟨hq, Nat.le_trans (Nat.mod_le _ _) (h n List.mem_cons_self s hs)⟩
    · exact hq

omit [Deps] in
theorem parseManifest_nextSeq {text : Text} {m : Manifest} (h : parseManifest text = .ok m) :
    m.nextSeq < 2 ^ 64 := by
  unfold parseManifest at h
  split at h
  · simp at h
  · split_ifs at h
    split at h
    · simp at h
    · split at h
      · rename_i line rest n hn
        obtain ⟨digits, _, hn⟩ := Option.bind_eq_some_iff.mp hn
        rw [← Except.ok.inj h]
        exact parseU64_lt hn
      · simp at h

omit [Deps] in
theorem foldl_passed_lt {q : ℕ} (hq : q < 2 ^ 64) (names : List Text) : names.foldl passed q < 2 ^ 64 := by
  induction names generalizing q with
  | nil => exact hq
  | cons n names ih =>
    refine ih ?_
    unfold passed
    split
    · exact Nat.max_lt.mpr ⟨hq, Nat.mod_lt _ (by omega)⟩
    · exact hq

/-! ## What the counter hands out -/

/-- The operations that touch the counter. -/
def Act.counts : Act → Bool
  | .fetchAdd | .startEngine _ _ _ _ _ _ | .dropEngine => true
  | _ => false

/-- The life of an engine after it is built, by any threads in any order: the numbers `flush_locked` and
`compact_inner` take from the counter. -/
inductive HandsOut : World → List ℕ → World → Prop
  | stop (w : World) : HandsOut w [] w
  | take {w w' w'' : World} {t : Tid} {c : Choice} {s : ℕ} {ss : List ℕ} (h : exec t .fetchAdd c w = some (s, w'))
      (hrest : HandsOut w' ss w'') : HandsOut w (s :: ss) w''
  | other {w w' w'' : World} {t : Tid} {o : Act} {c : Choice} {r : Res o} {ss : List ℕ} (ho : o.counts = false)
      (h : exec t o c w = some (r, w')) (hrest : HandsOut w' ss w'') : HandsOut w ss w''

theorem exec_nextSeq {o : Act} {c : Choice} {r : Res o} {w w' : World} (ho : o.counts = false)
    (h : exec t o c w = some (r, w')) : w'.nextSeq = w.nextSeq :=
  exec_differ h .nextSeq (by cases o <;> simp [Act.counts, Act.touches] at ho ⊢)

/-- In wrapping arithmetic the numbers are consecutive. -/
theorem HandsOut.eq {w w' : World} {ss : List ℕ} (h : HandsOut w ss w') (hq : w.nextSeq < 2 ^ 64) :
    ss = (List.range ss.length).map fun i => (w.nextSeq + i) % 2 ^ 64 := by
  induction h with
  | stop w => rfl
  | @take w w' w'' t c s ss h hrest ih =>
    have hx := Prod.mk.inj (Option.some.inj h)
    have hs : s = w.nextSeq := hx.1.symm
    have hw : w'.nextSeq = (w.nextSeq + 1) % 2 ^ 64 := by rw [← hx.2]
    have htail := ih (by rw [hw]; exact Nat.mod_lt _ (by omega))
    rw [List.length_cons, List.range_succ_eq_map, List.map_cons, List.map_map, hs, Nat.add_zero,
      Nat.mod_eq_of_lt hq]
    refine congrArg (w.nextSeq :: ·) (htail.trans (List.map_congr_left fun i _ => ?_))
    show (w'.nextSeq + i) % 2 ^ 64 = (w.nextSeq + (i + 1)) % 2 ^ 64
    rw [hw]
    omega
  | other ho h hrest ih =>
    have hw := exec_nextSeq ho h
    rw [← hw]
    exact ih (by rwa [hw])

omit [Deps] in
/-- Consecutive numbers ascend as long as they do not wrap. -/
theorem consecutive_ascend_iff {q n : ℕ} (hq : q < 2 ^ 64) :
    ((List.range n).map fun i => (q + i) % 2 ^ 64).Pairwise (· < ·) ↔ q + n ≤ 2 ^ 64 := by
  rw [List.pairwise_map, List.pairwise_iff_getElem]
  constructor
  · intro h
    by_contra hlt
    have hi := h (2 ^ 64 - q - 1) (2 ^ 64 - q) (by simp; omega) (by simp; omega) (by omega)
    simp only [List.getElem_range] at hi
    omega
  · intro h i j hi hj hij
    simp only [List.length_range] at hi hj
    simp only [List.getElem_range]
    omega

/-- Recovery adds one to every number it finds without overflow and passes it, the session's numbers ascend
from there, and so no run of the session is installed over a file that was there. -/
structure SafeNumbers (found : List Text) (q : ℕ) (ss : List ℕ) : Prop where
  passes : ∀ name ∈ found, ∀ s, seqOf name = some s → s + 1 < 2 ^ 64 ∧ s < q
  ascend : ss.Pairwise (· < ·)
  above : ∀ s ∈ ss, ∀ name ∈ found, ∀ s', seqOf name = some s' → s' < s
  new : ∀ s ∈ ss, runFilename s ∉ found

/-- From any manifest that loads, any directory listing and any outcome of the removals: recovery and the
session that follows number their runs safely exactly when the top of the counter is not reached. -/
theorem safe_numbers_iff {text : Text} {m : Manifest} {found : List Text} {q : ℕ} {ss : List ℕ} {w₀ w₁ w w' : World}
    (hload : parseManifest text = .ok m)
    (hopen : alone t pick (reclaim m.runs m.nextSeq found).run w₀ = some (.ok q, w₁)) (hstart : w.nextSeq = q)
    (hsession : HandsOut w ss w') :
    SafeNumbers found q ss ↔
      m.nextSeq + ss.length ≤ 2 ^ 64 ∧
        ∀ name ∈ found, ∀ s, seqOf name = some s → s + 1 < 2 ^ 64 ∧ s + 1 + ss.length ≤ 2 ^ 64 := by
  have hq : q = found.foldl passed m.nextSeq := reclaim_returns hopen
  have hlt : q < 2 ^ 64 := by
    rw [hq]
    exact foldl_passed_lt (parseManifest_nextSeq hload) found
  have hss : ss = (List.range ss.length).map fun i => (q + i) % 2 ^ 64 := by
    have h := hsession.eq (by rwa [hstart])
    rwa [hstart] at h
  have hasc : ss.Pairwise (· < ·) ↔ q + ss.length ≤ 2 ^ 64 := by
    rw [← consecutive_ascend_iff hlt, ← hss]
  constructor
  · intro h
    have hroom := hasc.mp h.ascend
    refine ⟨?_, fun name hname s hs => ?_⟩
    · have hle : m.nextSeq ≤ q := hq ▸ le_foldl_passed found m.nextSeq
      omega
    · have hs' := h.passes name hname s hs
      omega
  · rintro ⟨hman, hfound⟩
    have hroom : q + ss.length ≤ 2 ^ 64 := by
      have hle : q ≤ 2 ^ 64 - ss.length := by
        rw [hq]
        refine foldl_passed_le (by omega) fun name hname s hs => ?_
        have hs' := hfound name hname s hs
        omega
      omega
    have hpass : ∀ name ∈ found, ∀ s, seqOf name = some s → s + 1 < 2 ^ 64 ∧ s < q := by
      intro name hname s hs
      have hs' := (hfound name hname s hs).1
      exact ⟨hs', hq ▸ lt_foldl_passed hname hs hs' m.nextSeq⟩
    have hge : ∀ s ∈ ss, q ≤ s ∧ s < 2 ^ 64 := by
      intro s hs
      rw [hss] at hs
      obtain ⟨i, hi, rfl⟩ := List.mem_map.mp hs
      have hi' := List.mem_range.mp hi
      rw [Nat.mod_eq_of_lt (by omega)]
      omega
    have habove : ∀ s ∈ ss, ∀ name ∈ found, ∀ s', seqOf name = some s' → s' < s := by
      intro s hs name hname s' hs'
      exact Nat.lt_of_lt_of_le (hpass name hname s' hs').2 (hge s hs).1
    refine ⟨hpass, hasc.mpr hroom, habove, fun s hs hmem => ?_⟩
    have hself := habove s hs _ hmem s (seqOf_runFilename (hge s hs).2)
    omega

end Sequence

/-- Two flushes on a directory with run 7. -/
theorem safe_numbers_seven :
    letI := Deps.concrete
    parseManifest (manifestText 5 [runFilename 7]) = .ok ⟨5, [runFilename 7]⟩ ∧
      SafeNumbers [runFilename 7] 8 [8, 9] := by
  let _ := Deps.concrete
  have hload : parseManifest (manifestText 5 [runFilename 7]) = .ok ⟨5, [runFilename 7]⟩ := by decide +kernel
  refine ⟨hload, ?_⟩
  have hopen : alone 1 allOk (reclaim [runFilename 7] 5 [runFilename 7]).run World.initial =
      some (.ok 8, World.initial) := rfl
  refine (safe_numbers_iff hload hopen (w := { World.initial with nextSeq := 8 }) rfl
    (.take (t := 1) (c := .ok) rfl (.take (t := 1) (c := .ok) rfl (.stop _)))).mpr ⟨by decide, ?_⟩
  intro name hname s hs
  rw [List.mem_singleton.mp hname, seqOf_runFilename (by decide)] at hs
  cases hs
  decide

/-- The last number is handed out, and the next one is that of a live run. -/
theorem safe_numbers_wrapped :
    letI := Deps.concrete
    parseManifest (manifestText (2 ^ 64 - 1) [runFilename 0]) = .ok ⟨2 ^ 64 - 1, [runFilename 0]⟩ ∧
      alone 1 allOk (reclaim [runFilename 0] (2 ^ 64 - 1) [runFilename 0]).run World.initial =
        some (.ok (2 ^ 64 - 1), World.initial) ∧
      (∃ w', HandsOut { World.initial with nextSeq := 2 ^ 64 - 1 } [2 ^ 64 - 1, 0] w') ∧
      ¬ SafeNumbers [runFilename 0] (2 ^ 64 - 1) [2 ^ 64 - 1, 0] := by
  let _ := Deps.concrete
  have hwrap : (2 ^ 64 - 1 + 1) % 2 ^ 64 = 0 := by decide
  refine ⟨by decide +kernel, rfl, ⟨{ World.initial with nextSeq := 1 }, ?_⟩, ?_⟩
  · refine .take (t := 1) (c := .ok) rfl ?_
    show HandsOut { World.initial with nextSeq := (2 ^ 64 - 1 + 1) % 2 ^ 64 } [0] { World.initial with nextSeq := 1 }
    rw [hwrap]
    exact .take (t := 1) (c := .ok) rfl (.stop _)
  · intro h
    exact h.new 0 (by simp) (by simp)

end LsmDb
