import LsmDb.Engine.Merge

/-! Range classification and the collecting loop of `Engine::scan` (`db.rs`). -/
namespace LsmDb
open Lib
set_option autoImplicit false

inductive Bound where
  | included (key : Bytes)
  | excluded (key : Bytes)
  | unbounded
deriving DecidableEq

-- `RangeBounds<Vec<u8>>`
structure Range where
  start : Bound
  stop : Bound
deriving DecidableEq

inductive Pos where
  | below
  | within
  | above
deriving DecidableEq

def Range.below (range : Range) (key : Bytes) : Bool :=
  match range.start with
  | .included s => key < s
  | .excluded s => key ≤ s
  | .unbounded => false

def Range.above (range : Range) (key : Bytes) : Bool :=
  match range.stop with
  | .included e => key > e
  | .excluded e => key ≥ e
  | .unbounded => false

def position (range : Range) (key : Bytes) : Pos :=
  if range.below key then .below
  else if range.above key then .above
  else .within

/-- The loop of `Engine::scan`: the stream ascends, so the first key above the range ends it. -/
def scanLoop (range : Range) : ℕ → Merge → List (Bytes × Bytes) → Except Error (List (Bytes × Bytes))
  | 0, _, out => .ok out
  | fuel + 1, m, out =>
    match m.next with
    | (none, _) => .ok out
    | (some (.error err), _) => .error err
    | (some (.ok (key, value)), m) =>
      match position range key with
      | .below => scanLoop range fuel m out
      | .within => scanLoop range fuel m (out ++ [(key, value)])
      | .above => .ok out

/-- The body of `Engine::scan` once the snapshot is taken: `mem` is the part of the memtable inside
the range. -/
def scanMerge (range : Range) (mem : List Entry) (cursors : List RunCursor) :
    Except Error (List (Bytes × Bytes)) :=
  let m := Merge.new mem cursors
  scanLoop range (m.size + 1) m []

theorem Range.below_anti {range : Range} {a b : Bytes} (hab : a < b) (hb : range.below b = true) :
    range.below a = true := by
  unfold Range.below at hb ⊢
  cases hs : range.start with
  | included s =>
    simp only [hs, decide_eq_true_eq] at hb ⊢
    exact hab.trans hb
  | excluded s =>
    simp only [hs, decide_eq_true_eq] at hb ⊢
    exact (hab.trans_le hb).le
  | unbounded => simp [hs] at hb

theorem Range.above_mono {range : Range} {a b : Bytes} (hab : a < b) (ha : range.above a = true) :
    range.above b = true := by
  unfold Range.above at ha ⊢
  cases hs : range.stop with
  | included e =>
    simp only [hs, decide_eq_true_eq] at ha ⊢
    exact lt_trans ha hab
  | excluded e =>
    simp only [hs, decide_eq_true_eq] at ha ⊢
    exact le_trans ha hab.le
  | unbounded => simp [hs] at ha

/-- Past the first key above the range every key is above it. -/
theorem position_above {range : Range} {a b : Bytes} (hab : a < b) (ha : position range a = .above) :
    position range b = .above := by
  unfold position at ha ⊢
  split_ifs at ha with h1 h2
  have hb : ¬ range.below b = true := fun hb => h1 (Range.below_anti hab hb)
  rw [if_neg hb, if_pos (Range.above_mono hab h2)]

/-- The loop returns the part of the merge inside the range, or an error. -/
theorem scanLoop_spec {range : Range} {fuel : ℕ} {m : Merge} {Fs : List (List Entry)}
    (hd : m.Delivers Fs) (hasc : ∀ F ∈ Fs, Ascending F) (hfuel : m.size < fuel)
    (out res : List (Bytes × Bytes)) (h : scanLoop range fuel m out = .ok res) :
    ∃ all, MergeOf Record.live Fs all ∧
      res = out ++ all.filter (fun e => position range e.1 = .within) := by
  induction fuel generalizing m Fs out with
  | zero => omega
  | succ fuel ih =>
    have hnext := Merge.next_spec hd hasc
    simp only [scanLoop] at h
    generalize m.next = r at hnext h
    cases hnext with
    | finished m' hm he =>
      simp only [Except.ok.injEq] at h
      exact ⟨[], hm, by simp [h]⟩
    | failed err m' hex => simp at h
    | item k v m' Fs' hd' hasc' hlt herr hm =>
      dsimp only at h
      cases hp : position range k with
      | below =>
        rw [hp] at h
        obtain ⟨all, hall, hres⟩ := ih hd' hasc' (by omega) out h
        exact ⟨_, hm all hall, by rw [hres, List.filter_cons_of_neg (by simp [hp])]⟩
      | within =>
        rw [hp] at h
        obtain ⟨all, hall, hres⟩ := ih hd' hasc' (by omega) _ h
        refine ⟨_, hm all hall, ?_⟩
        rw [hres, List.filter_cons_of_pos (by simp [hp]), List.append_assoc]
        rfl
      | above =>
        rw [hp] at h
        obtain ⟨all, hall⟩ := MergeOf.exists Record.live hasc'
        have hfull := hm all hall
        refine ⟨_, hfull, ?_⟩
        have hnil : ((k, v) :: all).filter (fun e => position range e.1 = .within) = [] := by
          rw [List.filter_eq_nil_iff]
          intro e he
          obtain ⟨habove, _⟩ := ascending_cons.mp hfull.ascending
          have hpos : position range e.1 = .above := by
            rcases List.mem_cons.mp he with rfl | he
            · exact hp
            · exact position_above (habove e he) hp
          simp [hpos]
        rw [hnil]
        simpa using h.symm

/-- Without an error in any source the loop succeeds. -/
theorem scanLoop_ok {range : Range} {fuel : ℕ} {m : Merge} {Fs : List (List Entry)}
    (hd : m.Delivers Fs) (hasc : ∀ F ∈ Fs, Ascending F) (hfuel : m.size < fuel)
    (he : ∀ o ∈ m.errors, o = none) (out : List (Bytes × Bytes)) :
    ∃ res, scanLoop range fuel m out = .ok res := by
  induction fuel generalizing m Fs out with
  | zero => omega
  | succ fuel ih =>
    have hnext := Merge.next_spec hd hasc
    simp only [scanLoop]
    generalize m.next = r at hnext ⊢
    cases hnext with
    | finished m' hm hnone => exact ⟨out, rfl⟩
    | failed err m' hex =>
      obtain ⟨o, ho, hne⟩ := hex
      exact absurd (he o ho) hne
    | item k v m' Fs' hd' hasc' hlt herr hm =>
      rw [← herr] at he
      dsimp only
      cases position range k with
      | below => exact ih hd' hasc' (by omega) he out
      | within => exact ih hd' hasc' (by omega) he _
      | above => exact ⟨out, rfl⟩

/-- The pairs of a store inside a range, in ascending order. -/
structure ScanOf (store : Store) (range : Range) (res : List (Bytes × Bytes)) : Prop where
  ascending : Ascending res
  find_eq : ∀ k, find res k = if position range k = .within then store k else none

theorem find_filter_within {β : Type} (range : Range) (l : List (Bytes × β)) (k : Bytes) :
    find (l.filter fun e => position range e.1 = .within) k =
      if position range k = .within then find l k else none := by
  induction l with
  | nil => simp
  | cons e l ih =>
    obtain ⟨x, v⟩ := e
    by_cases hx : position range x = .within
    · rw [List.filter_cons_of_pos (by simp [hx])]
      by_cases hkx : k = x
      · subst hkx
        simp [hx]
      · rw [find_cons_of_ne hkx, find_cons_of_ne hkx, ih]
    · rw [List.filter_cons_of_neg (by simp [hx]), ih]
      by_cases hkx : k = x
      · subst hkx
        simp [hx]
      · rw [find_cons_of_ne hkx]

/-- Only the memtable is filtered by the range beforehand; inside the range that changes nothing. -/
theorem scanMerge_spec {range : Range} {mem : List Entry} {cursors : List RunCursor}
    {Fs : List (List Entry)} (hmem : Ascending mem)
    (hd : List.Forall₂ (fun c F => (Source.run c).Delivers F) cursors Fs) (hasc : ∀ F ∈ Fs, Ascending F) :
    (∀ res, scanMerge range (mem.filter fun e => position range e.1 = .within) cursors = .ok res →
      ScanOf (answer (mem :: Fs)) range res) ∧
    ((∀ c ∈ cursors, c.stream.2 = none) →
      ∃ res, scanMerge range (mem.filter fun e => position range e.1 = .within) cursors = .ok res) := by
  have hdel : (Merge.new (mem.filter fun e => position range e.1 = .within) cursors).Delivers
      (mem.filter (fun e => position range e.1 = .within) :: Fs) :=
    List.Forall₂.cons (Source.delivers_mem _) (List.forall₂_map_left_iff.mpr hd)
  have hall : ∀ F ∈ mem.filter (fun e => position range e.1 = .within) :: Fs, Ascending F := by
    intro F hF
    rcases List.mem_cons.mp hF with rfl | hF
    · exact hmem.filter _
    · exact hasc F hF
  refine ⟨fun res h => ?_, fun hnone => ?_⟩
  · obtain ⟨all, hm, hres⟩ := scanLoop_spec hdel hall (Nat.lt_succ_self _) [] res h
    rw [List.nil_append] at hres
    refine ⟨by rw [hres]; exact hm.ascending.filter _, fun k => ?_⟩
    rw [hres, find_filter_within, hm.find_eq]
    split_ifs with hk
    · unfold answer
      rw [resolve_cons, resolve_cons, find_filter_within, if_pos hk]
    · rfl
  · refine scanLoop_ok hdel hall (Nat.lt_succ_self _) ?_ []
    intro o ho
    simp only [Merge.errors, Merge.new, List.map_cons, List.map_map, List.mem_cons, List.mem_map] at ho
    rcases ho with rfl | ⟨c, hc, rfl⟩
    · rfl
    · exact hnone c hc

end LsmDb
