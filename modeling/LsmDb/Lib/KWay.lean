import LsmDb.Lib.Overlay
import Mathlib.Algebra.GroupWithZero.Nat

/-! The answer of a stack of ascending layers as one ascending list, built smallest key first.

`MergeOf` says what the list is; `MergeOf.step` is one round of a k-way merge: take the smallest key
off every layer that has it in front. -/
namespace LsmDb.Lib
set_option autoImplicit false

variable {α ρ β : Type} [LinearOrder α]

/-- Drop the front entry if it is the one of `k`. -/
def advance (k : α) : List (α × ρ) → List (α × ρ)
  | [] => []
  | e :: es => if e.1 = k then es else e :: es

theorem advance_sublist (k : α) (l : List (α × ρ)) : (advance k l).Sublist l := by
  cases l with
  | nil => exact List.Sublist.refl _
  | cons e es =>
    simp only [advance]
    split_ifs
    · exact List.sublist_cons_self e es
    · exact List.Sublist.refl _

theorem Ascending.advance {l : List (α × ρ)} (h : Ascending l) (k : α) : Ascending (advance k l) :=
  h.sublist (advance_sublist k l)

theorem advance_length_le (k : α) (l : List (α × ρ)) : (advance k l).length ≤ l.length :=
  (advance_sublist k l).length_le

/-- Once the smallest key is taken off, only larger keys remain. -/
theorem lt_of_mem_advance {l : List (α × ρ)} (h : Ascending l) {k : α} (hk : ∀ e ∈ l, k ≤ e.1)
    {e : α × ρ} (he : e ∈ advance k l) : k < e.1 := by
  cases l with
  | nil => simp [advance] at he
  | cons x xs =>
    obtain ⟨hlt, _⟩ := ascending_cons.mp h
    have hx := hk x (by simp)
    simp only [advance] at he
    split_ifs at he with hxk
    · rw [← hxk]
      exact hlt e he
    · have hkx : k < x.1 := lt_of_le_of_ne hx (Ne.symm hxk)
      rcases List.mem_cons.mp he with rfl | he
      · exact hkx
      · exact hkx.trans (hlt e he)

theorem find_advance (l : List (α × ρ)) {k x : α} (hx : x ≠ k) :
    find (advance k l) x = find l x := by
  cases l with
  | nil => rfl
  | cons e es =>
    simp only [advance]
    split_ifs with hek
    · rw [find_cons_of_ne (by rw [hek]; exact hx)]
    · rfl

theorem newest_advance (ls : List (List (α × ρ))) {k x : α} (hx : x ≠ k) :
    newest (ls.map (advance k)) x = newest ls x := by
  induction ls with
  | nil => rfl
  | cons l ls ih => rw [List.map_cons, newest_cons, newest_cons, find_advance l hx, ih]

variable {live : ρ → Option β}

/-- `out` lists the answers of the stack in ascending order. -/
structure MergeOf (live : ρ → Option β) (ls : List (List (α × ρ))) (out : List (α × β)) : Prop where
  ascending : Ascending out
  find_eq : ∀ k, find out k = resolve live ls k

theorem MergeOf.unique {ls : List (List (α × ρ))} {xs ys : List (α × β)} (hx : MergeOf live ls xs)
    (hy : MergeOf live ls ys) : xs = ys :=
  hx.ascending.ext hy.ascending fun k => by rw [hx.find_eq, hy.find_eq]

theorem resolve_of_all_nil {ls : List (List (α × ρ))} (h : ∀ l ∈ ls, l = []) (k : α) :
    resolve live ls k = none := by
  induction ls with
  | nil => rfl
  | cons l ls ih =>
    rw [h l (by simp), resolve_nil_cons]
    exact ih fun m hm => h m (by simp [hm])

theorem MergeOf.nil {ls : List (List (α × ρ))} (h : ∀ l ∈ ls, l = []) : MergeOf live ls [] where
  ascending := Ascending.nil
  find_eq k := by rw [resolve_of_all_nil h, find_nil]

/-- An answer is a live record of one of the layers. -/
theorem exists_of_resolve {ls : List (List (α × ρ))} {k : α} {v : β} (h : resolve live ls k = some v) :
    ∃ l ∈ ls, ∃ r, (k, r) ∈ l ∧ live r = some v := by
  induction ls with
  | nil => simp at h
  | cons l ls ih =>
    cases hf : find l k with
    | some r =>
      rw [resolve_cons_some live hf] at h
      exact ⟨l, by simp, r, mem_of_find hf, h⟩
    | none =>
      rw [resolve_cons_none live hf] at h
      obtain ⟨m, hm, r, hr, hv⟩ := ih h
      exact ⟨m, by simp [hm], r, hr, hv⟩

/-- One round: the smallest key's answer in front of the merge of what remains. -/
theorem MergeOf.step {ls : List (List (α × ρ))} {k : α} {out : List (α × β)}
    (hasc : ∀ l ∈ ls, Ascending l) (hk : ∀ l ∈ ls, ∀ e ∈ l, k ≤ e.1)
    (h : MergeOf live (ls.map (advance k)) out) :
    MergeOf live ls (match resolve live ls k with
      | some v => (k, v) :: out
      | none => out) := by
  have habove : ∀ e ∈ out, k < e.1 := by
    intro e he
    have hres : resolve live (ls.map (advance k)) e.1 = some e.2 := by
      rw [← h.find_eq]
      exact h.ascending.find_of_mem he
    obtain ⟨l', hl', r, hx, _⟩ := exists_of_resolve hres
    obtain ⟨l, hl, rfl⟩ := List.mem_map.mp hl'
    exact lt_of_mem_advance (hasc l hl) (hk l hl) hx
  have hother : ∀ x, x ≠ k → find out x = resolve live ls x := by
    intro x hx
    rw [h.find_eq]
    unfold resolve
    rw [newest_advance ls hx]
  have hself : find out k = none := find_none_of_lt habove
  cases hr : resolve live ls k with
  | some v =>
    refine ⟨ascending_cons.mpr ⟨habove, h.ascending⟩, fun x => ?_⟩
    by_cases hx : x = k
    · rw [hx, hr]
      simp
    · rw [find_cons_of_ne hx]
      exact hother x hx
  | none =>
    refine ⟨h.ascending, fun x => ?_⟩
    by_cases hx : x = k
    · rw [hx, hr]
      exact hself
    · exact hother x hx

/-! ## The smallest front key -/

/-- The keys in front of the layers. -/
def fronts (ls : List (List (α × ρ))) : List α := ls.filterMap fun l => l.head?.map Prod.fst

theorem le_of_front {ls : List (List (α × ρ))} (hasc : ∀ l ∈ ls, Ascending l) {k : α}
    (hmin : ∀ x ∈ fronts ls, k ≤ x) : ∀ l ∈ ls, ∀ e ∈ l, k ≤ e.1 := by
  intro l hl e he
  cases l with
  | nil => simp at he
  | cons x xs =>
    have hx : k ≤ x.1 := by
      refine hmin x.1 ?_
      exact List.mem_filterMap.mpr ⟨x :: xs, hl, rfl⟩
    obtain ⟨hlt, _⟩ := ascending_cons.mp (hasc _ hl)
    rcases List.mem_cons.mp he with rfl | he
    · exact hx
    · exact hx.trans (hlt e he).le

omit [LinearOrder α] in
theorem fronts_eq_nil {ls : List (List (α × ρ))} (h : fronts ls = []) : ∀ l ∈ ls, l = [] := by
  intro l hl
  have hnone := List.filterMap_eq_nil_iff.mp h l hl
  cases l with
  | nil => rfl
  | cons x xs => simp at hnone

/-- The number of entries in all layers. -/
def total (ls : List (List (α × ρ))) : ℕ := (ls.map List.length).sum

theorem total_advance_le (k : α) (ls : List (List (α × ρ))) : total (ls.map (advance k)) ≤ total ls := by
  induction ls with
  | nil => exact le_rfl
  | cons l ls ih =>
    have hl := advance_length_le k l
    simp only [total, List.map_cons, List.sum_cons] at ih ⊢
    omega

theorem total_advance_lt {k : α} {ls : List (List (α × ρ))} (h : k ∈ fronts ls) :
    total (ls.map (advance k)) < total ls := by
  induction ls with
  | nil => simp [fronts] at h
  | cons l ls ih =>
    have hle := total_advance_le k ls
    have hl := advance_length_le k l
    simp only [total, List.map_cons, List.sum_cons] at ih hle ⊢
    by_cases hfront : l.head?.map Prod.fst = some k
    · cases l with
      | nil => simp at hfront
      | cons x xs =>
        have hxk : x.1 = k := by simpa using hfront
        simp only [advance, hxk, ↓reduceIte, List.length_cons]
        omega
    · have htail : k ∈ fronts ls := by
        obtain ⟨m, hm, hmk⟩ := List.mem_filterMap.mp h
        rcases List.mem_cons.mp hm with rfl | hm
        · exact absurd hmk hfront
        · exact List.mem_filterMap.mpr ⟨m, hm, hmk⟩
      have hlt := ih htail
      omega

theorem mem_map_advance_ascending {ls : List (List (α × ρ))} (hasc : ∀ l ∈ ls, Ascending l) (k : α) :
    ∀ l ∈ ls.map (advance k), Ascending l := by
  intro l hl
  obtain ⟨m, hm, rfl⟩ := List.mem_map.mp hl
  exact (hasc m hm).advance k

theorem exists_min (x : α) (xs : List α) : ∃ k ∈ x :: xs, ∀ y ∈ x :: xs, k ≤ y := by
  induction xs generalizing x with
  | nil => exact ⟨x, by simp, by simp⟩
  | cons y ys ih =>
    obtain ⟨k, hk, hmin⟩ := ih y
    by_cases hxk : x ≤ k
    · refine ⟨x, by simp, fun z hz => ?_⟩
      rcases List.mem_cons.mp hz with rfl | hz
      · exact le_rfl
      · exact hxk.trans (hmin z hz)
    · refine ⟨k, List.mem_cons_of_mem x hk, fun z hz => ?_⟩
      rcases List.mem_cons.mp hz with rfl | hz
      · exact (not_le.mp hxk).le
      · exact hmin z hz

/-- Every stack of ascending layers has a merge. -/
theorem MergeOf.exists (live : ρ → Option β) {ls : List (List (α × ρ))} (hasc : ∀ l ∈ ls, Ascending l) :
    ∃ out, MergeOf live ls out := by
  induction hn : total ls using Nat.strong_induction_on generalizing ls with
  | _ n ih =>
    cases hf : fronts ls with
    | nil => exact ⟨[], MergeOf.nil (fronts_eq_nil hf)⟩
    | cons x xs =>
      obtain ⟨k, hk, hmin⟩ := exists_min x xs
      rw [← hf] at hk hmin
      have hlt := total_advance_lt hk
      obtain ⟨out, hout⟩ := ih _ (by omega) (mem_map_advance_ascending hasc k) rfl
      exact ⟨_, MergeOf.step hasc (le_of_front hasc hmin) hout⟩

/-! ## How far a merge has come -/

/-- The entries above `k`; all of them as long as there is no `k`. -/
def beyond (k : Option α) (l : List (α × ρ)) : List (α × ρ) := l.filter fun e => k.all (· < e.1)

/-- The entries up to `k`. -/
def upTo (k : Option α) (l : List (α × ρ)) : List (α × ρ) := l.filter fun e => k.any (e.1 ≤ ·)

theorem mem_beyond {k : Option α} {l : List (α × ρ)} {e : α × ρ} : e ∈ beyond k l ↔ e ∈ l ∧ ∀ x ∈ k, x < e.1 := by
  cases k <;> simp [beyond]

theorem mem_upTo {k : Option α} {l : List (α × ρ)} {e : α × ρ} : e ∈ upTo k l ↔ e ∈ l ∧ ∃ x ∈ k, e.1 ≤ x := by
  cases k <;> simp [upTo]

@[simp] theorem beyond_none (l : List (α × ρ)) : beyond none l = l := by simp [beyond]

@[simp] theorem upTo_none (l : List (α × ρ)) : upTo none l = [] := by simp [upTo]

theorem Ascending.beyond {l : List (α × ρ)} (h : Ascending l) (k : Option α) : Ascending (beyond k l) := h.filter _

theorem mem_advance {k : α} {l : List (α × ρ)} {e : α × ρ} (he : e ∈ l) (hk : e.1 ≠ k) : e ∈ advance k l := by
  cases l with
  | nil => exact he
  | cons x xs =>
    simp only [advance]
    split_ifs with hx
    · rcases List.mem_cons.mp he with rfl | he
      · exact absurd hx hk
      · exact he
    · exact he

theorem find_beyond (l : List (α × ρ)) {k : Option α} {key : α} (hk : ∀ x ∈ k, x < key) :
    find (beyond k l) key = find l key := by
  induction l with
  | nil => rfl
  | cons e l ih =>
    by_cases he : k.all (· < e.1) = true
    · have hcons : beyond k (e :: l) = e :: beyond k l := List.filter_cons_of_pos he
      rw [hcons]
      by_cases hkey : key = e.1
      · subst hkey
        rw [find_cons_self, find_cons_self]
      · rw [find_cons_of_ne hkey, find_cons_of_ne hkey]
        exact ih
    · have hne : key ≠ e.1 := by
        rintro rfl
        refine he ?_
        cases k with
        | none => rfl
        | some x => simpa using hk x rfl
      have hcons : beyond k (e :: l) = beyond k l := List.filter_cons_of_neg he
      rw [hcons, find_cons_of_ne hne]
      exact ih

theorem newest_beyond (ls : List (List (α × ρ))) {k : Option α} {key : α} (hk : ∀ x ∈ k, x < key) :
    newest (ls.map (beyond k)) key = newest ls key := by
  induction ls with
  | nil => rfl
  | cons l ls ih => rw [List.map_cons, newest_cons, newest_cons, find_beyond l hk, ih]

/-- One round moves every layer past the smallest key. -/
theorem advance_beyond {l : List (α × ρ)} (h : Ascending l) {k : Option α} {key : α} (hk : ∀ x ∈ k, x < key)
    (hmin : ∀ e ∈ beyond k l, key ≤ e.1) : advance key (beyond k l) = beyond (some key) l := by
  refine ((h.beyond k).advance key).ext_mem (h.beyond _) fun e => ?_
  rw [mem_beyond]
  constructor
  · intro he
    refine ⟨(mem_beyond.mp ((advance_sublist key _).subset he)).1, fun x hx => ?_⟩
    obtain rfl : key = x := Option.some.inj hx
    exact lt_of_mem_advance (h.beyond k) hmin he
  · rintro ⟨he, hlt⟩
    have hkey := hlt key rfl
    exact mem_advance (mem_beyond.mpr ⟨he, fun x hx => (hk x hx).trans hkey⟩) hkey.ne'

/-- The reference output of one round: the key's answer, if it has one. -/
theorem MergeOf.upTo_step {ls : List (List (α × ρ))} {out : List (α × β)} (h : MergeOf live ls out) {k : Option α}
    {key : α} (hk : ∀ x ∈ k, x < key) (hmin : ∀ l ∈ ls, ∀ e ∈ beyond k l, key ≤ e.1) :
    upTo (some key) out = upTo k out ++ (match resolve live ls key with
      | some v => [(key, v)]
      | none => []) := by
  have hmem : ∀ v, (key, v) ∈ out ↔ resolve live ls key = some v := fun v => by
    rw [← h.ascending.find_iff_mem, h.find_eq]
  -- an answer above `k` comes from an entry above `k`, so its key is not below `key`
  have hgap : ∀ e ∈ out, e.1 ≤ key → (∃ x ∈ k, e.1 ≤ x) ∨ e.1 = key := by
    intro e he hle
    by_cases hx : ∃ x ∈ k, e.1 ≤ x
    · exact Or.inl hx
    · have hres : resolve live ls e.1 = some e.2 := by
        rw [← h.find_eq]
        exact h.ascending.find_of_mem he
      obtain ⟨l, hl, r, hr, _⟩ := exists_of_resolve hres
      have habove : (e.1, r) ∈ beyond k l :=
        mem_beyond.mpr ⟨hr, fun x hx' => not_le.mp fun hle' => hx ⟨x, hx', hle'⟩⟩
      exact Or.inr (le_antisymm hle (hmin l hl _ habove))
  have htail : ∀ e, e ∈ (match resolve live ls key with
      | some v => [(key, v)]
      | none => []) ↔ e.1 = key ∧ e ∈ out := by
    rintro ⟨a, v⟩
    constructor
    · intro he
      cases hr : resolve live ls key with
      | none => simp [hr] at he
      | some u =>
        simp only [hr, List.mem_singleton, Prod.mk.injEq] at he
        obtain ⟨rfl, rfl⟩ := he
        exact ⟨rfl, (hmem v).mpr hr⟩
    · rintro ⟨rfl, he⟩
      simp [(hmem v).mp he]
  refine (h.ascending.filter _).ext_mem (ascending_append.mpr ⟨h.ascending.filter _, ?_, ?_⟩) fun e => ?_
  · split <;> simp [Ascending]
  · intro a ha b hb
    obtain ⟨_, x, hx, hle⟩ := mem_upTo.mp ha
    rw [((htail b).mp hb).1]
    exact hle.trans_lt (hk x hx)
  · rw [List.mem_append, mem_upTo, htail]
    constructor
    · rintro hin
      obtain ⟨he, x, hx, hle⟩ := mem_upTo.mp hin
      obtain rfl : key = x := Option.some.inj hx
      rcases hgap e he hle with hx | heq
      · exact Or.inl ⟨he, hx⟩
      · exact Or.inr ⟨heq, he⟩
    · rintro (⟨he, x, hx, hle⟩ | ⟨heq, he⟩)
      · exact mem_upTo.mpr ⟨he, key, rfl, (hle.trans_lt (hk x hx)).le⟩
      · exact mem_upTo.mpr ⟨he, key, rfl, heq.le⟩

/-- Once nothing is left above `k`, the output is complete. -/
theorem MergeOf.upTo_all {ls : List (List (α × ρ))} {out : List (α × β)} (h : MergeOf live ls out) {k : Option α}
    (hnil : ∀ l ∈ ls, beyond k l = []) : upTo k out = out := by
  refine List.filter_eq_self.mpr fun e he => ?_
  have hres : resolve live ls e.1 = some e.2 := by
    rw [← h.find_eq]
    exact h.ascending.find_of_mem he
  obtain ⟨l, hl, r, hr, _⟩ := exists_of_resolve hres
  by_contra hnot
  have habove : (e.1, r) ∈ beyond k l := mem_beyond.mpr ⟨hr, fun x hx => by
    obtain rfl : k = some x := hx
    simpa using hnot⟩
  rw [hnil l hl] at habove
  cases habove

end LsmDb.Lib
