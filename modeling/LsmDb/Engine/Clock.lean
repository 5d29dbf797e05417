import LsmDb.Engine.Cache
import Mathlib.Data.List.Induction
import Mathlib.Data.Nat.ModEq

/-! The ring of a shard under any sequence of calls: the index and the slots are inverse to each other, and the
hand evicts the first slot that is free or has not been used since it last came by. -/
namespace LsmDb
open Lib
set_option autoImplicit false

namespace Shard

/-! ## The sweep -/

/-- The `for` loop of `free_or_evict`: what it returns, or the shard it leaves when it runs out. -/
def sweepLoop : ℕ → Shard → (ℕ × Shard) ⊕ Shard
  | 0, s => .inr s
  | n + 1, s =>
    let i := s.hand
    let s := { s with hand := (s.hand + 1) % s.slots.length }
    match s.slots[i]? with
    | some (some slot) =>
      if slot.referenced then
        sweepLoop n { s with slots := s.slots.set i (some { slot with referenced := false }) }
      else .inl (i, s)
    | _ => .inl (i, s)

theorem sweep_eq_loop (n : ℕ) (s : Shard) :
    sweep n s = match sweepLoop n s with
      | .inl r => r
      | .inr s => (s.hand, s) := by
  induction n generalizing s with
  | zero => rfl
  | succ n ih =>
    simp only [sweep, sweepLoop]
    cases s.slots[s.hand]? with
    | none => rfl
    | some slot =>
      cases slot with
      | none => rfl
      | some slot =>
        by_cases hbit : slot.referenced = true
        · simp only [if_pos hbit]
          exact ih _
        · simp only [if_neg hbit]

/-- The slot is free, or its block was not used since the hand last came by. -/
def spare (s : Shard) (i : ℕ) : Bool :=
  match s.slots[i]? with
  | some (some slot) => !slot.referenced
  | _ => true

/-- One pass of the loop over a slot in use: its bit is cleared, and the hand moves on. -/
def pass (s : Shard) : Shard :=
  { s with
    slots := s.slots.modify s.hand (Option.map fun slot => { slot with referenced := false })
    hand := (s.hand + 1) % s.slots.length }

theorem sweepLoop_spare {n : ℕ} {s : Shard} (h : s.spare s.hand = true) :
    sweepLoop (n + 1) s = .inl (s.hand, { s with hand := (s.hand + 1) % s.slots.length }) := by
  unfold spare at h
  simp only [sweepLoop]
  split
  · rename_i slot hslot
    rw [hslot] at h
    have hbit : slot.referenced = false := by simpa using h
    simp [hbit]
  · rfl

theorem sweepLoop_used {n : ℕ} {s : Shard} (h : s.spare s.hand = false) :
    sweepLoop (n + 1) s = sweepLoop n s.pass := by
  unfold spare at h
  simp only [sweepLoop]
  split
  · rename_i slot hslot
    rw [hslot] at h
    have hbit : slot.referenced = true := by simpa using h
    obtain ⟨hlt, hget⟩ := List.getElem?_eq_some_iff.mp hslot
    rw [if_pos hbit, pass, List.modify_eq_set_getElem?, hslot]
    rfl
  · rename_i hother
    split at h
    · rename_i slot hslot
      exact absurd hslot (hother slot)
    · simp at h

theorem pass_length (s : Shard) : s.pass.slots.length = s.slots.length := List.length_modify ..

/-- A pass makes the slot under the hand spare and no other. -/
theorem spare_pass (s : Shard) (i : ℕ) : s.pass.spare i = (s.spare i || decide (i = s.hand)) := by
  by_cases hi : i = s.hand
  · subst hi
    simp only [spare, pass, List.getElem?_modify_eq, decide_true, Bool.or_true]
    rcases s.slots[s.hand]? with _ | (_ | slot) <;> rfl
  · simp only [spare, pass, List.getElem?_modify_ne _ _ (Ne.symm hi), hi, decide_false, Bool.or_false]

theorem passes_length (s : Shard) (j : ℕ) : (pass^[j] s).slots.length = s.slots.length := by
  induction j with
  | zero => rfl
  | succ j ih => rw [Function.iterate_succ_apply', pass_length, ih]

theorem passes_hand {s : Shard} (hh : s.hand < s.slots.length) (j : ℕ) :
    (pass^[j] s).hand = (s.hand + j) % s.slots.length := by
  induction j with
  | zero => exact (Nat.mod_eq_of_lt hh).symm
  | succ j ih =>
    rw [Function.iterate_succ_apply']
    show ((pass^[j] s).hand + 1) % (pass^[j] s).slots.length = _
    rw [passes_length, ih, Nat.mod_add_mod, Nat.add_assoc]

theorem spare_passes {s : Shard} (hh : s.hand < s.slots.length) (j i : ℕ) :
    (pass^[j] s).spare i = true ↔ s.spare i = true ∨ ∃ m < j, i = (s.hand + m) % s.slots.length := by
  induction j with
  | zero => simp
  | succ j ih =>
    rw [Function.iterate_succ_apply', spare_pass, passes_hand hh, Bool.or_eq_true, ih, decide_eq_true_iff]
    constructor
    · rintro ((h | ⟨m, hm, rfl⟩) | rfl)
      · exact Or.inl h
      · exact Or.inr ⟨m, by omega, rfl⟩
      · exact Or.inr ⟨j, by omega, rfl⟩
    · rintro (h | ⟨m, hm, rfl⟩)
      · exact Or.inl (Or.inl h)
      · rcases Nat.lt_succ_iff_lt_or_eq.mp hm with hlt | rfl
        · exact Or.inl (Or.inr ⟨m, hlt, rfl⟩)
        · exact Or.inr rfl

/-- The offsets of a ring are told apart within one round. -/
theorem offset_inj {n hand a b : ℕ} (ha : a < n) (hb : b < n) (h : (hand + a) % n = (hand + b) % n) : a = b := by
  have hmod : a ≡ b [MOD n] := Nat.ModEq.add_left_cancel' hand h
  rwa [Nat.ModEq, Nat.mod_eq_of_lt ha, Nat.mod_eq_of_lt hb] at hmod

/-- As long as the slots that come under the hand are in use, the loop goes on. -/
theorem sweepLoop_passes {s : Shard} (hh : s.hand < s.slots.length) {j : ℕ} (hj : j ≤ s.slots.length)
    (hused : ∀ i < j, s.spare ((s.hand + i) % s.slots.length) = false) (n : ℕ) :
    sweepLoop (j + n) s = sweepLoop n (pass^[j] s) := by
  induction j generalizing n with
  | zero => rw [Nat.zero_add]; rfl
  | succ j ih =>
    have hnot : (pass^[j] s).spare (pass^[j] s).hand = false := by
      rw [Bool.eq_false_iff, passes_hand hh, ne_eq, spare_passes hh, hused j (by omega)]
      rintro (h | ⟨m, hm, heq⟩)
      · simp at h
      · have := offset_inj (by omega) (by omega) heq
        omega
    rw [show j + 1 + n = j + (n + 1) by omega, ih (by omega) (fun i hi => hused i (by omega)), sweepLoop_used hnot,
      Function.iterate_succ_apply']

/-- The slot `free_or_evict` is to choose: the first in clock order that is spare, or the one under the hand when
every slot is in use. -/
def Chosen (s : Shard) (i : ℕ) : Prop :=
  (∃ j < s.slots.length, i = (s.hand + j) % s.slots.length ∧ s.spare i = true ∧
    ∀ m < j, s.spare ((s.hand + m) % s.slots.length) = false) ∨
  ((∀ k < s.slots.length, s.spare k = false) ∧ i = s.hand)

theorem offset_surj {n hand k : ℕ} (hh : hand < n) (hk : k < n) : ∃ j < n, k = (hand + j) % n := by
  rcases Nat.lt_or_ge k hand with hlt | hge
  · refine ⟨n - hand + k, by omega, ?_⟩
    rw [show hand + (n - hand + k) = k + n by omega, Nat.add_mod_right, Nat.mod_eq_of_lt hk]
  · exact ⟨k - hand, by omega, by rw [Nat.add_sub_of_le hge, Nat.mod_eq_of_lt hk]⟩

/-- The loop returns within two rounds, with the slot it is to choose. -/
theorem sweepLoop_chosen {s : Shard} (hh : s.hand < s.slots.length) :
    ∃ i s', sweepLoop (2 * s.slots.length) s = .inl (i, s') ∧ s.Chosen i := by
  by_cases hspare : ∃ j, j < s.slots.length ∧ s.spare ((s.hand + j) % s.slots.length) = true
  · have hfirst := Nat.find_spec hspare
    have hmin : ∀ m < Nat.find hspare, s.spare ((s.hand + m) % s.slots.length) = false := by
      intro m hm
      have hnot := Nat.find_min hspare hm
      rw [not_and, Bool.not_eq_true] at hnot
      exact hnot (by omega)
    obtain ⟨hlt, hat⟩ := hfirst
    have hloop := sweepLoop_passes hh hlt.le hmin (2 * s.slots.length - Nat.find hspare - 1 + 1)
    have hstop : (pass^[Nat.find hspare] s).spare (pass^[Nat.find hspare] s).hand = true := by
      rw [passes_hand hh, spare_passes hh]
      exact Or.inl hat
    rw [show Nat.find hspare + (2 * s.slots.length - Nat.find hspare - 1 + 1) = 2 * s.slots.length by omega,
      sweepLoop_spare hstop, passes_hand hh] at hloop
    exact ⟨_, _, hloop, Or.inl ⟨_, hlt, rfl, hat, hmin⟩⟩
  · have hused : ∀ j < s.slots.length, s.spare ((s.hand + j) % s.slots.length) = false := by
      intro j hj
      rw [Bool.eq_false_iff]
      exact fun h => hspare ⟨j, hj, h⟩
    have hloop := sweepLoop_passes hh le_rfl hused (s.slots.length - 1 + 1)
    have hstop : (pass^[s.slots.length] s).spare (pass^[s.slots.length] s).hand = true := by
      rw [passes_hand hh, spare_passes hh]
      exact Or.inr ⟨0, by omega, by simp⟩
    rw [show s.slots.length + (s.slots.length - 1 + 1) = 2 * s.slots.length by omega, sweepLoop_spare hstop,
      passes_hand hh, Nat.add_mod_right, Nat.mod_eq_of_lt hh] at hloop
    refine ⟨_, _, hloop, Or.inr ⟨fun k hk => ?_, rfl⟩⟩
    obtain ⟨j, hj, rfl⟩ := offset_surj hh hk
    exact hused j hj

theorem freeOrEvict_eq {s : Shard} (hh : s.hand < s.slots.length) :
    sweepLoop (2 * s.slots.length) s = .inl s.freeOrEvict ∧ s.Chosen s.freeOrEvict.1 := by
  obtain ⟨i, s', hloop, hchosen⟩ := sweepLoop_chosen hh
  have heq : s.freeOrEvict = (i, s') := by rw [freeOrEvict, sweep_eq_loop, hloop]
  rw [heq]
  exact ⟨hloop, hchosen⟩

theorem Chosen.spare_of_exists {s : Shard} {i : ℕ} (h : s.Chosen i) (hex : ∃ k < s.slots.length, s.spare k = true) :
    s.spare i = true := by
  rcases h with ⟨_, _, _, hi, _⟩ | ⟨hused, _⟩
  · exact hi
  · obtain ⟨k, hk, hspare⟩ := hex
    rw [hused k hk] at hspare
    cases hspare

/-! ## The index and the slots -/

/-- On a ring of `n` slots, the index leads to the slot that holds a key, and nowhere else. -/
structure Exact (n : ℕ) (s : Shard) : Prop where
  index_iff : ∀ key i, s.index key = some i ↔ ∃ block, s.Resident i key block
  length : s.slots.length = n
  hand : 0 < n → s.hand < n

theorem Exact.rep {n : ℕ} {s : Shard} (h : s.Exact n) : s.Rep where
  slot key i hi := (h.index_iff key i).mp hi
  hand hne := by
    rw [h.length]
    exact h.hand (by rw [← h.length]; exact List.length_pos_iff.mpr hne)

theorem Exact.one_slot {n : ℕ} {s : Shard} (h : s.Exact n) {key : BlockKey} {i j : ℕ} {b b' : DecodedBlock}
    (hi : s.Resident i key b) (hj : s.Resident j key b') : i = j := by
  have hi' := (h.index_iff key i).mpr ⟨b, hi⟩
  rw [(h.index_iff key j).mpr ⟨b', hj⟩] at hi'
  exact (Option.some.inj hi').symm

theorem exact_withSlots (n : ℕ) : (withSlots n).Exact n where
  index_iff key i := by
    refine ⟨fun h => by simp [withSlots] at h, fun ⟨block, h⟩ => ?_⟩
    exact (holds_withSlots (fun _ _ => False) n i key block h).elim
  length := List.length_replicate
  hand h := h

theorem SameBlocks.exact {n : ℕ} {s s' : Shard} (h : SameBlocks s s') (hx : s.Exact n) : s'.Exact n where
  index_iff key i := by
    rw [h.index, hx.index_iff]
    exact exists_congr fun block => (h.resident i key block).symm
  length := h.length.trans hx.length
  hand hn := by
    have hlt := h.hand (by rw [hx.length]; exact hx.hand hn)
    rwa [h.length, hx.length] at hlt

/-- What `insert` makes of a slot: the key that was there is forgotten. -/
def place (s : Shard) (i : ℕ) (key : BlockKey) (block : DecodedBlock) : Shard :=
  { s with
    slots := s.slots.set i (some ⟨key, block, true⟩)
    index := Function.update (match s.slots[i]? with
      | some (some old) => Function.update s.index old.key none
      | _ => s.index) key (some i) }

theorem resident_place {s : Shard} {i : ℕ} (hi : i < s.slots.length) (key : BlockKey) (block : DecodedBlock) (j : ℕ)
    (k : BlockKey) (b : DecodedBlock) : (s.place i key block).Resident j k b ↔
      if i = j then key = k ∧ block = b else s.Resident j k b :=
  @resident_set s (s.place i key block) i ⟨key, block, true⟩ hi rfl j k b

theorem index_place_evicted {s : Shard} {i : ℕ} {key k : BlockKey} {b : DecodedBlock} (hk : k ≠ key)
    (h : s.Resident i k b) (block : DecodedBlock) : (s.place i key block).index k = none := by
  obtain ⟨r, hslot⟩ := h
  refine (Function.update_of_ne hk ..).trans ?_
  rw [hslot]
  exact Function.update_self ..

theorem index_place_other {s : Shard} {i : ℕ} {key k : BlockKey} (hk : k ≠ key) (h : ¬ ∃ b, s.Resident i k b)
    (block : DecodedBlock) : (s.place i key block).index k = s.index k := by
  refine (Function.update_of_ne hk ..).trans ?_
  rcases hslot : s.slots[i]? with _ | (_ | old)
  · rfl
  · rfl
  · refine Function.update_of_ne (fun heq => h ⟨old.block, old.referenced, ?_⟩) ..
    rw [hslot, heq]

theorem Exact.place {n : ℕ} {s : Shard} (h : s.Exact n) {i : ℕ} (hi : i < s.slots.length) {key : BlockKey}
    (hnew : s.index key = none) (block : DecodedBlock) : (s.place i key block).Exact n where
  index_iff k j := by
    simp only [resident_place hi]
    by_cases hk : k = key
    · subst hk
      have hnot : ∀ b, ¬ s.Resident j k b := fun b hb => by
        have hfound := (h.index_iff k j).mpr ⟨b, hb⟩
        rw [hnew] at hfound
        cases hfound
      have hself : (s.place i k block).index k = some i := Function.update_self ..
      rw [hself]
      split_ifs with hij
      · simp [hij]
      · simp [hij, hnot]
    · have hkey : key ≠ k := Ne.symm hk
      by_cases hres : ∃ b, s.Resident i k b
      · obtain ⟨b, hb⟩ := hres
        rw [index_place_evicted hk hb]
        have hnone : i ≠ j → ∀ b', ¬ s.Resident j k b' := fun hij b' hb' => hij (h.one_slot hb hb')
        split_ifs with hij
        · simp [hkey]
        · simp [hnone hij]
      · rw [index_place_other hk hres, h.index_iff]
        split_ifs with hij
        · subst hij
          simp [hkey, hres]
        · exact Iff.rfl
  length := List.length_set.trans h.length
  hand := h.hand

/-- What an insertion does: the key's own slot or the chosen one gets the block, and nothing else changes. -/
theorem Exact.insert {n : ℕ} {s : Shard} (h : s.Exact n) (hn : 0 < n) (key : BlockKey) (block : DecodedBlock) :
    (s.insert key block).Exact n ∧ ∃ i, (s.index key = some i ∨ s.index key = none ∧ s.Chosen i) ∧
      ∀ j k b, (s.insert key block).Resident j k b ↔ if i = j then key = k ∧ block = b else s.Resident j k b := by
  have hne : s.slots ≠ [] := by
    rintro hnil
    have hlen := h.length
    rw [hnil] at hlen
    exact absurd hlen (by simp; omega)
  have hhand : s.hand < s.slots.length := by rw [h.length]; exact h.hand hn
  cases hi : s.index key with
  | some i =>
    obtain ⟨b, r, hslot⟩ := (h.index_iff key i).mp hi
    have hlt := (List.getElem?_eq_some_iff.mp hslot).1
    have heq : s.insert key block = { s with slots := s.slots.set i (some ⟨key, block, true⟩) } := by
      simp only [Shard.insert, if_neg hne, hi, hslot]
    have hres : ∀ j k b', (s.insert key block).Resident j k b' ↔
        if i = j then key = k ∧ block = b' else s.Resident j k b' := by
      intro j k b'
      rw [heq]
      exact @resident_set s _ i ⟨key, block, true⟩ hlt rfl j k b'
    refine ⟨⟨fun k j => ?_, ?_, ?_⟩, i, Or.inl rfl, hres⟩
    · simp only [hres]
      rw [show (s.insert key block).index = s.index by rw [heq]]
      by_cases hij : i = j
      · subst hij
        simp only [if_true]
        refine ⟨fun hk => ⟨block, ?_, rfl⟩, fun ⟨_, hk, _⟩ => by rw [← hk]; exact hi⟩
        obtain ⟨b', r', hslot'⟩ := (h.index_iff k i).mp hk
        rw [hslot] at hslot'
        simpa using congrArg (Option.map (Option.map Slot.key)) hslot'
      · simp only [if_neg hij]
        exact h.index_iff k j
    · rw [heq]
      exact List.length_set.trans h.length
    · rw [heq]
      exact h.hand
  | none =>
    obtain ⟨_, hchosen⟩ := freeOrEvict_eq hhand
    obtain ⟨hsame, hlt⟩ := sweep_spec (2 * s.slots.length) hhand
    have hlt' : s.freeOrEvict.1 < s.freeOrEvict.2.slots.length := by
      unfold freeOrEvict
      rw [hsame.length]
      exact hlt
    have heq : s.insert key block = s.freeOrEvict.2.place s.freeOrEvict.1 key block := by
      simp only [Shard.insert, if_neg hne, hi]
      rfl
    have hnew : s.freeOrEvict.2.index key = none := by
      rw [← hi]
      exact congrFun hsame.index key
    rw [heq]
    refine ⟨(hsame.exact h).place hlt' hnew block, _, Or.inr ⟨rfl, hchosen⟩, fun j k b => ?_⟩
    rw [resident_place hlt']
    split_ifs
    · exact Iff.rfl
    · exact hsame.resident j k b

/-! ## Any sequence of calls -/

inductive Use where
  | get (key : BlockKey)
  | insert (key : BlockKey) (block : DecodedBlock)

def use (s : Shard) : Use → Shard
  | .get key => (s.get key).2
  | .insert key block => s.insert key block

def Use.note (last : BlockKey → Option DecodedBlock) : Use → BlockKey → Option DecodedBlock
  | .get _ => last
  | .insert key block => Function.update last key (some block)

/-- The block most recently inserted under each key. -/
def lastInserted (uses : List Use) : BlockKey → Option DecodedBlock := uses.foldl Use.note fun _ => none

theorem exact_insert {n : ℕ} {s : Shard} (h : s.Exact n) (key : BlockKey) (block : DecodedBlock) :
    (s.insert key block).Exact n := by
  rcases Nat.eq_zero_or_pos n with rfl | hn
  · have hnil : s.slots = [] := List.eq_nil_of_length_eq_zero h.length
    simpa only [insert, if_pos hnil] using h
  · exact (h.insert hn key block).1

/-- The invariant of a shard: its index is exact, and it holds nothing but last insertions. -/
theorem used_spec (n : ℕ) (uses : List Use) :
    (uses.foldl use (withSlots n)).Exact n ∧
      (uses.foldl use (withSlots n)).Holds fun key block => lastInserted uses key = some block := by
  induction uses using List.reverseRecOn with
  | nil => exact ⟨exact_withSlots n, holds_withSlots _ n⟩
  | append_singleton uses u ih =>
    obtain ⟨hx, hlast⟩ := ih
    simp only [List.foldl_append, List.foldl_cons, List.foldl_nil, lastInserted] at hlast ⊢
    generalize uses.foldl use (withSlots n) = s at hx hlast
    cases u with
    | get key =>
      have hsame := (get_spec hx.rep key).1
      exact ⟨hsame.exact hx, hsame.holds hlast⟩
    | insert key block =>
      refine ⟨exact_insert hx key block, fun j k b (hb : (s.insert key block).Resident j k b) => ?_⟩
      rcases Nat.eq_zero_or_pos n with rfl | hn
      · have hzero := (exact_insert hx key block).length
        obtain ⟨r, hslot⟩ := hb
        rw [List.eq_nil_of_length_eq_zero hzero] at hslot
        simp at hslot
      · obtain ⟨_, i, hi, hres⟩ := hx.insert hn key block
        rw [hres] at hb
        split_ifs at hb with hij
        · rw [← hb.1, ← hb.2]
          exact Function.update_self ..
        · have hk : k ≠ key := by
            rintro rfl
            have hfound := (hx.index_iff k j).mpr ⟨b, hb⟩
            rcases hi with hi | ⟨hi, _⟩
            · rw [hi] at hfound
              exact hij (Option.some.inj hfound)
            · rw [hi] at hfound
              cases hfound
          exact (Function.update_of_ne hk ..).trans (hlast j k b hb)

/-- However a shard of `n` slots is used: index and slots are inverse to each other; the hand is on the ring; at most
`n` blocks are resident; a hit is the block last inserted under the key; the sweep returns from inside its loop, with
the first slot in clock order that is free or unreferenced, or else the one under the hand; what an insertion evicts
was unreferenced, if any slot could be spared; and what was just inserted is there. -/
theorem clock_shard (n : ℕ) (uses : List Use) :
    let s := uses.foldl use (withSlots n)
    (∀ key i, s.index key = some i ↔ ∃ block, s.Resident i key block) ∧
      (∀ key i j b b', s.Resident i key b → s.Resident j key b' → i = j) ∧
      (0 < n → s.hand < n) ∧ s.slots.length = n ∧ (s.slots.filter Option.isSome).length ≤ n ∧
      (∀ key block, (s.get key).1 = some block → lastInserted uses key = some block) ∧
      (0 < n → sweepLoop (2 * n) s = .inl s.freeOrEvict ∧ s.Chosen s.freeOrEvict.1) ∧
      (∀ key block i k b, s.Resident i k b → k ≠ key → ¬ (s.insert key block).Resident i k b →
        (∃ j < n, s.spare j = true) → s.spare i = true) ∧
      (0 < n → ∀ key block, ((s.insert key block).get key).1 = some block) := by
  intro s
  obtain ⟨hx, hlast⟩ := used_spec n uses
  refine ⟨hx.index_iff, fun key i j b b' hi hj => hx.one_slot hi hj, hx.hand, hx.length, ?_, fun key block hget => ?_,
    fun hn => ?_, fun key block i k b hb hk hgone hex => ?_, fun hn key block => ?_⟩
  · exact (List.length_filter_le _ _).trans hx.length.le
  · obtain ⟨i, hi⟩ := (get_spec hx.rep key).2 block hget
    exact hlast i key block hi
  · have hfound := freeOrEvict_eq (s := s) (by rw [hx.length]; exact hx.hand hn)
    rwa [hx.length] at hfound
  · have hn : 0 < n := by
      obtain ⟨j, hj, _⟩ := hex
      omega
    obtain ⟨_, i', hi', hres⟩ := hx.insert hn key block
    rw [hres] at hgone
    split_ifs at hgone with hij
    · subst hij
      rcases hi' with hi' | ⟨_, hchosen⟩
      · obtain ⟨b', hb'⟩ := (hx.index_iff key i').mp hi'
        obtain ⟨r, hslot⟩ := hb
        obtain ⟨r', hslot'⟩ := hb'
        rw [hslot] at hslot'
        exact absurd (by simpa using congrArg (Option.map (Option.map Slot.key)) hslot') hk
      · exact hchosen.spare_of_exists (by rw [hx.length]; exact hex)
    · exact absurd hb hgone
  · refine get_insert_self hx.rep (fun hnil => ?_) key block
    have hlen := hx.length
    rw [hnil, List.length_nil] at hlen
    omega

end Shard
end LsmDb
