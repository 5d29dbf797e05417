import LsmDb.Sstable.Format
import Mathlib.Logic.Function.Basic

/-! The shared cache of decoded blocks (`cache.rs`): sixteen shards, each a ring of slots evicted by a
CLOCK hand. A hash map is the function of its lookups. -/
namespace LsmDb
open Lib
set_option autoImplicit false

structure BlockKey where
  runId : ℕ
  blockIdx : ℕ
deriving DecidableEq, Repr

structure Slot where
  key : BlockKey
  block : DecodedBlock
  referenced : Bool

structure Shard where
  slots : List (Option Slot)
  index : BlockKey → Option ℕ
  hand : ℕ

namespace Shard

def withSlots (n : ℕ) : Shard := ⟨List.replicate n none, fun _ => none, 0⟩

def get (s : Shard) (key : BlockKey) : Option DecodedBlock × Shard :=
  match s.index key with
  | none => (none, s)
  | some i =>
    match s.slots[i]? with
    | some (some slot) => (some slot.block, { s with slots := s.slots.set i (some { slot with referenced := true }) })
    | _ => (none, s)

/-- The sweep of `free_or_evict`: clear reference bits until a free or unreferenced slot is under the
hand. -/
def sweep : ℕ → Shard → ℕ × Shard
  | 0, s => (s.hand, s)
  | n + 1, s =>
    let i := s.hand
    let s := { s with hand := (s.hand + 1) % s.slots.length }
    match s.slots[i]? with
    | some (some slot) =>
      if slot.referenced then
        sweep n { s with slots := s.slots.set i (some { slot with referenced := false }) }
      else (i, s)
    | _ => (i, s)

def freeOrEvict (s : Shard) : ℕ × Shard := sweep (2 * s.slots.length) s

def insert (s : Shard) (key : BlockKey) (block : DecodedBlock) : Shard :=
  if s.slots = [] then s
  else
    match s.index key with
    | some i =>
      match s.slots[i]? with
      | some (some slot) =>
        { s with slots := s.slots.set i (some { slot with block := block, referenced := true }) }
      | _ => s
    | none =>
      let (i, s) := s.freeOrEvict
      let index := match s.slots[i]? with
        | some (some old) => Function.update s.index old.key none
        | _ => s.index
      { s with
        slots := s.slots.set i (some ⟨key, block, true⟩)
        index := Function.update index key (some i) }

end Shard

def ASSUMED_BLOCK_BYTES : ℕ := 4 * 1024
def SHARDS : ℕ := 16

structure BlockCache where
  shards : List Shard
  enabled : Bool

namespace BlockCache

/-- Roughly `capacityBytes` of blocks; below one block the cache is disabled. -/
def new (capacityBytes : ℕ) : BlockCache :=
  let totalSlots := capacityBytes / ASSUMED_BLOCK_BYTES
  let enabled := decide (0 < totalSlots)
  let perShard := if enabled then max ((totalSlots + SHARDS - 1) / SHARDS) 1 else 0
  ⟨List.replicate SHARDS (Shard.withSlots perShard), enabled⟩

/-- The mixing of a key into a shard number, in 64-bit arithmetic. -/
def shard (key : BlockKey) : ℕ :=
  ((key.runId * 0x9E3779B97F4A7C15 % 2 ^ 64) ^^^ (key.blockIdx * 0xC2B2AE3D27D4EB4F % 2 ^ 64)) % SHARDS

def get (c : BlockCache) (key : BlockKey) : Option DecodedBlock × BlockCache :=
  if c.enabled then
    match c.shards[shard key]? with
    | some s =>
      let (block, s) := s.get key
      (block, { c with shards := c.shards.set (shard key) s })
    | none => (none, c)
  else (none, c)

def insert (c : BlockCache) (key : BlockKey) (block : DecodedBlock) : BlockCache :=
  if c.enabled then
    match c.shards[shard key]? with
    | some s => { c with shards := c.shards.set (shard key) (s.insert key block) }
    | none => c
  else c

end BlockCache

/-! ## What the cache holds -/

namespace Shard

/-- The block kept under a key, whatever its reference bit. -/
def Resident (s : Shard) (i : ℕ) (key : BlockKey) (block : DecodedBlock) : Prop :=
  ∃ r, s.slots[i]? = some (some ⟨key, block, r⟩)

/-- The index leads to the slot that holds the key, and the hand is on the ring. -/
structure Rep (s : Shard) : Prop where
  slot : ∀ key i, s.index key = some i → ∃ block, s.Resident i key block
  hand : s.slots ≠ [] → s.hand < s.slots.length

/-- Every resident block is one that belongs under its key. -/
def Holds (P : BlockKey → DecodedBlock → Prop) (s : Shard) : Prop :=
  ∀ i key block, s.Resident i key block → P key block

theorem rep_withSlots (n : ℕ) : (withSlots n).Rep where
  slot _ _ h := by simp [withSlots] at h
  hand h := by
    simp only [withSlots, ne_eq, List.replicate_eq_nil_iff, List.length_replicate] at h ⊢
    omega

theorem holds_withSlots (P : BlockKey → DecodedBlock → Prop) (n : ℕ) : (withSlots n).Holds P := by
  intro i key block h
  obtain ⟨r, hr⟩ := h
  simp only [withSlots, List.getElem?_replicate] at hr
  split_ifs at hr
  simp at hr

/-- Only reference bits and the position of the hand differ. -/
structure SameBlocks (s s' : Shard) : Prop where
  index : s'.index = s.index
  resident : ∀ i key block, s'.Resident i key block ↔ s.Resident i key block
  length : s'.slots.length = s.slots.length
  hand : s.hand < s.slots.length → s'.hand < s'.slots.length

theorem SameBlocks.refl (s : Shard) : SameBlocks s s := ⟨rfl, fun _ _ _ => Iff.rfl, rfl, id⟩

theorem SameBlocks.trans {a b c : Shard} (h : SameBlocks a b) (h' : SameBlocks b c) : SameBlocks a c :=
  ⟨h'.index.trans h.index, fun i k b => (h'.resident i k b).trans (h.resident i k b),
    h'.length.trans h.length, fun hh => h'.hand (h.hand hh)⟩

theorem SameBlocks.rep {s s' : Shard} (h : SameBlocks s s') (hr : s.Rep) : s'.Rep where
  slot key i hi := by
    rw [h.index] at hi
    obtain ⟨block, hb⟩ := hr.slot key i hi
    exact ⟨block, (h.resident i key block).mpr hb⟩
  hand hne := by
    refine h.hand (hr.hand fun hnil => hne ?_)
    have hl := h.length
    rw [hnil] at hl
    exact List.eq_nil_of_length_eq_zero hl

theorem SameBlocks.holds {s s' : Shard} {P : BlockKey → DecodedBlock → Prop} (h : SameBlocks s s')
    (hp : s.Holds P) : s'.Holds P := fun i key block hb => hp i key block ((h.resident i key block).mp hb)

theorem resident_set {s s' : Shard} {i : ℕ} {slot : Slot} (hi : i < s.slots.length)
    (hs : s'.slots = s.slots.set i (some slot)) (j : ℕ) (key : BlockKey) (block : DecodedBlock) :
    s'.Resident j key block ↔
      if i = j then slot.key = key ∧ slot.block = block else s.Resident j key block := by
  unfold Resident
  rw [hs]
  simp only [List.getElem?_set]
  split_ifs with hij
  · subst hij
    obtain ⟨k, b, q⟩ := slot
    simp
  · exact Iff.rfl

theorem sameBlocks_touch {s : Shard} {i hand : ℕ} {slot : Slot} (hs : s.slots[i]? = some (some slot))
    (r : Bool) (hh : s.hand < s.slots.length → hand < s.slots.length) :
    SameBlocks s { s with slots := s.slots.set i (some { slot with referenced := r }), hand := hand } where
  index := rfl
  resident j key block := by
    rw [resident_set (List.getElem?_eq_some_iff.mp hs).1 rfl]
    split_ifs with hij
    · subst hij
      obtain ⟨k, b, q⟩ := slot
      simp [Resident, hs]
    · exact Iff.rfl
  length := List.length_set
  hand h := by
    rw [List.length_set]
    exact hh h

theorem get_spec {s : Shard} (hr : s.Rep) (key : BlockKey) :
    SameBlocks s (s.get key).2 ∧ ∀ block, (s.get key).1 = some block → ∃ i, s.Resident i key block := by
  unfold get
  cases hi : s.index key with
  | none => exact ⟨SameBlocks.refl s, fun _ h => by simp at h⟩
  | some i =>
    obtain ⟨block, r, hslot⟩ := hr.slot key i hi
    simp only [hslot]
    refine ⟨sameBlocks_touch hslot true id, fun b hb => ⟨i, r, ?_⟩⟩
    rw [hslot]
    simpa using hb

/-- The sweep ends on the ring and moves nothing but bits and the hand. -/
theorem sweep_spec (n : ℕ) {s : Shard} (hh : s.hand < s.slots.length) :
    SameBlocks s (sweep n s).2 ∧ (sweep n s).1 < s.slots.length := by
  induction n generalizing s with
  | zero => exact ⟨SameBlocks.refl s, hh⟩
  | succ n ih =>
    have hnext : (s.hand + 1) % s.slots.length < s.slots.length := Nat.mod_lt _ (by omega)
    simp only [sweep]
    split
    · rename_i slot hslot
      split_ifs
      · have htouch := sameBlocks_touch hslot false fun _ => hnext
        obtain ⟨h1, h2⟩ := ih (htouch.hand hh)
        exact ⟨htouch.trans h1, by rw [htouch.length] at h2; exact h2⟩
      · exact ⟨⟨rfl, fun _ _ _ => Iff.rfl, rfl, fun _ => hnext⟩, hh⟩
    · exact ⟨⟨rfl, fun _ _ _ => Iff.rfl, rfl, fun _ => hnext⟩, hh⟩

/-- Placing a block in a slot: the key that was there is forgotten. -/
theorem rep_place {s : Shard} (hr : s.Rep) {i : ℕ} (hi : i < s.slots.length) (key : BlockKey)
    (block : DecodedBlock) :
    Rep { s with
      slots := s.slots.set i (some ⟨key, block, true⟩)
      index := Function.update (match s.slots[i]? with
        | some (some old) => Function.update s.index old.key none
        | _ => s.index) key (some i) } where
  slot k j hj := by
    by_cases hk : k = key
    · subst hk
      obtain rfl : i = j := by simpa using hj
      exact ⟨block, (resident_set hi rfl i k block).mpr (by simp)⟩
    · simp only [Function.update_of_ne hk] at hj
      have hold : s.index k = some j ∧ ∀ old, s.slots[i]? = some (some old) → old.key ≠ k := by
        cases hslot : s.slots[i]? with
        | none => exact ⟨by simpa [hslot] using hj, fun _ h => by simp at h⟩
        | some o =>
          cases o with
          | none => exact ⟨by simpa [hslot] using hj, fun _ h => by simp at h⟩
          | some old =>
            simp only [hslot] at hj
            by_cases hok : k = old.key
            · simp [hok] at hj
            · rw [Function.update_of_ne hok] at hj
              refine ⟨hj, fun o ho => ?_⟩
              obtain rfl : old = o := by simpa using ho
              exact Ne.symm hok
      obtain ⟨b, hb⟩ := hr.slot k j hold.1
      refine ⟨b, (resident_set hi rfl j k b).mpr ?_⟩
      split_ifs with hij
      · subst hij
        obtain ⟨q, hq⟩ := hb
        exact absurd rfl (hold.2 _ hq)
      · exact hb
  hand hne := by
    rw [List.length_set]
    exact hr.hand fun hnil => by simp [hnil] at hi

theorem insert_spec {s : Shard} (hr : s.Rep) {P : BlockKey → DecodedBlock → Prop} (hp : s.Holds P)
    {key : BlockKey} {block : DecodedBlock} (hkb : P key block) :
    (s.insert key block).Rep ∧ (s.insert key block).Holds P := by
  unfold insert
  split_ifs with hnil
  · exact ⟨hr, hp⟩
  · cases hi : s.index key with
    | some i =>
      obtain ⟨b, q, hslot⟩ := hr.slot key i hi
      have hlt := (List.getElem?_eq_some_iff.mp hslot).1
      simp only [hslot]
      refine ⟨⟨fun k j hj => ?_, fun _ => by rw [List.length_set]; exact hr.hand hnil⟩, fun j k b' hb => ?_⟩
      · obtain ⟨b'', hb⟩ := hr.slot k j hj
        by_cases hij : i = j
        · subst hij
          obtain ⟨q', hq⟩ := hb
          have hkey : key = k := by
            rw [hslot] at hq
            simpa using congrArg (fun o => o.map fun p => p.map Slot.key) hq
          exact ⟨block, (resident_set hlt rfl i k block).mpr (by simp [hkey])⟩
        · exact ⟨b'', (resident_set hlt rfl j k b'').mpr (by simp [hij, hb])⟩
      · rw [resident_set hlt rfl] at hb
        split_ifs at hb
        · rw [← hb.1, ← hb.2]
          exact hkb
        · exact hp j k b' hb
    | none =>
      have hhand := hr.hand hnil
      obtain ⟨hsame, hlt⟩ := sweep_spec (2 * s.slots.length) hhand
      have hlt' : s.freeOrEvict.1 < s.freeOrEvict.2.slots.length := by
        unfold freeOrEvict
        rw [hsame.length]
        exact hlt
      refine ⟨rep_place (hsame.rep hr) hlt' key block, fun j k b hb => ?_⟩
      rw [resident_set hlt' rfl] at hb
      split_ifs at hb
      · rw [← hb.1, ← hb.2]
        exact hkb
      · exact (hsame.holds hp) j k b hb

/-- A block just inserted is found. -/
theorem get_insert_self {s : Shard} (hr : s.Rep) (hne : s.slots ≠ []) (key : BlockKey) (block : DecodedBlock) :
    ((s.insert key block).get key).1 = some block := by
  unfold insert
  rw [if_neg hne]
  cases hi : s.index key with
  | some i =>
    obtain ⟨b, q, hslot⟩ := hr.slot key i hi
    have hlt := (List.getElem?_eq_some_iff.mp hslot).1
    simp only [hslot, get, hi, List.getElem?_set_self hlt]
  | none =>
    obtain ⟨hsame, hlt⟩ := sweep_spec (2 * s.slots.length) (hr.hand hne)
    have hlt' : s.freeOrEvict.1 < s.freeOrEvict.2.slots.length := by
      unfold freeOrEvict
      rw [hsame.length]
      exact hlt
    simp [get, hlt']

end Shard

namespace BlockCache

/-- Every shard is well formed and holds only blocks that belong under their keys. -/
def Coherent (P : BlockKey → DecodedBlock → Prop) (c : BlockCache) : Prop :=
  ∀ s ∈ c.shards, s.Rep ∧ s.Holds P

theorem coherent_new (P : BlockKey → DecodedBlock → Prop) (capacity : ℕ) : (new capacity).Coherent P := by
  intro s hs
  obtain ⟨_, rfl⟩ := List.mem_replicate.mp hs
  exact ⟨Shard.rep_withSlots _, Shard.holds_withSlots P _⟩

theorem Coherent.mono {P Q : BlockKey → DecodedBlock → Prop} {c : BlockCache} (h : c.Coherent P)
    (hpq : ∀ k b, P k b → Q k b) : c.Coherent Q :=
  fun s hs => ⟨(h s hs).1, fun i k b hb => hpq k b ((h s hs).2 i k b hb)⟩

theorem coherent_set {P : BlockKey → DecodedBlock → Prop} {c : BlockCache} (h : c.Coherent P) {s : Shard}
    (hs : s.Rep ∧ s.Holds P) (i : ℕ) : Coherent P { c with shards := c.shards.set i s } := by
  intro x hx
  rcases List.mem_or_eq_of_mem_set hx with hx | rfl
  · exact h x hx
  · exact hs

/-- A hit is a block that belongs under the key. -/
theorem get_spec {P : BlockKey → DecodedBlock → Prop} {c : BlockCache} (h : c.Coherent P) (key : BlockKey) :
    (c.get key).2.Coherent P ∧ ∀ block, (c.get key).1 = some block → P key block := by
  unfold get
  split_ifs
  · cases hs : c.shards[shard key]? with
    | none => exact ⟨h, fun _ hb => by simp at hb⟩
    | some s =>
      obtain ⟨hrep, hholds⟩ := h s (List.mem_of_getElem? hs)
      obtain ⟨hsame, hhit⟩ := Shard.get_spec hrep key
      refine ⟨coherent_set h ⟨hsame.rep hrep, hsame.holds hholds⟩ _, fun block hb => ?_⟩
      obtain ⟨i, hi⟩ := hhit block hb
      exact hholds i key block hi
  · exact ⟨h, fun _ hb => by simp at hb⟩

theorem insert_spec {P : BlockKey → DecodedBlock → Prop} {c : BlockCache} (h : c.Coherent P)
    {key : BlockKey} {block : DecodedBlock} (hkb : P key block) : (c.insert key block).Coherent P := by
  unfold insert
  split_ifs
  · cases hs : c.shards[shard key]? with
    | none => exact h
    | some s =>
      obtain ⟨hrep, hholds⟩ := h s (List.mem_of_getElem? hs)
      exact coherent_set h (Shard.insert_spec hrep hholds hkb) _
  · exact h

theorem get_insert_self {P : BlockKey → DecodedBlock → Prop} {c : BlockCache} (h : c.Coherent P)
    (he : c.enabled = true) {key : BlockKey} {s : Shard} (hs : c.shards[shard key]? = some s) (hne : s.slots ≠ [])
    (block : DecodedBlock) : ((c.insert key block).get key).1 = some block := by
  have hlt := (List.getElem?_eq_some_iff.mp hs).1
  simp only [insert, get, he, hs, if_true, List.getElem?_set_self hlt]
  exact Shard.get_insert_self (h s (List.mem_of_getElem? hs)).1 hne key block

theorem get_disabled {c : BlockCache} (h : c.enabled = false) (key : BlockKey) : c.get key = (none, c) := by
  simp [get, h]

theorem insert_disabled {c : BlockCache} (h : c.enabled = false) (key : BlockKey) (block : DecodedBlock) :
    c.insert key block = c := by
  simp [insert, h]

theorem enabled_get (c : BlockCache) (key : BlockKey) : (c.get key).2.enabled = c.enabled := by
  unfold get
  split_ifs with h
  · cases c.shards[shard key]? <;> simp [h]
  · rfl

end BlockCache
end LsmDb
