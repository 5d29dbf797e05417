import LsmDb.Core.Record

/-! The in-memory write buffer (`memtable.rs`): a sorted map of the latest record per key, with a
running count of the key and value bytes it holds. -/
namespace LsmDb
open Lib
set_option autoImplicit false

structure MemTable where
  entries : SortedMap Bytes Record
  approxSize : ℕ

namespace MemTable

def new : MemTable := ⟨SortedMap.empty, 0⟩

/-- Insert a record; the key bytes of an occupied slot are already counted, so only the value cost
is swapped. -/
def insert (m : MemTable) (key : Bytes) (record : Record) : MemTable :=
  let added := key.length + record.valueLen
  match m.entries.get? key with
  | some old =>
    { entries := m.entries.insert key record
      approxSize := m.approxSize - old.valueLen + record.valueLen }
  | none =>
    { entries := m.entries.insert key record
      approxSize := m.approxSize + added }

def apply (m : MemTable) (key : Bytes) (record : Record) : MemTable := m.insert key record

/-- The loop `for (key, record) in ops { memtable.apply(key, record) }`. -/
def applyAll (m : MemTable) (ops : List Entry) : MemTable :=
  ops.foldl (fun m op => m.apply op.1 op.2) m

def get (m : MemTable) (key : Bytes) : Option Record := m.entries.get? key

def isEmpty (m : MemTable) : Bool := m.entries.entries.isEmpty

def iter (m : MemTable) : List Entry := m.entries.entries

/-- The old contents and the emptied buffer. -/
def take (m : MemTable) : List Entry × MemTable := (m.entries.entries, ⟨SortedMap.empty, 0⟩)

/-! ## What the buffer holds -/

theorem iter_ascending (m : MemTable) : Ascending m.iter := m.entries.ascending

theorem get_eq_find (m : MemTable) (key : Bytes) : m.get key = find m.iter key := rfl

@[simp] theorem iter_new : new.iter = [] := rfl
@[simp] theorem iter_take (m : MemTable) : m.take.2.iter = [] := rfl
@[simp] theorem take_fst (m : MemTable) : m.take.1 = m.iter := rfl

theorem iter_apply (m : MemTable) (key : Bytes) (record : Record) :
    (m.apply key record).iter = insertEntry key record m.iter := by
  simp only [apply, insert, iter]
  cases m.entries.get? key <;> rfl

theorem iter_applyAll (m : MemTable) (ops : List Entry) :
    (m.applyAll ops).iter = insertAll ops m.iter := by
  induction ops generalizing m with
  | nil => rfl
  | cons op ops ih =>
    have h := ih (m.apply op.1 op.2)
    rw [iter_apply] at h
    exact h

theorem applyAll_append (m : MemTable) (xs ys : List Entry) :
    m.applyAll (xs ++ ys) = (m.applyAll xs).applyAll ys := List.foldl_append

theorem isEmpty_iff (m : MemTable) : m.isEmpty = true ↔ m.iter = [] := by
  simp [isEmpty, iter]

/-! ## What the counter counts -/

/-- The key and value bytes of the entries. -/
def total (es : List Entry) : ℕ := (es.map fun e => e.1.length + e.2.valueLen).sum

@[simp] theorem total_nil : total [] = 0 := rfl
@[simp] theorem total_cons (e : Entry) (es : List Entry) :
    total (e :: es) = e.1.length + e.2.valueLen + total es := List.sum_cons

theorem valueLen_le_total {es : List Entry} {key : Bytes} {record : Record} (h : find es key = some record) :
    record.valueLen ≤ total es := by
  induction es with
  | nil => simp at h
  | cons e es ih =>
    rw [total_cons]
    by_cases hk : key = e.1
    · subst hk
      rw [find_cons_self] at h
      rw [Option.some.inj h]
      omega
    · rw [find_cons_of_ne hk] at h
      have := ih h
      omega

/-- A new key adds its own bytes and its value's. -/
theorem total_insertEntry_none {es : List Entry} {key : Bytes} (h : find es key = none) (record : Record) :
    total (insertEntry key record es) = total es + (key.length + record.valueLen) := by
  induction es with
  | nil => simp [insertEntry]
  | cons e es ih =>
    by_cases hk : key = e.1
    · subst hk
      rw [find_cons_self] at h
      cases h
    · rw [find_cons_of_ne hk] at h
      simp only [insertEntry, if_neg hk]
      split_ifs
      · simp only [total_cons]
        omega
      · rw [total_cons, total_cons, ih h]
        omega

/-- A key that is there swaps its value's bytes. -/
theorem total_insertEntry_some {es : List Entry} (hasc : Ascending es) {key : Bytes} {old : Record}
    (h : find es key = some old) (record : Record) :
    total (insertEntry key record es) = total es - old.valueLen + record.valueLen := by
  induction es with
  | nil => simp at h
  | cons e es ih =>
    obtain ⟨hlt, htail⟩ := ascending_cons.mp hasc
    by_cases hk : key = e.1
    · subst hk
      rw [find_cons_self] at h
      rw [insertEntry, if_neg (lt_irrefl _), if_pos rfl, total_cons, total_cons, Option.some.inj h]
      dsimp only
      omega
    · rw [find_cons_of_ne hk] at h
      have hbefore : ¬ key < e.1 := fun hkey => by
        rw [find_none_of_lt fun x hx => hkey.trans (hlt x hx)] at h
        cases h
      have hle := valueLen_le_total h
      rw [insertEntry, if_neg hbefore, if_neg hk, total_cons, total_cons, ih htail h]
      omega

/-- The counter is the number of bytes held. -/
def Exact (m : MemTable) : Prop := m.approxSize = total m.iter

theorem exact_new : new.Exact := rfl

theorem exact_take (m : MemTable) : m.take.2.Exact := rfl

theorem Exact.apply {m : MemTable} (h : m.Exact) (key : Bytes) (record : Record) : (m.apply key record).Exact := by
  unfold Exact at h ⊢
  rw [iter_apply]
  simp only [MemTable.apply, insert]
  cases hold : m.entries.get? key with
  | some old =>
    show m.approxSize - old.valueLen + record.valueLen = _
    rw [h]
    exact (total_insertEntry_some m.iter_ascending hold record).symm
  | none =>
    show m.approxSize + (key.length + record.valueLen) = _
    rw [h]
    exact (total_insertEntry_none hold record).symm

theorem Exact.applyAll {m : MemTable} (h : m.Exact) (ops : List Entry) : (m.applyAll ops).Exact := by
  induction ops generalizing m with
  | nil => exact h
  | cons op ops ih => exact ih (h.apply op.1 op.2)

/-- What `insert` subtracts is part of what was counted. -/
theorem Exact.no_underflow {m : MemTable} (h : m.Exact) {key : Bytes} {old : Record} (hold : m.get key = some old) :
    old.valueLen ≤ m.approxSize := by
  rw [h]
  exact valueLen_le_total hold

/-! ## Any sequence of calls -/

inductive Use where
  | apply (key : Bytes) (record : Record)
  | take

def use (m : MemTable) : Use → MemTable
  | .apply key record => m.apply key record
  | .take => m.take.2

/-- The record last applied to each key since the buffer was last taken. -/
def Use.note (last : Bytes → Option Record) : Use → Bytes → Option Record
  | .apply key record => Function.update last key (some record)
  | .take => fun _ => none

theorem used_spec (uses : List Use) {m : MemTable} {last : Bytes → Option Record} (h : m.Exact)
    (hlast : ∀ key, find m.iter key = last key) :
    (uses.foldl use m).Exact ∧ ∀ key, find (uses.foldl use m).iter key = uses.foldl Use.note last key := by
  induction uses generalizing m last with
  | nil => exact ⟨h, hlast⟩
  | cons u uses ih =>
    cases u with
    | apply key record =>
      refine ih (h.apply key record) fun k => ?_
      show find (m.apply key record).iter k = Function.update last key (some record) k
      rw [iter_apply, find_insertEntry, hlast]
      by_cases hk : k = key
      · rw [if_pos hk, hk, Function.update_self]
      · rw [if_neg hk, Function.update_of_ne hk]
    | take => exact ih (exact_take m) fun _ => rfl

end MemTable
end LsmDb
