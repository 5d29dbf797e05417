import Mathlib.Data.List.Sort
import Mathlib.Order.Basic

/-! Association lists with strictly ascending keys over a linear order, and the finite map they
represent. A list is determined by its lookups (`Ascending.ext`), so a proof about the map never has
to look at the order in which entries were inserted. -/
namespace LsmDb.Lib
set_option autoImplicit false

variable {α β : Type} [LinearOrder α]

/-! ## Ascending association lists -/

/-- Keys strictly ascending, hence no key twice. -/
def Ascending (es : List (α × β)) : Prop := es.Pairwise (fun a b => a.1 < b.1)

instance (es : List (α × β)) : Decidable (Ascending es) :=
  inferInstanceAs (Decidable (es.Pairwise (fun a b => a.1 < b.1)))

theorem Ascending.nil : Ascending ([] : List (α × β)) := List.Pairwise.nil

theorem ascending_cons {e : α × β} {es : List (α × β)} :
    Ascending (e :: es) ↔ (∀ x ∈ es, e.1 < x.1) ∧ Ascending es := List.pairwise_cons

theorem ascending_append {xs ys : List (α × β)} :
    Ascending (xs ++ ys) ↔ Ascending xs ∧ Ascending ys ∧ ∀ x ∈ xs, ∀ y ∈ ys, x.1 < y.1 :=
  List.pairwise_append

theorem Ascending.sublist {xs ys : List (α × β)} (hs : xs.Sublist ys) (h : Ascending ys) :
    Ascending xs := List.Pairwise.sublist hs h

theorem Ascending.filter {es : List (α × β)} (h : Ascending es) (p : α × β → Bool) :
    Ascending (es.filter p) := h.sublist List.filter_sublist

/-- The value stored for `k`. The key test is the one of the order, whatever other decision procedures
the key type has. -/
def find (es : List (α × β)) (k : α) : Option β := es.lookup k

@[simp] theorem find_nil (k : α) : find ([] : List (α × β)) k = none := rfl

@[simp] theorem find_cons_self (k : α) (v : β) (es : List (α × β)) :
    find ((k, v) :: es) k = some v := List.lookup_cons_self

theorem find_append (xs ys : List (α × β)) (k : α) :
    find (xs ++ ys) k = (find xs k).or (find ys k) := List.lookup_append

theorem find_cons_of_ne {k : α} {e : α × β} {es : List (α × β)} (h : k ≠ e.1) :
    find (e :: es) k = find es k := by
  obtain ⟨a, b⟩ := e
  have hb : (k == a) = false := beq_eq_false_iff_ne.mpr h
  rw [find, List.lookup_cons, hb]
  rfl

theorem find_none_of_forall_ne {k : α} {es : List (α × β)} (h : ∀ x ∈ es, x.1 ≠ k) :
    find es k = none := by
  rw [find, List.lookup_eq_none_iff]
  intro p hp
  simpa [bne_iff_ne] using (h p hp).symm

theorem find_none_of_lt {k : α} {es : List (α × β)} (h : ∀ x ∈ es, k < x.1) :
    find es k = none := find_none_of_forall_ne fun x hx => (h x hx).ne'

theorem find_none_of_gt {k : α} {es : List (α × β)} (h : ∀ x ∈ es, x.1 < k) :
    find es k = none := find_none_of_forall_ne fun x hx => (h x hx).ne

theorem mem_of_find {k : α} {v : β} {es : List (α × β)} (h : find es k = some v) :
    (k, v) ∈ es := by
  obtain ⟨l₁, l₂, rfl, _⟩ := List.lookup_eq_some_iff.mp h
  simp

theorem Ascending.find_of_mem {es : List (α × β)} (h : Ascending es) {k : α} {v : β}
    (hm : (k, v) ∈ es) : find es k = some v := by
  induction es with
  | nil => simp at hm
  | cons e es ih =>
    obtain ⟨hlt, htail⟩ := ascending_cons.mp h
    rcases List.mem_cons.mp hm with rfl | hm
    · simp
    · rw [find_cons_of_ne (hlt _ hm).ne', ih htail hm]

theorem Ascending.find_iff_mem {es : List (α × β)} (h : Ascending es) {k : α} {v : β} :
    find es k = some v ↔ (k, v) ∈ es := ⟨mem_of_find, h.find_of_mem⟩

/-- Ascending lists are equal as soon as they hold the same pairs. -/
theorem Ascending.ext_mem {xs ys : List (α × β)} (hx : Ascending xs) (hy : Ascending ys)
    (h : ∀ e, e ∈ xs ↔ e ∈ ys) : xs = ys := by
  have hnx : xs.Nodup := List.Pairwise.imp (fun hlt => by rintro rfl; exact lt_irrefl _ hlt) hx
  have hny : ys.Nodup := List.Pairwise.imp (fun hlt => by rintro rfl; exact lt_irrefl _ hlt) hy
  have hperm : xs.Perm ys := (List.perm_ext_iff_of_nodup hnx hny).mpr h
  refine hperm.eq_of_pairwise (fun a b _ _ hab hba => ?_) hx hy
  exact absurd (hab.trans hba) (lt_irrefl _)

theorem Ascending.ext {xs ys : List (α × β)} (hx : Ascending xs) (hy : Ascending ys)
    (h : ∀ k, find xs k = find ys k) : xs = ys := by
  refine hx.ext_mem hy fun ⟨k, v⟩ => ?_
  rw [← hx.find_iff_mem, ← hy.find_iff_mem, h]

/-! ## Insertion and removal -/

/-- Insert or overwrite, keeping the order. -/
def insertEntry (k : α) (v : β) : List (α × β) → List (α × β)
  | [] => [(k, v)]
  | e :: es => if k < e.1 then (k, v) :: e :: es
      else if k = e.1 then (k, v) :: es else e :: insertEntry k v es

theorem mem_insertEntry {k : α} {v : β} {es : List (α × β)} {x : α × β}
    (h : x ∈ insertEntry k v es) : x = (k, v) ∨ x ∈ es := by
  induction es with
  | nil => simpa [insertEntry] using h
  | cons e es ih =>
    simp only [insertEntry] at h
    split_ifs at h with h1 h2
    · simpa using h
    · rcases List.mem_cons.mp h with h | h
      · exact Or.inl h
      · exact Or.inr (List.mem_cons_of_mem _ h)
    · rcases List.mem_cons.mp h with h | h
      · exact Or.inr (by simp [h])
      · exact (ih h).imp_right (List.mem_cons_of_mem _)

theorem Ascending.insertEntry {es : List (α × β)} (h : Ascending es) (k : α) (v : β) :
    Ascending (insertEntry k v es) := by
  induction es with
  | nil => simp [Lib.insertEntry, Ascending]
  | cons e es ih =>
    obtain ⟨hlt, htail⟩ := ascending_cons.mp h
    simp only [Lib.insertEntry]
    split_ifs with h1 h2
    · refine ascending_cons.mpr ⟨fun x hx => ?_, h⟩
      rcases List.mem_cons.mp hx with rfl | hx
      · exact h1
      · exact h1.trans (hlt x hx)
    · exact ascending_cons.mpr ⟨fun x hx => by rw [h2]; exact hlt x hx, htail⟩
    · have hek : e.1 < k := lt_of_le_of_ne (not_lt.mp h1) (Ne.symm h2)
      refine ascending_cons.mpr ⟨fun x hx => ?_, ih htail⟩
      rcases mem_insertEntry hx with rfl | hx
      · exact hek
      · exact hlt x hx

theorem find_insertEntry (k : α) (v : β) (es : List (α × β)) (x : α) :
    find (insertEntry k v es) x = if x = k then some v else find es x := by
  induction es with
  | nil =>
    by_cases hx : x = k
    · simp [insertEntry, hx]
    · rw [insertEntry, find_cons_of_ne hx, if_neg hx]
  | cons e es ih =>
    obtain ⟨a, b⟩ := e
    simp only [insertEntry]
    by_cases hx : x = k
    · subst hx
      rw [if_pos rfl]
      split_ifs with h1 h2
      · simp
      · simp
      · rw [find_cons_of_ne h2, ih, if_pos rfl]
    · rw [if_neg hx]
      split_ifs with h1 h2
      · rw [find_cons_of_ne hx]
      · subst h2
        rw [find_cons_of_ne hx, find_cons_of_ne hx]
      · by_cases hxa : x = a
        · simp [hxa]
        · rw [find_cons_of_ne hxa, find_cons_of_ne hxa, ih, if_neg hx]

theorem find_filter_ne (k : α) (es : List (α × β)) (x : α) :
    find (es.filter (fun e => e.1 ≠ k)) x = if x = k then none else find es x := by
  induction es with
  | nil => simp
  | cons e es ih =>
    obtain ⟨a, b⟩ := e
    by_cases ha : a = k
    · rw [List.filter_cons_of_neg (by simp [ha]), ih]
      by_cases hx : x = k
      · simp [hx]
      · rw [if_neg hx, if_neg hx, find_cons_of_ne (by rw [ha]; exact hx)]
    · rw [List.filter_cons_of_pos (by simp [ha])]
      by_cases hxa : x = a
      · simp [hxa, ha]
      · rw [find_cons_of_ne hxa, find_cons_of_ne hxa, ih]

/-- Inserting a key above every key appends it. -/
theorem insertEntry_of_gt {k : α} {v : β} {es : List (α × β)} (h : ∀ x ∈ es, x.1 < k) :
    insertEntry k v es = es ++ [(k, v)] := by
  induction es with
  | nil => rfl
  | cons e es ih =>
    have he := h e (by simp)
    rw [insertEntry, if_neg he.le.not_gt, if_neg he.ne', ih fun x hx => h x (by simp [hx])]
    rfl

/-! ## The finite map -/

/-- A finite map kept as its ascending list of entries. -/
@[ext]
structure SortedMap (α β : Type) [LinearOrder α] where
  entries : List (α × β)
  ascending : Ascending entries

namespace SortedMap

def empty : SortedMap α β := ⟨[], Ascending.nil⟩

def get? (m : SortedMap α β) (k : α) : Option β := find m.entries k

def insert (m : SortedMap α β) (k : α) (v : β) : SortedMap α β :=
  ⟨insertEntry k v m.entries, m.ascending.insertEntry k v⟩

def erase (m : SortedMap α β) (k : α) : SortedMap α β :=
  ⟨m.entries.filter (fun e => e.1 ≠ k), m.ascending.filter _⟩

def keys (m : SortedMap α β) : List α := m.entries.map Prod.fst

@[simp] theorem get?_empty (k : α) : (empty : SortedMap α β).get? k = none := rfl

theorem get?_insert (m : SortedMap α β) (k x : α) (v : β) :
    (m.insert k v).get? x = if x = k then some v else m.get? x :=
  find_insertEntry k v m.entries x

theorem get?_erase (m : SortedMap α β) (k x : α) :
    (m.erase k).get? x = if x = k then none else m.get? x := find_filter_ne k m.entries x

@[simp] theorem get?_insert_self (m : SortedMap α β) (k : α) (v : β) :
    (m.insert k v).get? k = some v := by simp [get?_insert]

theorem get?_insert_ne (m : SortedMap α β) {k x : α} (v : β) (h : x ≠ k) :
    (m.insert k v).get? x = m.get? x := by simp [get?_insert, h]

@[simp] theorem get?_erase_self (m : SortedMap α β) (k : α) : (m.erase k).get? k = none := by
  simp [get?_erase]

theorem get?_erase_ne (m : SortedMap α β) {k x : α} (h : x ≠ k) :
    (m.erase k).get? x = m.get? x := by simp [get?_erase, h]

/-- Maps with the same lookups are equal. -/
theorem ext_get? {m m' : SortedMap α β} (h : ∀ k, m.get? k = m'.get? k) : m = m' :=
  SortedMap.ext (m.ascending.ext m'.ascending h)

@[simp] theorem insert_insert (m : SortedMap α β) (k : α) (v v' : β) : (m.insert k v).insert k v' = m.insert k v' := by
  refine ext_get? fun x => ?_
  simp only [get?_insert]
  split_ifs <;> rfl

@[simp] theorem erase_insert (m : SortedMap α β) (k : α) (v : β) : (m.insert k v).erase k = m.erase k := by
  refine ext_get? fun x => ?_
  simp only [get?_erase, get?_insert]
  split_ifs <;> rfl

theorem mem_keys {m : SortedMap α β} {k : α} : k ∈ m.keys ↔ m.get? k ≠ none := by
  simp only [keys, List.mem_map, get?, find, ne_eq, List.lookup_eq_none_iff, not_forall, bne_iff_ne,
    not_not]
  constructor
  · rintro ⟨e, he, rfl⟩
    exact ⟨e, he, rfl⟩
  · rintro ⟨e, he, rfl⟩
    exact ⟨e, he, rfl⟩

theorem nodup_keys (m : SortedMap α β) : m.keys.Nodup := by
  rw [keys, List.Nodup, List.pairwise_map]
  exact m.ascending.imp fun hlt => ne_of_lt hlt

end SortedMap
end LsmDb.Lib
