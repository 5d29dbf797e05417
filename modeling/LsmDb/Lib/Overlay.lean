import LsmDb.Lib.SortedMap
import Mathlib.Logic.Function.Basic

/-! Stacks of partial maps, newest layer first, in which a record may also say "deleted".

`resolve` answers from the newest layer that holds the key. The lemmas say when a stack may be
rearranged without changing an answer: squashing a suffix into one layer without deletions, adding a
layer whose keys the layer above already holds, writing into the top layer. -/
namespace LsmDb.Lib
set_option autoImplicit false

variable {α ρ β : Type} [LinearOrder α]

/-- The record of the newest layer that holds `k`. -/
def newest (layers : List (List (α × ρ))) (k : α) : Option ρ := layers.findSome? (find · k)

theorem newest_cons (l : List (α × ρ)) (ls : List (List (α × ρ))) (k : α) :
    newest (l :: ls) k = (find l k).or (newest ls k) := by
  simp only [newest, List.findSome?_cons]
  cases find l k <;> rfl

variable (live : ρ → Option β)

/-- The answer of a stack: the newest record's live value, if it has one. -/
def resolve (layers : List (List (α × ρ))) (k : α) : Option β := (newest layers k).bind live

/-- The map after one write: the key takes the live value of its record. -/
def write (m : α → Option β) (ops : List (α × ρ)) : α → Option β :=
  ops.foldl (fun m e => Function.update m e.1 (live e.2)) m

@[simp] theorem write_nil (m : α → Option β) : write live m [] = m := rfl

theorem write_cons (m : α → Option β) (e : α × ρ) (ops : List (α × ρ)) :
    write live m (e :: ops) = write live (Function.update m e.1 (live e.2)) ops := rfl

theorem write_of_notMem {ops : List (α × ρ)} {k : α} (h : k ∉ ops.map Prod.fst) (m : α → Option β) :
    write live m ops k = m k := by
  induction ops generalizing m with
  | nil => rfl
  | cons e ops ih =>
    simp only [List.map_cons, List.mem_cons, not_or] at h
    rw [write_cons, ih h.2, Function.update_of_ne h.1]

/-- What a key that is written holds afterwards does not depend on the map before. -/
theorem write_of_mem {ops : List (α × ρ)} {k : α} (h : k ∈ ops.map Prod.fst) (m m' : α → Option β) :
    write live m ops k = write live m' ops k := by
  induction ops generalizing m m' with
  | nil => simp at h
  | cons e ops ih =>
    rw [write_cons, write_cons]
    by_cases hk : k ∈ ops.map Prod.fst
    · exact ih hk _ _
    · have he : k = e.1 := by simpa [hk] using h
      subst he
      rw [write_of_notMem live hk, write_of_notMem live hk, Function.update_self, Function.update_self]

@[simp] theorem resolve_nil (k : α) : resolve live ([] : List (List (α × ρ))) k = none := rfl

theorem resolve_cons (l : List (α × ρ)) (ls : List (List (α × ρ))) (k : α) :
    resolve live (l :: ls) k = match find l k with
      | some r => live r
      | none => resolve live ls k := by
  rw [resolve, newest_cons]
  cases find l k <;> rfl

theorem resolve_cons_some {l : List (α × ρ)} {k : α} {r : ρ} (h : find l k = some r)
    (ls : List (List (α × ρ))) : resolve live (l :: ls) k = live r := by
  rw [resolve_cons, h]

theorem resolve_cons_none {l : List (α × ρ)} {k : α} (h : find l k = none)
    (ls : List (List (α × ρ))) : resolve live (l :: ls) k = resolve live ls k := by
  rw [resolve_cons, h]

@[simp] theorem resolve_nil_cons (ls : List (List (α × ρ))) (k : α) :
    resolve live ([] :: ls) k = resolve live ls k := resolve_cons_none live rfl ls

/-- Layers that answer alike may be exchanged below any front. -/
theorem resolve_append_congr (front : List (List (α × ρ))) {xs ys : List (List (α × ρ))}
    (h : resolve live xs = resolve live ys) :
    resolve live (front ++ xs) = resolve live (front ++ ys) := by
  induction front with
  | nil => exact h
  | cons l front ih =>
    funext k
    simp only [List.cons_append, resolve_cons]
    cases find l k with
    | some r => rfl
    | none => exact congrFun ih k

/-- A layer whose keys the layer above holds changes no answer. -/
theorem resolve_shadowed {l m : List (α × ρ)} (ls : List (List (α × ρ)))
    (h : ∀ k, find l k = none → find m k = none) :
    resolve live (l :: m :: ls) = resolve live (l :: ls) := by
  funext k
  cases hl : find l k with
  | some r => rw [resolve_cons_some live hl, resolve_cons_some live hl]
  | none => rw [resolve_cons_none live hl, resolve_cons_none live hl, resolve_cons_none live (h k hl)]

/-! ## Writing into the top layer -/

/-- Apply writes to a layer in call order. -/
def insertAll (ops : List (α × ρ)) (l : List (α × ρ)) : List (α × ρ) :=
  ops.foldl (fun l e => insertEntry e.1 e.2 l) l

theorem insertAll_cons (e : α × ρ) (ops l : List (α × ρ)) :
    insertAll (e :: ops) l = insertAll ops (insertEntry e.1 e.2 l) := rfl

theorem insertAll_append (xs ys l : List (α × ρ)) :
    insertAll (xs ++ ys) l = insertAll ys (insertAll xs l) := List.foldl_append

theorem Ascending.insertAll {l : List (α × ρ)} (h : Ascending l) (ops : List (α × ρ)) :
    Ascending (insertAll ops l) := by
  induction ops generalizing l with
  | nil => exact h
  | cons e ops ih => exact ih (h.insertEntry e.1 e.2)

/-- Writes above everything, in ascending order, are appended. -/
theorem insertAll_of_ascending {ops l : List (α × ρ)} (h : Ascending (l ++ ops)) : insertAll ops l = l ++ ops := by
  induction ops generalizing l with
  | nil => exact (List.append_nil l).symm
  | cons e ops ih =>
    have hgt : ∀ x ∈ l, x.1 < e.1 := fun x hx => (List.pairwise_append.mp h).2.2 x hx e (by simp)
    rw [insertAll_cons, insertEntry_of_gt hgt, ih (by simpa using h), List.append_assoc]
    rfl

theorem mem_insertAll {ops l : List (α × ρ)} {x : α × ρ} (h : x ∈ insertAll ops l) :
    x ∈ ops ∨ x ∈ l := by
  induction ops generalizing l with
  | nil => exact Or.inr h
  | cons e ops ih =>
    rcases ih h with h | h
    · exact Or.inl (List.mem_cons_of_mem _ h)
    · rcases mem_insertEntry h with rfl | h
      · exact Or.inl (by simp)
      · exact Or.inr h

theorem resolve_insertEntry (k : α) (r : ρ) (l : List (α × ρ)) (ls : List (List (α × ρ))) :
    resolve live (insertEntry k r l :: ls) =
      Function.update (resolve live (l :: ls)) k (live r) := by
  funext x
  by_cases hx : x = k
  · subst hx
    rw [Function.update_self, resolve_cons_some live (by rw [find_insertEntry, if_pos rfl])]
  · rw [Function.update_of_ne hx, resolve_cons, resolve_cons, find_insertEntry, if_neg hx]

theorem resolve_insertAll (ops l : List (α × ρ)) (ls : List (List (α × ρ))) :
    resolve live (insertAll ops l :: ls) = write live (resolve live (l :: ls)) ops := by
  induction ops generalizing l with
  | nil => rfl
  | cons e ops ih => rw [insertAll_cons, ih, resolve_insertEntry, write_cons]

theorem find_insertAll_none {ops l : List (α × ρ)} {k : α}
    (h : find (insertAll ops l) k = none) : find l k = none := by
  induction ops generalizing l with
  | nil => exact h
  | cons e ops ih =>
    have hk := ih h
    rw [find_insertEntry] at hk
    split_ifs at hk
    exact hk

theorem find_insertAll_of_mem {ops l : List (α × ρ)} {e : α × ρ} (h : e ∈ ops) :
    find (insertAll ops l) e.1 ≠ none := by
  induction ops generalizing l with
  | nil => simp at h
  | cons x ops ih =>
    rcases List.mem_cons.mp h with rfl | h
    · intro hn
      have hk : find (insertEntry e.1 e.2 l) e.1 = none := find_insertAll_none hn
      rw [find_insertEntry, if_pos rfl] at hk
      simp at hk
    · exact ih h

theorem find_insertAll_notMem {ops l : List (α × ρ)} {k : α} (h : k ∉ ops.map Prod.fst) :
    find (insertAll ops l) k = find l k := by
  induction ops generalizing l with
  | nil => rfl
  | cons e ops ih =>
    simp only [List.map_cons, List.mem_cons, not_or] at h
    rw [insertAll_cons, ih h.2, find_insertEntry, if_neg h.1]

/-! ## Squashing -/

/-- A layer that holds exactly the answers of a stack, as live records, answers like the stack. -/
theorem resolve_squash {out : List (α × ρ)} {ls : List (List (α × ρ))} {mk : β → ρ}
    (hlive : ∀ v, live (mk v) = some v)
    (hout : ∀ k, find out k = (resolve live ls k).map mk) :
    resolve live [out] = resolve live ls := by
  funext k
  rw [resolve_cons, hout]
  cases resolve live ls k with
  | none => rfl
  | some v => exact hlive v

end LsmDb.Lib
