import Mathlib.Data.Nat.Notation
import Mathlib.Logic.Function.Basic
import Mathlib.Tactic.SplitIfs

/-! Monitors: threads that share a mutex and a condition variable. A thread is at a point of its code; some points are
reached only with the mutex in hand, and a sleeper that is woken goes on at the point where it takes the mutex again. -/
namespace LsmDb.Lib
set_option autoImplicit false

class Points (Pc : Type) where
  holds : Pc → Bool
  /-- Where a sleeper goes on; any other thread stays where it is. -/
  wake : Pc → Pc
  holds_wake : ∀ p, holds (wake p) = holds p

structure Monitor (Pc : Type) where
  mutex : Option ℕ
  pc : ℕ → Pc

namespace Monitor
variable {Pc : Type} {m m' : Monitor Pc} {t : ℕ} {p : Pc}

/-- A thread takes the mutex, if it is free. -/
def acquire (m : Monitor Pc) (t : ℕ) (p : Pc) : Option (Monitor Pc) :=
  if m.mutex = none then some ⟨some t, Function.update m.pc t p⟩ else none

/-- A thread goes on to another point. -/
def move (m : Monitor Pc) (t : ℕ) (p : Pc) : Monitor Pc := ⟨m.mutex, Function.update m.pc t p⟩

def release (m : Monitor Pc) (t : ℕ) (p : Pc) : Monitor Pc := ⟨none, Function.update m.pc t p⟩

/-- Wake all sleepers. -/
def notifyAll [Points Pc] (m : Monitor Pc) : Monitor Pc := ⟨m.mutex, fun t => Points.wake (m.pc t)⟩

@[simp] theorem move_pc : (m.move t p).pc = Function.update m.pc t p := rfl
@[simp] theorem move_mutex : (m.move t p).mutex = m.mutex := rfl
@[simp] theorem release_pc : (m.release t p).pc = Function.update m.pc t p := rfl
@[simp] theorem release_mutex : (m.release t p).mutex = none := rfl
@[simp] theorem notifyAll_pc [Points Pc] (t : ℕ) : m.notifyAll.pc t = Points.wake (m.pc t) := rfl
@[simp] theorem notifyAll_mutex [Points Pc] : m.notifyAll.mutex = m.mutex := rfl

theorem acquire_eq (h : m.acquire t p = some m') : m.mutex = none ∧ m' = ⟨some t, Function.update m.pc t p⟩ := by
  unfold acquire at h
  split_ifs at h with hfree
  exact ⟨hfree, (Option.some.inj h).symm⟩

variable [Points Pc]

/-- The thread that has the mutex is the one that is at a point where it holds it. -/
def Exclusive (m : Monitor Pc) : Prop := ∀ t, m.mutex = some t ↔ Points.holds (m.pc t) = true

theorem Exclusive.acquire (h : m.Exclusive) (ha : m.acquire t p = some m') (hp : Points.holds p = true) :
    m'.Exclusive := by
  obtain ⟨hfree, rfl⟩ := acquire_eq ha
  intro t'
  by_cases ht : t' = t
  · subst ht
    simp [hp]
  · have hnone := h t'
    rw [hfree] at hnone
    simpa [Function.update_of_ne ht, Ne.symm ht] using hnone

theorem Exclusive.move (h : m.Exclusive) (hp : Points.holds p = Points.holds (m.pc t)) : (m.move t p).Exclusive := by
  intro t'
  by_cases ht : t' = t
  · subst ht
    simp [hp, h t']
  · simp [Function.update_of_ne ht, h t']

theorem Exclusive.release (h : m.Exclusive) (hmine : Points.holds (m.pc t) = true) (hp : Points.holds p = false) :
    (m.release t p).Exclusive := by
  intro t'
  by_cases ht : t' = t
  · subst ht
    simp [hp]
  · have hother := h t'
    rw [(h t).mpr hmine] at hother
    simpa [Function.update_of_ne ht, Ne.symm ht] using hother

theorem Exclusive.notifyAll (h : m.Exclusive) : m.notifyAll.Exclusive := fun t => by
  rw [notifyAll_mutex, notifyAll_pc, Points.holds_wake]
  exact h t

end Monitor
end LsmDb.Lib
