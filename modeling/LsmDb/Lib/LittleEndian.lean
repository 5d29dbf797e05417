import Mathlib.Data.Nat.Basic
import Mathlib.Tactic.Ring

/-! Little-endian fixed-width integers as lists of bytes. `leBytes w n` keeps the low `w` bytes of
`n`, so it is also what a truncating cast followed by a write produces. -/
namespace LsmDb.Lib
set_option autoImplicit false

abbrev Byte := Fin 256
abbrev Bytes := List Byte

instance neZero256 : NeZero 256 := ⟨by decide⟩

/-- The low `w` bytes of `n`, least significant first. -/
def leBytes : ℕ → ℕ → Bytes
  | 0, _ => []
  | w + 1, n => Fin.ofNat 256 n :: leBytes w (n / 256)

/-- The number a little-endian byte list stands for. -/
def leValue : Bytes → ℕ
  | [] => 0
  | b :: bs => b.val + 256 * leValue bs

@[simp] theorem leBytes_length (w n : ℕ) : (leBytes w n).length = w := by
  induction w generalizing n with
  | zero => rfl
  | succ w ih => simp [leBytes, ih]

theorem leValue_leBytes (w n : ℕ) : leValue (leBytes w n) = n % 256 ^ w := by
  induction w generalizing n with
  | zero => simp [leBytes, leValue, Nat.mod_one]
  | succ w ih =>
    have h := Nat.mod_mul (x := n) (a := 256) (b := 256 ^ w)
    rw [leBytes, leValue, ih, pow_succ, Nat.mul_comm (256 ^ w) 256, h]
    rfl

theorem leValue_leBytes_of_lt {w n : ℕ} (h : n < 256 ^ w) : leValue (leBytes w n) = n := by
  rw [leValue_leBytes, Nat.mod_eq_of_lt h]

theorem leBytes_leValue (bs : Bytes) : leBytes bs.length (leValue bs) = bs := by
  induction bs with
  | nil => rfl
  | cons b bs ih =>
    have hb := b.isLt
    have hhead : Fin.ofNat 256 (b.val + 256 * leValue bs) = b := by
      apply Fin.ext
      change (b.val + 256 * leValue bs) % 256 = b.val
      omega
    have htail : (b.val + 256 * leValue bs) / 256 = leValue bs := by omega
    rw [leValue, List.length_cons, leBytes, hhead, htail, ih]

end LsmDb.Lib
