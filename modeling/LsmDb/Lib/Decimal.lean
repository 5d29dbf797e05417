import Mathlib.Data.Nat.Basic
import Mathlib.Tactic.IntervalCases

/-! Decimal text of natural numbers, as printed and as parsed back. -/
namespace LsmDb.Lib
set_option autoImplicit false

/-- The digits of `n`, most significant first, without leading zeros. -/
def decimal (n : ℕ) : List Char := Nat.toDigits 10 n

/-- Fold digits into a number; anything but a digit is refused. -/
def digitsFrom : ℕ → List Char → Option ℕ
  | acc, [] => some acc
  | acc, c :: cs => if c.isDigit then digitsFrom (10 * acc + (c.toNat - 48)) cs else none

def stripPlus : List Char → List Char
  | '+' :: rest => rest
  | text => text

/-- A `u64` as text: an optional plus sign, at least one digit, no overflow. -/
def parseU64 (text : List Char) : Option ℕ :=
  let digits := stripPlus text
  if digits = [] then none
  else (digitsFrom 0 digits).filter (· < 2 ^ 64)

theorem digitChar_isDigit {d : ℕ} (h : d < 10) : (Nat.digitChar d).isDigit = true := by
  interval_cases d <;> rfl

theorem digitChar_toNat {d : ℕ} (h : d < 10) : (Nat.digitChar d).toNat - 48 = d := by
  interval_cases d <;> rfl

theorem digitsFrom_append (acc : ℕ) (xs ys : List Char) :
    digitsFrom acc (xs ++ ys) = (digitsFrom acc xs).bind fun n => digitsFrom n ys := by
  induction xs generalizing acc with
  | nil => rfl
  | cons c cs ih =>
    simp only [List.cons_append, digitsFrom]
    split_ifs
    · exact ih _
    · rfl

theorem digitsFrom_zeros (k : ℕ) (cs : List Char) :
    digitsFrom 0 (List.replicate k '0' ++ cs) = digitsFrom 0 cs := by
  induction k with
  | zero => rfl
  | succ k ih =>
    rw [List.replicate_succ, List.cons_append, digitsFrom, if_pos (by rfl)]
    exact ih

theorem digitsFrom_decimal (n : ℕ) : digitsFrom 0 (decimal n) = some n := by
  induction n using Nat.strong_induction_on with
  | _ n ih =>
    unfold decimal
    rw [Nat.toDigits_eq_if (by omega)]
    split_ifs with h
    · simp only [digitsFrom, digitChar_isDigit h, ↓reduceIte, digitChar_toNat h]
      rw [Nat.mul_zero, Nat.zero_add]
    · have hrec := ih (n / 10) (by omega)
      unfold decimal at hrec
      have hd : n % 10 < 10 := Nat.mod_lt _ (by omega)
      rw [digitsFrom_append, hrec]
      simp only [Option.bind_some, digitsFrom, digitChar_isDigit hd, ↓reduceIte, digitChar_toNat hd]
      rw [Nat.div_add_mod]

theorem decimal_ne_nil (n : ℕ) : decimal n ≠ [] := Nat.toDigits_ne_nil

theorem decimal_isDigit (n : ℕ) : ∀ c ∈ decimal n, c.isDigit = true := by
  induction n using Nat.strong_induction_on with
  | _ n ih =>
    intro c hc
    unfold decimal at hc
    rw [Nat.toDigits_eq_if (by omega)] at hc
    split_ifs at hc with h
    · rw [List.mem_singleton.mp hc]
      exact digitChar_isDigit h
    · rcases List.mem_append.mp hc with hc | hc
      · exact ih (n / 10) (by omega) c hc
      · rw [List.mem_singleton.mp hc]
        exact digitChar_isDigit (Nat.mod_lt _ (by omega))

/-- Leading zeros are read as nothing. -/
theorem parseU64_decimal {n : ℕ} (h : n < 2 ^ 64) (k : ℕ) :
    parseU64 (List.replicate k '0' ++ decimal n) = some n := by
  have hdigit : ∀ c ∈ List.replicate k '0' ++ decimal n, c.isDigit = true := by
    intro c hc
    rcases List.mem_append.mp hc with hc | hc
    · rw [(List.mem_replicate.mp hc).2]
      rfl
    · exact decimal_isDigit n c hc
  have hne : List.replicate k '0' ++ decimal n ≠ [] := by
    intro hnil
    exact decimal_ne_nil n (List.append_eq_nil_iff.mp hnil).2
  have hvalue : digitsFrom 0 (List.replicate k '0' ++ decimal n) = some n := by
    rw [digitsFrom_zeros, digitsFrom_decimal]
  generalize List.replicate k '0' ++ decimal n = text at hdigit hne hvalue
  have hstrip : stripPlus text = text := by
    unfold stripPlus
    split
    · have hplus := hdigit '+' (by simp)
      simp [Char.isDigit] at hplus
    · rfl
  unfold parseU64
  simp only [hstrip, hne, ↓reduceIte, hvalue]
  simpa [Option.filter] using h

end LsmDb.Lib
