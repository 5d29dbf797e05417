import LsmDb.Core.MemTable
import LsmDb.Core.Wire

/-! The records of the write-ahead log (`encode`, `decode` and `replay` of `durability.rs`). The count
and the lengths are cast with `as u32`, so a group of `2 ^ 32` operations would be written with a count
of zero. -/
namespace LsmDb
open Lib
set_option autoImplicit false

def logText : WireText where
  truncated := "log record truncated"
  keyTooLong := "log key length exceeds maximum"
  valueTooLong := "log value length exceeds maximum"
  fatTombstone := "log tombstone with non-zero value length"
  unknownTag := "unknown log record tag"

def encodeLog (ops : List Entry) : Bytes := encodeU32 ops.length ++ ops.flatMap encodeEntry

/-- The `for _ in 0..count` loop of `decode`. -/
def decodeLogLoop : ℕ → Bytes → Except Error (List Entry × Bytes)
  | 0, rest => .ok ([], rest)
  | count + 1, rest => do
    let (op, rest) ← readEntry logText rest
    let (ops, rest) ← decodeLogLoop count rest
    return (op :: ops, rest)

def decodeLog (bytes : Bytes) : Except Error (List Entry) := do
  let (count, rest) ← readU32 logText.truncated bytes
  let (ops, rest) ← decodeLogLoop count rest
  if rest ≠ [] then throw (.corruption "trailing bytes in log record")
  return ops

/-- The body of `replay`: every record in append order. -/
def replayLog (mem : MemTable) : List Bytes → Except Error MemTable
  | [] => .ok mem
  | record :: records => do
    let ops ← decodeLog record
    replayLog (mem.applyAll ops) records

/-! ## Records read back -/

/-- A group of operations the log gives back. -/
structure LogSized (ops : List Entry) : Prop where
  count : ops.length < 2 ^ 32
  sized : ∀ e ∈ ops, e.Sized

theorem decodeLogLoop_eq_readMany (count : ℕ) (rest : Bytes) :
    decodeLogLoop count rest = readMany (readEntry logText) count rest := by
  induction count generalizing rest with
  | zero => rfl
  | succ count ih => simp only [decodeLogLoop, readMany, ih]

/-- A record decodes to a group exactly when it is the group's encoding and no prefix of it was cut by a cast. -/
theorem decodeLog_ok_iff (bytes : Bytes) (ops : List Entry) :
    decodeLog bytes = .ok ops ↔ bytes = encodeLog ops ∧ LogSized ops := by
  have hcount := readU32_exact logText.truncated
  have hloop := readMany_exact (readEntry_exact logText)
  constructor
  · intro h
    obtain ⟨⟨count, rest⟩, hread, h⟩ := bind_eq_ok.mp h
    obtain ⟨⟨ops', rest'⟩, hmany, h⟩ := bind_eq_ok.mp h
    obtain ⟨hend, h⟩ := check_eq_ok h
    obtain rfl := Except.ok.inj h
    obtain rfl : rest' = [] := not_not.mp hend
    obtain ⟨hlt, rfl⟩ := (hcount.ok_iff _ _ _).mp hread
    obtain ⟨⟨rfl, hsized⟩, hrest⟩ := ((hloop count).ok_iff _ _ _).mp ((decodeLogLoop_eq_readMany _ _).symm.trans hmany)
    refine ⟨?_, hlt, hsized⟩
    rw [encodeLog, show rest = ops'.flatMap encodeEntry ++ [] from hrest, List.append_nil]
  · rintro ⟨rfl, hlt, hsized⟩
    have hmany := (hloop ops.length).read_append ⟨rfl, hsized⟩ []
    rw [List.append_nil, ← decodeLogLoop_eq_readMany] at hmany
    simp only [decodeLog, encodeLog, hcount.read_append hlt, bind, Except.bind, hmany, ne_eq, not_true_eq_false,
      ↓reduceIte, pure, Except.pure]

theorem decodeLog_encodeLog {ops : List Entry} (h : LogSized ops) : decodeLog (encodeLog ops) = .ok ops :=
  (decodeLog_ok_iff _ ops).mpr ⟨rfl, h⟩

theorem decodeLog_refused {bytes : Bytes} {err : Error} (h : decodeLog bytes = .error err) : err.IsCorruption := by
  rcases bind_eq_error.mp h with hread | ⟨⟨count, rest⟩, _, h⟩
  · exact (readU32_exact logText.truncated).refused _ _ hread
  · rcases bind_eq_error.mp h with hmany | ⟨⟨ops, rest'⟩, _, h⟩
    · rw [decodeLogLoop_eq_readMany] at hmany
      exact (readMany_exact (readEntry_exact logText) count).refused _ _ hmany
    · by_cases hend : rest' = []
      · simp [hend, pure, Except.pure] at h
      · simp only [ne_eq, hend, not_false_eq_true, if_true] at h
        obtain rfl := Except.error.inj h
        trivial

/-- Replaying a log gives what applying its groups in order gives. -/
theorem replayLog_encodeLog {groups : List (List Entry)} (h : ∀ ops ∈ groups, LogSized ops)
    (mem : MemTable) : replayLog mem (groups.map encodeLog) = .ok (mem.applyAll groups.flatten) := by
  induction groups generalizing mem with
  | nil => rfl
  | cons ops groups ih =>
    have htail := ih (fun x hx => h x (by simp [hx])) (mem.applyAll ops)
    simp only [List.map_cons, replayLog, decodeLog_encodeLog (h ops (by simp)), bind, Except.bind, htail,
      List.flatten_cons, MemTable.applyAll_append]

end LsmDb
