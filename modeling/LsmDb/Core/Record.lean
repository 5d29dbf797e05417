import LsmDb.Lib.LittleEndian
import LsmDb.Lib.Overlay
import Mathlib.Data.List.Lex
import Mathlib.Order.Fin.Basic

/-! The vocabulary of the engine: byte strings, records, errors, batches and the configuration
(`record.rs`, `error.rs`, `batch.rs`, `config.rs`). -/
namespace LsmDb
open Lib
set_option autoImplicit false

abbrev Bytes := Lib.Bytes

/-- A Rust `str`, character by character. -/
abbrev Text := List Char

instance Text.lawfulBEq : LawfulBEq Text := inferInstance

/-! ## Errors -/

/-- What the engine distinguishes of a `std::io::Error`. -/
inductive IoError where
  | notFound
  | other
deriving DecidableEq, Repr

inductive Error where
  | io (context : String) (source : IoError)
  | corruption (reason : String)
deriving DecidableEq, Repr

/-! ## Records -/

/-- What a key maps to in one source. -/
inductive Record where
  | value (v : Bytes)
  | tombstone
deriving DecidableEq, Repr

namespace Record

def valueLen : Record → ℕ
  | value v => v.length
  | tombstone => 0

/-- The live value a record stands for; a tombstone stands for none. -/
def live : Record → Option Bytes
  | value v => some v
  | tombstone => none

@[simp] theorem live_value (v : Bytes) : (value v).live = some v := rfl
@[simp] theorem live_tombstone : tombstone.live = none := rfl

end Record

abbrev Entry := Bytes × Record

/-! ## Batches -/

inductive Op where
  | put (v : Bytes)
  | delete
deriving DecidableEq, Repr

structure Batch where
  ops : List (Bytes × Op)
deriving DecidableEq, Repr

/-- The record an operation of a batch writes. -/
def Op.record : Op → Record
  | put v => .value v
  | delete => .tombstone

/-- `Batch::into_ops` followed by the mapping to records at the head of `Engine::write`. -/
def Batch.entries (b : Batch) : List Entry := b.ops.map fun op => (op.1, op.2.record)

/-! ## Configuration -/

/-- The tuning parameters. The setter is the only way to change the trigger and keeps it at two or
more. -/
structure LsmConfig where
  memtableCapacity : ℕ
  compactionTrigger : ℕ
  blockCacheCapacity : ℕ
  two_le_trigger : 2 ≤ compactionTrigger
deriving DecidableEq

namespace LsmConfig

def default : LsmConfig := ⟨4 * 1024 * 1024, 4, 8 * 1024 * 1024, by decide⟩

def withMemtableCapacity (c : LsmConfig) (bytes : ℕ) : LsmConfig := { c with memtableCapacity := bytes }

/-- Values below two are treated as two. -/
def withCompactionTrigger (c : LsmConfig) (runs : ℕ) : LsmConfig :=
  { c with compactionTrigger := max runs 2, two_le_trigger := Nat.le_max_right _ _ }

end LsmConfig

/-! ## The reference store -/

/-- What the database stands for: a map from keys to live values. -/
abbrev Store := Bytes → Option Bytes

/-- The empty store. -/
def Store.empty : Store := fun _ => none

/-- The store after a group of writes, in call order. -/
def Store.apply (m : Store) (ops : List Entry) : Store := Lib.write Record.live m ops

/-- The answer of a stack of entry lists, newest first. -/
def answer (layers : List (List Entry)) : Store := Lib.resolve Record.live layers

end LsmDb
