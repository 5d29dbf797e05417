import LsmDb.Core.Record

/-! The third-party crates the engine calls, as parameters: `crc32c`, `bloom-lib` with `postcard`, and
`wal-db`. A checksum may be any function of the bytes. What is relied on of a bloom filter is stated in
`BloomLaws`, and what is relied on of a log stands with its operations: a log that was just created is
empty, it takes a record up to a maximum size and refuses a longer one, and it gives back the records it
took, in order. -/
namespace LsmDb
set_option autoImplicit false

class Deps where
  /-- `crc32c::crc32c`. -/
  checksum : Bytes → Fin (2 ^ 32)
  /-- `bloom_lib::BloomFilter<[u8]>`. -/
  BloomFilter : Type
  /-- `BloomFilter::new(capacity, FALSE_POSITIVE_RATE).ok()`. -/
  bloomNew : ℕ → Option BloomFilter
  bloomInsert : BloomFilter → Bytes → BloomFilter
  bloomContains : BloomFilter → Bytes → Bool
  /-- `postcard::to_allocvec(&filter).ok()`. -/
  toAllocvec : BloomFilter → Option Bytes
  /-- `postcard::from_bytes(payload).ok()`. -/
  fromBytes : Bytes → Option BloomFilter
  /-- The file of a `wal_db::Wal`. -/
  Wal : Type
  /-- `Wal::open` where there is no file. -/
  walNew : Wal
  /-- `append_and_sync(record).ok()`, with the log it leaves. -/
  walAppend : Wal → Bytes → Option Wal
  /-- The records of `iter()`. -/
  walIter : Wal → List Bytes
  /-- The longest record `wal-db` takes. -/
  walMaxRecord : ℕ
  walIter_new : walIter walNew = []
  walAppend_isSome : ∀ log record, (walAppend log record).isSome = true ↔ record.length ≤ walMaxRecord
  walIter_append : ∀ log record log', walAppend log record = some log' → walIter log' = walIter log ++ [record]

attribute [simp] Deps.walIter_new

/-! ## A concrete choice -/

/-- One byte through the reflected CRC32C register. -/
def crcByte (crc : ℕ) : ℕ :=
  (List.range 8).foldl (fun c _ => if c % 2 = 1 then (c / 2) ^^^ 0x82F63B78 else c / 2) crc

/-- CRC32C itself, a filter with one hash of eight bits that serialises to its own table, and a log that is the list
of its records, of at most 64 MiB each. -/
@[reducible] def Deps.concrete : Deps where
  checksum b := Fin.ofNat (2 ^ 32)
    ((b.foldl (fun c x => crcByte (c ^^^ x.val)) 0xFFFFFFFF) ^^^ 0xFFFFFFFF)
  BloomFilter := Bytes
  bloomNew _ := some []
  bloomInsert f k := k.foldl (· + ·) 0 :: f
  bloomContains f k := k.foldl (· + ·) 0 ∈ f
  toAllocvec f := some f
  fromBytes b := some b
  Wal := List Bytes
  walNew := []
  walAppend log record := if record.length ≤ 67108864 then some (log ++ [record]) else none
  walIter log := log
  walMaxRecord := 67108864
  walIter_new := rfl
  walAppend_isSome log record := by split_ifs with h <;> simp [h]
  walIter_append log record log' h := by
    split_ifs at h
    exact (Option.some.inj h).symm

variable [Deps]

def crc32c (b : Bytes) : ℕ := (Deps.checksum b).val

theorem crc32c_lt (b : Bytes) : crc32c b < 2 ^ 32 := (Deps.checksum b).isLt

/-- What the engine relies on of `bloom-lib` and `postcard`: an inserted key is contained from then on,
a filter can be serialised, and its bytes read back as a filter that contains the same keys. -/
structure BloomLaws : Prop where
  contains_insert_self : ∀ f k, Deps.bloomContains (Deps.bloomInsert f k) k = true
  contains_insert : ∀ f k x, Deps.bloomContains f x = true →
    Deps.bloomContains (Deps.bloomInsert f k) x = true
  toAllocvec_isSome : ∀ f, (Deps.toAllocvec f).isSome
  fromBytes_toAllocvec : ∀ f b, Deps.toAllocvec f = some b →
    ∃ g, Deps.fromBytes b = some g ∧ ∀ x, Deps.bloomContains g x = Deps.bloomContains f x

omit [Deps] in
theorem concrete_laws : @BloomLaws Deps.concrete :=
  let _ := Deps.concrete
  { contains_insert_self := fun (f : Bytes) k => by
      show decide (k.foldl (· + ·) 0 ∈ k.foldl (· + ·) 0 :: f) = true
      simp
    contains_insert := fun (f : Bytes) k x (h : decide (x.foldl (· + ·) 0 ∈ f) = true) => by
      show decide (x.foldl (· + ·) 0 ∈ k.foldl (· + ·) 0 :: f) = true
      rw [decide_eq_true_eq] at h ⊢
      exact List.mem_cons_of_mem _ h
    toAllocvec_isSome := fun f => rfl
    fromBytes_toAllocvec := fun f b h => ⟨b, rfl, fun x => by rw [Option.some.inj h]⟩ }

/-- The records of the log, which may not have been created yet. -/
def logRecords (wal : Option Deps.Wal) : List Bytes := wal.elim [] Deps.walIter

@[simp] theorem logRecords_none : logRecords none = [] := rfl

@[simp] theorem logRecords_some (log : Deps.Wal) : logRecords (some log) = Deps.walIter log := rfl

/-- Opening a log creates it, or keeps what is there. -/
@[simp] theorem walIter_getD (wal : Option Deps.Wal) : Deps.walIter (wal.getD Deps.walNew) = logRecords wal := by
  cases wal with
  | none => exact Deps.walIter_new
  | some log => rfl

end LsmDb
