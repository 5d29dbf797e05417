import LsmDb.Core.Record
import LsmDb.Lib.Codec

/-! The length-prefixed entry encoding shared by data blocks (`sstable.rs`) and log records
(`durability.rs`): `key_len u32 · key · tag u8 · val_len u32 · value`.

Both files read the fields in the same order with the same checks and differ only in the texts of
their errors, so the reader takes the texts as a parameter. Where the source keeps a position into a
slice, a reader here keeps the bytes from that position on; the sum of a position and a length never
overflows a `usize`, so the overflow branch of the source has no counterpart. -/
namespace LsmDb
open Lib
set_option autoImplicit false

/-- Cap on a length prefix read back from disk. -/
def MAX_RECORD_LEN : ℕ := 2 ^ 30
def TAG_VALUE : Byte := 0
def TAG_TOMBSTONE : Byte := 1

/-! ## Writing -/

def encodeU32 (n : ℕ) : Bytes := leBytes 4 n
def encodeU64 (n : ℕ) : Bytes := leBytes 8 n

/-- The tag, length and bytes of a record. -/
def encodeRecord : Record → Bytes
  | .value v => TAG_VALUE :: (encodeU32 v.length ++ v)
  | .tombstone => TAG_TOMBSTONE :: encodeU32 0

def encodeEntry (e : Entry) : Bytes := encodeU32 e.1.length ++ e.1 ++ encodeRecord e.2

/-! ## Reading -/

/-- The texts one decoder attaches to its errors. -/
structure WireText where
  truncated : String
  keyTooLong : String
  valueTooLong : String
  fatTombstone : String
  unknownTag : String

def readBytes (truncated : String) (n : ℕ) (rest : Bytes) : Except Error (Bytes × Bytes) :=
  if n ≤ rest.length then .ok (rest.take n, rest.drop n) else .error (.corruption truncated)

def readU8 (truncated : String) : Bytes → Except Error (Byte × Bytes)
  | [] => .error (.corruption truncated)
  | b :: rest => .ok (b, rest)

def readU32 (truncated : String) (rest : Bytes) : Except Error (ℕ × Bytes) := do
  let (b, rest) ← readBytes truncated 4 rest
  return (leValue b, rest)

def readU64 (truncated : String) (rest : Bytes) : Except Error (ℕ × Bytes) := do
  let (b, rest) ← readBytes truncated 8 rest
  return (leValue b, rest)

/-- A `u32` length prefix that must not exceed the cap. -/
def readLen (truncated tooLong : String) (rest : Bytes) : Except Error (ℕ × Bytes) := do
  let (n, rest) ← readU32 truncated rest
  if n > MAX_RECORD_LEN then .error (.corruption tooLong)
  return (n, rest)

/-- Match on the tag once the value length is known. -/
def readRecord (t : WireText) (tag : Byte) (valLen : ℕ) (rest : Bytes) :
    Except Error (Record × Bytes) :=
  if tag = TAG_VALUE then do
    let (v, rest) ← readBytes t.truncated valLen rest
    return (.value v, rest)
  else if tag = TAG_TOMBSTONE then
    if valLen ≠ 0 then .error (.corruption t.fatTombstone) else .ok (.tombstone, rest)
  else .error (.corruption t.unknownTag)

/-- One entry off the front. -/
def readEntry (t : WireText) (rest : Bytes) : Except Error (Entry × Bytes) := do
  let (keyLen, rest) ← readLen t.truncated t.keyTooLong rest
  let (key, rest) ← readBytes t.truncated keyLen rest
  let (tag, rest) ← readU8 t.truncated rest
  let (valLen, rest) ← readLen t.truncated t.valueTooLong rest
  let (record, rest) ← readRecord t tag valLen rest
  return ((key, record), rest)

/-! ## Sizes -/

/-- Key and value lengths fit a `u32` prefix. -/
def Entry.FitsU32 (e : Entry) : Prop := e.1.length < 2 ^ 32 ∧ e.2.valueLen < 2 ^ 32

/-- Key and value lengths are within the cap the decoders enforce. -/
def Entry.Sized (e : Entry) : Prop := e.1.length ≤ MAX_RECORD_LEN ∧ e.2.valueLen ≤ MAX_RECORD_LEN

instance (e : Entry) : Decidable e.FitsU32 := inferInstanceAs (Decidable (_ ∧ _))
instance (e : Entry) : Decidable e.Sized := inferInstanceAs (Decidable (_ ∧ _))

theorem Entry.Sized.fitsU32 {e : Entry} (h : e.Sized) : e.FitsU32 := by
  obtain ⟨hk, hv⟩ := h
  unfold MAX_RECORD_LEN at hk hv
  exact ⟨by omega, by omega⟩

@[simp] theorem encodeU32_length (n : ℕ) : (encodeU32 n).length = 4 := leBytes_length 4 n
@[simp] theorem encodeU64_length (n : ℕ) : (encodeU64 n).length = 8 := leBytes_length 8 n

theorem leValue_encodeU32 {n : ℕ} (h : n < 2 ^ 32) : leValue (encodeU32 n) = n :=
  leValue_leBytes_of_lt (by simpa using h)

theorem leValue_encodeU64 {n : ℕ} (h : n < 2 ^ 64) : leValue (encodeU64 n) = n :=
  leValue_leBytes_of_lt (by simpa using h)

theorem encodeRecord_length (r : Record) : (encodeRecord r).length = 5 + r.valueLen := by
  cases r with
  | value v =>
    simp only [encodeRecord, List.length_cons, List.length_append, encodeU32_length, Record.valueLen]
    omega
  | tombstone => simp [encodeRecord, Record.valueLen]

theorem encodeEntry_length (e : Entry) :
    (encodeEntry e).length = 9 + e.1.length + e.2.valueLen := by
  simp only [encodeEntry, List.length_append, encodeU32_length, encodeRecord_length]
  omega

/-! ## Exactness -/

def Error.IsCorruption : Error → Prop
  | .corruption _ => True
  | .io _ _ => False

theorem readBytes_exact (msg : String) (n : ℕ) :
    Exact (readBytes msg n) id (fun b => b.length = n) Error.IsCorruption where
  ok_iff bytes b rest := by
    unfold readBytes
    split_ifs with hle
    · simp only [Except.ok.injEq, Prod.mk.injEq, id_eq]
      constructor
      · rintro ⟨rfl, rfl⟩
        exact ⟨by simpa using hle, (List.take_append_drop n bytes).symm⟩
      · rintro ⟨rfl, rfl⟩
        simp
    · simp only [false_iff, not_and]
      rintro rfl rfl
      simp at hle
  refused bytes err h := by
    unfold readBytes at h
    split_ifs at h
    obtain rfl := Except.error.inj h
    trivial

theorem readU8_exact (msg : String) : Exact (readU8 msg) (fun b => [b]) (fun _ => True) Error.IsCorruption where
  ok_iff bytes b rest := by
    cases bytes with
    | nil => simp [readU8]
    | cons c bytes => simp [readU8]
  refused bytes err h := by
    cases bytes with
    | nil =>
      obtain rfl := Except.error.inj h
      trivial
    | cons c bytes => cases h

/-- A number of `w` bytes. -/
theorem readNumber_exact (msg : String) (w : ℕ) :
    Exact (fun bytes => readBytes msg w bytes >>= fun x => .ok (leValue x.1, x.2)) (leBytes w) (fun n => n < 256 ^ w)
      Error.IsCorruption := by
  have hun : ∀ b : Bytes, b.length = w → leBytes w (leValue b) = b := by
    rintro b rfl
    exact leBytes_leValue b
  refine ((readBytes_exact msg w).map leValue (leBytes w) hun).congr (fun _ => rfl) (fun n => ?_) fun _ _ => rfl
  rw [leBytes_length, eq_self, true_and, leValue_leBytes]
  constructor
  · exact Nat.mod_eq_of_lt
  · intro h
    rw [← h]
    exact Nat.mod_lt n (Nat.pow_pos (by omega))

theorem readU32_exact (msg : String) : Exact (readU32 msg) encodeU32 (fun n => n < 2 ^ 32) Error.IsCorruption :=
  readNumber_exact msg 4

theorem readU64_exact (msg : String) : Exact (readU64 msg) encodeU64 (fun n => n < 2 ^ 64) Error.IsCorruption :=
  readNumber_exact msg 8

theorem readLen_exact (msg tooLong : String) :
    Exact (readLen msg tooLong) encodeU32 (fun n => n ≤ MAX_RECORD_LEN) Error.IsCorruption := by
  refine ((readU32_exact msg).guard (fun n => n > MAX_RECORD_LEN)
    (show Error.IsCorruption (.corruption tooLong) from trivial)).congr
    (fun bytes => ?_) (fun n => ?_) fun _ _ => rfl
  · unfold readLen
    cases readU32 msg bytes with
    | error err => rfl
    | ok x =>
      simp only [bind, Except.bind]
      split_ifs <;> rfl
  · unfold MAX_RECORD_LEN
    omega

def Record.tag : Record → Byte
  | .value _ => TAG_VALUE
  | .tombstone => TAG_TOMBSTONE

/-- The bytes a record's length counts. -/
def Record.body : Record → Bytes
  | .value v => v
  | .tombstone => []

theorem encodeRecord_parts (r : Record) : encodeRecord r = [r.tag] ++ (encodeU32 r.valueLen ++ r.body) := by
  cases r with
  | value v => rfl
  | tombstone => simp [encodeRecord, Record.tag, Record.valueLen, Record.body]

theorem readRecord_exact (t : WireText) (tag : Byte) (n : ℕ) :
    Exact (readRecord t tag n) Record.body (fun r => r.tag = tag ∧ r.valueLen = n) Error.IsCorruption := by
  unfold readRecord
  split_ifs with hv ht hn
  · -- a value
    subst hv
    have hwrap := (readBytes_exact t.truncated n).map Record.value Record.body fun _ _ => rfl
    refine hwrap.congr (fun _ => rfl) (fun r => ?_) fun _ _ => rfl
    cases r with
    | value v => simp [Record.tag, Record.body, Record.valueLen]
    | tombstone => simp [Record.tag, Record.body, TAG_TOMBSTONE, TAG_VALUE]
  · refine ⟨fun bytes r rest => ?_, fun bytes err h => ?_⟩
    · subst ht
      simp only [reduceCtorEq, false_iff, not_and]
      rintro ⟨htag, hlen⟩
      cases r with
      | value v => exact absurd (show TAG_VALUE = TAG_TOMBSTONE from htag) (by decide)
      | tombstone => exact absurd hlen.symm hn
    · obtain rfl := Except.error.inj h
      trivial
  · -- a tombstone
    subst ht
    rw [not_not] at hn
    subst hn
    refine ⟨fun bytes r rest => ?_, fun bytes err h => by cases h⟩
    rw [Except.ok.injEq, Prod.mk.injEq]
    constructor
    · rintro ⟨rfl, rfl⟩
      exact ⟨⟨rfl, rfl⟩, rfl⟩
    · rintro ⟨⟨htag, _⟩, hbytes⟩
      cases r with
      | value v => exact absurd (show TAG_VALUE = TAG_TOMBSTONE from htag) (by decide)
      | tombstone => exact ⟨rfl, hbytes⟩
  · refine ⟨fun bytes r rest => ?_, fun bytes err h => ?_⟩
    · simp only [reduceCtorEq, false_iff, not_and]
      rintro ⟨rfl, _⟩
      cases r with
      | value v => exact absurd rfl hv
      | tombstone => exact absurd rfl ht
    · obtain rfl := Except.error.inj h
      trivial

/-- The reader of an entry, from its last field to its first. -/
theorem readEntry_exact (t : WireText) : Exact (readEntry t) encodeEntry Entry.Sized Error.IsCorruption := by
  have hrecord : ∀ tag, Exact (fun bytes => readLen t.truncated t.valueTooLong bytes >>= fun x => readRecord t tag x.1 x.2)
      (fun r => encodeU32 r.valueLen ++ r.body) (fun r => r.valueLen ≤ MAX_RECORD_LEN ∧ r.tag = tag)
      Error.IsCorruption := fun tag =>
    (readLen_exact t.truncated t.valueTooLong).bind Record.valueLen fun n _ => readRecord_exact t tag n
  have htagged := (readU8_exact t.truncated).bind Record.tag fun tag _ => hrecord tag
  have hkeyed : ∀ key : Bytes, Exact (fun bytes =>
        (readU8 t.truncated bytes >>= fun x => readLen t.truncated t.valueTooLong x.2 >>= fun y => readRecord t x.1 y.1 y.2)
          >>= fun z => .ok (((key, z.1) : Entry), z.2))
      (fun e => encodeRecord e.2) (fun e => e.2.valueLen ≤ MAX_RECORD_LEN ∧ e.1 = key) Error.IsCorruption := by
    intro key
    refine (htagged.map (fun r => ((key, r) : Entry)) Prod.snd fun _ _ => rfl).congr (fun _ => rfl) (fun e => ?_)
      fun e _ => encodeRecord_parts e.2
    obtain ⟨k, r⟩ := e
    simp only [true_and, Prod.mk.injEq, and_true, eq_comm]
  have hbytes : ∀ n, Exact (fun bytes => readBytes t.truncated n bytes >>= fun x =>
        (readU8 t.truncated x.2 >>= fun y => readLen t.truncated t.valueTooLong y.2 >>= fun z => readRecord t y.1 z.1 z.2)
          >>= fun z => .ok (((x.1, z.1) : Entry), z.2))
      (fun e => e.1 ++ encodeRecord e.2) (fun e => e.2.valueLen ≤ MAX_RECORD_LEN ∧ e.1.length = n)
      Error.IsCorruption := by
    intro n
    refine ((readBytes_exact t.truncated n).bind (fun e : Entry => e.1) fun key _ => hkeyed key).congr (fun _ => rfl)
      (fun e => ?_) fun _ _ => rfl
    exact and_comm
  refine ((readLen_exact t.truncated t.keyTooLong).bind (fun e : Entry => e.1.length) fun n _ => hbytes n).congr
    (fun bytes => ?_) (fun e => Iff.rfl) fun e _ => ?_
  · simp only [readEntry, bind_assoc]
    rfl
  · simp only [encodeEntry, List.append_assoc]

/-! ## An entry above the cap -/

theorem readLen_append_long (msg tooLong : String) {n : ℕ} (h32 : n < 2 ^ 32)
    (hn : MAX_RECORD_LEN < n) (rest : Bytes) :
    readLen msg tooLong (encodeU32 n ++ rest) = .error (.corruption tooLong) := by
  simp only [readLen, (readU32_exact msg).read_append h32, bind, Except.bind, gt_iff_lt, hn, ↓reduceIte]

/-- An entry that fits the prefixes but exceeds the cap is written and then refused. -/
theorem readEntry_oversized (t : WireText) {e : Entry} (h32 : e.FitsU32) (he : ¬ e.Sized) (rest : Bytes) :
    ∃ err, readEntry t (encodeEntry e ++ rest) = .error err := by
  obtain ⟨k, r⟩ := e
  have hbytes : encodeEntry (k, r) ++ rest =
      encodeU32 k.length ++ (id k ++ ([r.tag] ++ (encodeU32 r.valueLen ++ (r.body ++ rest)))) := by
    simp [encodeEntry, encodeRecord_parts]
  rw [hbytes, readEntry]
  by_cases hk : k.length ≤ MAX_RECORD_LEN
  · have hv : MAX_RECORD_LEN < r.valueLen := by
      by_contra hv
      exact he ⟨hk, not_lt.mp hv⟩
    refine ⟨.corruption t.valueTooLong, ?_⟩
    rw [(readLen_exact _ _).read_append hk]
    simp only [bind, Except.bind, (readBytes_exact t.truncated k.length).read_append rfl,
      (readU8_exact t.truncated).read_append trivial, readLen_append_long _ _ h32.2 hv]
  · refine ⟨.corruption t.keyTooLong, ?_⟩
    rw [readLen_append_long _ _ h32.1 (not_le.mp hk)]
    rfl

end LsmDb
