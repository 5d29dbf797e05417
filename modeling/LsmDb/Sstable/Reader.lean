import LsmDb.Sstable.Bloom
import LsmDb.Sstable.Format

/-! Opening and reading a sorted run (`SsTable`, `RunCursor`).

Every read of a file goes through a positioned read that the caller supplies, so that the same code
runs over the bytes of a file and over a file some of whose reads fail. -/
namespace LsmDb
open Lib
set_option autoImplicit false

/-- `read_exact_at`: offset, then number of bytes. -/
abbrev PRead := ℕ → ℕ → Except IoError Bytes

/-- The positioned read of a healthy file. An empty buffer is filled at once, wherever it is read; other reads past
the end are an unexpected EOF. -/
def preadExact (file : Bytes) : PRead := fun offset len =>
  if len = 0 ∨ offset + len ≤ file.length then .ok ((file.drop offset).take len) else .error .other

theorem preadExact_within {file : Bytes} {offset len : ℕ} (h : offset + len ≤ file.length) :
    preadExact file offset len = .ok ((file.drop offset).take len) := if_pos (Or.inr h)

def ioResult {α : Type} (context : String) : Except IoError α → Except Error α
  | .ok a => .ok a
  | .error e => .error (.io context e)

/-! ## The cursor -/

-- `blocks` and `read` are what the cursor uses of its table: the number of blocks and `read_block`.
structure RunCursor where
  blocks : ℕ
  read : ℕ → Except Error DecodedBlock
  nextBlock : ℕ
  block : List Entry
  peeked : Option Entry
  error : Option Error

namespace RunCursor

def new (blocks : ℕ) (read : ℕ → Except Error DecodedBlock) : RunCursor := ⟨blocks, read, 0, [], none, none⟩

/-- The loop of `fill`: each pass either ends or loads a block. -/
def fillLoop : ℕ → RunCursor → RunCursor
  | 0, c => c
  | fuel + 1, c =>
    match c.block with
    | entry :: rest => { c with block := rest, peeked := some entry }
    | [] =>
      if c.blocks ≤ c.nextBlock then c
      else
        match c.read c.nextBlock with
        | .ok entries => fillLoop fuel { c with nextBlock := c.nextBlock + 1, block := entries }
        | .error e => { c with error := some e }

def fill (c : RunCursor) : RunCursor :=
  if c.peeked.isSome ∨ c.error.isSome then c else fillLoop (c.blocks - c.nextBlock + 1) c

def peekKey (c : RunCursor) : Option Bytes × RunCursor :=
  let c := c.fill
  (c.peeked.map Prod.fst, c)

/-- The cursor once `peeked` has been taken. -/
def taken (c : RunCursor) : RunCursor := { c with peeked := none }

def nextEntry (c : RunCursor) : Option Entry × RunCursor :=
  let c := c.fill
  (c.peeked, c.taken)

def takeError (c : RunCursor) : Option Error × RunCursor := (c.error, { c with error := none })

/-- `while let Some(entry) = cursor.next_entry()`, for at most `fuel` entries. -/
def drain : ℕ → RunCursor → List Entry × RunCursor
  | 0, c => ([], c)
  | fuel + 1, c =>
    match c.nextEntry with
    | (none, c) => ([], c)
    | (some entry, c) =>
      let (entries, c) := drain fuel c
      (entry :: entries, c)

end RunCursor

/-! ## What a cursor will still deliver -/

/-- The entries of the blocks from `i` on, up to the first block that cannot be read. -/
def blocksFrom (read : ℕ → Except Error DecodedBlock) : ℕ → ℕ → List Entry × Option Error
  | 0, _ => ([], none)
  | n + 1, i =>
    match read i with
    | .error e => ([], some e)
    | .ok entries =>
      let (rest, err) := blocksFrom read n (i + 1)
      (entries ++ rest, err)

namespace RunCursor

/-- The remaining entries of a cursor and the error that will end it, if any. -/
def stream (c : RunCursor) : List Entry × Option Error :=
  match c.error with
  | some e => (c.peeked.toList, some e)
  | none =>
    let (rest, err) := blocksFrom c.read (c.blocks - c.nextBlock) c.nextBlock
    (c.peeked.toList ++ c.block ++ rest, err)

@[simp] theorem stream_new (blocks : ℕ) (read : ℕ → Except Error DecodedBlock) :
    (new blocks read).stream = blocksFrom read blocks 0 := by
  simp [stream, new]

/-- A cursor that has been filled shows its next entry, or its error, or is exhausted. -/
structure Filled (c : RunCursor) : Prop where
  error_peeked : c.error ≠ none → c.peeked = none
  exhausted : c.peeked = none → c.error = none → c.block = [] ∧ c.blocks ≤ c.nextBlock

theorem fillLoop_spec {fuel : ℕ} {c : RunCursor} (hp : c.peeked = none) (he : c.error = none)
    (hf : c.blocks - c.nextBlock < fuel) :
    (fillLoop fuel c).stream = c.stream ∧ Filled (fillLoop fuel c) := by
  induction fuel generalizing c with
  | zero => omega
  | succ fuel ih =>
    unfold fillLoop
    split
    · rename_i entry rest hblock
      refine ⟨by simp [stream, hp, he, hblock], ⟨fun h => absurd he h, fun h => by simp at h⟩⟩
    · rename_i hblock
      split_ifs with hdone
      · exact ⟨rfl, ⟨fun h => absurd he h, fun _ _ => ⟨hblock, hdone⟩⟩⟩
      · have hsucc : c.blocks - c.nextBlock = (c.blocks - (c.nextBlock + 1)) + 1 := by omega
        split
        · rename_i entries hread
          obtain ⟨hs, hfilled⟩ := ih (c := { c with nextBlock := c.nextBlock + 1, block := entries })
            hp he (by simp only; omega)
          refine ⟨?_, hfilled⟩
          rw [hs]
          simp [stream, hp, he, hblock, hsucc, blocksFrom, hread]
        · rename_i e hread
          refine ⟨?_, ⟨fun _ => hp, fun _ h => by simp at h⟩⟩
          simp [stream, hp, he, hblock, hsucc, blocksFrom, hread]

/-- Nothing peeked together with an error: what every reachable cursor satisfies. -/
def Sound (c : RunCursor) : Prop := c.error ≠ none → c.peeked = none

theorem fill_spec {c : RunCursor} (hs : c.Sound) : c.fill.stream = c.stream ∧ c.fill.Filled := by
  unfold fill
  split_ifs with h
  · refine ⟨rfl, ⟨hs, fun hp he => ?_⟩⟩
    simp [hp, he] at h
  · have hp : c.peeked = none := by
      by_contra hne
      exact h (Or.inl (Option.isSome_iff_ne_none.mpr hne))
    have he : c.error = none := by
      by_contra hne
      exact h (Or.inr (Option.isSome_iff_ne_none.mpr hne))
    exact fillLoop_spec hp he (Nat.lt_succ_self _)

theorem Filled.sound {c : RunCursor} (h : c.Filled) : c.Sound := h.error_peeked

theorem sound_new (blocks : ℕ) (read : ℕ → Except Error DecodedBlock) : (new blocks read).Sound :=
  fun _ => rfl

-- Reading a filled cursor's stream off its fields.

theorem Filled.stream_peeked {c : RunCursor} (h : c.Filled) {e : Entry} (hp : c.peeked = some e) :
    c.error = none ∧ c.stream.1 = e :: c.taken.stream.1 ∧
      c.taken.stream.2 = c.stream.2 := by
  have he : c.error = none := by
    by_contra hne
    have hnone := h.error_peeked hne
    simp [hp] at hnone
  refine ⟨he, ?_, ?_⟩ <;> simp [stream, taken, he, hp]

theorem Filled.stream_none {c : RunCursor} (h : c.Filled) (hp : c.peeked = none) :
    c.stream = ([], c.error) := by
  cases he : c.error with
  | some e => simp [stream, he, hp]
  | none =>
    obtain ⟨hb, hn⟩ := h.exhausted hp he
    have hz : c.blocks - c.nextBlock = 0 := by omega
    simp [stream, he, hp, hb, hz, blocksFrom]

/-- Draining delivers the stream. -/
theorem drain_spec {fuel : ℕ} {c : RunCursor} (hs : c.Sound) (hf : c.stream.1.length < fuel) :
    (drain fuel c).1 = c.stream.1 ∧ (drain fuel c).2.error = c.stream.2 := by
  induction fuel generalizing c with
  | zero => omega
  | succ fuel ih =>
    obtain ⟨hstream, hfilled⟩ := fill_spec hs
    cases hp : c.fill.peeked with
    | none =>
      have hnone := hfilled.stream_none hp
      rw [hstream] at hnone
      simp [drain, nextEntry, taken, hp, hnone]
    | some e =>
      obtain ⟨he, h1, h2⟩ := hfilled.stream_peeked hp
      rw [hstream] at h1 h2
      have hlen : c.fill.taken.stream.1.length < fuel := by
        have hl := congrArg List.length h1
        simp only [List.length_cons] at hl
        omega
      have hsound : c.fill.taken.Sound := fun _ => rfl
      obtain ⟨hd1, hd2⟩ := ih hsound hlen
      simp only [drain, nextEntry, hp]
      exact ⟨by rw [hd1, h1], by rw [hd2, h2]⟩

end RunCursor

/-! ## The table -/

variable [Deps]

-- The engine attaches its block cache to every run; `runId` is the high half of the cache keys.
structure SsTable where
  file : Bytes
  name : Text
  index : List BlockHandle
  entryCount : ℕ
  filter : Option RunFilter
  runId : ℕ

namespace SsTable

/-- The footer's fields and index, validated: `open` up to the construction of the handle. -/
def readIndex (fileLen : ℕ) (pread : PRead) : Except Error (List BlockHandle × ℕ) := do
  if fileLen < MAGIC.length + FOOTER_SIZE then
    throw (.corruption "file shorter than header and footer")
  let footer ← ioResult "read run footer" (pread (fileLen - FOOTER_SIZE) FOOTER_SIZE)
  if footer.drop 28 ≠ MAGIC then
    throw (.corruption "bad magic; not an lsm-db sorted run")
  let entryCount := leValue (footer.take 8)
  let indexOffset := leValue ((footer.drop 8).take 8)
  let indexLen := leValue ((footer.drop 16).take 8)
  let indexCrc := leValue ((footer.drop 24).take 4)
  -- `checked_add` overflows above `u64::MAX`, which no file length reaches
  if indexOffset < MAGIC.length ∨ indexOffset + indexLen ≠ fileLen - FOOTER_SIZE then
    throw (.corruption "index extent inconsistent with file size")
  let indexBytes ← ioResult "read run index" (pread indexOffset indexLen)
  if crc32c indexBytes ≠ indexCrc then
    throw (.corruption "index checksum mismatch")
  let index ← parseIndex indexBytes
  return (index, entryCount)

/-- `SsTable::open` on a healthy file, as the `runId`-th run opened by the process. -/
def «open» (file : Bytes) (name : Text) (runId : ℕ) : Except Error SsTable := do
  let (index, entryCount) ← readIndex file.length (preadExact file)
  return ⟨file, name, index, entryCount, none, runId⟩

def mightContain (t : SsTable) (key : Bytes) : Bool := LsmDb.mightContain t.filter key

/-- Read, verify and decode the block behind a handle. -/
def decodeBlockAt (pread : PRead) (h : BlockHandle) : Except Error DecodedBlock := do
  let buf ← ioResult "read data block" (pread h.offset h.len)
  if crc32c buf ≠ h.crc then throw (.corruption "data block checksum mismatch")
  decodeBlock buf

/-- `decode_block_at` of a healthy file. -/
def readBlock (t : SsTable) (i : ℕ) : Except Error DecodedBlock :=
  match t.index[i]? with
  | some h => decodeBlockAt (preadExact t.file) h
  | none => .error (.corruption "block index out of range")

/-- `partition_point(|h| h.last_key < key)` on the ascending index: the one block that may hold the
key. -/
def candidate (t : SsTable) (key : Bytes) : ℕ :=
  (t.index.takeWhile (fun h => h.lastKey < key)).length

/-- `lookup` without a cache attached. -/
def lookup (t : SsTable) (key : Bytes) : Except Error (Option Record) :=
  let i := t.candidate key
  if t.index.length ≤ i then .ok none
  else do
    let block ← t.readBlock i
    return find block key

def cursor (t : SsTable) : RunCursor := RunCursor.new t.index.length t.readBlock

end SsTable
end LsmDb
