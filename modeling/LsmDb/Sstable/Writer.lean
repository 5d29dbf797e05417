import LsmDb.Sstable.Format

/-! The streaming run writer (`SsTableWriter`).

`push`, `flushBlock` and `finish` return the chunks they hand to `write_all`, in order, so that the same
writer drives both the file of this module and the file-system steps of the engine. Offsets, lengths
and the entry count wrap at 64 bits as in the source; a file itself is never longer than the largest
`off_t`, beyond which `write_all` reports an I/O error. -/
namespace LsmDb
open Lib
set_option autoImplicit false

variable [Deps]

/-- One `write_all`: the bytes and the context of the error it may return. -/
structure Chunk where
  context : String
  bytes : Bytes

structure SsTableWriter where
  offset : ℕ
  blockBuf : Bytes
  blockLastKey : Bytes
  index : List BlockHandle
  entryCount : ℕ

namespace SsTableWriter

/-- The writer `create` returns once it has written the magic. -/
def new : SsTableWriter := ⟨MAGIC.length, [], [], [], 0⟩

def header : Chunk := ⟨"write run magic", MAGIC⟩

/-- Hand the current block over and record its index handle. -/
def flushBlock (w : SsTableWriter) : Except Error (SsTableWriter × List Chunk) :=
  if w.blockBuf = [] then .ok (w, [])
  else if 2 ^ 32 ≤ w.blockBuf.length then .error (.corruption "data block larger than u32")
  else .ok ({ w with
      index := w.index ++ [⟨w.blockLastKey, w.offset, w.blockBuf.length, crc32c w.blockBuf⟩]
      offset := (w.offset + w.blockBuf.length) % 2 ^ 64
      blockBuf := []
      blockLastKey := [] }, [⟨"write data block", w.blockBuf⟩])

/-- Append one entry; the block is cut after the entry that reaches the target size. -/
def push (w : SsTableWriter) (key : Bytes) (record : Record) :
    Except Error (SsTableWriter × List Chunk) :=
  if 2 ^ 32 ≤ key.length then .error (.corruption "key longer than u32 length prefix")
  else if 2 ^ 32 ≤ record.valueLen then .error (.corruption "value longer than u32 length prefix")
  else
    let w : SsTableWriter := { w with
      blockBuf := w.blockBuf ++ encodeEntry (key, record)
      blockLastKey := key
      entryCount := (w.entryCount + 1) % 2 ^ 64 }
    if TARGET_BLOCK_SIZE ≤ w.blockBuf.length then w.flushBlock else .ok (w, [])

def indexBytes (index : List BlockHandle) : Bytes := index.flatMap encodeHandle

def footer (entryCount indexOffset : ℕ) (index : Bytes) : Bytes :=
  encodeU64 entryCount ++ encodeU64 indexOffset ++ encodeU64 index.length ++
    encodeU32 (crc32c index) ++ MAGIC

/-- Flush the final block and write the index and the footer. -/
def finish (w : SsTableWriter) : Except Error (List Chunk) := do
  let (w, last) ← w.flushBlock
  if w.index.any (fun h => 2 ^ 32 ≤ h.lastKey.length) then
    .error (.corruption "index key longer than u32")
  else
    .ok (last ++ [⟨"write run index", indexBytes w.index⟩,
      ⟨"write run footer", footer w.entryCount w.offset (indexBytes w.index)⟩])

end SsTableWriter

/-! ## Writing a whole run into a file -/

/-- The largest file offset. -/
def MAX_FILE_LEN : ℕ := 2 ^ 63 - 1

def writeAll (file : Bytes) (c : Chunk) : Except Error Bytes :=
  if file.length + c.bytes.length ≤ MAX_FILE_LEN then .ok (file ++ c.bytes)
  else .error (.io c.context .other)

def writeChunks (file : Bytes) (cs : List Chunk) : Except Error Bytes := cs.foldlM writeAll file

/-- The loop `for (key, record) in entries { writer.push(key, record)? }`. -/
def pushAll : SsTableWriter → Bytes → List Entry → Except Error (SsTableWriter × Bytes)
  | w, file, [] => .ok (w, file)
  | w, file, e :: es => do
    let (w, chunks) ← w.push e.1 e.2
    let file ← writeChunks file chunks
    pushAll w file es

/-- `SsTableWriter::create`, `push` for each entry, `finish`: the bytes of the finished file. -/
def writeRun (es : List Entry) : Except Error Bytes := do
  let file ← writeAll [] SsTableWriter.header
  let (w, file) ← pushAll SsTableWriter.new file es
  let chunks ← w.finish
  writeChunks file chunks

/-! ## Where the blocks are -/

/-- The handles of consecutive blocks that start at `off`. -/
def handlesFrom : ℕ → List (List Entry) → List BlockHandle
  | _, [] => []
  | off, b :: bs =>
    ⟨lastKey b, off, (encodeBlock b).length, crc32c (encodeBlock b)⟩ ::
      handlesFrom (off + (encodeBlock b).length) bs

theorem handlesFrom_append (off : ℕ) (xs ys : List (List Entry)) :
    handlesFrom off (xs ++ ys) =
      handlesFrom off xs ++ handlesFrom (off + (xs.flatMap encodeBlock).length) ys := by
  induction xs generalizing off with
  | nil => simp [handlesFrom]
  | cons b xs ih =>
    simp only [List.cons_append, handlesFrom, ih, List.flatMap_cons, List.length_append,
      Nat.add_assoc]

theorem handlesFrom_length (off : ℕ) (bs : List (List Entry)) : (handlesFrom off bs).length = bs.length := by
  induction bs generalizing off with
  | nil => rfl
  | cons b bs ih => simp [handlesFrom, ih]

end LsmDb
