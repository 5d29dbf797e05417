import LsmDb.Core.Wire
import LsmDb.Core.Deps

/-! The two decoders of a sorted run (`sstable.rs`): data blocks and the index block. -/
namespace LsmDb
open Lib
set_option autoImplicit false

/-- `"LSMTBL01"`. -/
def MAGIC : Bytes := [76, 83, 77, 84, 66, 76, 48, 49]
def FOOTER_SIZE : ℕ := 8 + 8 + 8 + 4 + 8
def TARGET_BLOCK_SIZE : ℕ := 4 * 1024

abbrev DecodedBlock := List Entry

structure BlockHandle where
  lastKey : Bytes
  offset : ℕ
  len : ℕ
  crc : ℕ
deriving DecidableEq, Repr

/-- One index record as `SsTableWriter::finish` writes it. -/
def encodeHandle (h : BlockHandle) : Bytes :=
  encodeU32 h.lastKey.length ++ h.lastKey ++ encodeU64 h.offset ++ encodeU32 h.len ++ encodeU32 h.crc

/-! ## Decoders -/

def blockText : WireText where
  truncated := "record truncated"
  keyTooLong := "key length exceeds maximum"
  valueTooLong := "value length exceeds maximum"
  fatTombstone := "tombstone with non-zero value length"
  unknownTag := "unknown record tag"

/-- The loop body's last check: each key above the one before. -/
def keyAfter (msg : String) (prev : Option Bytes) (key : Bytes) : Except Error Unit :=
  match prev with
  | some p => if key ≤ p then .error (.corruption msg) else .ok ()
  | none => .ok ()

/-- The `while pos < bytes.len()` loop of `decode_block`. Every pass consumes bytes, so a fuel of the
number of bytes is never used up before they are. -/
def decodeBlockLoop : ℕ → Option Bytes → Bytes → Except Error DecodedBlock
  | 0, _, _ => .ok []
  | fuel + 1, prev, rest =>
    if rest = [] then .ok []
    else do
      let (entry, rest) ← readEntry blockText rest
      keyAfter "data block keys not strictly increasing" prev entry.1
      let entries ← decodeBlockLoop fuel (some entry.1) rest
      return entry :: entries

def decodeBlock (bytes : Bytes) : Except Error DecodedBlock := decodeBlockLoop bytes.length none bytes

/-- One index record off the front. -/
def readHandle (rest : Bytes) : Except Error (BlockHandle × Bytes) := do
  let (keyLen, rest) ← readLen "record truncated" "index key length exceeds maximum" rest
  let (lastKey, rest) ← readBytes "record truncated" keyLen rest
  let (offset, rest) ← readU64 "record truncated" rest
  let (len, rest) ← readU32 "record truncated" rest
  let (crc, rest) ← readU32 "record truncated" rest
  return (⟨lastKey, offset, len, crc⟩, rest)

/-- The `while pos < bytes.len()` loop of `parse_index`. -/
def parseIndexLoop : ℕ → Option Bytes → Bytes → Except Error (List BlockHandle)
  | 0, _, _ => .ok []
  | fuel + 1, prev, rest =>
    if rest = [] then .ok []
    else do
      let (handle, rest) ← readHandle rest
      keyAfter "index block keys not strictly increasing" prev handle.lastKey
      let handles ← parseIndexLoop fuel (some handle.lastKey) rest
      return handle :: handles

def parseIndex (bytes : Bytes) : Except Error (List BlockHandle) :=
  parseIndexLoop bytes.length none bytes

/-! ## Decoding what was encoded -/

theorem keyAfter_ok_iff (msg : String) (prev : Option Bytes) (key : Bytes) :
    keyAfter msg prev key = .ok () ↔ ∀ p ∈ prev, p < key := by
  cases prev with
  | none => simp [keyAfter]
  | some p => simp [keyAfter]

theorem keyAfter_refused {msg : String} {prev : Option Bytes} {key : Bytes} {err : Error}
    (h : keyAfter msg prev key = .error err) : err.IsCorruption := by
  cases prev with
  | none => cases h
  | some p =>
    simp only [keyAfter] at h
    split_ifs at h
    obtain rfl := Except.error.inj h
    trivial

theorem encodeEntry_ne_nil (e : Entry) (rest : Bytes) : encodeEntry e ++ rest ≠ [] := by
  intro h
  have hl := congrArg List.length h
  simp only [List.length_append, encodeEntry_length, List.length_nil] at hl
  omega

theorem decodeBlockLoop_eq_readAll (fuel : ℕ) (prev : Option Bytes) (rest : Bytes) :
    decodeBlockLoop fuel prev rest =
      readAll (readEntry blockText) Prod.fst (keyAfter "data block keys not strictly increasing") fuel prev rest := by
  induction fuel generalizing prev rest with
  | zero => rfl
  | succ fuel ih => simp only [decodeBlockLoop, readAll, ih]

/-- The loop over a block accepts exactly the encodings of sized entries that ascend from the previous key. -/
theorem decodeBlockLoop_ok_iff {fuel : ℕ} {bytes : Bytes} (hfuel : bytes.length ≤ fuel) (prev : Option Bytes)
    (es : List Entry) : decodeBlockLoop fuel prev bytes = .ok es ↔
      bytes = es.flatMap encodeEntry ∧ Listed Entry.Sized Prod.fst prev es := by
  rw [decodeBlockLoop_eq_readAll]
  exact readAll_ok_iff (readEntry_exact blockText) (fun e h => encodeEntry_ne_nil e [] (by rw [h]; rfl))
    (keyAfter_ok_iff _) hfuel prev es

theorem decodeBlock_ok_iff (bytes : Bytes) (es : List Entry) :
    decodeBlock bytes = .ok es ↔ bytes = es.flatMap encodeEntry ∧ Ascending es ∧ ∀ e ∈ es, e.Sized := by
  rw [decodeBlock, decodeBlockLoop_ok_iff le_rfl]
  constructor
  · rintro ⟨hbytes, hlisted⟩
    exact ⟨hbytes, hlisted.ascending, hlisted.valid⟩
  · rintro ⟨hbytes, hasc, hsized⟩
    exact ⟨hbytes, hsized, hasc, by simp⟩

/-- A block of sized entries in ascending order decodes to them. -/
theorem decodeBlock_encode {es : List Entry} (hs : ∀ e ∈ es, e.Sized) (ha : Ascending es) :
    decodeBlock (es.flatMap encodeEntry) = .ok es := (decodeBlock_ok_iff _ es).mpr ⟨rfl, ha, hs⟩

theorem decodeBlock_refused {bytes : Bytes} {err : Error} (h : decodeBlock bytes = .error err) : err.IsCorruption := by
  rw [decodeBlock, decodeBlockLoop_eq_readAll] at h
  exact readAll_refused (readEntry_exact blockText) (fun _ _ _ => keyAfter_refused) h

theorem decodeBlockLoop_oversized {es : List Entry} (h32 : ∀ e ∈ es, e.FitsU32)
    (hs : ∃ e ∈ es, ¬ e.Sized) (prev : Option Bytes) {fuel : ℕ}
    (hf : (es.flatMap encodeEntry).length ≤ fuel) :
    ∃ err, decodeBlockLoop fuel prev (es.flatMap encodeEntry) = .error err := by
  induction es generalizing fuel prev with
  | nil => simp at hs
  | cons e es ih =>
    rw [List.flatMap_cons] at hf ⊢
    have hlen := encodeEntry_length e
    rw [List.length_append] at hf
    cases fuel with
    | zero => omega
    | succ fuel =>
      simp only [decodeBlockLoop, encodeEntry_ne_nil, ↓reduceIte, bind, Except.bind]
      by_cases he : e.Sized
      · have htail : ∃ x ∈ es, ¬ x.Sized := by
          obtain ⟨x, hx, hns⟩ := hs
          rcases List.mem_cons.mp hx with rfl | hx
          · exact absurd he hns
          · exact ⟨x, hx, hns⟩
        obtain ⟨err, hrest⟩ := ih (fun x hx => h32 x (by simp [hx])) htail (some e.1)
          (show (es.flatMap encodeEntry).length ≤ fuel by omega)
        simp only [(readEntry_exact blockText).read_append he, hrest]
        cases keyAfter "data block keys not strictly increasing" prev e.1 with
        | error err' => exact ⟨err', rfl⟩
        | ok _ => exact ⟨err, rfl⟩
      · obtain ⟨err, hread⟩ := readEntry_oversized blockText (h32 e (by simp)) he
          (es.flatMap encodeEntry)
        exact ⟨err, by simp only [hread]⟩

/-- A block the writer can write is decoded exactly or refused, never decoded differently. -/
theorem decodeBlock_encode_cases {es : List Entry} (h32 : ∀ e ∈ es, e.FitsU32) (ha : Ascending es) :
    (∀ e ∈ es, e.Sized) ∧ decodeBlock (es.flatMap encodeEntry) = .ok es ∨
      (∃ e ∈ es, ¬ e.Sized) ∧ ∃ err, decodeBlock (es.flatMap encodeEntry) = .error err := by
  by_cases hs : ∀ e ∈ es, e.Sized
  · exact Or.inl ⟨hs, decodeBlock_encode hs ha⟩
  · have hs' : ∃ e ∈ es, ¬ e.Sized := by simpa using hs
    exact Or.inr ⟨hs', decodeBlockLoop_oversized h32 hs' none le_rfl⟩

/-! ## A block as a unit -/

def encodeBlock (b : List Entry) : Bytes := b.flatMap encodeEntry

/-- The last key of a block. -/
def lastKey (b : List Entry) : Bytes := (b.getLast?.map Prod.fst).getD []

theorem encodeBlock_append (a b : List Entry) : encodeBlock (a ++ b) = encodeBlock a ++ encodeBlock b := by
  simp [encodeBlock]

theorem encodeBlock_eq_nil {b : List Entry} : encodeBlock b = [] ↔ b = [] := by
  constructor
  · intro h
    cases b with
    | nil => rfl
    | cons e b => exact absurd h (encodeEntry_ne_nil e _)
  · intro h
    rw [h]
    rfl

theorem lastKey_append_singleton (b : List Entry) (e : Entry) : lastKey (b ++ [e]) = e.1 := by
  simp [lastKey]

/-! ## The index block -/

/-- What an index record must satisfy to be read back: a key within the cap and fields of their
width. -/
structure BlockHandle.WellSized (h : BlockHandle) : Prop where
  key : h.lastKey.length ≤ MAX_RECORD_LEN
  offset : h.offset < 2 ^ 64
  len : h.len < 2 ^ 32
  crc : h.crc < 2 ^ 32

theorem encodeHandle_length (h : BlockHandle) : (encodeHandle h).length = 20 + h.lastKey.length := by
  simp only [encodeHandle, List.length_append, encodeU32_length, encodeU64_length]
  omega

theorem readHandle_exact : Exact readHandle encodeHandle BlockHandle.WellSized Error.IsCorruption := by
  have hcrc : ∀ key offset len, Exact (fun bytes => readU32 "record truncated" bytes >>= fun x =>
        .ok ((⟨key, offset, len, x.1⟩ : BlockHandle), x.2))
      (fun h => encodeU32 h.crc) (fun h => (h.crc < 2 ^ 32 ∧ h.lastKey = key ∧ h.offset = offset) ∧ h.len = len)
      Error.IsCorruption := by
    intro key offset len
    refine ((readU32_exact "record truncated").map (fun crc => (⟨key, offset, len, crc⟩ : BlockHandle)) BlockHandle.crc
      fun _ _ => rfl).congr (fun _ => rfl) (fun h => ?_) fun _ _ => rfl
    obtain ⟨k, o, l, c⟩ := h
    simp only [BlockHandle.mk.injEq, and_true, and_assoc, eq_comm]
  have hlen : ∀ key offset, Exact (fun bytes => readU32 "record truncated" bytes >>= fun x =>
        readU32 "record truncated" x.2 >>= fun y => .ok ((⟨key, offset, x.1, y.1⟩ : BlockHandle), y.2))
      (fun h => encodeU32 h.len ++ encodeU32 h.crc)
      (fun h => (h.len < 2 ^ 32 ∧ h.crc < 2 ^ 32 ∧ h.lastKey = key) ∧ h.offset = offset) Error.IsCorruption := by
    intro key offset
    refine ((readU32_exact "record truncated").bind BlockHandle.len fun len _ => hcrc key offset len).congr (fun _ => rfl)
      (fun h => ?_) fun _ _ => rfl
    simp only [and_assoc]
  have hoffset : ∀ key, Exact (fun bytes => readU64 "record truncated" bytes >>= fun w =>
        readU32 "record truncated" w.2 >>= fun x => readU32 "record truncated" x.2 >>= fun y =>
          .ok ((⟨key, w.1, x.1, y.1⟩ : BlockHandle), y.2))
      (fun h => encodeU64 h.offset ++ (encodeU32 h.len ++ encodeU32 h.crc))
      (fun h => (h.offset < 2 ^ 64 ∧ h.len < 2 ^ 32 ∧ h.crc < 2 ^ 32) ∧ h.lastKey = key) Error.IsCorruption := by
    intro key
    refine ((readU64_exact "record truncated").bind BlockHandle.offset fun offset _ => hlen key offset).congr (fun _ => rfl)
      (fun h => ?_) fun _ _ => rfl
    simp only [and_assoc]
  have hkey : ∀ n, Exact (fun bytes => readBytes "record truncated" n bytes >>= fun v =>
        readU64 "record truncated" v.2 >>= fun w => readU32 "record truncated" w.2 >>= fun x =>
          readU32 "record truncated" x.2 >>= fun y => .ok ((⟨v.1, w.1, x.1, y.1⟩ : BlockHandle), y.2))
      (fun h => h.lastKey ++ (encodeU64 h.offset ++ (encodeU32 h.len ++ encodeU32 h.crc)))
      (fun h => (h.offset < 2 ^ 64 ∧ h.len < 2 ^ 32 ∧ h.crc < 2 ^ 32) ∧ h.lastKey.length = n) Error.IsCorruption := by
    intro n
    refine ((readBytes_exact "record truncated" n).bind BlockHandle.lastKey fun key _ => hoffset key).congr (fun _ => rfl)
      (fun h => ?_) fun _ _ => rfl
    exact and_comm
  refine ((readLen_exact "record truncated" "index key length exceeds maximum").bind (fun h : BlockHandle => h.lastKey.length)
    fun n _ => hkey n).congr (fun _ => rfl) (fun h => ?_) fun h _ => ?_
  · constructor
    · rintro ⟨hk, ho, hl, hc⟩
      exact ⟨hk, ho, hl, hc⟩
    · rintro ⟨hk, ho, hl, hc⟩
      exact ⟨hk, ho, hl, hc⟩
  · simp only [encodeHandle, List.append_assoc]

theorem readHandle_oversized {h : BlockHandle} (h32 : h.lastKey.length < 2 ^ 32)
    (hk : MAX_RECORD_LEN < h.lastKey.length) (rest : Bytes) :
    readHandle (encodeHandle h ++ rest) = .error (.corruption "index key length exceeds maximum") := by
  have hbytes : encodeHandle h ++ rest = encodeU32 h.lastKey.length ++ (h.lastKey ++
      (encodeU64 h.offset ++ (encodeU32 h.len ++ (encodeU32 h.crc ++ rest)))) := by
    simp [encodeHandle]
  rw [hbytes, readHandle, readLen_append_long _ _ h32 hk]
  rfl

theorem encodeHandle_ne_nil (h : BlockHandle) (rest : Bytes) : encodeHandle h ++ rest ≠ [] := by
  intro hnil
  have hl := congrArg List.length hnil
  simp only [List.length_append, encodeHandle_length, List.length_nil] at hl
  omega

theorem parseIndexLoop_eq_readAll (fuel : ℕ) (prev : Option Bytes) (rest : Bytes) :
    parseIndexLoop fuel prev rest =
      readAll readHandle BlockHandle.lastKey (keyAfter "index block keys not strictly increasing") fuel prev rest := by
  induction fuel generalizing prev rest with
  | zero => rfl
  | succ fuel ih => simp only [parseIndexLoop, readAll, ih]

theorem parseIndexLoop_ok_iff {fuel : ℕ} {bytes : Bytes} (hfuel : bytes.length ≤ fuel) (prev : Option Bytes)
    (hs : List BlockHandle) : parseIndexLoop fuel prev bytes = .ok hs ↔
      bytes = hs.flatMap encodeHandle ∧ Listed BlockHandle.WellSized BlockHandle.lastKey prev hs := by
  rw [parseIndexLoop_eq_readAll]
  exact readAll_ok_iff readHandle_exact (fun h hnil => encodeHandle_ne_nil h [] (by rw [hnil]; rfl)) (keyAfter_ok_iff _)
    hfuel prev hs

theorem parseIndex_ok_iff (bytes : Bytes) (hs : List BlockHandle) : parseIndex bytes = .ok hs ↔
    bytes = hs.flatMap encodeHandle ∧ (hs.Pairwise fun a b => a.lastKey < b.lastKey) ∧ ∀ h ∈ hs, h.WellSized := by
  rw [parseIndex, parseIndexLoop_ok_iff le_rfl]
  constructor
  · rintro ⟨hbytes, hlisted⟩
    exact ⟨hbytes, hlisted.ascending, hlisted.valid⟩
  · rintro ⟨hbytes, hasc, hsized⟩
    exact ⟨hbytes, hsized, hasc, by simp⟩

theorem parseIndex_encode {hs : List BlockHandle} (hw : ∀ h ∈ hs, h.WellSized)
    (ha : hs.Pairwise (fun a b => a.lastKey < b.lastKey)) :
    parseIndex (hs.flatMap encodeHandle) = .ok hs := (parseIndex_ok_iff _ hs).mpr ⟨rfl, ha, hw⟩

theorem parseIndex_refused {bytes : Bytes} {err : Error} (h : parseIndex bytes = .error err) : err.IsCorruption := by
  rw [parseIndex, parseIndexLoop_eq_readAll] at h
  exact readAll_refused readHandle_exact (fun _ _ _ => keyAfter_refused) h

/-- One key above the cap and the whole index is refused. -/
theorem parseIndexLoop_oversized {hs : List BlockHandle} (h32 : ∀ h ∈ hs, h.lastKey.length < 2 ^ 32)
    (hw : ∀ h ∈ hs, h.lastKey.length ≤ MAX_RECORD_LEN → h.WellSized)
    (hs' : ∃ h ∈ hs, MAX_RECORD_LEN < h.lastKey.length) (prev : Option Bytes) {fuel : ℕ}
    (hf : (hs.flatMap encodeHandle).length ≤ fuel) :
    ∃ err, parseIndexLoop fuel prev (hs.flatMap encodeHandle) = .error err := by
  induction hs generalizing fuel prev with
  | nil => simp at hs'
  | cons h hs ih =>
    rw [List.flatMap_cons] at hf ⊢
    have hlen := encodeHandle_length h
    rw [List.length_append] at hf
    cases fuel with
    | zero => omega
    | succ fuel =>
      simp only [parseIndexLoop, encodeHandle_ne_nil, ↓reduceIte, bind, Except.bind]
      by_cases hk : h.lastKey.length ≤ MAX_RECORD_LEN
      · have htail : ∃ x ∈ hs, MAX_RECORD_LEN < x.lastKey.length := by
          obtain ⟨x, hx, hlong⟩ := hs'
          rcases List.mem_cons.mp hx with rfl | hx
          · omega
          · exact ⟨x, hx, hlong⟩
        obtain ⟨err, hrest⟩ := ih (fun x hx => h32 x (by simp [hx])) (fun x hx => hw x (by simp [hx]))
          htail (some h.lastKey) (show (hs.flatMap encodeHandle).length ≤ fuel by omega)
        simp only [readHandle_exact.read_append (hw h (by simp) hk), hrest]
        cases keyAfter "index block keys not strictly increasing" prev h.lastKey with
        | error err' => exact ⟨err', rfl⟩
        | ok _ => exact ⟨err, rfl⟩
      · refine ⟨.corruption "index key length exceeds maximum", ?_⟩
        simp only [readHandle_oversized (h32 h (by simp)) (not_le.mp hk)]

/-! ## Both decoders -/

/-- Of any bytes at all each decoder accepts exactly the encodings, and refuses the rest as corrupt. A loop that
stopped short of the end would have accepted bytes that encode something else. -/
theorem run_decoders_exact (bytes : Bytes) :
    (∀ es, decodeBlock bytes = .ok es ↔ bytes = encodeBlock es ∧ Ascending es ∧ ∀ e ∈ es, e.Sized) ∧
      (∀ err, decodeBlock bytes = .error err → err.IsCorruption) ∧
      (∀ hs, parseIndex bytes = .ok hs ↔ bytes = hs.flatMap encodeHandle ∧
        (hs.Pairwise fun a b => a.lastKey < b.lastKey) ∧ ∀ h ∈ hs, h.WellSized) ∧
      ∀ err, parseIndex bytes = .error err → err.IsCorruption :=
  ⟨decodeBlock_ok_iff bytes, fun _ => decodeBlock_refused, parseIndex_ok_iff bytes, fun _ => parseIndex_refused⟩

end LsmDb
