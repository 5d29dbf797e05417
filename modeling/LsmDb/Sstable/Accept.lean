import LsmDb.Sstable.RoundTrip

/-! The writer accepts every run of sized entries: no length overflows its prefix, and the file it
asks for is no longer than a bound linear in the entries. Together with the round trip this is the
contract of the run format. -/
namespace LsmDb
open Lib
set_option autoImplicit false

/-- An entry the writer takes without looking at what is in its buffer. The reader wants less. -/
def Entry.Flushable (e : Entry) : Prop := e.1.length ≤ MAX_RECORD_LEN ∧ e.2.valueLen ≤ 2 ^ 31

theorem Entry.Sized.flushable {e : Entry} (h : e.Sized) : e.Flushable :=
  ⟨h.1, le_trans h.2 (by unfold MAX_RECORD_LEN; omega)⟩

section Accept
variable [Deps]

/-- A writer between two pushes: a buffer below the target and keys that fit their prefix. -/
structure SsTableWriter.Ready (w : SsTableWriter) : Prop where
  buf : w.blockBuf.length < TARGET_BLOCK_SIZE
  last : w.blockLastKey.length ≤ MAX_RECORD_LEN
  keys : ∀ h ∈ w.index, h.lastKey.length ≤ MAX_RECORD_LEN

/-- What the file will need if nothing more is pushed, short of the footer. -/
def SsTableWriter.room (w : SsTableWriter) (len : ℕ) : ℕ :=
  len + w.blockBuf.length + (indexBytes w.index).length + 20 + w.blockLastKey.length

def chunksLength (cs : List Chunk) : ℕ := (cs.flatMap Chunk.bytes).length

omit [Deps] in
theorem indexBytes_concat (hs : List BlockHandle) (h : BlockHandle) :
    (SsTableWriter.indexBytes (hs ++ [h])).length =
      (SsTableWriter.indexBytes hs).length + (20 + h.lastKey.length) := by
  simp only [SsTableWriter.indexBytes, List.flatMap_append, List.flatMap_singleton, List.length_append,
    encodeHandle_length]

theorem flushBlock_accepts {w : SsTableWriter} (hlast : w.blockLastKey.length ≤ MAX_RECORD_LEN)
    (hkeys : ∀ h ∈ w.index, h.lastKey.length ≤ MAX_RECORD_LEN) (hb : w.blockBuf.length < 2 ^ 32) :
    ∃ w' cs, w.flushBlock = .ok (w', cs) ∧ w'.blockBuf = [] ∧
      w'.blockLastKey.length ≤ MAX_RECORD_LEN ∧ (∀ h ∈ w'.index, h.lastKey.length ≤ MAX_RECORD_LEN) ∧
      ∀ len, len + chunksLength cs + (SsTableWriter.indexBytes w'.index).length ≤ w.room len ∧
        w'.room (len + chunksLength cs) ≤ w.room len + 20 := by
  unfold SsTableWriter.flushBlock
  by_cases hnil : w.blockBuf = []
  · refine ⟨w, [], by rw [if_pos hnil], hnil, hlast, hkeys, fun len => ?_⟩
    simp only [chunksLength, SsTableWriter.room, List.flatMap_nil, List.length_nil]
    omega
  · have hle : ¬ 2 ^ 32 ≤ w.blockBuf.length := by omega
    rw [if_neg hnil, if_neg hle]
    refine ⟨_, _, rfl, rfl, by simp, ?_, fun len => ?_⟩
    · intro h hm
      rcases List.mem_append.mp hm with hm | hm
      · exact hkeys h hm
      · rw [List.mem_singleton.mp hm]
        exact hlast
    · simp only [chunksLength, SsTableWriter.room, indexBytes_concat, List.flatMap_singleton,
        List.length_nil]
      omega

theorem push_accepts {w : SsTableWriter} (hr : w.Ready) {e : Entry} (he : e.Flushable) :
    ∃ w' cs, w.push e.1 e.2 = .ok (w', cs) ∧ w'.Ready ∧
      ∀ len, w'.room (len + chunksLength cs) ≤ w.room len + (29 + 2 * e.1.length + e.2.valueLen) := by
  obtain ⟨hk, hv⟩ := he
  have hk32 : ¬ 2 ^ 32 ≤ e.1.length := by unfold MAX_RECORD_LEN at hk; omega
  have hv32 : ¬ 2 ^ 32 ≤ e.2.valueLen := by omega
  have hlen := encodeEntry_length (e.1, e.2)
  have hbuf := hr.buf
  unfold SsTableWriter.push
  simp only [hk32, hv32, ↓reduceIte]
  split_ifs with hcut
  · have hsmall : (w.blockBuf ++ encodeEntry (e.1, e.2)).length < 2 ^ 32 := by
      rw [List.length_append, hlen]
      unfold MAX_RECORD_LEN TARGET_BLOCK_SIZE at *
      simp only
      omega
    obtain ⟨w', cs, hf, hnil, hlast, hkeys, hroom⟩ := flushBlock_accepts (w := { w with
      blockBuf := w.blockBuf ++ encodeEntry (e.1, e.2), blockLastKey := e.1
      entryCount := (w.entryCount + 1) % 2 ^ 64 }) hk hr.keys hsmall
    refine ⟨w', cs, hf, ⟨by rw [hnil]; decide, hlast, hkeys⟩, fun len => ?_⟩
    have hle := (hroom len).2
    simp only [SsTableWriter.room, List.length_append, hlen] at hle ⊢
    omega
  · refine ⟨_, _, rfl, ⟨by simpa using hcut, hk, hr.keys⟩, fun len => ?_⟩
    simp only [SsTableWriter.room, chunksLength, List.length_append, hlen, List.flatMap_nil,
      List.length_nil]
    omega

theorem finish_accepts {w : SsTableWriter} (hr : w.Ready) :
    ∃ cs, w.finish = .ok cs ∧ ∀ len, len + chunksLength cs ≤ w.room len + FOOTER_SIZE := by
  have hbuf := hr.buf
  have hsmall : w.blockBuf.length < 2 ^ 32 := by unfold TARGET_BLOCK_SIZE at hbuf; omega
  obtain ⟨w', cs, hf, _, _, hkeys, hroom⟩ := flushBlock_accepts hr.last hr.keys hsmall
  have hany : w'.index.any (fun h => 2 ^ 32 ≤ h.lastKey.length) = false := by
    rw [List.any_eq_false]
    intro h hm
    have hle := hkeys h hm
    unfold MAX_RECORD_LEN at hle
    simp only [decide_eq_true_eq]
    omega
  unfold SsTableWriter.finish
  simp only [hf, bind, Except.bind, hany, Bool.false_eq_true, ↓reduceIte]
  refine ⟨_, rfl, fun len => ?_⟩
  have hle := (hroom len).1
  have hm : MAGIC.length = 8 := rfl
  simp only [chunksLength, List.flatMap_append, List.flatMap_cons, List.flatMap_nil,
    List.length_append, List.length_nil, SsTableWriter.footer, encodeU64_length, encodeU32_length, hm,
    FOOTER_SIZE] at hle ⊢
  omega

/-! ## The whole run -/

-- An error that is not a refusal of the format, but of the file.
def IoOnly {α : Type} (r : Except Error α) : Prop := ∀ reason, r ≠ .error (.corruption reason)

omit [Deps] in
/-- Writing chunks stops only at the limit of a file. -/
theorem writeChunks_cases (file : Bytes) (cs : List Chunk) :
    IoOnly (writeChunks file cs) ∧
      (file.length + chunksLength cs ≤ MAX_FILE_LEN →
        ∃ out, writeChunks file cs = .ok out ∧ out.length = file.length + chunksLength cs) := by
  induction cs generalizing file with
  | nil => exact ⟨fun _ h => by simp [writeChunks, pure, Except.pure] at h, fun _ => ⟨file, rfl, rfl⟩⟩
  | cons c cs ih =>
    have hlen : chunksLength (c :: cs) = c.bytes.length + chunksLength cs := by
      simp only [chunksLength, List.flatMap_cons, List.length_append]
    by_cases hfit : file.length + c.bytes.length ≤ MAX_FILE_LEN
    · have hstep : writeChunks file (c :: cs) = writeChunks (file ++ c.bytes) cs := by
        simp only [writeChunks, List.foldlM_cons, writeAll, if_pos hfit, bind, Except.bind]
      obtain ⟨hio, hok⟩ := ih (file ++ c.bytes)
      rw [hstep, hlen]
      refine ⟨hio, fun hle => ?_⟩
      obtain ⟨out, hout, hol⟩ := hok (by rw [List.length_append]; omega)
      refine ⟨out, hout, ?_⟩
      rw [hol, List.length_append]
      omega
    · have hstep : writeChunks file (c :: cs) = .error (.io c.context .other) := by
        simp only [writeChunks, List.foldlM_cons, writeAll, if_neg hfit, bind, Except.bind]
      rw [hstep]
      exact ⟨fun _ h => by simp at h, fun hle => absurd hle (by rw [hlen]; omega)⟩

/-- The bytes a run may take: each entry with its index record at worst. -/
def entryRoom (e : Entry) : ℕ := 29 + 2 * e.1.length + e.2.valueLen

theorem pushAll_cases {es : List Entry} (hs : ∀ e ∈ es, e.Flushable) {w : SsTableWriter} (hr : w.Ready)
    (file : Bytes) :
    IoOnly (pushAll w file es) ∧
      (∀ w' file', pushAll w file es = .ok (w', file') → w'.Ready) ∧
      (w.room file.length + (es.map entryRoom).sum ≤ MAX_FILE_LEN →
        ∃ w' file', pushAll w file es = .ok (w', file') ∧
          w'.room file'.length ≤ w.room file.length + (es.map entryRoom).sum) := by
  induction es generalizing w file with
  | nil =>
    refine ⟨fun _ h => by simp [pushAll] at h, fun w' file' h => ?_, fun _ => ⟨w, file, rfl, by simp⟩⟩
    simp only [pushAll, Except.ok.injEq, Prod.mk.injEq] at h
    rw [← h.1]
    exact hr
  | cons e es ih =>
    obtain ⟨w₁, cs, hpush, hr₁, hroom⟩ := push_accepts hr (hs e (by simp))
    obtain ⟨hio, hok⟩ := writeChunks_cases file cs
    have hstep : pushAll w file (e :: es) =
        (writeChunks file cs).bind fun file => pushAll w₁ file es := by
      simp only [pushAll, hpush, bind, Except.bind]
    have hrest := ih (fun x hx => hs x (by simp [hx])) hr₁
    rw [hstep]
    cases hw : writeChunks file cs with
    | error err =>
      refine ⟨fun reason h => hio reason (by rw [hw]; simpa [Except.bind] using h),
        fun _ _ h => by simp [Except.bind] at h, fun hle => ?_⟩
      have hfit : file.length + chunksLength cs ≤ MAX_FILE_LEN := by
        have hstart := hroom file.length
        simp only [List.map_cons, List.sum_cons, entryRoom] at hle
        unfold SsTableWriter.room at hstart hle
        omega
      obtain ⟨out, hout, _⟩ := hok hfit
      simp [hw] at hout
    | ok mid =>
      obtain ⟨h1, h2, h3⟩ := hrest mid
      refine ⟨h1, h2, fun hle => ?_⟩
      have hlen : mid.length = file.length + chunksLength cs := by
        have hfit : file.length + chunksLength cs ≤ MAX_FILE_LEN := by
          have hstart := hroom file.length
          simp only [List.map_cons, List.sum_cons, entryRoom] at hle
          unfold SsTableWriter.room at hstart hle
          omega
        obtain ⟨out, hout, hol⟩ := hok hfit
        rw [hw] at hout
        rw [show mid = out by simpa using hout, hol]
      have hstart := hroom file.length
      rw [← hlen] at hstart
      simp only [List.map_cons, List.sum_cons, entryRoom] at hle ⊢
      obtain ⟨w', file', hp, hle'⟩ := h3 (by omega)
      exact ⟨w', file', hp, by omega⟩

omit [Deps] in
theorem ready_new : SsTableWriter.new.Ready where
  buf := by decide
  last := by simp [SsTableWriter.new]
  keys := by simp [SsTableWriter.new]

/-- The bound on the file of a run. -/
def runRoom (es : List Entry) : ℕ := 28 + (es.map entryRoom).sum + FOOTER_SIZE

theorem writeRun_cases {es : List Entry} (hs : ∀ e ∈ es, e.Flushable) :
    IoOnly (writeRun es) ∧ (runRoom es ≤ MAX_FILE_LEN → ∃ file, writeRun es = .ok file) := by
  have hhead : writeAll [] SsTableWriter.header = .ok MAGIC := rfl
  have hnew : SsTableWriter.new.room MAGIC.length = 28 := rfl
  obtain ⟨hio, hready, hok⟩ := pushAll_cases hs ready_new MAGIC
  rw [hnew] at hok
  unfold runRoom
  simp only [writeRun, hhead, bind, Except.bind]
  cases hp : pushAll SsTableWriter.new MAGIC es with
  | error err =>
    refine ⟨fun reason h => hio reason (by rw [hp]; simpa using h), fun hle => ?_⟩
    obtain ⟨w', file', hp', _⟩ := hok (by omega)
    simp [hp] at hp'
  | ok p =>
    obtain ⟨w, mid⟩ := p
    obtain ⟨cs, hfin, hroom⟩ := finish_accepts (hready w mid hp)
    obtain ⟨hio', hok'⟩ := writeChunks_cases mid cs
    simp only [hfin]
    refine ⟨hio', fun hle => ?_⟩
    obtain ⟨w', file', hp', hle'⟩ := hok (by omega)
    obtain ⟨rfl, rfl⟩ : w = w' ∧ mid = file' := by simpa [hp] using hp'
    obtain ⟨out, hout, _⟩ := hok' (by have := hroom mid.length; omega)
    exact ⟨out, hout⟩

/-- Writing any ascending list of sized entries and reading the file back. -/
theorem run_format_round_trip (es : List Entry) (ha : Ascending es) (hs : ∀ e ∈ es, e.Sized) :
    IoOnly (writeRun es) ∧ (runRoom es ≤ MAX_FILE_LEN → ∃ file, writeRun es = .ok file) ∧
      ∀ file, writeRun es = .ok file → ∀ name id, ∃ t, SsTable.open file name id = .ok t ∧
        (∀ fuel, es.length < fuel →
          (RunCursor.drain fuel t.cursor).1 = es ∧ (RunCursor.drain fuel t.cursor).2.error = none) ∧
        (∀ k r, t.lookup k = .ok (some r) ↔ (k, r) ∈ es) ∧
        (∀ k, (∀ r, (k, r) ∉ es) → t.lookup k = .ok none) ∧
        t.entryCount = es.length := by
  obtain ⟨hio, hok⟩ := writeRun_cases fun e he => (hs e he).flushable
  refine ⟨hio, hok, ?_⟩
  intro file hfile name id
  obtain ⟨bs, hl⟩ := writeRun_layout hfile
  have hkeys : ∀ x ∈ handlesFrom 8 bs, x.lastKey.length ≤ MAX_RECORD_LEN := by
    intro x hx
    obtain ⟨e, he, hek⟩ := hl.exists_entry hx
    rw [hek]
    exact (hs e he).1
  have hopen : SsTable.open file name id = .ok ⟨file, name, handlesFrom 8 bs, es.length, none, id⟩ := by
    simp only [SsTable.open, hl.readIndex_ok ha hkeys, bind, Except.bind, pure, Except.pure]
  have ht := tableOf_open hl ha hopen
  refine ⟨_, hopen, ?_, ?_, ?_, ht.count_eq⟩
  · intro fuel hfuel
    have hstream := ht.cursor_stream hs
    have hdrain := @RunCursor.drain_spec fuel _ (RunCursor.sound_new _ _)
      (show (SsTable.cursor _).stream.1.length < fuel by rw [hstream]; exact hfuel)
    rw [← SsTable.cursor, hstream] at hdrain
    exact hdrain
  · intro k r
    rw [ht.lookup_eq hs, ← ha.find_iff_mem]
    simp
  · intro k hk
    rw [ht.lookup_eq hs]
    cases hf : find es k with
    | none => rfl
    | some r => exact absurd (mem_of_find hf) (hk r)

end Accept

theorem run_format_round_trip_pair : letI := Deps.concrete
    ∃ file t, writeRun [([1], .value [7, 8]), ([1, 0], .tombstone)] = .ok file ∧
      SsTable.open file [] 0 = .ok t ∧ t.entryCount = 2 ∧
      t.lookup [1, 0] = .ok (some .tombstone) ∧ t.lookup [0] = .ok none := by
  let _ := Deps.concrete
  obtain ⟨_, hok, hread⟩ := run_format_round_trip
    [([1], .value [7, 8]), ([1, 0], .tombstone)] (by decide) (by decide)
  obtain ⟨file, hfile⟩ := hok (by decide)
  obtain ⟨t, hopen, _, hmem, hnone, hcount⟩ := hread file hfile [] 0
  refine ⟨file, t, hfile, hopen, hcount, (hmem _ _).mpr (by simp), hnone _ ?_⟩
  intro r
  simp

end LsmDb
