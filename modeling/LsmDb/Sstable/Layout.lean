import LsmDb.Sstable.Writer

/-! What the writer leaves in the file: the entries cut into non-empty consecutive blocks, one handle
per block at its true offset, and a footer that points at the index. The invariant is over the blocks
already handed over and the entries still in the buffer. -/
namespace LsmDb
open Lib
set_option autoImplicit false

variable [Deps]

/-! ## Where the writer cuts -/

/-- The blocks handed over and the entries in the buffer, after one more entry. -/
def cutStep (c : List (List Entry) × List Entry) (e : Entry) : List (List Entry) × List Entry :=
  if TARGET_BLOCK_SIZE ≤ (encodeBlock (c.2 ++ [e])).length then (c.1 ++ [c.2 ++ [e]], []) else (c.1, c.2 ++ [e])

/-- The last block is whatever is left in the buffer. -/
def cutClose (c : List (List Entry) × List Entry) : List (List Entry) :=
  if c.2 = [] then c.1 else c.1 ++ [c.2]

/-- The blocks a sequence of entries is written as. -/
def blocksOf (es : List Entry) : List (List Entry) := cutClose (es.foldl cutStep ([], []))

omit [Deps] in
theorem cutStep_flatten (c : List (List Entry) × List Entry) (e : Entry) :
    (cutStep c e).1.flatten ++ (cutStep c e).2 = c.1.flatten ++ c.2 ++ [e] := by
  unfold cutStep
  split_ifs <;> simp

omit [Deps] in
theorem foldl_cutStep_flatten (es : List Entry) (c : List (List Entry) × List Entry) :
    (es.foldl cutStep c).1.flatten ++ (es.foldl cutStep c).2 = c.1.flatten ++ c.2 ++ es := by
  induction es generalizing c with
  | nil => simp
  | cons e es ih =>
    rw [List.foldl_cons, ih, cutStep_flatten]
    simp

omit [Deps] in
theorem cutClose_flatten (c : List (List Entry) × List Entry) : (cutClose c).flatten = c.1.flatten ++ c.2 := by
  unfold cutClose
  split_ifs with hnil
  · rw [hnil, List.append_nil]
  · simp

/-- The writer and its file after the entries of `bs` were written as blocks and those of `cur` sit in
the buffer. -/
structure WriterAt (w : SsTableWriter) (file : Bytes) (bs : List (List Entry)) (cur : List Entry) :
    Prop where
  file_eq : file = MAGIC ++ bs.flatMap encodeBlock
  index_eq : w.index = handlesFrom 8 bs
  buf_eq : w.blockBuf = encodeBlock cur
  last_eq : cur ≠ [] → w.blockLastKey = lastKey cur
  nonempty : ∀ b ∈ bs, b ≠ []
  lens : ∀ b ∈ bs, (encodeBlock b).length < 2 ^ 32
  fits : ∀ e ∈ bs.flatten ++ cur, e.FitsU32
  offset_eq : w.offset = file.length
  count_eq : w.entryCount = (bs.flatten ++ cur).length % 2 ^ 64
  limit : file.length ≤ MAX_FILE_LEN
  cut : ∀ b ∈ bs, (encodeBlock b.dropLast).length < TARGET_BLOCK_SIZE
  room : (encodeBlock cur.dropLast).length < TARGET_BLOCK_SIZE

theorem WriterAt.new : WriterAt SsTableWriter.new MAGIC [] [] where
  file_eq := by simp
  index_eq := rfl
  buf_eq := rfl
  last_eq := by simp
  nonempty := by simp
  lens := by simp
  fits := by simp
  offset_eq := rfl
  count_eq := rfl
  limit := by decide
  cut := by simp
  room := by decide

omit [Deps] in
theorem writeAll_ok {file out : Bytes} {c : Chunk} (h : writeAll file c = .ok out) :
    out = file ++ c.bytes ∧ out.length ≤ MAX_FILE_LEN := by
  simp only [writeAll] at h
  split_ifs at h with hl
  have h' : file ++ c.bytes = out := by simpa using h
  rw [← h']
  exact ⟨rfl, by simpa using hl⟩

omit [Deps] in
theorem writeChunks_ok {file out : Bytes} {cs : List Chunk} (hm : file.length ≤ MAX_FILE_LEN)
    (h : writeChunks file cs = .ok out) :
    out = file ++ cs.flatMap Chunk.bytes ∧ out.length ≤ MAX_FILE_LEN := by
  induction cs generalizing file with
  | nil =>
    have h' : file = out := by simpa [writeChunks, pure, Except.pure] using h
    rw [← h']
    exact ⟨by simp, hm⟩
  | cons c cs ih =>
    simp only [writeChunks, List.foldlM_cons, bind, Except.bind] at h
    cases hw : writeAll file c with
    | error e => simp [hw] at h
    | ok mid =>
      simp only [hw] at h
      obtain ⟨hmid, hlen⟩ := writeAll_ok hw
      obtain ⟨hout, hlen'⟩ := ih hlen h
      refine ⟨?_, hlen'⟩
      rw [hout, hmid]
      simp

/-- Handing the buffered block over. -/
theorem WriterAt.flushBlock {w w' : SsTableWriter} {file file' : Bytes} {bs : List (List Entry)}
    {cur : List Entry} {chunks : List Chunk} (hinv : WriterAt w file bs cur)
    (h : w.flushBlock = .ok (w', chunks)) (hw : writeChunks file chunks = .ok file') :
    WriterAt w' file' (cutClose (bs, cur)) [] ∧ w'.blockBuf = [] := by
  obtain ⟨hfile, hlim⟩ := writeChunks_ok hinv.limit hw
  simp only [SsTableWriter.flushBlock] at h
  split_ifs at h with hnil hbig
  · obtain ⟨rfl, rfl⟩ : w = w' ∧ [] = chunks := by simpa using h
    have hcur : cur = [] := encodeBlock_eq_nil.mp (by rw [← hinv.buf_eq, hnil])
    have hsame : file' = file := by simpa using hfile
    subst hcur hsame
    exact ⟨hinv, hnil⟩
  · simp only [Except.ok.injEq, Prod.mk.injEq] at h
    obtain ⟨rfl, rfl⟩ := h
    have hne : cur ≠ [] := fun hc => hnil (by rw [hinv.buf_eq, hc]; rfl)
    have hfile' : file' = file ++ encodeBlock cur := by simpa [hinv.buf_eq] using hfile
    have hlen : (encodeBlock cur).length < 2 ^ 32 := by rw [← hinv.buf_eq]; omega
    have hoff : 8 + (bs.flatMap encodeBlock).length = file.length := by
      rw [hinv.file_eq, List.length_append]
      rfl
    refine ⟨?_, rfl⟩
    rw [cutClose, if_neg hne]
    exact {
      file_eq := by rw [hfile', hinv.file_eq]; simp
      index_eq := by
        simp only [handlesFrom_append, handlesFrom, hinv.index_eq, hoff, hinv.buf_eq, hinv.last_eq hne,
          hinv.offset_eq]
      buf_eq := rfl
      last_eq := fun hc => absurd rfl hc
      nonempty := fun b hb => by
        rcases List.mem_append.mp hb with hb | hb
        · exact hinv.nonempty b hb
        · rw [List.mem_singleton.mp hb]
          exact hne
      lens := fun b hb => by
        rcases List.mem_append.mp hb with hb | hb
        · exact hinv.lens b hb
        · rw [List.mem_singleton.mp hb]
          exact hlen
      fits := by simpa using hinv.fits
      offset_eq := by
        have hle : file'.length < 2 ^ 64 := lt_of_le_of_lt hlim (by decide)
        have hsum : file'.length = file.length + (encodeBlock cur).length := by
          rw [hfile', List.length_append]
        simp only [hinv.offset_eq, hinv.buf_eq]
        rw [← hsum, Nat.mod_eq_of_lt hle]
      count_eq := by simpa using hinv.count_eq
      limit := hlim
      cut := fun b hb => by
        rcases List.mem_append.mp hb with hb | hb
        · exact hinv.cut b hb
        · rw [List.mem_singleton.mp hb]
          exact hinv.room
      room := by decide }

/-- The writer once an entry is in its buffer, before the block may be cut. -/
theorem WriterAt.buffer {w : SsTableWriter} {file : Bytes} {bs : List (List Entry)} {cur : List Entry}
    (hinv : WriterAt w file bs cur) (hbuf : w.blockBuf.length < TARGET_BLOCK_SIZE) {e : Entry} (he : e.FitsU32) :
    WriterAt { w with
      blockBuf := w.blockBuf ++ encodeEntry (e.1, e.2), blockLastKey := e.1
      entryCount := (w.entryCount + 1) % 2 ^ 64 } file bs (cur ++ [e]) where
  file_eq := hinv.file_eq
  index_eq := hinv.index_eq
  buf_eq := by simp [hinv.buf_eq, encodeBlock]
  last_eq := fun _ => (lastKey_append_singleton cur e).symm
  nonempty := hinv.nonempty
  lens := hinv.lens
  fits := fun x hx => by
    rw [← List.append_assoc] at hx
    rcases List.mem_append.mp hx with hx | hx
    · exact hinv.fits x hx
    · rw [List.mem_singleton.mp hx]
      exact he
  offset_eq := hinv.offset_eq
  count_eq := by
    have hc := hinv.count_eq
    simp only [List.length_append, List.length_singleton, hc] at hc ⊢
    omega
  limit := hinv.limit
  cut := hinv.cut
  room := by
    rw [List.dropLast_concat, ← hinv.buf_eq]
    exact hbuf

/-- Appending one entry, cutting the block when it has reached its target size. -/
theorem WriterAt.push {w w' : SsTableWriter} {file file' : Bytes} {bs : List (List Entry)}
    {cur : List Entry} {e : Entry} {chunks : List Chunk} (hinv : WriterAt w file bs cur)
    (hbuf : w.blockBuf.length < TARGET_BLOCK_SIZE) (h : w.push e.1 e.2 = .ok (w', chunks))
    (hw : writeChunks file chunks = .ok file') :
    WriterAt w' file' (cutStep (bs, cur) e).1 (cutStep (bs, cur) e).2 ∧ w'.blockBuf.length < TARGET_BLOCK_SIZE := by
  simp only [SsTableWriter.push] at h
  have hsize : (w.blockBuf ++ encodeEntry (e.1, e.2)).length = (encodeBlock (cur ++ [e])).length := by
    rw [hinv.buf_eq, encodeBlock_append]
    simp [encodeBlock]
  split_ifs at h with hk hv hcut
  · have hmid := hinv.buffer hbuf (show e.FitsU32 from ⟨by omega, by omega⟩)
    obtain ⟨hat, hempty⟩ := hmid.flushBlock h hw
    rw [cutClose, if_neg (by simp)] at hat
    rw [hsize] at hcut
    rw [cutStep, if_pos hcut]
    exact ⟨hat, by rw [hempty]; decide⟩
  · have hmid := hinv.buffer hbuf (show e.FitsU32 from ⟨by omega, by omega⟩)
    simp only [Except.ok.injEq, Prod.mk.injEq] at h
    obtain ⟨rfl, rfl⟩ := h
    have hsame : file' = file := by
      simpa [writeChunks, pure, Except.pure] using hw.symm
    subst hsame
    refine ⟨?_, by simpa using hcut⟩
    rw [hsize] at hcut
    rw [cutStep, if_neg hcut]
    exact hmid

theorem WriterAt.pushAll {es : List Entry} {w w' : SsTableWriter} {file file' : Bytes}
    {c : List (List Entry) × List Entry} (hinv : WriterAt w file c.1 c.2)
    (hbuf : w.blockBuf.length < TARGET_BLOCK_SIZE) (h : pushAll w file es = .ok (w', file')) :
    WriterAt w' file' (es.foldl cutStep c).1 (es.foldl cutStep c).2 := by
  induction es generalizing w file c with
  | nil =>
    obtain ⟨rfl, rfl⟩ : w = w' ∧ file = file' := by simpa [LsmDb.pushAll] using h
    exact hinv
  | cons e es ih =>
    simp only [LsmDb.pushAll, bind, Except.bind] at h
    cases hp : w.push e.1 e.2 with
    | error err => simp [hp] at h
    | ok p =>
      obtain ⟨w₁, chunks⟩ := p
      simp only [hp] at h
      cases hw : writeChunks file chunks with
      | error err => simp [hw] at h
      | ok file₁ =>
        simp only [hw] at h
        obtain ⟨hat, hbuf₁⟩ := hinv.push hbuf hp hw
        rw [List.foldl_cons]
        exact ih hat hbuf₁ h

/-! ## The finished file -/

/-- A finished run file: blocks, index and footer of the entries it was written from. -/
structure RunLayout (es : List Entry) (file : Bytes) (bs : List (List Entry)) : Prop where
  entries : bs.flatten = es
  nonempty : ∀ b ∈ bs, b ≠ []
  lens : ∀ b ∈ bs, (encodeBlock b).length < 2 ^ 32
  fits : ∀ e ∈ es, e.FitsU32
  file_eq : file = MAGIC ++ bs.flatMap encodeBlock ++ SsTableWriter.indexBytes (handlesFrom 8 bs) ++
    SsTableWriter.footer es.length (8 + (bs.flatMap encodeBlock).length)
      (SsTableWriter.indexBytes (handlesFrom 8 bs))
  limit : file.length ≤ MAX_FILE_LEN

omit [Deps] in
theorem length_le_encodeBlock (es : List Entry) : 9 * es.length ≤ (encodeBlock es).length := by
  induction es with
  | nil => simp
  | cons e es ih =>
    have hlen := encodeEntry_length e
    rw [encodeBlock, List.flatMap_cons, List.length_append, List.length_cons]
    rw [encodeBlock] at ih
    omega

omit [Deps] in
theorem encodeBlock_flatten (bs : List (List Entry)) : encodeBlock bs.flatten = bs.flatMap encodeBlock := by
  induction bs with
  | nil => rfl
  | cons b bs ih => rw [List.flatten_cons, encodeBlock_append, ih, List.flatMap_cons]

theorem finish_ok {w : SsTableWriter} {chunks : List Chunk} (h : w.finish = .ok chunks) :
    ∃ w' last, w.flushBlock = .ok (w', last) ∧
      chunks = last ++ [⟨"write run index", SsTableWriter.indexBytes w'.index⟩,
        ⟨"write run footer", SsTableWriter.footer w'.entryCount w'.offset
          (SsTableWriter.indexBytes w'.index)⟩] := by
  simp only [SsTableWriter.finish, bind, Except.bind] at h
  cases hf : w.flushBlock with
  | error err => simp [hf] at h
  | ok p =>
    obtain ⟨w', last⟩ := p
    simp only [hf] at h
    split_ifs at h
    exact ⟨w', last, rfl, by simpa using h.symm⟩

omit [Deps] in
theorem writeChunks_append {file : Bytes} {xs ys : List Chunk} {out : Bytes}
    (h : writeChunks file (xs ++ ys) = .ok out) :
    ∃ mid, writeChunks file xs = .ok mid ∧ writeChunks mid ys = .ok out := by
  simp only [writeChunks, List.foldlM_append, bind, Except.bind] at h
  cases hx : writeChunks file xs with
  | error err =>
    rw [writeChunks] at hx
    simp [hx] at h
  | ok mid =>
    have hx' := hx
    rw [writeChunks] at hx'
    simp only [hx'] at h
    exact ⟨mid, rfl, h⟩

/-- A run that was written is laid out as its blocks, and a block is cut at the entry that fills it. -/
theorem writeRun_blocks {es : List Entry} {file : Bytes} (h : writeRun es = .ok file) :
    RunLayout es file (blocksOf es) ∧ ∀ b ∈ blocksOf es, (encodeBlock b.dropLast).length < TARGET_BLOCK_SIZE := by
  have hhead : writeAll [] SsTableWriter.header = .ok MAGIC := rfl
  simp only [writeRun, hhead, bind, Except.bind] at h
  cases hp : pushAll SsTableWriter.new MAGIC es with
  | error err => simp [hp] at h
  | ok p =>
    obtain ⟨w, mid⟩ := p
    simp only [hp] at h
    cases hf : w.finish with
    | error err => simp [hf] at h
    | ok chunks =>
      simp only [hf] at h
      have hat := @WriterAt.pushAll _ es _ _ _ _ ([], []) WriterAt.new (by decide) hp
      obtain ⟨w', last, hblock, rfl⟩ := finish_ok hf
      obtain ⟨mid', hlast, hrest⟩ := writeChunks_append h
      obtain ⟨hat', _⟩ := hat.flushBlock hblock hlast
      obtain ⟨hout, hlim⟩ := writeChunks_ok hat'.limit hrest
      have hes : (blocksOf es).flatten = es := by
        rw [blocksOf, cutClose_flatten, foldl_cutStep_flatten]
        rfl
      change WriterAt w' mid' (blocksOf es) [] at hat'
      generalize blocksOf es = bs' at hat' hes ⊢
      have hdata : mid'.length = 8 + (bs'.flatMap encodeBlock).length := by
        rw [hat'.file_eq, List.length_append]
        rfl
      have hcount : es.length % 2 ^ 64 = es.length := by
        have hle := length_le_encodeBlock es
        rw [← hes, encodeBlock_flatten, hes] at hle
        have hmid := hat'.limit
        have hmax : MAX_FILE_LEN < 2 ^ 64 := by decide
        exact Nat.mod_eq_of_lt (by omega)
      refine ⟨⟨hes, hat'.nonempty, hat'.lens, ?_, ?_, hlim⟩, hat'.cut⟩
      · simpa [hes] using hat'.fits
      · have hc : w'.entryCount = es.length := by
          have hc := hat'.count_eq
          rwa [List.append_nil, hes, hcount] at hc
        rw [hout, hat'.index_eq, hc, hat'.offset_eq, hdata, hat'.file_eq]
        simp

theorem writeRun_layout {es : List Entry} {file : Bytes} (h : writeRun es = .ok file) : ∃ bs, RunLayout es file bs :=
  ⟨_, (writeRun_blocks h).1⟩

omit [Deps] in
theorem eq_map_singleton {bs : List (List Entry)} (h : ∀ b ∈ bs, ∃ x, b = [x]) : bs = bs.flatten.map fun x => [x] := by
  induction bs with
  | nil => rfl
  | cons b bs ih =>
    obtain ⟨x, rfl⟩ := h b (by simp)
    rw [List.flatten_cons, List.singleton_append, List.map_cons, ← ih fun b hb => h b (by simp [hb])]

/-- Entries that each fill a block: one block for every entry. -/
theorem writeRun_singletons {es : List Entry} {file : Bytes} (h : writeRun es = .ok file)
    (hbig : ∀ x ∈ es, TARGET_BLOCK_SIZE ≤ (encodeEntry x).length) : RunLayout es file (es.map fun x => [x]) := by
  obtain ⟨hl, hcut⟩ := writeRun_blocks h
  generalize blocksOf es = bs at hl hcut
  have hone : ∀ b ∈ bs, ∃ x, b = [x] := by
    intro b hb
    have hne := hl.nonempty b hb
    have hlast : b.dropLast = [] := by
      cases hd : b.dropLast with
      | nil => rfl
      | cons x xs =>
        have hx : x ∈ es := by
          rw [← hl.entries]
          exact List.mem_flatten.mpr ⟨b, hb, List.dropLast_subset b (by rw [hd]; simp)⟩
        have hlong := hbig x hx
        have hshort := hcut b hb
        rw [hd, encodeBlock, List.flatMap_cons, List.length_append] at hshort
        omega
    refine ⟨b.getLast hne, ?_⟩
    have hsplit := List.dropLast_append_getLast hne
    rw [hlast] at hsplit
    exact hsplit.symm
  have hbs := eq_map_singleton hone
  rw [hl.entries] at hbs
  rwa [hbs] at hl

end LsmDb
