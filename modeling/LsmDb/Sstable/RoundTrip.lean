import LsmDb.Sstable.Layout
import LsmDb.Sstable.Reader

/-! Reading a finished run back: every block where its handle says, the index where the footer says, and
the binary search by last key landing on the one block that may hold a key. -/
namespace LsmDb
open Lib
set_option autoImplicit false

/-! ## Binary search by last key -/

theorem lastKey_mem {b : List Entry} (h : b ≠ []) : ∃ e ∈ b, e.1 = lastKey b := by
  refine ⟨b.getLast h, List.getLast_mem h, ?_⟩
  rw [lastKey, List.getLast?_eq_getLast_of_ne_nil h]
  rfl

theorem le_lastKey {b : List Entry} (ha : Ascending b) {e : Entry} (he : e ∈ b) : e.1 ≤ lastKey b := by
  have hne : b ≠ [] := List.ne_nil_of_mem he
  obtain ⟨front, last, rfl⟩ := List.eq_nil_or_concat b |>.resolve_left hne
  rw [List.concat_eq_append] at ha he ⊢
  rw [lastKey_append_singleton]
  rcases List.mem_append.mp he with hf | hl
  · exact ((ascending_append.mp ha).2.2 e hf last (by simp)).le
  · rw [List.mem_singleton.mp hl]

/-- The blocks below the candidate hold only smaller keys, those above it only larger ones. -/
theorem find_flatten_candidate {bs : List (List Entry)} (ha : Ascending bs.flatten)
    (hne : ∀ b ∈ bs, b ≠ []) (key : Bytes) :
    find bs.flatten key =
      match bs[(bs.takeWhile (fun b => lastKey b < key)).length]? with
      | some b => find b key
      | none => none := by
  induction bs with
  | nil => rfl
  | cons b bs ih =>
    rw [List.flatten_cons] at ha ⊢
    obtain ⟨hb, hbs, hlt⟩ := ascending_append.mp ha
    by_cases hk : lastKey b < key
    · have hnone : find b key = none :=
        find_none_of_gt fun e he => lt_of_le_of_lt (le_lastKey hb he) hk
      rw [find_append, hnone, Option.none_or, ih hbs fun c hc => hne c (by simp [hc]),
        List.takeWhile_cons_of_pos (by simpa using hk), List.length_cons, List.getElem?_cons_succ]
    · have hrest : find bs.flatten key = none := by
        refine find_none_of_lt fun x hx => ?_
        obtain ⟨e, he, hek⟩ := lastKey_mem (hne b (by simp))
        have hex := hlt e he x hx
        rw [hek] at hex
        exact lt_of_le_of_lt (not_lt.mp hk) hex
      rw [find_append, hrest, Option.or_none, List.takeWhile_cons_of_neg (by simpa using hk)]
      rfl

variable [Deps]

theorem takeWhile_handlesFrom (key : Bytes) (off : ℕ) (bs : List (List Entry)) :
    ((handlesFrom off bs).takeWhile (fun h => h.lastKey < key)).length =
      (bs.takeWhile (fun b => lastKey b < key)).length := by
  induction bs generalizing off with
  | nil => rfl
  | cons b bs ih =>
    by_cases hk : lastKey b < key
    · rw [handlesFrom, List.takeWhile_cons_of_pos (by simpa using hk),
        List.takeWhile_cons_of_pos (by simpa using hk), List.length_cons, List.length_cons, ih]
    · rw [handlesFrom, List.takeWhile_cons_of_neg (by simpa using hk),
        List.takeWhile_cons_of_neg (by simpa using hk)]
      rfl

/-! ## The index -/

theorem mem_handlesFrom {h : BlockHandle} {off : ℕ} {bs : List (List Entry)} (hm : h ∈ handlesFrom off bs) :
    ∃ b ∈ bs, h.lastKey = lastKey b ∧ h.len = (encodeBlock b).length ∧ h.crc = crc32c (encodeBlock b) ∧
      off ≤ h.offset ∧ h.offset + h.len ≤ off + (bs.flatMap encodeBlock).length := by
  induction bs generalizing off with
  | nil => simp [handlesFrom] at hm
  | cons b bs ih =>
    rw [handlesFrom] at hm
    rcases List.mem_cons.mp hm with rfl | hm
    · exact ⟨b, by simp, rfl, rfl, rfl, le_rfl, by simp⟩
    · obtain ⟨c, hc, h1, h2, h3, h4, h5⟩ := ih hm
      refine ⟨c, by simp [hc], h1, h2, h3, by omega, ?_⟩
      rw [List.flatMap_cons, List.length_append]
      omega

theorem handlesFrom_ascending {bs : List (List Entry)} (ha : Ascending bs.flatten)
    (hne : ∀ b ∈ bs, b ≠ []) (off : ℕ) :
    (handlesFrom off bs).Pairwise (fun a b => a.lastKey < b.lastKey) := by
  induction bs generalizing off with
  | nil => exact List.Pairwise.nil
  | cons b bs ih =>
    rw [List.flatten_cons] at ha
    obtain ⟨hb, hbs, hlt⟩ := ascending_append.mp ha
    rw [handlesFrom]
    refine List.pairwise_cons.mpr ⟨fun h hm => ?_, ih hbs (fun c hc => hne c (by simp [hc])) _⟩
    obtain ⟨c, hc, hkey, _⟩ := mem_handlesFrom hm
    obtain ⟨x, hx, hxk⟩ := lastKey_mem (hne b (by simp))
    obtain ⟨y, hy, hyk⟩ := lastKey_mem (hne c (by simp [hc]))
    have hxy := hlt x hx y (List.mem_flatten.mpr ⟨c, hc, hy⟩)
    rw [hkey, ← hyk]
    change lastKey b < y.1
    rw [← hxk]
    exact hxy

namespace RunLayout

variable {es : List Entry} {file : Bytes} {bs : List (List Entry)}

theorem file_length (h : RunLayout es file bs) :
    file.length = 8 + (bs.flatMap encodeBlock).length +
      (SsTableWriter.indexBytes (handlesFrom 8 bs)).length + FOOTER_SIZE := by
  have hm : MAGIC.length = 8 := rfl
  have hf : FOOTER_SIZE = 36 := rfl
  rw [h.file_eq]
  simp only [List.length_append, SsTableWriter.footer, encodeU64_length, encodeU32_length, hm, hf]

theorem key_le (h : RunLayout es file bs) {b : List Entry} (hb : b ∈ bs) {e : Entry} (he : e ∈ b) :
    e ∈ es := by
  rw [← h.entries]
  exact List.mem_flatten.mpr ⟨b, hb, he⟩

theorem wellSized (h : RunLayout es file bs) {x : BlockHandle} (hx : x ∈ handlesFrom 8 bs)
    (hle : x.lastKey.length ≤ MAX_RECORD_LEN) : x.WellSized := by
  obtain ⟨b, hb, _, hlen, hcrc, _, hoff⟩ := mem_handlesFrom hx
  have hfile := h.file_length
  have hmax := h.limit
  unfold MAX_FILE_LEN at hmax
  exact ⟨hle, by omega, by rw [hlen]; exact h.lens b hb, by rw [hcrc]; exact crc32c_lt _⟩

/-- An index key is the key of some entry. -/
theorem exists_entry (h : RunLayout es file bs) {x : BlockHandle} (hx : x ∈ handlesFrom 8 bs) :
    ∃ e ∈ es, x.lastKey = e.1 := by
  obtain ⟨b, hb, hkey, _⟩ := mem_handlesFrom hx
  obtain ⟨e, he, hek⟩ := lastKey_mem (h.nonempty b hb)
  exact ⟨e, h.key_le hb he, by rw [hkey, hek]⟩

theorem pread_footer (h : RunLayout es file bs) :
    preadExact file (file.length - FOOTER_SIZE) FOOTER_SIZE =
      .ok (SsTableWriter.footer es.length (8 + (bs.flatMap encodeBlock).length)
        (SsTableWriter.indexBytes (handlesFrom 8 bs))) := by
  have hlen := h.file_length
  have hf : FOOTER_SIZE = 36 := rfl
  have hfront : (MAGIC ++ bs.flatMap encodeBlock ++ SsTableWriter.indexBytes (handlesFrom 8 bs)).length =
      file.length - FOOTER_SIZE := by
    have hm : MAGIC.length = 8 := rfl
    simp only [List.length_append, hm]
    omega
  have hle : file.length - FOOTER_SIZE + FOOTER_SIZE ≤ file.length := by omega
  rw [preadExact_within hle]
  congr 1
  nth_rewrite 2 [h.file_eq]
  rw [List.drop_left' hfront, List.take_of_length_le]
  simp [SsTableWriter.footer, hf, MAGIC]

theorem pread_index (h : RunLayout es file bs) :
    preadExact file (8 + (bs.flatMap encodeBlock).length)
      (SsTableWriter.indexBytes (handlesFrom 8 bs)).length =
        .ok (SsTableWriter.indexBytes (handlesFrom 8 bs)) := by
  have hlen := h.file_length
  have hfront : (MAGIC ++ bs.flatMap encodeBlock).length = 8 + (bs.flatMap encodeBlock).length := by
    rw [List.length_append]
    rfl
  rw [preadExact_within (by omega)]
  congr 1
  rw [h.file_eq, List.append_assoc, List.drop_left' hfront, List.take_left' rfl]

/-- The block behind the `i`-th handle is the `i`-th block. -/
theorem pread_block (h : RunLayout es file bs) {i : ℕ} {b : List Entry} (hb : bs[i]? = some b) :
    ∃ x, (handlesFrom 8 bs)[i]? = some x ∧ x.crc = crc32c (encodeBlock b) ∧
      preadExact file x.offset x.len = .ok (encodeBlock b) := by
  obtain ⟨hi, hget⟩ := List.getElem?_eq_some_iff.mp hb
  have hsplit : bs = bs.take i ++ b :: bs.drop (i + 1) := by
    rw [← hget, List.getElem_cons_drop, List.take_append_drop]
  have hlen := h.file_length
  generalize hpre : bs.take i = pre at hsplit
  generalize hpost : bs.drop (i + 1) = post at hsplit
  have hprelen : pre.length = i := by
    rw [← hpre, List.length_take]
    omega
  have hx : (handlesFrom 8 bs)[i]? = some ⟨lastKey b, 8 + (pre.flatMap encodeBlock).length,
      (encodeBlock b).length, crc32c (encodeBlock b)⟩ := by
    rw [hsplit, handlesFrom_append, List.getElem?_append_right (by rw [handlesFrom_length]; omega),
      handlesFrom_length, hprelen, Nat.sub_self, handlesFrom]
    rfl
  refine ⟨_, hx, rfl, ?_⟩
  have hfront : (MAGIC ++ pre.flatMap encodeBlock).length = 8 + (pre.flatMap encodeBlock).length := by
    rw [List.length_append]
    rfl
  have hdata : (bs.flatMap encodeBlock).length = (pre.flatMap encodeBlock).length +
      (encodeBlock b).length + (post.flatMap encodeBlock).length := by
    rw [hsplit, List.flatMap_append, List.flatMap_cons, List.length_append, List.length_append]
    omega
  simp only
  rw [preadExact_within (by omega)]
  congr 1
  have hfile : ∃ rest, file = MAGIC ++ pre.flatMap encodeBlock ++ (encodeBlock b ++ rest) := by
    refine ⟨post.flatMap encodeBlock ++ (SsTableWriter.indexBytes (handlesFrom 8 bs) ++
      SsTableWriter.footer es.length (8 + (bs.flatMap encodeBlock).length)
        (SsTableWriter.indexBytes (handlesFrom 8 bs))), ?_⟩
    rw [h.file_eq]
    nth_rewrite 1 [hsplit]
    simp only [List.flatMap_append, List.flatMap_cons, List.append_assoc]
  obtain ⟨rest, hrest⟩ := hfile
  rw [hrest, List.drop_left' hfront, List.take_left' rfl]

theorem footer_magic (n off : ℕ) (idx : Bytes) : (SsTableWriter.footer n off idx).drop 28 = MAGIC := by
  unfold SsTableWriter.footer
  exact List.drop_left' (by simp)

theorem footer_count (n off : ℕ) (idx : Bytes) :
    (SsTableWriter.footer n off idx).take 8 = encodeU64 n := by
  unfold SsTableWriter.footer
  simp only [List.append_assoc]
  exact List.take_left' (encodeU64_length n)

theorem footer_offset (n off : ℕ) (idx : Bytes) :
    ((SsTableWriter.footer n off idx).drop 8).take 8 = encodeU64 off := by
  unfold SsTableWriter.footer
  simp only [List.append_assoc]
  rw [List.drop_left' (encodeU64_length n)]
  exact List.take_left' (encodeU64_length off)

theorem footer_len (n off : ℕ) (idx : Bytes) :
    ((SsTableWriter.footer n off idx).drop 16).take 8 = encodeU64 idx.length := by
  have hsplit : SsTableWriter.footer n off idx = (encodeU64 n ++ encodeU64 off) ++
      (encodeU64 idx.length ++ (encodeU32 (crc32c idx) ++ MAGIC)) := by
    simp [SsTableWriter.footer]
  rw [hsplit, List.drop_left' (by simp)]
  exact List.take_left' (encodeU64_length _)

theorem footer_crc (n off : ℕ) (idx : Bytes) :
    ((SsTableWriter.footer n off idx).drop 24).take 4 = encodeU32 (crc32c idx) := by
  have hsplit : SsTableWriter.footer n off idx = (encodeU64 n ++ encodeU64 off ++ encodeU64 idx.length) ++
      (encodeU32 (crc32c idx) ++ MAGIC) := by
    simp [SsTableWriter.footer]
  rw [hsplit, List.drop_left' (by simp)]
  exact List.take_left' (encodeU32_length _)

theorem count_lt (h : RunLayout es file bs) : es.length < 2 ^ 64 := by
  have hle := length_le_encodeBlock es
  have hdata : (encodeBlock es).length = (bs.flatMap encodeBlock).length := by
    rw [← encodeBlock_flatten, h.entries]
  have hfile := h.file_length
  have hmax := h.limit
  unfold MAX_FILE_LEN at hmax
  omega

/-- Opening a finished run gets as far as its index. -/
theorem readIndex_eq (h : RunLayout es file bs) :
    SsTable.readIndex file.length (preadExact file) =
      (parseIndex (SsTableWriter.indexBytes (handlesFrom 8 bs))).map (·, es.length) := by
  have hfile := h.file_length
  have hmax := h.limit
  unfold MAX_FILE_LEN at hmax
  have hf : FOOTER_SIZE = 36 := rfl
  have hm : MAGIC.length = 8 := rfl
  have hshort : ¬ file.length < MAGIC.length + FOOTER_SIZE := by omega
  have hcount := leValue_encodeU64 h.count_lt
  have hoff := leValue_encodeU64 (show 8 + (bs.flatMap encodeBlock).length < 2 ^ 64 by omega)
  have hlen := leValue_encodeU64
    (show (SsTableWriter.indexBytes (handlesFrom 8 bs)).length < 2 ^ 64 by omega)
  have hcrc := leValue_encodeU32 (crc32c_lt (SsTableWriter.indexBytes (handlesFrom 8 bs)))
  have hext : ¬ (8 + (bs.flatMap encodeBlock).length < MAGIC.length ∨
      8 + (bs.flatMap encodeBlock).length + (SsTableWriter.indexBytes (handlesFrom 8 bs)).length ≠
        file.length - FOOTER_SIZE) := by
    rw [not_or]
    exact ⟨by omega, by omega⟩
  unfold SsTable.readIndex
  simp only [hshort, ↓reduceIte, h.pread_footer, ioResult, bind, Except.bind, pure, Except.pure,
    footer_magic, footer_count, footer_offset, footer_len, footer_crc, hcount, hoff, hlen, hcrc, hext,
    h.pread_index, ne_eq, not_true_eq_false]
  cases parseIndex (SsTableWriter.indexBytes (handlesFrom 8 bs)) <;> rfl

/-- The index of a run with keys within the cap is accepted as it was written. -/
theorem readIndex_ok (h : RunLayout es file bs) (ha : Ascending es)
    (hs : ∀ x ∈ handlesFrom 8 bs, x.lastKey.length ≤ MAX_RECORD_LEN) :
    SsTable.readIndex file.length (preadExact file) = .ok (handlesFrom 8 bs, es.length) := by
  have hasc : Ascending bs.flatten := by rw [h.entries]; exact ha
  have hparse : parseIndex (SsTableWriter.indexBytes (handlesFrom 8 bs)) = .ok (handlesFrom 8 bs) :=
    parseIndex_encode (fun x hx => h.wellSized hx (hs x hx)) (handlesFrom_ascending hasc h.nonempty 8)
  rw [h.readIndex_eq, hparse]
  rfl

/-- Whatever is accepted as the index is what was written. -/
theorem readIndex_unique (h : RunLayout es file bs) (ha : Ascending es)
    {r : List BlockHandle × ℕ} (hr : SsTable.readIndex file.length (preadExact file) = .ok r) :
    r = (handlesFrom 8 bs, es.length) := by
  by_cases hs : ∀ x ∈ handlesFrom 8 bs, x.lastKey.length ≤ MAX_RECORD_LEN
  · rw [h.readIndex_ok ha hs] at hr
    simpa using hr.symm
  · have hlong : ∃ x ∈ handlesFrom 8 bs, MAX_RECORD_LEN < x.lastKey.length := by simpa using hs
    have hfit : ∀ x ∈ handlesFrom 8 bs, x.lastKey.length < 2 ^ 32 := by
      intro x hx
      obtain ⟨e, he, hek⟩ := h.exists_entry hx
      rw [hek]
      exact (h.fits e he).1
    obtain ⟨err, herr⟩ := parseIndexLoop_oversized hfit (fun x hx => h.wellSized hx) hlong none le_rfl
    have hparse : parseIndex (SsTableWriter.indexBytes (handlesFrom 8 bs)) = .error err := herr
    rw [h.readIndex_eq, hparse] at hr
    simp [Except.map] at hr

end RunLayout

/-! ## The table -/

/-- A handle on the finished run of `es`: its file, and the index the file was written with. -/
structure TableOf (t : SsTable) (es : List Entry) (bs : List (List Entry)) : Prop where
  layout : RunLayout es t.file bs
  ascending : Ascending es
  index_eq : t.index = handlesFrom 8 bs
  count_eq : t.entryCount = es.length

theorem tableOf_open {es : List Entry} {file : Bytes} {bs : List (List Entry)} {name : Text} {id : ℕ}
    {t : SsTable} (h : RunLayout es file bs) (ha : Ascending es)
    (ho : SsTable.open file name id = .ok t) : TableOf t es bs := by
  unfold SsTable.open at ho
  cases hr : SsTable.readIndex file.length (preadExact file) with
  | error err => simp [hr, bind, Except.bind] at ho
  | ok r =>
    obtain ⟨index, count⟩ := r
    obtain ⟨hi, hc⟩ := Prod.mk.inj (h.readIndex_unique ha hr)
    simp only [hr, bind, Except.bind, pure, Except.pure, Except.ok.injEq] at ho
    subst ho
    exact ⟨h, ha, hi, hc⟩

namespace TableOf

variable {t : SsTable} {es : List Entry} {bs : List (List Entry)}

theorem index_length (h : TableOf t es bs) : t.index.length = bs.length := by
  rw [h.index_eq, handlesFrom_length]

theorem block_ascending (h : TableOf t es bs) {b : List Entry} (hb : b ∈ bs) : Ascending b := by
  have hasc := h.ascending
  rw [← h.layout.entries] at hasc
  exact hasc.sublist (List.sublist_flatten_of_mem hb)

theorem readBlock_eq (h : TableOf t es bs) {i : ℕ} {b : List Entry} (hb : bs[i]? = some b) :
    t.readBlock i = decodeBlock (encodeBlock b) := by
  obtain ⟨x, hx, hcrc, hread⟩ := h.layout.pread_block hb
  have hidx : t.index[i]? = some x := by rw [h.index_eq, hx]
  simp only [SsTable.readBlock, hidx, SsTable.decodeBlockAt, hread, ioResult, bind, Except.bind, hcrc,
    ne_eq, not_true_eq_false, ↓reduceIte]

/-- A block is read as it was written, or refused because it holds something above the cap. -/
theorem readBlock_cases (h : TableOf t es bs) {i : ℕ} {b : List Entry} (hb : bs[i]? = some b) :
    (∀ e ∈ b, e.Sized) ∧ t.readBlock i = .ok b ∨
      (∃ e ∈ b, ¬ e.Sized) ∧ ∃ err, t.readBlock i = .error err := by
  have hmem : b ∈ bs := List.mem_of_getElem? hb
  rw [h.readBlock_eq hb]
  exact decodeBlock_encode_cases (fun e he => h.layout.fits e (h.layout.key_le hmem he))
    (h.block_ascending hmem)

theorem readBlock_ok (h : TableOf t es bs) (hs : ∀ e ∈ es, e.Sized) {i : ℕ} {b : List Entry}
    (hb : bs[i]? = some b) : t.readBlock i = .ok b := by
  rcases h.readBlock_cases hb with ⟨_, hok⟩ | ⟨⟨e, he, hbig⟩, _⟩
  · exact hok
  · exact absurd (hs e (h.layout.key_le (List.mem_of_getElem? hb) he)) hbig

theorem candidate_eq (h : TableOf t es bs) (key : Bytes) :
    t.candidate key = (bs.takeWhile (fun b => lastKey b < key)).length := by
  rw [SsTable.candidate, h.index_eq, takeWhile_handlesFrom]

/-- The candidate block answers for the whole run. -/
theorem find_candidate (h : TableOf t es bs) (key : Bytes) :
    find es key = match bs[t.candidate key]? with
      | some b => find b key
      | none => none := by
  have hasc := h.ascending
  rw [← h.layout.entries] at hasc ⊢
  rw [h.candidate_eq]
  exact find_flatten_candidate hasc h.layout.nonempty key

theorem lookup_eq (h : TableOf t es bs) (hs : ∀ e ∈ es, e.Sized) (key : Bytes) :
    t.lookup key = .ok (find es key) := by
  rw [h.find_candidate key]
  simp only [SsTable.lookup, h.index_length]
  split_ifs with hlt
  · rw [List.getElem?_eq_none hlt]
  · have hb : bs[t.candidate key]? = some (bs[t.candidate key]) := List.getElem?_eq_getElem (not_le.mp hlt)
    simp only [hb, h.readBlock_ok hs hb, bind, Except.bind, pure, Except.pure]

/-- What a table holds, if it can be read. -/
theorem unique (h : TableOf t es bs) (hs : ∀ e ∈ es, e.Sized) {es' : List Entry} {bs' : List (List Entry)}
    (h' : TableOf t es' bs') : es' = es := by
  have hlen : bs'.length = bs.length := h'.index_length.symm.trans h.index_length
  have hblocks : bs' = bs := by
    refine List.ext_getElem hlen fun i hi' hi => ?_
    have hread := h.readBlock_ok hs (List.getElem?_eq_getElem hi)
    rcases h'.readBlock_cases (List.getElem?_eq_getElem hi') with ⟨_, hok⟩ | ⟨_, err, herr⟩
    · exact Except.ok.inj (hok.symm.trans hread)
    · rw [hread] at herr
      cases herr
  rw [← h'.layout.entries, ← h.layout.entries, hblocks]

end TableOf

omit [Deps] in
theorem blocksFrom_ok {read : ℕ → Except Error DecodedBlock} {bs : List (List Entry)} {i : ℕ}
    (h : ∀ j b, bs[j]? = some b → read (i + j) = .ok b) :
    blocksFrom read bs.length i = (bs.flatten, none) := by
  induction bs generalizing i with
  | nil => rfl
  | cons b bs ih =>
    have hhead := h 0 b rfl
    have htail := ih (i := i + 1) fun j c hc => by
      have hj := h (j + 1) c hc
      rwa [Nat.add_comm j 1, ← Nat.add_assoc] at hj
    simp only [Nat.add_zero] at hhead
    simp only [List.length_cons, blocksFrom, hhead, htail, List.flatten_cons]

theorem TableOf.cursor_stream {t : SsTable} {es : List Entry} {bs : List (List Entry)}
    (h : TableOf t es bs) (hs : ∀ e ∈ es, e.Sized) : t.cursor.stream = (es, none) := by
  rw [SsTable.cursor, RunCursor.stream_new, h.index_length, ← h.layout.entries]
  refine blocksFrom_ok fun j b hb => ?_
  rw [Nat.zero_add]
  exact h.readBlock_ok hs hb

end LsmDb
