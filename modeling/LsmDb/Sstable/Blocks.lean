import LsmDb.Sstable.Accept

/-! How large the blocks of a run get. The writer cuts after the entry that reaches the target, so a block is within
the target unless its last entry arrived in a partly filled buffer and took it over. -/
namespace LsmDb
open Lib
set_option autoImplicit false

/-! ## Blocks side by side -/

/-- The handles cover the bytes from `start` to `stop`, each where the one before ends. -/
def Tiles : ℕ → ℕ → List BlockHandle → Prop
  | start, stop, [] => start = stop
  | start, stop, h :: hs => h.offset = start ∧ Tiles (start + h.len) stop hs

/-- What the format asks of the blocks: within the target, or one entry by itself. -/
structure Disciplined (bs : List (List Entry)) : Prop where
  size : ∀ b ∈ bs, (encodeBlock b).length ≤ TARGET_BLOCK_SIZE ∨ b.length = 1
  own : ∀ b ∈ bs, ∀ e ∈ b, TARGET_BLOCK_SIZE < (encodeEntry e).length → b = [e]

/-- Whenever an entry arrives in a buffer that holds something, the two together are within the target. The buffer
holds `buf` bytes to begin with. -/
def StaysWithin : ℕ → List Entry → Prop
  | _, [] => True
  | buf, e :: es =>
    (buf = 0 ∨ buf + (encodeEntry e).length ≤ TARGET_BLOCK_SIZE) ∧
      StaysWithin (if TARGET_BLOCK_SIZE ≤ buf + (encodeEntry e).length then 0 else buf + (encodeEntry e).length) es

theorem encodeEntry_le_encodeBlock {b : List Entry} {e : Entry} (h : e ∈ b) :
    (encodeEntry e).length ≤ (encodeBlock b).length := by
  obtain ⟨xs, ys, rfl⟩ := List.append_of_mem h
  rw [encodeBlock_append, show encodeBlock (e :: ys) = encodeEntry e ++ encodeBlock ys from List.flatMap_cons]
  simp only [List.length_append]
  omega

/-- The second half follows from the first. -/
theorem disciplined_iff (bs : List (List Entry)) :
    Disciplined bs ↔ ∀ b ∈ bs, (encodeBlock b).length ≤ TARGET_BLOCK_SIZE ∨ b.length = 1 := by
  refine ⟨Disciplined.size, fun h => ⟨h, fun b hb e he hbig => ?_⟩⟩
  rcases h b hb with hsmall | hone
  · have hle := encodeEntry_le_encodeBlock he
    omega
  · obtain ⟨x, rfl⟩ := List.length_eq_one_iff.mp hone
    rw [List.mem_singleton.mp he]

theorem encodeBlock_concat (b : List Entry) (e : Entry) :
    (encodeBlock (b ++ [e])).length = (encodeBlock b).length + (encodeEntry e).length := by
  rw [encodeBlock_append, List.length_append]
  simp [encodeBlock]

theorem cutClose_disciplined {c : List (List Entry) × List Entry} (hbuf : (encodeBlock c.2).length < TARGET_BLOCK_SIZE) :
    (∀ b ∈ cutClose c, (encodeBlock b).length ≤ TARGET_BLOCK_SIZE ∨ b.length = 1) ↔
      ∀ b ∈ c.1, (encodeBlock b).length ≤ TARGET_BLOCK_SIZE ∨ b.length = 1 := by
  unfold cutClose
  split_ifs with hnil
  · exact Iff.rfl
  · simp only [List.forall_mem_append, List.forall_mem_singleton]
    exact ⟨And.left, fun h => ⟨h, Or.inl hbuf.le⟩⟩

/-- Every cut adds one block, and that block is as asked exactly when its last entry stayed within the target. -/
theorem foldl_cutStep_disciplined (es : List Entry) {c : List (List Entry) × List Entry}
    (hbuf : (encodeBlock c.2).length < TARGET_BLOCK_SIZE) :
    (∀ b ∈ cutClose (es.foldl cutStep c), (encodeBlock b).length ≤ TARGET_BLOCK_SIZE ∨ b.length = 1) ↔
      (∀ b ∈ c.1, (encodeBlock b).length ≤ TARGET_BLOCK_SIZE ∨ b.length = 1) ∧
        StaysWithin (encodeBlock c.2).length es := by
  induction es generalizing c with
  | nil =>
    rw [List.foldl_nil, cutClose_disciplined hbuf, StaysWithin, and_true]
  | cons e es ih =>
    rw [List.foldl_cons, StaysWithin, ← encodeBlock_concat]
    by_cases hcut : TARGET_BLOCK_SIZE ≤ (encodeBlock (c.2 ++ [e])).length
    · rw [cutStep, if_pos hcut, if_pos hcut, ih (show (encodeBlock []).length < TARGET_BLOCK_SIZE by decide)]
      have hempty : (encodeBlock c.2).length = 0 ↔ (c.2 ++ [e]).length = 1 := by
        rw [List.length_eq_zero_iff, encodeBlock_eq_nil, List.length_append, List.length_singleton]
        simp
      simp only [List.forall_mem_append, List.forall_mem_singleton, hempty]
      rw [or_comm (a := (c.2 ++ [e]).length = 1), and_assoc]
      rfl
    · rw [cutStep, if_neg hcut, if_neg hcut, ih (not_le.mp hcut)]
      have hfits : (encodeBlock (c.2 ++ [e])).length ≤ TARGET_BLOCK_SIZE := (not_le.mp hcut).le
      simp only [hfits, or_true, true_and]

section Blocks
variable [Deps]

theorem tiles_handlesFrom (start : ℕ) (bs : List (List Entry)) :
    Tiles start (start + (bs.flatMap encodeBlock).length) (handlesFrom start bs) := by
  induction bs generalizing start with
  | nil => simp [handlesFrom, Tiles]
  | cons b bs ih =>
    rw [handlesFrom, Tiles, List.flatMap_cons, List.length_append, ← Nat.add_assoc]
    exact ⟨rfl, ih _⟩

/-- A run file: its blocks are consecutive groups of the entries and tile the file from behind the magic to the
index; and they are within the target, or single entries, exactly when no entry takes a partly filled buffer over. -/
theorem block_size_discipline {es : List Entry} {file : Bytes} (h : writeRun es = .ok file) :
    RunLayout es file (blocksOf es) ∧
      Tiles 8 (8 + ((blocksOf es).flatMap encodeBlock).length) (handlesFrom 8 (blocksOf es)) ∧
      (Disciplined (blocksOf es) ↔ StaysWithin 0 es) := by
  refine ⟨(writeRun_blocks h).1, tiles_handlesFrom 8 _, ?_⟩
  rw [disciplined_iff, blocksOf, foldl_cutStep_disciplined es (show (encodeBlock []).length < TARGET_BLOCK_SIZE by decide)]
  simp [encodeBlock]

end Blocks

theorem writeRun_sized [Deps] {es : List Entry} (hs : ∀ e ∈ es, e.Sized) (hroom : runRoom es ≤ MAX_FILE_LEN) :
    ∃ file, writeRun es = .ok file := (writeRun_cases fun e he => (hs e he).flushable).2 hroom

def smallEntry : Entry := ([1], .value [7])

/-- An entry that is larger than a block. -/
def largeEntry : Entry := ([2], .value (List.replicate 5000 0))

theorem largeEntry_valueLen : largeEntry.2.valueLen = 5000 := List.length_replicate

theorem largeEntry_length : (encodeEntry largeEntry).length = 5010 := by
  rw [encodeEntry_length, largeEntry_valueLen]
  rfl

theorem encodeBlock_smallLarge : (encodeBlock [smallEntry, largeEntry]).length = 5021 := by
  rw [encodeBlock, List.flatMap_cons, List.flatMap_singleton, List.length_append, largeEntry_length]
  rfl

theorem blocksOf_smallLarge : blocksOf [smallEntry, largeEntry] = [[smallEntry, largeEntry]] := by
  have hfirst : cutStep ([], []) smallEntry = ([], [smallEntry]) := by decide
  have hsecond : cutStep ([], [smallEntry]) largeEntry = ([[smallEntry, largeEntry]], []) := by
    have hcut : TARGET_BLOCK_SIZE ≤ (encodeBlock [smallEntry, largeEntry]).length := by
      rw [encodeBlock_smallLarge]
      decide
    exact if_pos hcut
  rw [blocksOf, List.foldl_cons, hfirst, List.foldl_cons, hsecond]
  rfl

theorem sized_smallLarge : ∀ e ∈ [smallEntry, largeEntry], e.Sized := by
  intro e he
  rcases List.mem_cons.mp he with rfl | he
  · decide
  · rw [List.mem_singleton.mp he]
    refine ⟨by decide, ?_⟩
    rw [largeEntry_valueLen]
    decide

/-- The large entry comes behind a small one and gets no block of its own: both are in one block of 5021 bytes. -/
theorem block_size_overrun : letI := Deps.concrete
    Ascending [smallEntry, largeEntry] ∧ ∃ file, writeRun [smallEntry, largeEntry] = .ok file ∧
      RunLayout [smallEntry, largeEntry] file [[smallEntry, largeEntry]] ∧
      (encodeBlock [smallEntry, largeEntry]).length = 5021 ∧ ¬ Disciplined (blocksOf [smallEntry, largeEntry]) := by
  let _ := Deps.concrete
  have hroom : runRoom [smallEntry, largeEntry] ≤ MAX_FILE_LEN := by
    simp only [runRoom, List.map_cons, List.map_nil, entryRoom, largeEntry_valueLen]
    decide
  obtain ⟨file, hfile⟩ := writeRun_sized sized_smallLarge hroom
  have hlayout := (writeRun_blocks hfile).1
  rw [blocksOf_smallLarge] at hlayout ⊢
  refine ⟨?_, file, hfile, hlayout, encodeBlock_smallLarge, fun hd => ?_⟩
  · exact ascending_cons.mpr ⟨fun e he => by rw [List.mem_singleton.mp he]; decide, List.pairwise_singleton _ _⟩
  · rcases hd.size [smallEntry, largeEntry] (by simp) with hsmall | hone
    · rw [encodeBlock_smallLarge] at hsmall
      exact absurd hsmall (by decide)
    · exact absurd hone (by decide)

theorem block_size_discipline_pair : letI := Deps.concrete
    ∃ file, writeRun [smallEntry, ([2], .tombstone)] = .ok file ∧ StaysWithin 0 [smallEntry, ([2], .tombstone)] ∧
      Disciplined (blocksOf [smallEntry, ([2], .tombstone)]) := by
  let _ := Deps.concrete
  obtain ⟨file, hfile⟩ := @writeRun_sized _ [smallEntry, ([2], .tombstone)] (by decide) (by decide)
  have hstays : StaysWithin 0 [smallEntry, ([2], .tombstone)] := ⟨Or.inl rfl, Or.inr (by decide), trivial⟩
  exact ⟨file, hfile, hstays, (block_size_discipline hfile).2.2.mpr hstays⟩

end LsmDb
