import LsmDb.Sstable.Accept
import Mathlib.Data.List.Flatten

/-! Reading files nobody vouches for. Each block and the index are checked to ascend, each by itself; what
is not checked is that a block's keys lie where the index puts the block. That is exactly when the two ways
of reading a run, by index and in sequence, agree. -/
namespace LsmDb
open Lib
set_option autoImplicit false

section Integrity
variable [Deps] {t : SsTable} {file : Bytes} {name : Text} {id : ℕ}

theorem readIndex_ascending {len : ℕ} {pread : PRead} {r : List BlockHandle × ℕ}
    (h : SsTable.readIndex len pread = .ok r) : r.1.Pairwise fun a b => a.lastKey < b.lastKey := by
  unfold SsTable.readIndex at h
  obtain ⟨_, h⟩ := check_eq_ok h
  obtain ⟨footer, _, h⟩ := bind_eq_ok.mp h
  obtain ⟨_, h⟩ := check_eq_ok h
  obtain ⟨_, h⟩ := check_eq_ok h
  obtain ⟨bytes, _, h⟩ := bind_eq_ok.mp h
  obtain ⟨_, h⟩ := check_eq_ok h
  obtain ⟨index, hparse, h⟩ := bind_eq_ok.mp h
  obtain rfl := Except.ok.inj h
  exact ((parseIndex_ok_iff _ _).mp hparse).2.1

theorem open_ascending (h : SsTable.open file name id = .ok t) :
    t.index.Pairwise fun a b => a.lastKey < b.lastKey := by
  obtain ⟨r, hread, h⟩ := bind_eq_ok.mp h
  obtain rfl := Except.ok.inj h
  exact readIndex_ascending hread

theorem readBlock_ascending {i : ℕ} {b : DecodedBlock} (h : t.readBlock i = .ok b) : Ascending b := by
  unfold SsTable.readBlock at h
  cases hidx : t.index[i]? with
  | none => simp [hidx] at h
  | some handle =>
    simp only [hidx] at h
    obtain ⟨buf, _, h⟩ := bind_eq_ok.mp h
    obtain ⟨_, h⟩ := check_eq_ok h
    exact ((decodeBlock_ok_iff _ _).mp h).2.1

/-! ## Blocks in sequence -/

/-- Draining ends by itself, with these entries and without an error. -/
def RunCursor.Yields (c : RunCursor) (es : List Entry) : Prop :=
  ∀ fuel, es.length < fuel → (RunCursor.drain fuel c).1 = es ∧ (RunCursor.drain fuel c).2.error = none

omit [Deps] in
theorem RunCursor.Yields.stream {c : RunCursor} {es : List Entry} (h : c.Yields es) (hs : c.Sound) :
    c.stream = (es, none) := by
  have hlong : es.length < es.length + c.stream.1.length + 1 := by omega
  obtain ⟨h1, h2⟩ := h _ hlong
  obtain ⟨h3, h4⟩ := RunCursor.drain_spec hs (show c.stream.1.length < es.length + c.stream.1.length + 1 by omega)
  rw [h1] at h3
  rw [h2] at h4
  rw [h3, h4]

omit [Deps] in
theorem RunCursor.yields_of_stream {c : RunCursor} {es : List Entry} (hs : c.Sound)
    (h : c.stream = (es, none)) : c.Yields es := by
  intro fuel hfuel
  have hdrain := RunCursor.drain_spec hs (show c.stream.1.length < fuel by rw [h]; exact hfuel)
  rw [h] at hdrain
  exact hdrain

omit [Deps] in
/-- Without an error every block was read. -/
theorem blocksFrom_none {read : ℕ → Except Error DecodedBlock} {n i : ℕ} {es : List Entry}
    (h : blocksFrom read n i = (es, none)) :
    ∃ bs : List (List Entry), bs.length = n ∧ bs.flatten = es ∧ ∀ j b, bs[j]? = some b → read (i + j) = .ok b := by
  induction n generalizing i es with
  | zero =>
    obtain rfl : [] = es := by simpa [blocksFrom] using h
    exact ⟨[], rfl, rfl, by simp⟩
  | succ n ih =>
    simp only [blocksFrom] at h
    cases hread : read i with
    | error err => simp [hread] at h
    | ok b =>
      simp only [hread, Prod.mk.injEq] at h
      have hrest : blocksFrom read n (i + 1) = ((blocksFrom read n (i + 1)).1, none) := by rw [← h.2]
      obtain ⟨bs, hlen, hflat, hbs⟩ := ih hrest
      refine ⟨b :: bs, by simp [hlen], by rw [List.flatten_cons, hflat, h.1], ?_⟩
      intro j b' hj
      cases j with
      | zero =>
        obtain rfl : b = b' := by simpa using hj
        exact hread
      | succ j =>
        have hnext := hbs j b' (by simpa using hj)
        rwa [Nat.add_right_comm, Nat.add_assoc] at hnext

/-! ## The two ways of reading -/

omit [Deps] in
theorem takeWhile_length {α : Type} {p : α → Bool} {l : List α} {i : ℕ} (hle : i ≤ l.length)
    (hbefore : ∀ j x, j < i → l[j]? = some x → p x = true) (hat : ∀ x, l[i]? = some x → p x = false) :
    (l.takeWhile p).length = i := by
  induction l generalizing i with
  | nil =>
    have hi : i = 0 := by simpa using hle
    simp [hi]
  | cons a l ih =>
    cases i with
    | zero =>
      have ha : p a = false := hat a rfl
      simp [ha]
    | succ i =>
      have ha : p a = true := hbefore 0 a (by omega) rfl
      have hrest := ih (by simpa using hle) (fun j x hj hx => hbefore (j + 1) x (by omega) (by simpa using hx))
        (fun x hx => hat x (by simpa using hx))
      simp [ha, hrest]

omit [Deps] in
theorem of_lt_takeWhile_length {α : Type} {p : α → Bool} {l : List α} {j : ℕ} {x : α}
    (hj : j < (l.takeWhile p).length) (hx : l[j]? = some x) : p x = true := by
  induction l generalizing j with
  | nil => simp at hj
  | cons a l ih =>
    cases ha : p a with
    | false => simp [ha] at hj
    | true =>
      cases j with
      | zero =>
        obtain rfl : a = x := by simpa using hx
        exact ha
      | succ j => exact ih (by simpa [ha] using hj) (by simpa using hx)

omit [Deps] in
theorem of_eq_takeWhile_length {α : Type} {p : α → Bool} {l : List α} {x : α}
    (hx : l[(l.takeWhile p).length]? = some x) : p x = false := by
  induction l with
  | nil => simp at hx
  | cons a l ih =>
    cases ha : p a with
    | false =>
      obtain rfl : a = x := by simpa [ha] using hx
      exact ha
    | true => exact ih (by simpa [ha] using hx)

/-- Every key lies where the index puts its block: at most the block's last key, and above the last key of
the block before. -/
def SsTable.Placed (t : SsTable) : Prop :=
  ∀ i h b, t.index[i]? = some h → t.readBlock i = .ok b → ∀ x ∈ b,
    x.1 ≤ h.lastKey ∧ ∀ j h', i = j + 1 → t.index[j]? = some h' → h'.lastKey < x.1

/-- The index ascends, so a key above the last key of the block before is above all earlier ones. -/
theorem SsTable.Placed.before (hp : t.Placed) (hsorted : t.index.Pairwise fun a b => a.lastKey < b.lastKey)
    {i j : ℕ} {h h' : BlockHandle} {b : DecodedBlock} (hh : t.index[i]? = some h) (hb : t.readBlock i = .ok b)
    {x : Entry} (hx : x ∈ b) (hij : j < i) (hh' : t.index[j]? = some h') : h'.lastKey < x.1 := by
  obtain ⟨hj, rfl⟩ := List.getElem?_eq_some_iff.mp hh'
  obtain ⟨hi, rfl⟩ := List.getElem?_eq_some_iff.mp hh
  have hprev : t.index[i - 1]? = some t.index[i - 1] := List.getElem?_eq_getElem (by omega)
  have hlast := (hp i _ b hh hb x hx).2 (i - 1) _ (by omega) hprev
  rcases Nat.lt_or_ge j (i - 1) with hlt | hge
  · exact (List.pairwise_iff_getElem.mp hsorted j (i - 1) hj (by omega) hlt).trans hlast
  · have heq : j = i - 1 := by omega
    subst heq
    exact hlast

theorem SsTable.Placed.candidate_eq (hp : t.Placed)
    (hsorted : t.index.Pairwise fun a b => a.lastKey < b.lastKey) {i : ℕ} {b : DecodedBlock} (hb : t.readBlock i = .ok b)
    (hi : i < t.index.length) {x : Entry} (hx : x ∈ b) : t.candidate x.1 = i := by
  have hget : t.index[i]? = some t.index[i] := List.getElem?_eq_getElem hi
  have hle := (hp i _ b hget hb x hx).1
  refine takeWhile_length hi.le ?_ ?_
  · intro j h hj hh
    simpa using hp.before hsorted hget hb hx hj hh
  · intro h hh
    obtain rfl : t.index[i] = h := by rw [hget] at hh; exact Option.some.inj hh
    simpa using hle

/-- One lookup, once every block can be read. -/
theorem lookup_of_blocks {bs : List (List Entry)} (hlen : bs.length = t.index.length)
    (hbs : ∀ j b, bs[j]? = some b → t.readBlock j = .ok b) (k : Bytes) :
    t.lookup k = .ok (match bs[t.candidate k]? with
      | some b => find b k
      | none => none) := by
  unfold SsTable.lookup
  by_cases hle : t.index.length ≤ t.candidate k
  · have hnone : bs[t.candidate k]? = none := List.getElem?_eq_none (by omega)
    simp [hle, hnone]
  · have hlt : t.candidate k < bs.length := by omega
    have hsome : bs[t.candidate k]? = some bs[t.candidate k] := List.getElem?_eq_getElem hlt
    simp only [if_neg hle, hbs _ _ hsome, hsome]
    rfl

theorem ascending_of_placed {bs : List (List Entry)} (hlen : bs.length = t.index.length)
    (hbs : ∀ j b, bs[j]? = some b → t.readBlock j = .ok b) (hp : t.Placed)
    (hsorted : t.index.Pairwise fun a b => a.lastKey < b.lastKey) : Ascending bs.flatten := by
  refine List.pairwise_flatten.mpr ⟨fun b hb => ?_, ?_⟩
  · obtain ⟨j, hj⟩ := List.getElem?_of_mem hb
    exact readBlock_ascending (hbs j b hj)
  · refine List.pairwise_iff_getElem.mpr ?_
    intro i j hi hj hij x hx y hy
    have hbi := hbs i _ (List.getElem?_eq_getElem hi)
    have hbj := hbs j _ (List.getElem?_eq_getElem hj)
    have hgi : t.index[i]? = some (t.index[i]) := List.getElem?_eq_getElem (by omega)
    have hgj : t.index[j]? = some (t.index[j]) := List.getElem?_eq_getElem (by omega)
    exact lt_of_le_of_lt (hp i _ _ hgi hbi x hx).1 (hp.before hsorted hgj hbj hy hij hgi)

omit [Deps] in
/-- A key in two blocks of an ascending sequence. -/
theorem same_block {bs : List (List Entry)} (hasc : Ascending bs.flatten) {i j : ℕ} {b b' : List Entry}
    (hb : bs[i]? = some b) (hb' : bs[j]? = some b') {x : Entry} (hx : x ∈ b) (hx' : x ∈ b') : i = j := by
  have hpair := (List.pairwise_flatten.mp hasc).2
  rw [List.pairwise_iff_getElem] at hpair
  obtain ⟨hi, rfl⟩ := List.getElem?_eq_some_iff.mp hb
  obtain ⟨hj, rfl⟩ := List.getElem?_eq_some_iff.mp hb'
  rcases lt_trichotomy i j with hij | hij | hij
  · exact absurd (hpair i j hi hj hij x hx x hx') (lt_irrefl _)
  · exact hij
  · exact absurd (hpair j i hj hi hij x hx' x hx) (lt_irrefl _)

/-- A file that opens and can be read to its end is read consistently exactly when its keys lie where the
index puts them. -/
theorem reader_integrity (file : Bytes) (name : Text) (id : ℕ) (t : SsTable) (es : List Entry)
    (hopen : SsTable.open file name id = .ok t) (hend : t.cursor.Yields es) :
    (Ascending es ∧ ∀ k, ∃ o, t.lookup k = .ok o ∧ ∀ r, o = some r ↔ (k, r) ∈ es) ↔ t.Placed := by
  have hstream := hend.stream (RunCursor.sound_new _ _)
  rw [SsTable.cursor, RunCursor.stream_new] at hstream
  obtain ⟨bs, hlen, rfl, hbs⟩ := blocksFrom_none hstream
  simp only [Nat.zero_add] at hbs
  have hfind : ∀ k b, bs[t.candidate k]? = some b → t.lookup k = .ok (find b k) := by
    intro k b hb
    rw [lookup_of_blocks hlen hbs, hb]
  constructor
  · rintro ⟨hasc, hlookup⟩ i h b hh hb x hx
    have hi : i < bs.length := by
      rw [hlen]
      exact (List.getElem?_eq_some_iff.mp hh).1
    have hbi : bs[i]? = some b := by
      have hsome := List.getElem?_eq_getElem hi
      have hread := hbs i _ hsome
      rw [hb] at hread
      rw [hsome, ← Except.ok.inj hread]
    -- the lookup finds the entry, so the candidate block is the one it came from
    have hmem : x ∈ bs.flatten := List.mem_flatten.mpr ⟨b, List.mem_of_getElem? hbi, hx⟩
    obtain ⟨o, ho, hiff⟩ := hlookup x.1
    have hsome := (hiff x.2).mpr hmem
    have hcand : t.candidate x.1 = i := by
      rw [lookup_of_blocks hlen hbs, hsome] at ho
      cases hb' : bs[t.candidate x.1]? with
      | none => simp [hb'] at ho
      | some b' =>
        simp only [hb', Except.ok.injEq] at ho
        exact same_block hasc hb' hbi (mem_of_find ho) hx
    refine ⟨?_, fun j h' hj hh' => ?_⟩
    · rw [← hcand] at hh
      simpa using of_eq_takeWhile_length hh
    · have hlt : j < t.candidate x.1 := by omega
      simpa using of_lt_takeWhile_length hlt hh'
  · intro hp
    have hsorted := open_ascending hopen
    have hasc := ascending_of_placed hlen hbs hp hsorted
    refine ⟨hasc, fun k => ⟨_, lookup_of_blocks hlen hbs k, fun r => ?_⟩⟩
    constructor
    · intro hr
      cases hb : bs[t.candidate k]? with
      | none => simp [hb] at hr
      | some b =>
        simp only [hb] at hr
        exact List.mem_flatten.mpr ⟨b, List.mem_of_getElem? hb, mem_of_find hr⟩
    · intro hmem
      obtain ⟨b, hb, hx⟩ := List.mem_flatten.mp hmem
      obtain ⟨i, hi⟩ := List.getElem?_of_mem hb
      have hlt : i < t.index.length := by
        rw [← hlen]
        exact (List.getElem?_eq_some_iff.mp hi).1
      have hcand : t.candidate k = i := hp.candidate_eq hsorted (hbs i b hi) hlt hx
      rw [hcand, hi]
      exact (readBlock_ascending (hbs i b hi)).find_of_mem hx

end Integrity

/-- A file with one block, of key 2, that its index puts up to `last`. -/
def oneBlockFile [Deps] (last : Bytes) : Bytes :=
  let block := encodeBlock [([2], .value [7])]
  let index := encodeHandle ⟨last, 8, block.length, crc32c block⟩
  MAGIC ++ block ++ index ++ SsTableWriter.footer 1 (8 + block.length) index

def oneBlockTable [Deps] (last : Bytes) : SsTable :=
  let block := encodeBlock [([2], .value [7])]
  ⟨oneBlockFile last, [], [⟨last, 8, block.length, crc32c block⟩], 1, none, 0⟩

theorem open_oneBlockFile [Deps] {last : Bytes}
    (h : SsTable.readIndex (oneBlockFile last).length (preadExact (oneBlockFile last)) =
      .ok ((oneBlockTable last).index, 1)) :
    SsTable.open (oneBlockFile last) [] 0 = .ok (oneBlockTable last) := by
  simp only [SsTable.open, h, bind, Except.bind, pure, Except.pure]
  rfl

theorem yields_oneBlockFile [Deps] {last : Bytes}
    (h : (oneBlockTable last).readBlock 0 = .ok [([2], .value [7])]) :
    (oneBlockTable last).cursor.Yields [([2], .value [7])] := by
  refine RunCursor.yields_of_stream (RunCursor.sound_new _ _) ?_
  rw [SsTable.cursor, RunCursor.stream_new]
  show blocksFrom _ 1 0 = _
  simp only [blocksFrom, h]
  rfl

/-- The index says the block ends at key 1: the cursor yields key 2, and the lookup does not find it. -/
theorem reader_integrity_misplaced : letI := Deps.concrete
    SsTable.open (oneBlockFile [1]) [] 0 = .ok (oneBlockTable [1]) ∧
      (oneBlockTable [1]).cursor.Yields [([2], .value [7])] ∧ (oneBlockTable [1]).lookup [2] = .ok none ∧
      ¬ ∀ k, ∃ o, (oneBlockTable [1]).lookup k = .ok o ∧ ∀ r, o = some r ↔ (k, r) ∈ [([2], .value [7])] := by
  let _ := Deps.concrete
  have hnone : (oneBlockTable [1]).lookup [2] = .ok none := by decide +kernel
  refine ⟨open_oneBlockFile (by decide +kernel), yields_oneBlockFile (by decide +kernel), hnone, fun hall => ?_⟩
  obtain ⟨o, ho, hiff⟩ := hall [2]
  rw [hnone] at ho
  have hsome := (hiff (.value [7])).mpr (by simp)
  rw [← Except.ok.inj ho] at hsome
  simp at hsome

theorem reader_integrity_placed : letI := Deps.concrete
    SsTable.open (oneBlockFile [2]) [] 0 = .ok (oneBlockTable [2]) ∧ (oneBlockTable [2]).Placed ∧
      (oneBlockTable [2]).lookup [2] = .ok (some (.value [7])) ∧ (oneBlockTable [2]).lookup [1] = .ok none := by
  let _ := Deps.concrete
  have hopen : SsTable.open (oneBlockFile [2]) [] 0 = .ok (oneBlockTable [2]) :=
    open_oneBlockFile (by decide +kernel)
  have hread : (oneBlockTable [2]).readBlock 0 = .ok [([2], .value [7])] := by decide +kernel
  have hplaced : (oneBlockTable [2]).Placed := by
    intro i h b hh hb x hx
    cases i with
    | zero =>
      obtain rfl : (oneBlockTable [2]).index.head (by decide) = h := Option.some.inj hh
      rw [hread] at hb
      obtain rfl := Except.ok.inj hb
      obtain rfl : x = ([2], .value [7]) := by simpa using hx
      exact ⟨le_refl _, fun j h' hj => by omega⟩
    | succ i => simp [oneBlockTable] at hh
  obtain ⟨_, hlookup⟩ := (reader_integrity _ _ _ _ _ hopen (yields_oneBlockFile hread)).mpr hplaced
  refine ⟨hopen, hplaced, ?_, ?_⟩
  · obtain ⟨o, ho, hiff⟩ := hlookup [2]
    rw [ho, (hiff (.value [7])).mpr (by simp)]
  · obtain ⟨o, ho, hiff⟩ := hlookup [1]
    cases o with
    | none => exact ho
    | some r => simpa using (hiff r).mp rfl

end LsmDb
