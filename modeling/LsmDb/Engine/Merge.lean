import LsmDb.Lib.KWay
import LsmDb.Sstable.Reader

/-! Merging the memtable snapshot and the run cursors (`merge.rs`).

A round of `next` is one round of the abstract k-way merge, on sources that have been filled and of
which none reports an error. -/
namespace LsmDb
open Lib
set_option autoImplicit false

/-! ## Sources -/

inductive Source where
  | mem (entries : List Entry)
  | run (cursor : RunCursor)

namespace Source

def peekKey : Source → Option Bytes × Source
  | mem entries => (entries.head?.map Prod.fst, mem entries)
  | run cursor =>
    let (key, cursor) := cursor.peekKey
    (key, run cursor)

def nextEntry : Source → Option Entry × Source
  | mem entries => (entries.head?, mem entries.tail)
  | run cursor =>
    let (entry, cursor) := cursor.nextEntry
    (entry, run cursor)

def takeError : Source → Option Error × Source
  | mem entries => (none, mem entries)
  | run cursor =>
    let (err, cursor) := cursor.takeError
    (err, run cursor)

/-- What the source will still deliver, and the error that will end it. -/
def stream : Source → List Entry × Option Error
  | mem entries => (entries, none)
  | run cursor => cursor.stream

end Source

/-! ## The merge -/

abbrev Merge := List Source

namespace Merge

/-- `mem` first, then the runs, newest first. -/
def new (mem : List Entry) (runs : List RunCursor) : Merge := .mem mem :: runs.map .run

/-- The first loop of `next`: fill every source. -/
def fillAll (m : Merge) : Merge := m.map fun s => s.peekKey.2

/-- The second loop: the first error found is returned. -/
def takeError : Merge → Option Error × Merge
  | [] => (none, [])
  | s :: m =>
    match s.takeError with
    | (some err, s) => (some err, s :: m)
    | (none, s) =>
      let (err, m) := takeError m
      (err, s :: m)

/-- The smallest key currently available. -/
def minKey (m : Merge) : Option Bytes := (m.filterMap fun s => s.peekKey.1).min?

/-- Take that key from every source; the first (newest) record wins. -/
def takeKey (key : Bytes) : Option Record → Merge → Option Record × Merge
  | chosen, [] => (chosen, [])
  | chosen, s :: m =>
    let (front, s) := s.peekKey
    if front = some key then
      let (entry, s) := s.nextEntry
      let chosen := chosen.or (entry.map Prod.snd)
      let (chosen, m) := takeKey key chosen m
      (chosen, s :: m)
    else
      let (chosen, m) := takeKey key chosen m
      (chosen, s :: m)

/-- The `loop` of `next`. -/
def nextLoop : ℕ → Merge → Option (Except Error (Bytes × Bytes)) × Merge
  | 0, m => (none, m)
  | fuel + 1, m =>
    match (fillAll m).takeError with
    | (some err, m) => (some (.error err), m)
    | (none, m) =>
      match m.minKey with
      | none => (none, m.fillAll)
      | some key =>
        match takeKey key none m.fillAll with
        | (some (.value v), m) => (some (.ok (key, v)), m)
        | (_, m) => nextLoop fuel m

/-- The number of entries the sources can still deliver: no loop below runs for longer. -/
def size (m : Merge) : ℕ := total (m.map fun s => s.stream.1)

def next (m : Merge) : Option (Except Error (Bytes × Bytes)) × Merge := nextLoop (m.size + 1) m

/-- `for item in merge { item? }`, everything collected: at most `fuel` items. -/
def collectLoop : ℕ → Merge → List (Bytes × Bytes) × Option Error
  | 0, _ => ([], none)
  | fuel + 1, m =>
    match m.next with
    | (none, _) => ([], none)
    | (some (.error err), _) => ([], some err)
    | (some (.ok item), m) =>
      let (items, err) := collectLoop fuel m
      (item :: items, err)

/-- The items delivered before the stream ends, and the error if one ended it. -/
def collect (m : Merge) : List (Bytes × Bytes) × Option Error := collectLoop (m.size + 1) m

end Merge

/-! ## Sources and the lists behind them -/

namespace RunCursor

theorem Filled.fill_eq {c : RunCursor} (h : c.Filled) : c.fill = c := by
  unfold fill
  split_ifs with hsome
  · rfl
  · rw [not_or, Bool.not_eq_true, Bool.not_eq_true, Option.isSome_eq_false_iff,
      Option.isSome_eq_false_iff, Option.isNone_iff_eq_none, Option.isNone_iff_eq_none] at hsome
    obtain ⟨hb, hn⟩ := h.exhausted hsome.1 hsome.2
    simp only [fillLoop, hb, hn, ↓reduceIte]

end RunCursor

namespace Source

def Sound : Source → Prop
  | mem _ => True
  | run c => c.Sound

def Filled : Source → Prop
  | mem _ => True
  | run c => c.Filled

/-- The key in front of a filled source. -/
def front : Source → Option Bytes
  | mem entries => entries.head?.map Prod.fst
  | run c => c.peeked.map Prod.fst

/-- The error a filled source is about to report. -/
def err : Source → Option Error
  | mem _ => none
  | run c => c.error

/-- The source stands for the list `F`: it delivers `F`, or a part of it before an error. -/
structure Delivers (s : Source) (F : List Entry) : Prop where
  sound : s.Sound
  part : s.stream.1 <+: F
  whole : s.stream.2 = none → s.stream.1 = F

theorem delivers_mem (l : List Entry) : (mem l).Delivers l :=
  ⟨trivial, List.prefix_rfl, fun _ => rfl⟩

theorem peekKey_spec {s : Source} (h : s.Sound) :
    s.peekKey.2.Filled ∧ s.peekKey.2.Sound ∧ s.peekKey.2.stream = s.stream := by
  cases s with
  | mem l => exact ⟨trivial, trivial, rfl⟩
  | run c =>
    obtain ⟨hs, hf⟩ := RunCursor.fill_spec h
    exact ⟨hf, hf.sound, hs⟩

theorem Filled.peekKey_eq {s : Source} (h : s.Filled) : s.peekKey = (s.front, s) := by
  cases s with
  | mem l => rfl
  | run c =>
    have hc : c.fill = c := RunCursor.Filled.fill_eq h
    simp only [peekKey, RunCursor.peekKey, hc, front]

theorem Filled.takeError_none {s : Source} (he : s.err = none) : s.takeError = (none, s) := by
  cases s with
  | mem l => rfl
  | run c =>
    have hc : c.error = none := he
    obtain ⟨blocks, read, nextBlock, block, peeked, error⟩ := c
    simp only at hc
    subst hc
    rfl

theorem Filled.err_of_stream {s : Source} (h : s.Filled) (he : s.err ≠ none) : s.stream.2 ≠ none := by
  cases s with
  | mem l => exact absurd rfl he
  | run c =>
    have hp : c.peeked = none := RunCursor.Filled.error_peeked h he
    rw [stream, RunCursor.Filled.stream_none h hp]
    exact he

theorem Filled.stream_done {s : Source} (h : s.Filled) (he : s.err = none) (hfr : s.front = none) :
    s.stream.2 = none := by
  cases s with
  | mem l => rfl
  | run c =>
    have hp : c.peeked = none := Option.map_eq_none_iff.mp hfr
    rw [stream, RunCursor.Filled.stream_none h hp]
    exact he

/-- A filled source that reports no error shows the head of its list and can step to its tail. -/
theorem Delivers.cases {s : Source} {F : List Entry} (h : s.Delivers F) (hf : s.Filled)
    (he : s.err = none) :
    (F = [] ∧ s.front = none ∧ s.stream.1 = []) ∨
      ∃ e rest, F = e :: rest ∧ s.front = some e.1 ∧ s.nextEntry.1 = some e ∧
        s.nextEntry.2.Delivers rest ∧ s.stream.1 = e :: s.nextEntry.2.stream.1 ∧
        s.nextEntry.2.stream.2 = s.stream.2 := by
  cases s with
  | mem l =>
    have hl : l = F := h.whole rfl
    subst hl
    cases l with
    | nil => exact Or.inl ⟨rfl, rfl, rfl⟩
    | cons e rest =>
      exact Or.inr ⟨e, rest, rfl, rfl, rfl, delivers_mem rest, rfl, rfl⟩
  | run c =>
    have hfill : c.fill = c := RunCursor.Filled.fill_eq hf
    cases hp : c.peeked with
    | none =>
      have hs : c.stream = ([], c.error) := RunCursor.Filled.stream_none hf hp
      have hc : c.error = none := he
      have hnil : c.stream.1 = F := h.whole (by rw [stream, hs]; exact hc)
      refine Or.inl ⟨?_, by rw [front, hp]; rfl, by rw [stream, hs]⟩
      rw [← hnil, hs]
    | some e =>
      obtain ⟨_, h1, h2⟩ := RunCursor.Filled.stream_peeked hf hp
      have hpart : c.stream.1 <+: F := h.part
      rw [h1] at hpart
      obtain ⟨t, ht⟩ := hpart
      have hnext : (run c).nextEntry = (some e, run c.taken) := by
        simp only [nextEntry, RunCursor.nextEntry, hfill, hp]
      refine Or.inr ⟨e, c.taken.stream.1 ++ t, ht.symm, by rw [front, hp]; rfl, by rw [hnext],
        ?_, by rw [hnext]; exact h1, by rw [hnext]; exact h2⟩
      rw [hnext]
      refine ⟨fun _ => rfl, List.prefix_append _ _, fun hnone => ?_⟩
      have hw : c.stream.1 = F := h.whole (by rw [stream, ← h2]; exact hnone)
      rw [h1, ← ht, List.cons_append, List.cons.injEq] at hw
      exact hw.2

end Source

namespace Merge

/-- Each source stands for the list at its place. -/
abbrev Delivers (m : Merge) (Fs : List (List Entry)) : Prop := List.Forall₂ Source.Delivers m Fs

def Filled (m : Merge) : Prop := ∀ s ∈ m, s.Filled

/-- The errors that will end the sources. -/
def errors (m : Merge) : List (Option Error) := m.map fun s => s.stream.2

theorem fillAll_spec {m : Merge} {Fs : List (List Entry)} (h : m.Delivers Fs) :
    m.fillAll.Delivers Fs ∧ m.fillAll.Filled ∧ m.fillAll.size = m.size ∧ m.fillAll.errors = m.errors := by
  induction h with
  | nil => exact ⟨List.Forall₂.nil, by simp [Filled, fillAll], rfl, rfl⟩
  | @cons s F m Fs hd _ ih =>
    obtain ⟨ih1, ih2, ih3, ih4⟩ := ih
    obtain ⟨hf, hs, hstream⟩ := Source.peekKey_spec hd.sound
    refine ⟨List.Forall₂.cons ⟨hs, ?_, ?_⟩ ih1, ?_, ?_, ?_⟩
    · rw [hstream]
      exact hd.part
    · rw [hstream]
      exact hd.whole
    · intro x hx
      rcases List.mem_cons.mp hx with rfl | hx
      · exact hf
      · exact ih2 x hx
    · simp only [size, total, fillAll, List.map_cons, List.sum_cons, hstream] at ih3 ⊢
      omega
    · simp only [errors, fillAll, List.map_cons, hstream] at ih4 ⊢
      rw [ih4]

theorem Filled.fillAll_eq {m : Merge} (h : m.Filled) : m.fillAll = m := by
  induction m with
  | nil => rfl
  | cons s m ih =>
    have hs : s.peekKey.2 = s := by rw [(h s (by simp)).peekKey_eq]
    simp only [fillAll, List.map_cons, hs] at ih ⊢
    rw [ih fun x hx => h x (by simp [hx])]

/-- Polling the errors either finds one or changes nothing. -/
theorem Filled.takeError_cases {m : Merge} (h : m.Filled) :
    (m.takeError = (none, m) ∧ ∀ s ∈ m, s.err = none) ∨
      ∃ e, m.takeError.1 = some e ∧ ∃ o ∈ m.errors, o ≠ none := by
  induction m with
  | nil => exact Or.inl ⟨rfl, by simp⟩
  | cons s m ih =>
    by_cases he : s.err = none
    · have hs := Source.Filled.takeError_none he
      rcases ih fun x hx => h x (by simp [hx]) with ⟨hm, hall⟩ | ⟨e, hm, o, ho, hne⟩
      · refine Or.inl ⟨by simp only [takeError, hs, hm], ?_⟩
        intro x hx
        rcases List.mem_cons.mp hx with rfl | hx
        · exact he
        · exact hall x hx
      · refine Or.inr ⟨e, by simp only [takeError, hs, hm], o, ?_, hne⟩
        simp only [errors, List.map_cons, List.mem_cons] at ho ⊢
        exact Or.inr ho
    · have hstream := (h s (by simp)).err_of_stream he
      cases s with
      | mem l => exact absurd rfl he
      | run c =>
        cases hc : c.error with
        | none => exact absurd hc he
        | some e =>
          refine Or.inr ⟨e, ?_, _, by simp [errors], hstream⟩
          simp only [takeError, Source.takeError, RunCursor.takeError, hc]

theorem Filled.fronts_eq {m : Merge} {Fs : List (List Entry)} (h : m.Filled) (hd : m.Delivers Fs)
    (he : ∀ s ∈ m, s.err = none) : (m.filterMap fun s => s.peekKey.1) = fronts Fs := by
  induction hd with
  | nil => rfl
  | @cons s F m Fs hs _ ih =>
    have htail := ih (fun x hx => h x (by simp [hx])) (fun x hx => he x (by simp [hx]))
    have hf := h s (by simp)
    have hfront : s.peekKey.1 = F.head?.map Prod.fst := by
      rw [hf.peekKey_eq]
      rcases hs.cases hf (he s (by simp)) with ⟨rfl, hfr, _⟩ | ⟨e, rest, rfl, hfr, _⟩
      · exact hfr
      · exact hfr
    simp only [fronts, List.filterMap_cons, hfront] at htail ⊢
    rw [htail]

theorem Filled.own_fronts {m : Merge} {Fs : List (List Entry)} (h : m.Filled) (hd : m.Delivers Fs)
    (he : ∀ s ∈ m, s.err = none) : fronts (m.map fun s => s.stream.1) = fronts Fs := by
  induction hd with
  | nil => rfl
  | @cons s F m Fs hs _ ih =>
    have htail := ih (fun x hx => h x (by simp [hx])) (fun x hx => he x (by simp [hx]))
    have hhead : s.stream.1.head?.map Prod.fst = F.head?.map Prod.fst := by
      rcases hs.cases (h s (by simp)) (he s (by simp)) with ⟨rfl, _, hst⟩ | ⟨e, rest, rfl, _, _, _, hst, _⟩
      · rw [hst]
      · rw [hst]
        rfl
    simp only [fronts, List.map_cons, List.filterMap_cons, hhead] at htail ⊢
    rw [htail]

/-- The record of the smallest key: the first source that has it in front. -/
theorem find_of_head {F : List Entry} (ha : Ascending F) {key : Bytes} (hk : ∀ e ∈ F, key ≤ e.1) :
    find F key = if F.head?.map Prod.fst = some key then F.head?.map Prod.snd else none := by
  cases F with
  | nil => rfl
  | cons e rest =>
    obtain ⟨hlt, _⟩ := ascending_cons.mp ha
    obtain ⟨k, r⟩ := e
    by_cases hek : k = key
    · subst hek
      simp
    · have hlow : key < k := lt_of_le_of_ne (hk (k, r) (by simp)) (Ne.symm hek)
      rw [find_cons_of_ne (Ne.symm hek), find_none_of_lt fun x hx => hlow.trans (hlt x hx)]
      simp [hek]

/-- Taking a key moves every source that has it in front past it. -/
theorem takeKey_streams {m : Merge} {Fs : List (List Entry)} (key : Bytes) (hd : m.Delivers Fs) (hf : m.Filled)
    (he : ∀ s ∈ m, s.err = none) (chosen : Option Record) :
    ((takeKey key chosen m).2.map fun s => s.stream.1) = (m.map fun s => s.stream.1).map (advance key) := by
  induction hd generalizing chosen with
  | nil => rfl
  | @cons s F m Fs hs _ ih =>
    have hsf := hf s (by simp)
    have ih := ih (fun x hx => hf x (by simp [hx])) (fun x hx => he x (by simp [hx]))
    simp only [takeKey, hsf.peekKey_eq]
    rcases hs.cases hsf (he s (by simp)) with ⟨rfl, hfr, hst⟩ | ⟨e, rest, rfl, hfr, hn, hdel, hst, herr⟩
    · simp only [hfr, reduceCtorEq, ↓reduceIte, List.map_cons, ih, hst, advance]
    · by_cases hek : e.1 = key
      · simp only [hfr, hek, ↓reduceIte, hn, List.map_cons, ih, hst, advance]
      · have hne : ¬ some e.1 = some key := by simpa using hek
        simp only [hfr, hne, ↓reduceIte, List.map_cons, ih, hst, advance, hek]

/-- Taking the smallest key: the newest record is chosen and every list moves past the key. -/
theorem takeKey_spec {m : Merge} {Fs : List (List Entry)} {key : Bytes} (hd : m.Delivers Fs)
    (hf : m.Filled) (he : ∀ s ∈ m, s.err = none) (hasc : ∀ F ∈ Fs, Ascending F)
    (hk : ∀ F ∈ Fs, ∀ e ∈ F, key ≤ e.1) (chosen : Option Record) :
    (takeKey key chosen m).1 = chosen.or (newest Fs key) ∧
      (takeKey key chosen m).2.Delivers (Fs.map (advance key)) ∧
      (takeKey key chosen m).2.errors = m.errors := by
  induction hd generalizing chosen with
  | nil => exact ⟨by cases chosen <;> rfl, List.Forall₂.nil, rfl⟩
  | @cons s F m Fs hs _ ih =>
    have hsf := hf s (by simp)
    have ih := ih (fun x hx => hf x (by simp [hx])) (fun x hx => he x (by simp [hx]))
      (fun x hx => hasc x (by simp [hx])) (fun x hx => hk x (by simp [hx]))
    have hfind := find_of_head (hasc F (by simp)) (hk F (by simp))
    simp only [takeKey, hsf.peekKey_eq]
    rcases hs.cases hsf (he s (by simp)) with ⟨rfl, hfr, hst⟩ | ⟨e, rest, rfl, hfr, hn, hdel, hst, herr⟩
    · -- an exhausted source is passed over
      obtain ⟨h1, h2, h4⟩ := ih chosen
      simp only [hfr, reduceCtorEq, ↓reduceIte]
      refine ⟨by rw [h1, newest_cons]; rfl, List.Forall₂.cons hs h2, ?_⟩
      simp only [errors, List.map_cons] at h4 ⊢
      rw [h4]
    · by_cases hek : e.1 = key
      · obtain ⟨h1, h2, h4⟩ := ih (chosen.or (some e.2))
        have hfe : find (e :: rest) key = some e.2 := by
          rw [hfind]
          simp [hek]
        simp only [hfr, hek, ↓reduceIte, hn, Option.map_some]
        refine ⟨?_, ?_, ?_⟩
        · rw [h1, newest_cons, hfe]
          cases chosen <;> rfl
        · rw [List.map_cons, advance, if_pos hek]
          exact List.Forall₂.cons hdel h2
        · simp only [errors, List.map_cons, herr] at h4 ⊢
          rw [h4]
      · obtain ⟨h1, h2, h4⟩ := ih chosen
        have hfe : find (e :: rest) key = none := by
          rw [hfind]
          simp [hek]
        have hne : ¬ some e.1 = some key := by simpa using hek
        simp only [hfr, hne, ↓reduceIte]
        refine ⟨?_, ?_, ?_⟩
        · rw [h1, newest_cons, hfe]
          rfl
        · rw [List.map_cons, advance, if_neg hek]
          exact List.Forall₂.cons hs h2
        · simp only [errors, List.map_cons] at h4 ⊢
          rw [h4]

/-- The smallest key is in front of a source, so taking it leaves less. -/
theorem takeKey_size {m : Merge} {Fs : List (List Entry)} {key : Bytes} (hd : m.Delivers Fs) (hf : m.Filled)
    (he : ∀ s ∈ m, s.err = none) (hkey : key ∈ fronts Fs) : (takeKey key none m).2.size < m.size := by
  unfold size
  rw [takeKey_streams key hd hf he]
  exact total_advance_lt (by rw [hf.own_fronts hd he]; exact hkey)

/-! ## What `next` returns -/

/-- The outcome of `next` on sources that stand for `Fs`. -/
inductive NextSpec (m : Merge) (Fs : List (List Entry)) :
    Option (Except Error (Bytes × Bytes)) × Merge → Prop
  | finished (m' : Merge) (hm : MergeOf Record.live Fs []) (he : ∀ o ∈ m.errors, o = none) :
      NextSpec m Fs (none, m')
  | failed (err : Error) (m' : Merge) (he : ∃ o ∈ m.errors, o ≠ none) :
      NextSpec m Fs (some (.error err), m')
  | item (k v : Bytes) (m' : Merge) (Fs' : List (List Entry)) (hd : m'.Delivers Fs')
      (hasc : ∀ F ∈ Fs', Ascending F) (hsize : m'.size < m.size) (he : m'.errors = m.errors)
      (hm : ∀ out, MergeOf Record.live Fs' out → MergeOf Record.live Fs ((k, v) :: out)) :
      NextSpec m Fs (some (.ok (k, v)), m')

/-- A round that delivers nothing. -/
theorem NextSpec.skip {m m' : Merge} {Fs Fs' : List (List Entry)}
    {r : Option (Except Error (Bytes × Bytes)) × Merge} (h : NextSpec m' Fs' r) (hsize : m'.size < m.size)
    (he : m'.errors = m.errors)
    (hm : ∀ out, MergeOf Record.live Fs' out → MergeOf Record.live Fs out) : NextSpec m Fs r := by
  cases h with
  | finished m'' hnil hnone => exact finished m'' (hm [] hnil) (by rw [← he]; exact hnone)
  | failed err m'' hex => exact failed err m'' (by rw [← he]; exact hex)
  | item k v m'' Fs'' hd hasc hlt herr hout =>
    exact item k v m'' Fs'' hd hasc (hlt.trans hsize) (herr.trans he) fun out h => hm _ (hout out h)

theorem min?_mem_le {keys : List Bytes} {k : Bytes} (h : keys.min? = some k) :
    k ∈ keys ∧ ∀ x ∈ keys, k ≤ x := by
  refine ⟨List.min?_mem h, ?_⟩
  intro x hx
  exact (List.le_min?_iff h).mp le_rfl x hx

/-- What one round finds once every source has been filled: an error, nothing at all, or the smallest key. -/
inductive RoundSpec (m : Merge) (Fs : List (List Entry)) : Prop
  | failed (err : Error) (m' : Merge) (htake : m.fillAll.takeError = (some err, m')) (he : ∃ o ∈ m.errors, o ≠ none)
  | finished (htake : m.fillAll.takeError = (none, m.fillAll)) (hfill : m.fillAll.fillAll = m.fillAll)
      (hmin : m.fillAll.minKey = none) (hnil : ∀ F ∈ Fs, F = []) (hdone : ∀ s ∈ m.fillAll, s.stream = ([], none))
      (he : ∀ o ∈ m.errors, o = none)
  | took (key : Bytes) (htake : m.fillAll.takeError = (none, m.fillAll)) (hfill : m.fillAll.fillAll = m.fillAll)
      (hmin : m.fillAll.minKey = some key) (hmem : key ∈ fronts Fs) (hk : ∀ F ∈ Fs, ∀ e ∈ F, key ≤ e.1)
      (hchosen : (takeKey key none m.fillAll).1 = newest Fs key)
      (hd : (takeKey key none m.fillAll).2.Delivers (Fs.map (advance key)))
      (hsize : (takeKey key none m.fillAll).2.size < m.size)
      (he : (takeKey key none m.fillAll).2.errors = m.errors)

theorem round_spec {m : Merge} {Fs : List (List Entry)} (hd : m.Delivers Fs) (hasc : ∀ F ∈ Fs, Ascending F) :
    RoundSpec m Fs := by
  obtain ⟨hd', hf, hsize, herrs⟩ := fillAll_spec hd
  rcases hf.takeError_cases with ⟨htake, hnone⟩ | ⟨e, htake, hex⟩
  · have hfronts := hf.fronts_eq hd' hnone
    cases hmin : (fronts Fs).min? with
    | none =>
      have hnil : fronts Fs = [] := List.min?_eq_none_iff.mp hmin
      have hempty := fronts_eq_nil hnil
      have hmin' : m.fillAll.minKey = none := by rw [minKey, hfronts, hmin]
      rw [hnil, List.filterMap_eq_nil_iff] at hfronts
      have hend : ∀ s ∈ m.fillAll, s.stream.2 = none := by
        intro s hs
        have hfront := hfronts s hs
        rw [(hf s hs).peekKey_eq] at hfront
        exact (hf s hs).stream_done (hnone s hs) hfront
      refine RoundSpec.finished htake hf.fillAll_eq hmin' hempty (fun s hs => ?_) fun o ho => ?_
      · obtain ⟨i, hi, rfl⟩ := List.mem_iff_getElem.mp hs
        have hdel := List.Forall₂.get hd' hi (by rw [← hd'.length_eq]; exact hi)
        have hwhole := hdel.whole (hend _ hs)
        exact Prod.ext (hwhole.trans (hempty _ (List.get_mem ..))) (hend _ hs)
      · rw [← herrs] at ho
        obtain ⟨s, hs, rfl⟩ := List.mem_map.mp ho
        exact hend s hs
    | some key =>
      obtain ⟨hmem, hle⟩ := min?_mem_le hmin
      have hk := le_of_front hasc hle
      obtain ⟨hch, hdel, herr⟩ := takeKey_spec hd' hf hnone hasc hk none
      have hlt := takeKey_size hd' hf hnone hmem
      rw [hsize] at hlt
      exact RoundSpec.took key htake hf.fillAll_eq (by rw [minKey, hfronts, hmin]) hmem hk hch hdel hlt (herr.trans herrs)
  · rw [herrs] at hex
    exact RoundSpec.failed e _ (Prod.ext htake rfl) hex

theorem nextLoop_spec {fuel : ℕ} {m : Merge} {Fs : List (List Entry)} (hd : m.Delivers Fs)
    (hasc : ∀ F ∈ Fs, Ascending F) (hfuel : m.size < fuel) : NextSpec m Fs (nextLoop fuel m) := by
  induction fuel generalizing m Fs with
  | zero => omega
  | succ fuel ih =>
    simp only [nextLoop]
    cases round_spec hd hasc with
    | failed err m' htake he =>
      rw [htake]
      exact NextSpec.failed err m' he
    | finished htake hfill hmin hnil hdone he =>
      simp only [htake, hmin]
      exact NextSpec.finished _ (MergeOf.nil hnil) he
    | took key htake hfill hmin hmem hk hchosen hdel hlt herr =>
      simp only [htake, hmin, hfill]
      have hasc' := mem_map_advance_ascending hasc key
      have hres : resolve Record.live Fs key = (takeKey key none m.fillAll).1.bind Record.live := by
        rw [hchosen]
        rfl
      have hskip : resolve Record.live Fs key = none →
          NextSpec m Fs (nextLoop fuel (takeKey key none m.fillAll).2) := by
        intro hdead
        refine (ih hdel hasc' (by omega)).skip hlt herr fun out hout => ?_
        have hstep := MergeOf.step hasc hk hout
        rwa [hdead] at hstep
      generalize takeKey key none m.fillAll = taken at hdel herr hlt hres hskip ⊢
      obtain ⟨chosen, m'⟩ := taken
      cases chosen with
      | none => exact hskip hres
      | some r =>
        cases r with
        | tombstone => exact hskip hres
        | value v =>
          refine NextSpec.item key v m' _ hdel hasc' hlt herr fun out hout => ?_
          have hstep := MergeOf.step hasc hk hout
          rwa [hres] at hstep

theorem next_spec {m : Merge} {Fs : List (List Entry)} (hd : m.Delivers Fs)
    (hasc : ∀ F ∈ Fs, Ascending F) : NextSpec m Fs m.next := nextLoop_spec hd hasc (Nat.lt_succ_self _)

/-- Collecting to the end: an error if a source has one, else the whole merge. -/
theorem collectLoop_spec {fuel : ℕ} {m : Merge} {Fs : List (List Entry)} (hd : m.Delivers Fs)
    (hasc : ∀ F ∈ Fs, Ascending F) (hfuel : m.size < fuel) :
    ((collectLoop fuel m).2 = none ↔ ∀ o ∈ m.errors, o = none) ∧
      ((collectLoop fuel m).2 = none → MergeOf Record.live Fs (collectLoop fuel m).1) := by
  induction fuel generalizing m Fs with
  | zero => omega
  | succ fuel ih =>
    have hnext := next_spec hd hasc
    simp only [collectLoop]
    generalize m.next = r at hnext ⊢
    cases hnext with
    | finished m' hm he => exact ⟨⟨fun _ => he, fun _ => rfl⟩, fun _ => hm⟩
    | failed err m' hex =>
      obtain ⟨o, ho, hne⟩ := hex
      refine ⟨⟨fun h => by simp at h, fun hall => absurd (hall o ho) hne⟩, fun h => by simp at h⟩
    | item k v m' Fs' hd' hasc' hlt herr hm =>
      obtain ⟨h1, h2⟩ := ih hd' hasc' (by omega)
      rw [herr] at h1
      exact ⟨h1, fun h => hm _ (h2 h)⟩

theorem collect_spec {m : Merge} {Fs : List (List Entry)} (hd : m.Delivers Fs)
    (hasc : ∀ F ∈ Fs, Ascending F) :
    (m.collect.2 = none ↔ ∀ o ∈ m.errors, o = none) ∧
      (m.collect.2 = none → MergeOf Record.live Fs m.collect.1) :=
  collectLoop_spec hd hasc (Nat.lt_succ_self _)

end Merge

end LsmDb
