import LsmDb.Engine.Merge

/-! The merge when blocks cannot be read: what it delivers up to its first error, and when it ends. -/
namespace LsmDb
open Lib
set_option autoImplicit false

namespace Merge

/-! ## The keys that are taken -/

/-- The keys that the rounds of `nextLoop` take off the sources. -/
def takenLoop : ℕ → Merge → List Bytes
  | 0, _ => []
  | fuel + 1, m =>
    match (fillAll m).takeError with
    | (some _, _) => []
    | (none, m) =>
      match m.minKey with
      | none => []
      | some key =>
        match takeKey key none m.fillAll with
        | (some (.value _), _) => [key]
        | (_, m) => key :: takenLoop fuel m

/-- The keys one call of `next` takes. -/
def taken (m : Merge) : List Bytes := takenLoop (m.size + 1) m

/-- The keys taken by all calls of `collectLoop`. -/
def consumedLoop : ℕ → Merge → List Bytes
  | 0, _ => []
  | fuel + 1, m =>
    m.taken ++ match m.next with
      | (some (.ok _), m) => consumedLoop fuel m
      | _ => []

def consumed (m : Merge) : List Bytes := consumedLoop (m.size + 1) m

/-- `k'` is the largest of `k` and the keys. -/
structure Largest (k : Option Bytes) (keys : List Bytes) (k' : Option Bytes) : Prop where
  prior : ∀ x ∈ k, ∃ y ∈ k', x ≤ y
  above : ∀ x ∈ keys, ∃ y ∈ k', x ≤ y
  among : ∀ y ∈ k', y ∈ keys ∨ y ∈ k

theorem Largest.nil (k : Option Bytes) : Largest k [] k :=
  ⟨fun x hx => ⟨x, hx, le_rfl⟩, by simp, fun _ hy => Or.inr hy⟩

theorem Largest.append {k k' k'' : Option Bytes} {xs ys : List Bytes} (h : Largest k xs k') (h' : Largest k' ys k'') :
    Largest k (xs ++ ys) k'' where
  prior x hx := by
    obtain ⟨y, hy, hxy⟩ := h.prior x hx
    obtain ⟨z, hz, hyz⟩ := h'.prior y hy
    exact ⟨z, hz, hxy.trans hyz⟩
  above x hx := by
    rcases List.mem_append.mp hx with hx | hx
    · obtain ⟨y, hy, hxy⟩ := h.above x hx
      obtain ⟨z, hz, hyz⟩ := h'.prior y hy
      exact ⟨z, hz, hxy.trans hyz⟩
    · exact h'.above x hx
  among y hy := by
    rcases h'.among y hy with hy | hy
    · exact Or.inl (List.mem_append_right _ hy)
    · exact (h.among y hy).imp_left (List.mem_append_left _)

theorem Largest.single {k : Option Bytes} {key : Bytes} (hk : ∀ x ∈ k, x < key) : Largest k [key] (some key) where
  prior x hx := ⟨key, rfl, (hk x hx).le⟩
  above x hx := ⟨key, rfl, (List.mem_singleton.mp hx).le⟩
  among y hy := by
    obtain rfl : key = y := Option.some.inj hy
    exact Or.inl (List.mem_singleton.mpr rfl)

/-! ## One call -/

/-- The outcome of `next` on sources that stand for the part of `Fs` above `k`; `out` is the merge of all of `Fs`. -/
inductive NextFrom (m : Merge) (Fs : List (List Entry)) (out : List (Bytes × Bytes)) (k : Option Bytes)
    (keys : List Bytes) : Option (Except Error (Bytes × Bytes)) × Merge → Prop
  | finished (m' : Merge) (k' : Option Bytes) (hk : Largest k keys k') (hup : upTo k' out = upTo k out)
      (hnil : ∀ F ∈ Fs, beyond k' F = []) (hdone : ∀ s ∈ m', s.stream = ([], none)) (he : ∀ o ∈ m.errors, o = none) :
      NextFrom m Fs out k keys (none, m')
  | failed (err : Error) (m' : Merge) (k' : Option Bytes) (hk : Largest k keys k') (hup : upTo k' out = upTo k out)
      (he : ∃ o ∈ m.errors, o ≠ none) : NextFrom m Fs out k keys (some (.error err), m')
  | item (key v : Bytes) (m' : Merge) (hk : Largest k keys (some key))
      (hup : upTo (some key) out = upTo k out ++ [(key, v)]) (hd : m'.Delivers (Fs.map (beyond (some key))))
      (hsize : m'.size < m.size) (he : m'.errors = m.errors) : NextFrom m Fs out k keys (some (.ok (key, v)), m')

/-- A round that delivers nothing. -/
theorem NextFrom.skip {m m' : Merge} {Fs : List (List Entry)} {out : List (Bytes × Bytes)} {k : Option Bytes}
    {key : Bytes} {keys : List Bytes} {r : Option (Except Error (Bytes × Bytes)) × Merge}
    (h : NextFrom m' Fs out (some key) keys r) (hk : ∀ x ∈ k, x < key) (hup : upTo (some key) out = upTo k out)
    (hsize : m'.size < m.size) (he : m'.errors = m.errors) : NextFrom m Fs out k (key :: keys) r := by
  have hfirst := Largest.single hk
  cases h with
  | finished m'' k' hk' hup' hnil hdone hnone =>
    exact finished m'' k' (hfirst.append hk') (hup'.trans hup) hnil hdone (by rw [← he]; exact hnone)
  | failed err m'' k' hk' hup' hex =>
    exact failed err m'' k' (hfirst.append hk') (hup'.trans hup) (by rw [← he]; exact hex)
  | item key' v m'' hk' hup' hd hlt herr =>
    exact item key' v m'' (hfirst.append hk') (by rw [hup', hup]) hd (hlt.trans hsize) (herr.trans he)

theorem ascending_beyond {Fs : List (List Entry)} (hasc : ∀ F ∈ Fs, Ascending F) (k : Option Bytes) :
    ∀ F ∈ Fs.map (beyond k), Ascending F := by
  intro F hF
  obtain ⟨G, hG, rfl⟩ := List.mem_map.mp hF
  exact (hasc G hG).beyond k

theorem map_beyond_none (Fs : List (List Entry)) : Fs.map (beyond none) = Fs := by
  simp only [funext beyond_none, List.map_id_fun', id_eq]

theorem nextLoop_from {fuel : ℕ} {m : Merge} {Fs : List (List Entry)} {out : List (Bytes × Bytes)} {k : Option Bytes}
    (hd : m.Delivers (Fs.map (beyond k))) (hasc : ∀ F ∈ Fs, Ascending F) (hm : MergeOf Record.live Fs out)
    (hfuel : m.size < fuel) : NextFrom m Fs out k (takenLoop fuel m) (nextLoop fuel m) := by
  induction fuel generalizing m k with
  | zero => omega
  | succ fuel ih =>
    simp only [nextLoop, takenLoop]
    cases round_spec hd (ascending_beyond hasc k) with
    | failed err m' htake he =>
      rw [htake]
      exact NextFrom.failed err m' k (Largest.nil k) rfl he
    | finished htake hfill hmin hnil hdone he =>
      simp only [htake, hmin, hfill]
      exact NextFrom.finished _ k (Largest.nil k) rfl (fun F hF => hnil _ (List.mem_map_of_mem hF)) hdone he
    | took key htake hfill hmin hmem hk hchosen hdel hlt herr =>
      simp only [htake, hmin, hfill]
      have hkeys : ∀ F ∈ Fs, ∀ e ∈ beyond k F, key ≤ e.1 := fun F hF => hk _ (List.mem_map_of_mem hF)
      have habove : ∀ x ∈ k, x < key := by
        obtain ⟨l, hl, hfront⟩ := List.mem_filterMap.mp hmem
        obtain ⟨F, hF, rfl⟩ := List.mem_map.mp hl
        obtain ⟨e, he, rfl⟩ := Option.map_eq_some_iff.mp hfront
        exact (mem_beyond.mp (List.mem_of_head? he)).2
      have hmap : (Fs.map (beyond k)).map (advance key) = Fs.map (beyond (some key)) := by
        rw [List.map_map]
        exact List.map_congr_left fun F hF => advance_beyond (hasc F hF) habove (hkeys F hF)
      rw [hmap] at hdel
      have hres : resolve Record.live Fs key = (takeKey key none m.fillAll).1.bind Record.live := by
        rw [hchosen, newest_beyond Fs habove]
        rfl
      have hstep := hm.upTo_step habove hkeys
      have hskip : resolve Record.live Fs key = none →
          NextFrom m Fs out k (key :: takenLoop fuel (takeKey key none m.fillAll).2)
            (nextLoop fuel (takeKey key none m.fillAll).2) := by
        intro hdead
        rw [hdead, List.append_nil] at hstep
        exact (ih hdel (by omega)).skip habove hstep hlt herr
      generalize takeKey key none m.fillAll = got at hdel herr hlt hres hskip ⊢
      obtain ⟨chosen, m'⟩ := got
      cases chosen with
      | none => exact hskip hres
      | some r =>
        cases r with
        | tombstone => exact hskip hres
        | value v =>
          rw [hres] at hstep
          exact NextFrom.item key v m' (Largest.single habove) hstep hdel hlt herr

theorem next_from {m : Merge} {Fs : List (List Entry)} {out : List (Bytes × Bytes)} {k : Option Bytes}
    (hd : m.Delivers (Fs.map (beyond k))) (hasc : ∀ F ∈ Fs, Ascending F) (hm : MergeOf Record.live Fs out) :
    NextFrom m Fs out k m.taken m.next := nextLoop_from hd hasc hm (Nat.lt_succ_self _)

/-! ## Whole runs -/

theorem collectLoop_from {fuel : ℕ} {m : Merge} {Fs : List (List Entry)} {out : List (Bytes × Bytes)} {k : Option Bytes}
    (hd : m.Delivers (Fs.map (beyond k))) (hasc : ∀ F ∈ Fs, Ascending F) (hm : MergeOf Record.live Fs out)
    (hfuel : m.size < fuel) :
    ∃ k', Largest k (consumedLoop fuel m) k' ∧ upTo k' out = upTo k out ++ (collectLoop fuel m).1 := by
  induction fuel generalizing m k with
  | zero => omega
  | succ fuel ih =>
    have hnext := next_from hd hasc hm
    simp only [collectLoop, consumedLoop]
    generalize m.next = r at hnext ⊢
    cases hnext with
    | finished m' k' hk hup hnil hdone he => exact ⟨k', by rw [List.append_nil]; exact hk, by rw [List.append_nil]; exact hup⟩
    | failed err m' k' hk hup he => exact ⟨k', by rw [List.append_nil]; exact hk, by rw [List.append_nil]; exact hup⟩
    | item key v m' hk hup hd' hlt herr =>
      obtain ⟨k', hk', hup'⟩ := ih hd' (by omega)
      refine ⟨k', hk.append hk', ?_⟩
      rw [hup', hup, List.append_assoc]
      rfl

/-- The items of some calls of `next`, and the merge after them. -/
inductive Yields (m : Merge) : List (Bytes × Bytes) → Merge → Prop
  | start : Yields m [] m
  | more {items : List (Bytes × Bytes)} {item : Bytes × Bytes} {m₁ m₂ : Merge} (h : Yields m items m₁)
      (hn : m₁.next = (some (.ok item), m₂)) : Yields m (items ++ [item]) m₂

theorem Yields.from {m m' : Merge} {Fs : List (List Entry)} {out items : List (Bytes × Bytes)} (h : Yields m items m')
    (hd : m.Delivers Fs) (hasc : ∀ F ∈ Fs, Ascending F) (hm : MergeOf Record.live Fs out) :
    ∃ k, m'.Delivers (Fs.map (beyond k)) ∧ upTo k out = items ∧ m'.errors = m.errors := by
  induction h with
  | start => exact ⟨none, by rw [map_beyond_none]; exact hd, upTo_none out, rfl⟩
  | @more items item m₁ m₂ _ hn ih =>
    obtain ⟨k, hd₁, hup, herr⟩ := ih
    have hnext := next_from hd₁ hasc hm
    rw [hn] at hnext
    cases hnext with
    | item key v _ _ hup' hd' _ herr' => exact ⟨some key, hd', by rw [hup', hup], herr'.trans herr⟩

/-! ## Every call returns -/

/-- `next` returns `r`: its loop comes to an end after finitely many rounds. -/
inductive Returns : Merge → Option (Except Error (Bytes × Bytes)) × Merge → Prop
  | failed {m m' : Merge} {err : Error} (htake : m.fillAll.takeError = (some err, m')) :
      Returns m (some (.error err), m')
  | finished {m m' : Merge} (htake : m.fillAll.takeError = (none, m')) (hmin : m'.minKey = none) :
      Returns m (none, m'.fillAll)
  | item {m m' m'' : Merge} {key v : Bytes} (htake : m.fillAll.takeError = (none, m')) (hmin : m'.minKey = some key)
      (hkey : takeKey key none m'.fillAll = (some (.value v), m'')) : Returns m (some (.ok (key, v)), m'')
  | continue {m m' m'' : Merge} {key : Bytes} {chosen : Option Record}
      {r : Option (Except Error (Bytes × Bytes)) × Merge} (htake : m.fillAll.takeError = (none, m'))
      (hmin : m'.minKey = some key) (hkey : takeKey key none m'.fillAll = (chosen, m''))
      (hdead : chosen.bind Record.live = none) (hrest : Returns m'' r) : Returns m r

/-- A source that reports no error has not met one. -/
theorem sound_of_takeError {m : Merge} (h : m.fillAll.takeError.1 = none) : ∀ s ∈ m, s.Sound := by
  induction m with
  | nil => simp
  | cons s m ih =>
    have hs : s.peekKey.2.takeError.1 = none ∧ (takeError (fillAll m)).1 = none := by
      simp only [fillAll, List.map_cons, takeError] at h
      generalize s.peekKey.2.takeError = got at h ⊢
      obtain ⟨err, s'⟩ := got
      cases err with
      | some err => cases h
      | none => exact ⟨rfl, h⟩
    intro x hx
    rcases List.mem_cons.mp hx with rfl | hx
    · cases x with
      | mem l => trivial
      | run c =>
        intro he
        have hfill : c.fill = c := by
          unfold RunCursor.fill
          rw [if_pos (Or.inr (Option.isSome_iff_ne_none.mpr he))]
        have herr : c.fill.error = none := hs.1
        rw [hfill] at herr
        exact absurd herr he
    · exact ih hs.2 x hx

/-- A round that goes on leaves less to deliver: whatever state the sources are in. -/
theorem round_size {m m' : Merge} {key : Bytes} (htake : m.fillAll.takeError = (none, m')) (hmin : m'.minKey = some key) :
    (takeKey key none m'.fillAll).2.size < m.size := by
  have hd : m.Delivers (m.map fun s => s.stream.1) := by
    refine List.forall₂_map_right_iff.mpr (List.forall₂_same.mpr fun s hs => ?_)
    exact ⟨sound_of_takeError (by rw [htake]) s hs, List.prefix_rfl, fun _ => rfl⟩
  obtain ⟨hd', hf, hsize, _⟩ := fillAll_spec hd
  rcases hf.takeError_cases with ⟨hnone, herr⟩ | ⟨e, hsome, _⟩
  · obtain rfl : m.fillAll = m' := by
      rw [htake] at hnone
      exact (Prod.mk.inj hnone).2.symm
    rw [minKey, hf.fronts_eq hd' herr] at hmin
    rw [hf.fillAll_eq, ← hsize]
    exact takeKey_size hd' hf herr (min?_mem_le hmin).1
  · rw [htake] at hsome
    cases hsome

theorem returns_nextLoop {fuel : ℕ} {m : Merge} (hfuel : m.size < fuel) : m.Returns (nextLoop fuel m) := by
  induction fuel generalizing m with
  | zero => omega
  | succ fuel ih =>
    simp only [nextLoop]
    cases htake : m.fillAll.takeError with
    | mk err m' =>
      cases err with
      | some err => exact Returns.failed htake
      | none =>
        cases hmin : m'.minKey with
        | none =>
          simp only [hmin]
          exact Returns.finished htake hmin
        | some key =>
          have hlt := round_size htake hmin
          simp only [hmin]
          cases hkey : takeKey key none m'.fillAll with
          | mk chosen m'' =>
            have hlt' : m''.size < m.size := by
              rw [hkey] at hlt
              exact hlt
            have hrest := ih (show m''.size < fuel by omega)
            rcases chosen with _ | (v | _)
            · exact Returns.continue htake hmin hkey rfl hrest
            · exact Returns.item htake hmin hkey
            · exact Returns.continue htake hmin hkey rfl hrest

theorem returns_next (m : Merge) : m.Returns m.next := returns_nextLoop (Nat.lt_succ_self _)

end Merge

/-! ## Runs with blocks that cannot be read -/

structure FaultyRun where
  blocks : List DecodedBlock
  fault : ℕ → Option Error

namespace FaultyRun

def content (r : FaultyRun) : List Entry := r.blocks.flatten

def read (r : FaultyRun) (i : ℕ) : Except Error DecodedBlock :=
  match r.fault i with
  | some err => .error err
  | none => .ok (r.blocks.getD i [])

def cursor (r : FaultyRun) : RunCursor := RunCursor.new r.blocks.length r.read

/-- Some block cannot be read. -/
def Fails (r : FaultyRun) : Prop := ∃ i < r.blocks.length, r.fault i ≠ none

theorem blocksFrom_spec (r : FaultyRun) {n i : ℕ} (hn : i + n = r.blocks.length) :
    (blocksFrom r.read n i).1 <+: (r.blocks.drop i).flatten ∧
      ((blocksFrom r.read n i).2 = none → (blocksFrom r.read n i).1 = (r.blocks.drop i).flatten) ∧
      ((blocksFrom r.read n i).2 ≠ none ↔ ∃ j, i ≤ j ∧ j < r.blocks.length ∧ r.fault j ≠ none) := by
  induction n generalizing i with
  | zero =>
    have hdrop : r.blocks.drop i = [] := List.drop_eq_nil_of_le (by omega)
    refine ⟨by simp [blocksFrom], by simp [blocksFrom, hdrop], ?_⟩
    simp only [blocksFrom, ne_eq, not_true_eq_false, false_iff]
    rintro ⟨j, hle, hlt, _⟩
    omega
  | succ n ih =>
    have hi : i < r.blocks.length := by omega
    obtain ⟨hpre, hwhole, herr⟩ := ih (i := i + 1) (by omega)
    rw [List.drop_eq_getElem_cons hi, List.flatten_cons]
    cases hf : r.fault i with
    | some err =>
      simp only [blocksFrom, read, hf]
      refine ⟨List.nil_prefix, fun h => by simp at h, fun _ => ⟨i, le_rfl, hi, by simp [hf]⟩, fun _ => by simp⟩
    | none =>
      simp only [blocksFrom, read, hf, List.getD_eq_getElem?_getD, List.getElem?_eq_getElem hi, Option.getD_some]
      refine ⟨(List.prefix_append_right_inj _).mpr hpre, fun h => by rw [hwhole h], herr.trans ?_⟩
      constructor
      · rintro ⟨j, hle, hlt, hj⟩
        exact ⟨j, by omega, hlt, hj⟩
      · rintro ⟨j, hle, hlt, hj⟩
        have hne : j ≠ i := by
          rintro rfl
          exact hj hf
        exact ⟨j, by omega, hlt, hj⟩

theorem cursor_delivers (r : FaultyRun) : (Source.run r.cursor).Delivers r.content := by
  obtain ⟨hpre, hwhole, _⟩ := r.blocksFrom_spec (n := r.blocks.length) (i := 0) (by omega)
  have hstream : (Source.run r.cursor).stream = blocksFrom r.read r.blocks.length 0 := RunCursor.stream_new ..
  refine ⟨RunCursor.sound_new _ _, ?_, ?_⟩
  · rw [hstream]
    exact hpre
  · rw [hstream]
    exact hwhole

theorem stream_fails (r : FaultyRun) : (Source.run r.cursor).stream.2 ≠ none ↔ r.Fails := by
  obtain ⟨_, _, herr⟩ := r.blocksFrom_spec (n := r.blocks.length) (i := 0) (by omega)
  have hstream : (Source.run r.cursor).stream = blocksFrom r.read r.blocks.length 0 := RunCursor.stream_new ..
  rw [hstream, herr]
  constructor
  · rintro ⟨j, _, hlt, hj⟩
    exact ⟨j, hlt, hj⟩
  · rintro ⟨j, hlt, hj⟩
    exact ⟨j, Nat.zero_le j, hlt, hj⟩

end FaultyRun

/-- The merge of a memtable snapshot and runs some of whose blocks cannot be read, against the merge `out` of all
entries. Up to its first error it delivers the part of `out` up to the largest key it has taken; it ends with an error
if and only if some block fails; a call returns `None` only when every source is drained; and every call returns,
in whatever state the earlier ones left the sources. -/
theorem merge_until_error {mem : List Entry} {runs : List FaultyRun} (hmem : Ascending mem)
    (hruns : ∀ r ∈ runs, Ascending r.content) :
    let m := Merge.new mem (runs.map FaultyRun.cursor)
    ∃ out, MergeOf Record.live (mem :: runs.map FaultyRun.content) out ∧
      Ascending m.collect.1 ∧ m.collect.1 = out.filter (fun e => m.consumed.any (e.1 ≤ ·)) ∧
      (m.collect.2 ≠ none ↔ ∃ r ∈ runs, r.Fails) ∧
      (∀ items m₁ m₂, m.Yields items m₁ → m₁.next = (none, m₂) →
        items = out ∧ (∀ s ∈ m₂, s.stream = ([], none)) ∧ ∀ r ∈ runs, ¬ r.Fails) ∧
      ∀ m' : Merge, m'.Returns m'.next := by
  intro m
  have hasc : ∀ F ∈ mem :: runs.map FaultyRun.content, Ascending F := by
    intro F hF
    rcases List.mem_cons.mp hF with rfl | hF
    · exact hmem
    · obtain ⟨r, hr, rfl⟩ := List.mem_map.mp hF
      exact hruns r hr
  have hd : m.Delivers (mem :: runs.map FaultyRun.content) := by
    refine List.Forall₂.cons (Source.delivers_mem mem) ?_
    rw [List.map_map, List.forall₂_map_left_iff, List.forall₂_map_right_iff]
    exact List.forall₂_same.mpr fun r _ => r.cursor_delivers
  have herrors : (∃ o ∈ m.errors, o ≠ none) ↔ ∃ r ∈ runs, r.Fails := by
    simp only [m, Merge.errors, Merge.new, List.map_cons, List.map_map, List.mem_cons, List.mem_map]
    constructor
    · rintro ⟨o, rfl | ⟨r, hr, rfl⟩, ho⟩
      · exact absurd rfl ho
      · exact ⟨r, hr, r.stream_fails.mp ho⟩
    · rintro ⟨r, hr, hfails⟩
      exact ⟨_, Or.inr ⟨r, hr, rfl⟩, r.stream_fails.mpr hfails⟩
  have hnone : (∀ o ∈ m.errors, o = none) ↔ ¬ ∃ r ∈ runs, r.Fails := by
    rw [← herrors]
    push Not
    exact Iff.rfl
  obtain ⟨out, hm⟩ := MergeOf.exists Record.live hasc
  obtain ⟨k, hk, hup⟩ := Merge.collectLoop_from (k := none) (by rw [Merge.map_beyond_none]; exact hd) hasc hm (Nat.lt_succ_self m.size)
  rw [upTo_none, List.nil_append] at hup
  have hitems : m.collect.1 = upTo k out := hup.symm
  refine ⟨out, hm, by rw [hitems]; exact hm.ascending.filter _, ?_, ?_, fun items m₁ m₂ hy hn => ?_, Merge.returns_next⟩
  · rw [hitems]
    refine List.filter_congr fun e _ => ?_
    rw [Bool.eq_iff_iff, List.any_eq_true]
    constructor
    · intro h
      cases k with
      | none => simp at h
      | some x =>
        rcases hk.among x rfl with hx | hx
        · exact ⟨x, hx, by simpa using h⟩
        · cases hx
    · rintro ⟨x, hx, hle⟩
      obtain ⟨y, hy, hxy⟩ := hk.above x hx
      obtain rfl : k = some y := hy
      simpa using (of_decide_eq_true hle).trans hxy
  · rw [ne_eq, (Merge.collect_spec hd hasc).1, hnone, not_not]
  · obtain ⟨k₁, hd₁, hup₁, herr₁⟩ := hy.from hd hasc hm
    have hnext := Merge.next_from hd₁ hasc hm
    rw [hn] at hnext
    cases hnext with
    | finished _ k' _ hup' hnil hdone he =>
      rw [herr₁] at he
      refine ⟨?_, hdone, fun r hr hfails => hnone.mp he ⟨r, hr, hfails⟩⟩
      rw [← hup₁, ← hup', hm.upTo_all hnil]

def sampleMem : List Entry := [([1], .value [7]), ([2], .tombstone)]

/-- The second block of the run cannot be read. -/
def sampleRun : FaultyRun := ⟨[[([2], .value [8])], [([3], .value [9])]], fun i => if i = 1 then some (.corruption "data block checksum mismatch") else none⟩

theorem merge_until_error_sample :
    ∃ out, MergeOf Record.live [sampleMem, sampleRun.content] out ∧
      (Merge.new sampleMem [sampleRun.cursor]).collect = ([([1], [7])], some (.corruption "data block checksum mismatch")) ∧
      ([([1], [7])] : List (Bytes × Bytes)) = out.filter fun e => ([[1], [2]] : List Bytes).any (e.1 ≤ ·) := by
  obtain ⟨out, hm, _, hitems, _⟩ := @merge_until_error sampleMem [sampleRun] (by decide +kernel)
    (by decide +kernel)
  exact ⟨out, hm, by decide +kernel, hitems⟩

end LsmDb
