import LsmDb.Proof.Flushing

/-! The read path: point lookups through the cache, scans, and the handles a reader gives back. -/
namespace LsmDb
open Lib
set_option autoImplicit false

section Reading
variable [Deps] {e : Env} {t : Tid} {a : Own} {E : Own → Error → Prop}

/-! ## Handles -/

theorem safe_dropRuns {Q : Own → Unit → Prop} {tables : List SsTable} (hm : a.mode = .live) (hheld : a.held = tables)
    (hdead : a.dead = none) (hq : Q { a with held := [] } ()) : SafeP e t Q (dropRuns tables) a := by
  induction tables generalizing a with
  | nil =>
    rw [← hheld] at hq
    exact SafeP.pure hq
  | cons table tables ih =>
    refine SafeP.perform (does_release hm hheld hdead fun last => ?_)
    have hrest : SafeP e t Q (dropRuns tables) { a with held := tables, dead := none } := by
      refine ih hm rfl rfl ?_
      rw [← hdead]
      exact hq
    cases last with
    | false => exact hrest
    | true =>
      refine SafeP.perform (does_remove (d := some table) hm rfl (Or.inl rfl) (Or.inl rfl) fun _ => ?_)
      refine SafeP.perform (does_remove (d := none) hm rfl (Or.inr rfl) (Or.inr rfl) fun _ => ?_)
      exact hrest

/-! ## Point lookups -/

theorem safe_cachedBlock {Q : Own → DecodedBlock → Prop} {table : SsTable} {i : ℕ} (hm : a.mode = .live)
    (hheld : table ∈ a.held) (hi : i < table.index.length)
    (hok : ∀ block, (e.small = true → table.readBlock i = .ok block) → Q a block)
    (herr : ∀ err, e.blockFaults = true ∨ table.readBlock i = .error err → E a err) :
    SafeM e t Q E (cachedBlock table i) a := by
  refine SafeM.perform (does_cacheGet hm hheld hi fun r hr => ?_)
  cases r with
  | some block => exact SafeM.pure (hok block fun hsmall => hr hsmall block rfl)
  | none =>
    refine SafeM.bind (Does.safe (does_readBlock hm ?_ fun hf err => herr err (Or.inl hf)))
    cases hread : table.readBlock i with
    | error err => exact herr err (Or.inr hread)
    | ok block =>
      exact SafeM.perform (does_cacheInsert hm hheld hi hread (SafeM.pure (hok block fun _ => hread)))

theorem safe_lookupRun {Q : Own → Option Record → Prop} {table : SsTable} {key : Bytes} (hm : a.mode = .live)
    (hheld : table ∈ a.held) (hok : ∀ r, (e.small = true → table.lookup key = .ok r) → Q a r)
    (herr : ∀ err, e.blockFaults = true ∨ table.lookup key = .error err → E a err) :
    SafeM e t Q E (lookup table key) a := by
  unfold lookup
  by_cases hlen : table.index.length ≤ table.candidate key
  · simp only [if_pos hlen]
    refine SafeM.pure (hok none fun _ => ?_)
    simp only [SsTable.lookup, if_pos hlen]
  · have hlook : table.lookup key = (table.readBlock (table.candidate key)).map fun block => find block key := by
      simp only [SsTable.lookup, if_neg hlen]
      cases table.readBlock (table.candidate key) <;> rfl
    simp only [if_neg hlen]
    refine SafeM.bind (safe_cachedBlock hm hheld (by omega) ?_ ?_)
    · intro block hblock
      refine SafeM.pure (hok _ fun hsmall => ?_)
      rw [hlook, hblock hsmall]
      rfl
    · intro err hbad
      refine herr err (hbad.imp_right fun hread => ?_)
      rw [hlook, hread]
      rfl

/-- Any answer a table gives is the right one. -/
theorem Reads.lookup_ok {r : SsTable} {es : List Entry} (hr : Reads r es) {key : Bytes} {o : Option Record}
    (h : r.lookup key = .ok o) : o = find es key := by
  obtain ⟨bs, htab⟩ := hr.table
  rw [htab.find_candidate key]
  simp only [SsTable.lookup, htab.index_length] at h
  split_ifs at h with hlen
  · rw [List.getElem?_eq_none hlen]
    exact (Except.ok.inj h).symm
  · have hb : bs[r.candidate key]? = some bs[r.candidate key] := List.getElem?_eq_getElem (not_le.mp hlen)
    rw [hb]
    rcases htab.readBlock_cases hb with ⟨_, hread⟩ | ⟨_, err, hread⟩
    · simp only [hread, bind, Except.bind, pure, Except.pure, Except.ok.injEq] at h
      exact h.symm
    · simp [hread, bind, Except.bind] at h

theorem Reads.lookup_of_sized {r : SsTable} {es : List Entry} (hr : Reads r es) (hs : ∀ x ∈ es, x.Sized) (key : Bytes) :
    r.lookup key = .ok (find es key) := by
  obtain ⟨bs, htab⟩ := hr.table
  exact htab.lookup_eq hs key

/-- Newest run first, the first record for the key decides. -/
theorem safe_searchRuns {Q : Own → Option Bytes → Prop} {key : Bytes} {tables : List SsTable} {ess : List (List Entry)}
    (hm : a.mode = .live) (hheld : ∀ r ∈ tables, r ∈ a.held) (hreads : List.Forall₂ Reads tables ess)
    (hok : ∀ v, (e.small = true → BloomLaws → v = answer ess key) → Q a v)
    (herr : ∀ err, e.blockFaults = true ∨ (∃ r ∈ tables, r.lookup key = .error err) → E a err) :
    SafeM e t Q E (searchRuns key tables) a := by
  induction hreads with
  | nil => exact SafeM.pure (hok none fun _ _ => rfl)
  | @cons r es tables ess hr _ ih =>
    have hrest : (BloomLaws → find es key = none) ∨ e.small = false →
        SafeM e t Q E (searchRuns key tables) a := by
      intro hnone
      refine ih (fun x hx => hheld x (by simp [hx])) ?_ ?_
      · intro v hv
        refine hok v fun hsmall laws => ?_
        have hfind := hnone.resolve_right (by simp [hsmall]) laws
        rw [hv hsmall laws]
        exact (resolve_cons_none Record.live hfind ess).symm
      · intro err hbad
        refine herr err (hbad.imp_right ?_)
        rintro ⟨x, hx, hlook⟩
        exact ⟨x, by simp [hx], hlook⟩
    unfold searchRuns
    by_cases hmight : r.mightContain key = false
    · rw [if_pos hmight]
      refine hrest (Or.inl fun laws => ?_)
      by_contra hne
      obtain ⟨rec, hfind⟩ := Option.ne_none_iff_exists'.mp hne
      have hcov := hr.covers laws (key, rec) (mem_of_find hfind)
      have hfalse : mightContain r.filter key = false := hmight
      rw [hcov] at hfalse
      simp at hfalse
    · rw [if_neg hmight]
      refine SafeM.bind (safe_lookupRun hm (hheld r (by simp)) ?_ ?_)
      · intro o ho
        have hfind : e.small = true → o = find es key := fun hsmall => hr.lookup_ok (ho hsmall)
        cases o with
        | none =>
          refine hrest ?_
          cases hsmall : e.small with
          | false => exact Or.inr rfl
          | true => exact Or.inl fun _ => (hfind hsmall).symm
        | some rec =>
          have hans : e.small = true → answer (es :: ess) key = rec.live :=
            fun hsmall => resolve_cons_some Record.live (hfind hsmall).symm ess
          cases rec with
          | value v => exact SafeM.pure (hok _ fun hsmall _ => (hans hsmall).symm)
          | tombstone => exact SafeM.pure (hok _ fun hsmall _ => (hans hsmall).symm)
      · intro err hbad
        exact herr err (hbad.imp_right fun hlook => ⟨r, by simp, hlook⟩)

/-! ## Reads of one snapshot -/

/-- Nothing a reader may meet is refused. -/
structure Env.Readable (e : Env) : Prop where
  blocks : e.blockFaults = false
  limit : ∃ l, e.limit = some l ∧ l ≤ MAX_RECORD_LEN
  good : ∃ d, e.Good d

theorem Env.Readable.sized (hr : e.Readable) {x : Entry} (hx : e.Within x) : x.Sized := by
  obtain ⟨l, hl, hle⟩ := hr.limit
  exact ⟨(hx l hl).1, (hx l hl).2.trans hle⟩

theorem Snapshot.sized {seen : Sight} {ess : List (List Entry)} (hs : Snapshot e seen ess) (hr : e.Readable) : ∀ es ∈ ess, ∀ x ∈ es, x.Sized := by
  intro es hes x hx
  obtain ⟨d, hd⟩ := hr.good
  exact hr.sized (hs.within d hd es hes x hx)

omit [Deps] in
theorem forall₂_mem_left {α β : Type} {R : α → β → Prop} {l : List α} {l' : List β} (h : List.Forall₂ R l l') {x : α}
    (hx : x ∈ l) : ∃ y ∈ l', R x y := by
  induction h with
  | nil => simp at hx
  | @cons a b l l' hab _ ih =>
    rcases List.mem_cons.mp hx with rfl | hx
    · exact ⟨b, by simp, hab⟩
    · obtain ⟨y, hy, hxy⟩ := ih hx
      exact ⟨y, by simp [hy], hxy⟩

theorem Snapshot.lookup_ok {seen : Sight} {ess : List (List Entry)} (hs : Snapshot e seen ess) (hr : e.Readable)
    {key : Bytes} {err : Error} : ¬ ∃ r ∈ seen.runs, r.lookup key = .error err := by
  rintro ⟨r, hmem, herr⟩
  obtain ⟨es, hes, hreads⟩ := forall₂_mem_left hs.reads hmem
  rw [hreads.lookup_of_sized (hs.sized hr es hes)] at herr
  simp at herr

/-- `get` answers from the memtable and the runs of its snapshot. -/
theorem safe_get {Q : Own → Option Bytes → Prop} {key : Bytes} (hm : a.mode = .live) (hh : a.hold = none)
    (hheld : a.held = []) (hdead : a.dead = none) (hin : a.inputs = []) (hl : a.lost = false)
    (hok : ∀ seen ess v, Snapshot e seen ess →
      (e.small = true → BloomLaws → v = answer (seen.memtable.iter :: ess) key) → Q { a with seen := seen } v)
    (herr : ¬ e.Readable → ∀ seen err, E { a with seen := seen } err) : SafeM e t Q E (get key) a := by
  refine SafeP.perform (does_snapshot false hm hh hheld hl (by simp) ?_)
  intro seen ess hsnap
  have hmine : ({ a with held := [], seen := seen, inputs := [] } : Own) = { a with seen := seen } := by
    rw [← hheld, ← hin]
  have hhit : ∀ r, seen.memtable.get key = some r → answer (seen.memtable.iter :: ess) key = r.live := by
    intro r hget
    exact resolve_cons_some Record.live (by rw [← MemTable.get_eq_find]; exact hget) ess
  cases hget : seen.memtable.get key with
  | some r =>
    simp only [hget, Option.isNone_some, Bool.false_eq_true, if_false]
    rw [hmine]
    cases r with
    | value v => exact SafeP.pure (hok seen ess (some v) hsnap fun _ _ => (hhit _ hget).symm)
    | tombstone => exact SafeP.pure (hok seen ess none hsnap fun _ _ => (hhit _ hget).symm)
  | none =>
    simp only [hget, Option.isNone_none, if_true]
    refine SafeP.bind (Logic.Safe.mono (safe_searchRuns
      (Q := fun a' v => a' = { a with held := seen.runs, seen := seen, inputs := [] } ∧
        (e.small = true → BloomLaws → v = answer (seen.memtable.iter :: ess) key))
      (E := fun a' _ => a' = { a with held := seen.runs, seen := seen, inputs := [] } ∧ ¬ e.Readable)
      hm (fun _ hr => hr) hsnap.reads ?_ ?_) ?_)
    · intro v hv
      refine ⟨rfl, fun hsmall laws => ?_⟩
      rw [hv hsmall laws]
      exact (resolve_cons_none Record.live (by rw [← MemTable.get_eq_find]; exact hget) ess).symm
    · intro err hbad
      refine ⟨rfl, fun hread => ?_⟩
      rcases hbad with hf | hex
      · have hblocks := hread.blocks
        rw [hf] at hblocks
        simp at hblocks
      · exact hsnap.lookup_ok hread hex
    · intro a' r hr
      cases r with
      | ok v =>
        obtain ⟨rfl, hv⟩ := hr
        refine SafeP.bind (safe_dropRuns hm rfl hdead (SafeP.pure ?_))
        show Q _ v
        rw [hmine]
        exact hok seen ess v hsnap hv
      | error err =>
        obtain ⟨rfl, hbad⟩ := hr
        refine SafeP.bind (safe_dropRuns hm rfl hdead (SafeP.pure ?_))
        show E _ err
        rw [hmine]
        exact herr hbad seen err

/-! ## Cursors some of whose blocks cannot be read -/

omit [Deps] in
theorem blocksFrom_part {read : ℕ → Except Error DecodedBlock} {bs : List (List Entry)} {i : ℕ}
    (h : ∀ j b, bs[j]? = some b → read (i + j) = .ok b ∨ ∃ err, read (i + j) = .error err) :
    (blocksFrom read bs.length i).1 <+: bs.flatten ∧
      ((blocksFrom read bs.length i).2 = none → (blocksFrom read bs.length i).1 = bs.flatten) := by
  induction bs generalizing i with
  | nil => exact ⟨List.prefix_rfl, fun _ => rfl⟩
  | cons b bs ih =>
    obtain ⟨hpart, hwhole⟩ := ih (i := i + 1) fun j c hc => by
      have hj := h (j + 1) c hc
      rwa [Nat.add_comm j 1, ← Nat.add_assoc] at hj
    have hhead := h 0 b rfl
    simp only [Nat.add_zero] at hhead
    simp only [List.length_cons, blocksFrom, List.flatten_cons]
    rcases hhead with hok | ⟨err, herr⟩
    · simp only [hok]
      exact ⟨(List.prefix_append_right_inj b).mpr hpart, fun hn => by rw [hwhole hn]⟩
    · simp only [herr]
      exact ⟨List.nil_prefix, fun hn => by simp at hn⟩

theorem Reads.delivers {r : SsTable} {es : List Entry} (hr : Reads r es) (faults : Faults) :
    (Source.run (faultyCursor faults r)).Delivers es := by
  obtain ⟨bs, htab⟩ := hr.table
  have hread : ∀ j b, bs[j]? = some b →
      (faultyCursor faults r).read (0 + j) = .ok b ∨ ∃ err, (faultyCursor faults r).read (0 + j) = .error err := by
    intro j b hb
    rw [Nat.zero_add]
    simp only [faultyCursor, RunCursor.new]
    cases faults r.runId j with
    | some fault => exact Or.inr ⟨fault.error, rfl⟩
    | none =>
      rcases htab.readBlock_cases hb with ⟨_, hok⟩ | ⟨_, herr⟩
      · exact Or.inl hok
      · exact Or.inr herr
  have hpart := blocksFrom_part hread
  have hstream : (Source.run (faultyCursor faults r)).stream =
      blocksFrom (faultyCursor faults r).read bs.length 0 := by
    show (faultyCursor faults r).stream = _
    unfold faultyCursor
    rw [RunCursor.stream_new, htab.index_length]
    rfl
  rw [htab.layout.entries] at hpart
  refine ⟨RunCursor.sound_new _ _, ?_, ?_⟩
  · rw [hstream]
    exact hpart.1
  · rw [hstream]
    exact hpart.2

theorem Reads.stream_none {r : SsTable} {es : List Entry} (hr : Reads r es) (hs : ∀ x ∈ es, x.Sized) {faults : Faults}
    (hf : ∀ id i, faults id i = none) : (faultyCursor faults r).stream.2 = none := by
  obtain ⟨bs, htab⟩ := hr.table
  have hcur : faultyCursor faults r = r.cursor := by
    unfold faultyCursor SsTable.cursor
    simp only [hf]
  rw [hcur, htab.cursor_stream hs]

theorem forall₂_delivers {runs : List SsTable} {ess : List (List Entry)} (h : List.Forall₂ Reads runs ess)
    (faults : Faults) :
    List.Forall₂ (fun c F => (Source.run c).Delivers F) (runs.map (faultyCursor faults)) ess :=
  List.forall₂_map_left_iff.mpr (h.imp fun _ _ hr => hr.delivers faults)

theorem forall₂_ascending {runs : List SsTable} {ess : List (List Entry)} (h : List.Forall₂ Reads runs ess) :
    ∀ es ∈ ess, Ascending es := by
  intro es hes
  induction h with
  | nil => simp at hes
  | @cons r es' runs ess hr _ ih =>
    rcases List.mem_cons.mp hes with rfl | hes
    · obtain ⟨bs, htab⟩ := hr.table
      exact htab.ascending
    · exact ih hes

theorem Snapshot.streams_none {seen : Sight} {ess : List (List Entry)} (hs : Snapshot e seen ess) (hr : e.Readable)
    {faults : Faults} (hf : e.blockFaults = false → ∀ id i, faults id i = none) :
    ∀ c ∈ seen.runs.map (faultyCursor faults), c.stream.2 = none := by
  intro c hc
  obtain ⟨r, hmem, rfl⟩ := List.mem_map.mp hc
  obtain ⟨es, hes, hreads⟩ := forall₂_mem_left hs.reads hmem
  exact hreads.stream_none (hs.sized hr es hes) (hf hr.blocks)

/-- `scan` lists what the memtable and the runs of its snapshot hold. -/
theorem safe_scan {Q : Own → List (Bytes × Bytes) → Prop} {range : Range} (hm : a.mode = .live) (hh : a.hold = none)
    (hheld : a.held = []) (hdead : a.dead = none) (hin : a.inputs = []) (hl : a.lost = false)
    (hok : ∀ seen ess res, Snapshot e seen ess → ScanOf (answer (seen.memtable.iter :: ess)) range res →
      Q { a with seen := seen } res)
    (herr : ¬ e.Readable → ∀ seen err, E { a with seen := seen } err) : SafeM e t Q E (scan range) a := by
  refine SafeP.perform (does_snapshot false hm hh hheld hl (by simp) ?_)
  intro seen ess hsnap
  refine SafeP.perform (does_readFaults hm fun faults hfaults => ?_)
  obtain ⟨hspec, hgo⟩ := @scanMerge_spec range _ _ _ seen.memtable.iter_ascending (forall₂_delivers hsnap.reads faults)
    (forall₂_ascending hsnap.reads)
  have hmine : ({ a with held := [], seen := seen, inputs := [] } : Own) = { a with seen := seen } := by
    rw [← hheld, ← hin]
  refine SafeP.bind (safe_dropRuns hm rfl hdead (SafeP.pure ?_))
  simp only [Bool.false_eq_true, if_false]
  rw [hmine]
  generalize hres : scanMerge range (seen.memtable.iter.filter fun x => position range x.1 = .within)
    (seen.runs.map (faultyCursor faults)) = r at *
  cases r with
  | ok res => exact hok seen ess res hsnap (hspec res rfl)
  | error err =>
    refine herr (fun hread => ?_) seen err
    obtain ⟨res, hbad⟩ := hgo (hsnap.streams_none hread hfaults)
    simp at hbad

end Reading
end LsmDb
