import LsmDb.Proof.Build

/-! Writing a run from its first byte to its handle: `writeRunFile`, `writeSidecar`, `buildRun`. A run
that is given up leaves its annotation as it may be: `x` in the error cases. -/
namespace LsmDb
open Lib
set_option autoImplicit false

section Writing
variable [Deps] {e : Env} {t : Tid} {a : Own} {b : Build} {file : Bytes} {F : Prop} {E : Own → Error → Prop}

theorem Build.put_same_tmp (htmp : b.tmp = some (.bin file)) : b.put (.runTmp b.seq) (some (.bin file)) = b := by
  rw [put_tmp, ← htmp]

theorem Own.build_tmp (hb : a.build = some b) (htmp : b.tmp = some (.bin file)) :
    ({ a with build := some { b with tmp := some (.bin file) } } : Own) = a := by
  rw [← htmp, ← hb]

omit [Deps] in
theorem writeChunks_cons {c : Chunk} {cs : List Chunk} (h : file.length + c.bytes.length ≤ MAX_FILE_LEN) :
    writeChunks file (c :: cs) = writeChunks (file ++ c.bytes) cs := by
  simp only [writeChunks, List.foldlM_cons, writeAll, if_pos h, bind, Except.bind]

theorem safe_writeChunksTo {Q : Own → Unit → Prop} {cs : List Chunk}
    (hm : a.mode = .live) (hb : a.build = some b) (hopen : b.Open) (htmp : b.tmp = some (.bin file))
    (hok : ∀ out, writeChunks file cs = .ok out →
      Q { a with build := some { b with tmp := some (.bin out) } } ())
    (herr : e.Faulty t a → ∀ x err, E { a with build := x } err) :
    SafeM e t Q E (writeChunksTo (tmpPath (runFilename b.seq)) cs) a := by
  induction cs generalizing a b file with
  | nil =>
    have hq := hok file rfl
    rw [Own.build_tmp hb htmp] at hq
    exact SafeM.pure hq
  | cons c cs ih =>
    refine SafeM.bind (SafeM.io (Does.safe ?_))
    refine does_append (n := .runTmp b.seq) hm hb hopen (Or.inl rfl) (Build.put_same_tmp htmp) ?_ ?_
    · intro hfits
      have hle : file.length + c.bytes.length ≤ MAX_FILE_LEN := by simpa [Data.fits] using hfits
      rw [Build.put_tmp]
      exact ih (b := { b with tmp := some (.bin (file ++ c.bytes)) }) hm rfl
        ⟨hopen.table, hopen.committed, hopen.side⟩ rfl
        (fun out hout => hok out (by rw [writeChunks_cons hle]; exact hout)) herr
    · exact fun hf => herr hf none _

/-- `F` says that the whole run is made of entries the writer takes. -/
theorem safe_pushEntries {Q : Own → SsTableWriter → Prop} {es : List Entry} {w : SsTableWriter}
    (hm : a.mode = .live) (hb : a.build = some b) (hopen : b.Open)
    (htmp : b.tmp = some (.bin file)) (hready : F → w.Ready) (hF : F → ∀ x ∈ es, x.Flushable)
    (hok : ∀ w' out, pushAll w file es = .ok (w', out) → (F → w'.Ready) →
      Q { a with build := some { b with tmp := some (.bin out) } } w')
    (herr : e.Faulty t a ∨ ¬ F → ∀ x err, E { a with build := x } err) :
    SafeM e t Q E (pushEntries (tmpPath (runFilename b.seq)) w es) a := by
  induction es generalizing a b file w with
  | nil =>
    have hq := hok w file rfl hready
    rw [Own.build_tmp hb htmp] at hq
    exact SafeM.pure hq
  | cons x es ih =>
    have hpush : F → ∃ w' cs, w.push x.1 x.2 = .ok (w', cs) ∧ w'.Ready := by
      intro hf
      obtain ⟨w', cs, hp, hr, _⟩ := push_accepts (hready hf) (hF hf x (by simp))
      exact ⟨w', cs, hp, hr⟩
    refine SafeM.bind (SafeM.lift ?_ ?_)
    · rintro ⟨w', cs⟩ hp
      refine SafeM.bind (safe_writeChunksTo hm hb hopen htmp ?_ fun hf => herr (Or.inl hf))
      intro mid hmid
      refine ih (b := { b with tmp := some (.bin mid) }) hm rfl ⟨hopen.table, hopen.committed, hopen.side⟩ rfl
        ?_ (fun hf y hy => hF hf y (by simp [hy])) ?_ herr
      · intro hf
        obtain ⟨w₁, cs₁, hp₁, hr₁⟩ := hpush hf
        rw [hp] at hp₁
        simp only [Except.ok.injEq, Prod.mk.injEq] at hp₁
        rw [hp₁.1]
        exact hr₁
      · intro w'' out hrest
        refine hok w'' out ?_
        simp only [pushAll, hp, bind, Except.bind, hmid]
        exact hrest
    · intro err hp
      refine herr (Or.inr fun hf => ?_) a.build err
      obtain ⟨w₁, cs₁, hp₁, _⟩ := hpush hf
      rw [hp] at hp₁
      simp at hp₁

/-- The temporary holds the complete run, or the run is given up. -/
theorem safe_writeRunFile {Q : Own → Unit → Prop} {es : List Entry} {readErr : Option Error}
    (hm : a.mode = .live) (hb : a.build = some b) (hopen : b.Open) (hF : F → ∀ x ∈ es, x.Flushable)
    (hok : ∀ out, writeRun es = .ok out → readErr = none →
      Q { a with build := some { b with tmp := some (.bin out) } } ())
    (herr : e.Faulty t a ∨ ¬ F ∨ readErr ≠ none → ∀ x err, E { a with build := x } err) :
    SafeM e t Q E (writeRunFile (tmpPath (runFilename b.seq)) es readErr) a := by
  have hopen' : ∀ d, Build.Open { b with tmp := d } := fun _ => ⟨hopen.table, hopen.committed, hopen.side⟩
  refine SafeM.bind (SafeM.io (Does.safe (does_create (n := .runTmp b.seq) hm hb hopen (Or.inl rfl) ?_
    fun hf => herr (Or.inl hf) none _)))
  rw [Build.put_tmp]
  refine SafeM.bind (safe_writeChunksTo (b := { b with tmp := some (.bin []) }) hm rfl (hopen' _) rfl ?_
    fun hf => herr (Or.inl hf))
  intro head hhead
  have hmagic : head = MAGIC := by
    have h : writeChunks [] [SsTableWriter.header] = .ok MAGIC := rfl
    rw [h] at hhead
    simpa using hhead.symm
  subst hmagic
  refine SafeM.bind (safe_pushEntries (F := F) (b := { b with tmp := some (.bin MAGIC) }) hm rfl (hopen' _) rfl
    (fun _ => ready_new) hF ?_ fun h => herr (h.imp_right Or.inl))
  intro w mid hmid hready
  have hrun : ∀ chunks out, w.finish = .ok chunks → writeChunks mid chunks = .ok out → writeRun es = .ok out := by
    intro chunks out hfin hout
    have hh : writeAll [] SsTableWriter.header = .ok MAGIC := rfl
    simp only [writeRun, hh, hmid, hfin, bind, Except.bind]
    exact hout
  cases readErr with
  | some err => exact SafeM.bind (SafeM.throw (herr (Or.inr (Or.inr (by simp))) _ err))
  | none =>
    refine SafeM.bind (SafeM.lift ?_ ?_)
    · intro chunks hfin
      refine SafeM.bind (safe_writeChunksTo (b := { b with tmp := some (.bin mid) }) hm rfl (hopen' _) rfl ?_
        fun hf => herr (Or.inl hf))
      intro out hout
      refine SafeM.io (Does.safe (does_sync ?_ ?_ ?_))
      · exact hm
      · exact hok out (hrun chunks out hfin hout) rfl
      · exact fun hf => herr (Or.inl hf) _ _
    · intro err hfin
      refine herr (Or.inr (Or.inl fun hf => ?_)) _ err
      obtain ⟨chunks, hch, _⟩ := finish_accepts (hready hf)
      rw [hfin] at hch
      simp at hch

theorem safe_writeSidecar {Q : Own → Unit → Prop} {f : RunFilter} (hm : a.mode = .live)
    (hb : a.build = some b) (hopen : b.Open) (hrun : b.run ≠ none)
    (hcov : BloomLaws → Covers (some f) b.entries)
    (hok : ∀ d d', Q { a with build := some { b with sideTmp := d, side := d' } } ())
    (herr : e.Faulty t a ∨ ¬ BloomLaws → ∀ x err, E { a with build := x } err) :
    SafeM e t Q E (writeSidecar f (runFilename b.seq)) a := by
  have hopen' : ∀ d, Build.Open { b with sideTmp := d } := fun _ => ⟨hopen.table, hopen.committed, hopen.side⟩
  refine SafeM.bind (SafeM.lift ?_ ?_)
  · intro bytes hbytes
    refine SafeM.bind (SafeM.io (Does.safe (does_create (n := .sideTmp b.seq) hm hb hopen (Or.inr rfl) ?_
      fun hf => herr (Or.inl hf) none _)))
    rw [Build.put_sideTmp]
    refine SafeM.bind (SafeM.io (Does.safe ?_))
    refine does_append (a := { a with build := some { b with sideTmp := some (.bin []) } })
      (b := { b with sideTmp := some (.bin []) }) (n := .sideTmp b.seq) hm rfl (hopen' _) (Or.inr rfl)
      (Build.put_sideTmp _ _) (fun _ => ?_) fun hf => herr (Or.inl hf) none _
    refine SafeM.io (Does.safe ?_)
    rw [Build.put_sideTmp]
    refine does_install_side (b := { b with sideTmp := some (.bin bytes) }) hm rfl (hopen' _) hrun rfl ?_
      (hok _ _) fun hf => herr (Or.inl hf) none _
    intro f' hdec hlaws
    obtain ⟨f₁, hdec₁, hsame⟩ := decode_sidecarBytes hlaws hbytes
    have heq : f' = f₁ := by
      rw [hdec] at hdec₁
      simpa using hdec₁
    intro x hx
    show f'.mightContain x.1 = true
    rw [heq, hsame]
    exact hcov hlaws x hx
  · intro err hfail
    refine herr (Or.inr fun hlaws => ?_) a.build err
    have hsome := hlaws.toAllocvec_isSome f.filter
    unfold RunFilter.sidecarBytes at hfail
    cases hp : Deps.toAllocvec f.filter with
    | none => simp [hp] at hsome
    | some payload => simp [hp] at hfail

/-- What a finished run is to the thread that built it. -/
structure Built (b b' : Build) (es : List Entry) (r : SsTable) : Prop where
  seq : b'.seq = b.seq
  run : b'.run ≠ none
  entries : b'.entries = es
  table : b'.table = some r
  committed : b'.committed = false
  name : r.name = runFilename b.seq
  of : ∃ bs, TableOf r es bs

/-- A complete, reopened run of the given entries, or an error that some failure explains. -/
theorem safe_buildRun {Q : Own → SsTable → Prop} {context : String} {es : List Entry}
    {readErr : Option Error} {filter : Option RunFilter} (hm : a.mode = .live) (hb : a.build = some b)
    (hres : Reserved b) (hasc : readErr = none → Ascending es) (hF : F → ∀ x ∈ es, x.Flushable)
    (hcov : BloomLaws → Covers filter es)
    (hok : ∀ b' r, Built b b' es r → readErr = none → Q { a with build := some b' } r)
    (herr : e.Faulty t a ∨ ¬ F ∨ readErr ≠ none ∨ ¬ BloomLaws → ∀ x err, E { a with build := x } err) :
    SafeM e t Q E (buildRun context (runFilename b.seq) es readErr filter) a := by
  refine SafeM.bind (safe_writeRunFile hm hb hres.open hF ?_ fun h => herr (by tauto))
  intro out hout hread
  obtain ⟨bs, hl⟩ := writeRun_layout hout
  refine SafeM.bind (SafeM.io (Does.safe (does_install_run (b := { b with tmp := some (.bin out) }) hm rfl
    ⟨hres.table, hres.committed, fun _ => hres.side⟩ hres.run rfl hl (hasc hread) ?_
    fun hf => herr (Or.inl hf) none _)))
  -- with or without a filter, the run is reopened from the same bytes
  have hreopen : ∀ d d', SafeM e t Q E
      (do
        let opened ← ExceptT.mk (perform (.openRun (runFilename b.seq)))
        perform (.register (runFilename b.seq) opened filter))
      { a with build := some { b with tmp := none, run := some (.bin out), entries := es, sideTmp := d, side := d' } } := by
    intro d d'
    refine SafeM.bind ?_
    refine Logic.Safe.mono (Does.safe (does_openRun
      (Q := Outcome (fun a' o => SafeM e t Q E (perform (.register (runFilename b.seq) o filter)) a') E)
      (b := { b with tmp := none, run := some (.bin out), entries := es, sideTmp := d, side := d' })
      hm rfl rfl ?_ ?_)) fun _ _ h => h
    · intro index count hindex
      refine SafeM.last ?_
      refine does_register
        (a := { a with
          build := some { b with tmp := none, run := some (.bin out), entries := es, sideTmp := d, side := d' } })
        (b := { b with tmp := none, run := some (.bin out), entries := es, sideTmp := d, side := d' })
        hm rfl ⟨hres.table, hres.committed, fun h => by simp at h⟩ rfl hindex hcov ?_
      intro r hname htable
      exact hok _ r ⟨rfl, by simp, rfl, rfl, hres.committed, hname, htable⟩ hread
    · intro err h
      refine herr ?_ none err
      rcases h with hf | hbad
      · exact Or.inl hf
      · refine Or.inr (Or.inl fun hf => ?_)
        have hkeys : ∀ x ∈ handlesFrom 8 bs, x.lastKey.length ≤ MAX_RECORD_LEN := by
          intro x hx
          obtain ⟨y, hy, heq⟩ := hl.exists_entry hx
          rw [heq]
          exact (hF hf y hy).1
        rw [hl.readIndex_ok (hasc hread) hkeys] at hbad
        simp at hbad
  cases hfil : filter with
  | none =>
    rw [hfil] at hreopen
    exact hreopen b.sideTmp b.side
  | some f =>
    rw [hfil] at hreopen hcov
    refine SafeM.bind (safe_writeSidecar
      (b := { b with tmp := none, run := some (.bin out), entries := es }) hm rfl
      ⟨hres.table, hres.committed, fun h => by simp at h⟩ (by simp) hcov (fun d d' => hreopen d d') ?_)
    intro h
    exact herr (by tauto)

end Writing
end LsmDb
