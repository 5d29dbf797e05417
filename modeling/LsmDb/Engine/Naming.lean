import LsmDb.Engine.Alone

/-! The manifest stored and loaded again, and what recovery takes each of the engine's files for. -/
namespace LsmDb
open Lib
set_option autoImplicit false

/-- What the loop over the directory takes a name for, in the order of its tests. -/
inductive Kind where
  | temporary
  | sidecar (run : Text)
  | run (seq : ℕ)
  | other
deriving DecidableEq

def classify (name : Text) : Kind :=
  if TMP.isSuffixOf name then .temporary
  else
    match stripSuffix BLOOM name with
    | some run => .sidecar run
    | none =>
      match seqOf name with
      | some seq => .run seq
      | none => .other

/-- What the engine made the file for. -/
def Name.kind : Name → Kind
  | manifest => .other
  | manifestTmp => .temporary
  | run seq => .run seq
  | runTmp _ => .temporary
  | side seq => .sidecar (runFilename seq)
  | sideTmp _ => .temporary

/-- A sequence number the name carries is a `u64`. -/
def Name.Numbered : Name → Prop
  | manifest => True
  | manifestTmp => True
  | run seq | runTmp seq | side seq | sideTmp seq => seq < 2 ^ 64

theorem isSuffixOf_append (suf front : Text) : suf.isSuffixOf (front ++ suf) = true := by
  rw [List.isSuffixOf_iff_suffix]
  exact List.suffix_append front suf

/-- A name that ends differently. -/
theorem isSuffixOf_false {suf name : Text} {c : Char} (hsuf : suf.getLast? = some c) (hname : name.getLast? ≠ some c) :
    suf.isSuffixOf name = false := by
  rw [Bool.eq_false_iff, ne_eq, List.isSuffixOf_iff_suffix]
  rintro ⟨front, rfl⟩
  refine hname ?_
  rw [List.getLast?_append_of_ne_nil _ (by rintro rfl; simp at hsuf)]
  exact hsuf

theorem runFilename_not_tmp (n : ℕ) : TMP.isSuffixOf (runFilename n) = false :=
  isSuffixOf_false (c := 'p') rfl (by rw [getLast_runFilename]; decide)

theorem runFilename_not_bloom (n : ℕ) : BLOOM.isSuffixOf (runFilename n) = false :=
  isSuffixOf_false (c := 'm') rfl (by rw [getLast_runFilename]; decide)

theorem classify_tmpPath (name : Text) : classify (tmpPath name) = .temporary := by
  rw [classify, tmpPath, isSuffixOf_append]
  rfl

/-- None of the engine's files is taken for one of another kind. -/
theorem Name.classify_text {n : Name} (h : n.Numbered) : classify n.text = n.kind := by
  cases n with
  | manifest => decide
  | manifestTmp => exact classify_tmpPath MANIFEST
  | runTmp seq => exact classify_tmpPath (runFilename seq)
  | sideTmp seq => exact classify_tmpPath (sidecarPath (runFilename seq))
  | run seq =>
    have hseq : seqOf (runFilename seq) = some seq := seqOf_runFilename h
    simp only [text, classify, runFilename_not_tmp, Bool.false_eq_true, if_false, stripSuffix, runFilename_not_bloom,
      hseq]
    rfl
  | side seq =>
    have htmp : TMP.isSuffixOf (sidecarPath (runFilename seq)) = false :=
      isSuffixOf_false (c := 'p') rfl (by rw [sidecarPath, getLast_bloom]; decide)
    simp only [text, classify, htmp, Bool.false_eq_true, if_false]
    rw [sidecarPath, stripSuffix_append]
    rfl

section Naming
variable [Deps]

/-- What recovery does with a name of this kind, before it goes on. -/
def reclaimAs (live : List Text) (nextSeq : ℕ) (name : Text) (rest : List Text) : Kind → M ℕ
  | .temporary => do
    io "remove temporary file" (perform (.remove name))
    reclaim live nextSeq rest
  | .sidecar run => do
    if run ∉ live then io "remove orphan bloom sidecar" (perform (.remove name))
    reclaim live nextSeq rest
  | .run seq => do
    if name ∉ live then io "remove orphan run" (perform (.remove name))
    reclaim live (max nextSeq ((seq + 1) % 2 ^ 64)) rest
  | .other => reclaim live nextSeq rest

/-- The loop acts on a name by its kind. -/
theorem reclaim_classify (live : List Text) (nextSeq : ℕ) (name : Text) (rest : List Text) :
    reclaim live nextSeq (name :: rest) = reclaimAs live nextSeq name rest (classify name) := by
  rw [reclaim, classify]
  cases TMP.isSuffixOf name with
  | true => rfl
  | false =>
    cases stripSuffix BLOOM name with
    | some run => rfl
    | none =>
      cases seqOf name with
      | some seq => rfl
      | none => rfl

/-- Storing a manifest and loading it in the same directory. -/
def storeLoad (nextSeq : ℕ) (runs : List Text) : M (Option Manifest) := do
  storeManifest nextSeq runs
  loadManifest

theorem alone_storeManifest (t : Tid) (w : World) (q : ℕ) (runs : List Text) :
    alone t allOk (storeManifest q runs).run w = some (.ok (), { w with
      dir := (w.dir.erase MANIFEST_TMP).insert MANIFEST (.text (manifestText q runs))
      spec := if t = compactorTid then w.spec else { w.spec with flushed := w.spec.cur } }) := by
  let text := manifestText q runs
  let w₁ : World := { w with dir := w.dir.insert MANIFEST_TMP (.text []) }
  let w₂ : World := { w with dir := w.dir.insert MANIFEST_TMP (.text text) }
  have hcreate : exec t (.create MANIFEST_TMP (.text [])) .ok w = some (.ok (), w₁) := rfl
  have happend : exec t (.append MANIFEST_TMP (.text text)) .ok w₁ = some (.ok (), w₂) := by
    simp [exec, w₁, w₂, Data.fits, Data.append]
  have hsync : exec t (.sync MANIFEST_TMP) .ok w₂ = some (.ok (), w₂) := rfl
  have hrename : exec t (.rename MANIFEST_TMP MANIFEST) .ok w₂ = some (.ok (), { w with
      dir := (w.dir.erase MANIFEST_TMP).insert MANIFEST (.text text)
      spec := if t = compactorTid then w.spec else { w.spec with flushed := w.spec.cur } }) := by
    simp [exec, w₂]
  unfold storeManifest
  rw [alone_bind_ok (alone_io_ok (x := perform (.create MANIFEST_TMP (.text []))) (alone_mk hcreate)),
    alone_bind_ok (alone_io_ok (x := perform (.append MANIFEST_TMP (.text text))) (alone_mk happend)),
    alone_bind_ok (alone_io_ok (x := perform (.sync MANIFEST_TMP)) (alone_mk hsync))]
  exact alone_io_ok (x := perform (.rename MANIFEST_TMP MANIFEST)) (alone_mk hrename)

theorem alone_loadManifest {t : Tid} {w : World} {q : ℕ} (hq : q < 2 ^ 64) {runs : List Text}
    (hr : ∀ run ∈ runs, ∃ n, run = runFilename n) (hdir : w.dir.get? MANIFEST = some (.text (manifestText q runs))) :
    alone t allOk loadManifest.run w = some (.ok (some ⟨q, runs⟩), w) := by
  have hexists : exec t (.exists MANIFEST) .ok w = some (true, w) := by simp [exec, hdir]
  have hread : exec t (.readText MANIFEST) .ok w = some (.ok (manifestText q runs), w) := by simp [exec, hdir]
  rw [loadManifest, alone_lift hexists, if_pos rfl,
    alone_bind_ok (alone_io_ok (x := perform (.readText MANIFEST)) (alone_mk hread)), parseManifest_manifestText hq hr]
  rfl

theorem alone_storeLoad (t : Tid) {nextSeq : ℕ} (h : nextSeq < 2 ^ 64) {runs : List Text}
    (hr : ∀ run ∈ runs, ∃ n, run = runFilename n) (w : World) :
    ∃ w', alone t allOk (storeLoad nextSeq runs).run w = some (.ok (some ⟨nextSeq, runs⟩), w') := by
  rw [storeLoad, alone_bind_ok (alone_storeManifest t w nextSeq runs)]
  exact ⟨_, alone_loadManifest h hr (SortedMap.get?_insert_self ..)⟩

/-- What the manifest says is what the next load reads, for any `u64` and any run names; a run name gives back its
number, ends neither in `.tmp` nor in `.bloom`, and recovery sorts every file of the engine's own to its kind and
treats it so; the log it leaves alone. -/
theorem manifest_round_trip :
    (∀ (t : Tid) (nextSeq : Fin (2 ^ 64)) (seqs : List (Fin (2 ^ 64))) (w : World), ∃ w',
      alone t allOk (storeLoad nextSeq (seqs.map fun n => runFilename n)).run w =
        some (.ok (some ⟨nextSeq, seqs.map fun n => runFilename n⟩), w')) ∧
      (∀ n : Fin (2 ^ 64), seqOf (runFilename n) = some n.val) ∧
      (∀ m n : Fin (2 ^ 64), runFilename m = runFilename n → m = n) ∧
      (∀ n : Fin (2 ^ 64), TMP.isSuffixOf (runFilename n) = false ∧ BLOOM.isSuffixOf (runFilename n) = false) ∧
      (∀ n : Name, n.Numbered → classify n.text = n.kind) ∧ classify WAL_FILE = .other ∧
      (∀ (n : Name) live nextSeq rest, n.Numbered →
        reclaim live nextSeq (n.text :: rest) = reclaimAs live nextSeq n.text rest n.kind) ∧
      ∀ live nextSeq rest, reclaim live nextSeq (WAL_FILE :: rest) = reclaim live nextSeq rest := by
  have hwal : classify WAL_FILE = .other := by decide
  refine ⟨fun t nextSeq seqs w => ?_, fun n => seqOf_runFilename n.isLt, fun m n h => Fin.ext (runFilename_injective h),
    fun n => ⟨runFilename_not_tmp n, runFilename_not_bloom n⟩, fun n => Name.classify_text, hwal,
    fun n live nextSeq rest hn => ?_, fun live nextSeq rest => ?_⟩
  · refine alone_storeLoad t nextSeq.isLt ?_ w
    intro run hrun
    obtain ⟨n, _, rfl⟩ := List.mem_map.mp hrun
    exact ⟨n, rfl⟩
  · rw [reclaim_classify, Name.classify_text hn]
  · rw [reclaim_classify, hwal]
    rfl

end Naming
end LsmDb
