import LsmDb.Engine.LogRecord
import LsmDb.Sstable.Integrity

/-! What the writers accept against what the readers take back. A length prefix has thirty-two bits and the
writers only ask that a length fit; the decoders stop at `2 ^ 30`. The log encoder asks nothing and casts. -/
namespace LsmDb
open Lib
set_option autoImplicit false

section Agreement
variable [Deps] {t : SsTable}

theorem readBlock_sized {i : ℕ} {b : DecodedBlock} (h : t.readBlock i = .ok b) : ∀ x ∈ b, x.Sized := by
  unfold SsTable.readBlock at h
  cases hidx : t.index[i]? with
  | none => simp [hidx] at h
  | some handle =>
    simp only [hidx] at h
    obtain ⟨buf, _, h⟩ := bind_eq_ok.mp h
    obtain ⟨_, h⟩ := check_eq_ok h
    exact ((decodeBlock_ok_iff _ _).mp h).2.2

theorem yields_sized {es : List Entry} (h : t.cursor.Yields es) : ∀ x ∈ es, x.Sized := by
  have hstream := h.stream (RunCursor.sound_new _ _)
  rw [SsTable.cursor, RunCursor.stream_new] at hstream
  obtain ⟨bs, _, rfl, hbs⟩ := blocksFrom_none hstream
  intro x hx
  obtain ⟨b, hb, hx⟩ := List.mem_flatten.mp hx
  obtain ⟨i, hi⟩ := List.getElem?_of_mem hb
  exact readBlock_sized (hbs i b hi) x hx

/-- A run the writer accepted reads back exactly when all its entries are sized. -/
theorem run_reads_back_iff {es : List Entry} (ha : Ascending es) {file : Bytes} (hf : writeRun es = .ok file)
    (name : Text) (id : ℕ) :
    (∃ t, SsTable.open file name id = .ok t ∧ t.cursor.Yields es ∧ ∀ k, t.lookup k = .ok (find es k)) ↔
      ∀ x ∈ es, x.Sized := by
  constructor
  · rintro ⟨t, _, hyields, _⟩
    exact yields_sized hyields
  · intro hs
    obtain ⟨bs, hl⟩ := writeRun_layout hf
    have hkeys : ∀ x ∈ handlesFrom 8 bs, x.lastKey.length ≤ MAX_RECORD_LEN := by
      intro x hx
      obtain ⟨y, hy, hkey⟩ := hl.exists_entry hx
      rw [hkey]
      exact (hs y hy).1
    have hopen : SsTable.open file name id = .ok ⟨file, name, handlesFrom 8 bs, es.length, none, id⟩ := by
      simp only [SsTable.open, hl.readIndex_ok ha hkeys, bind, Except.bind, pure, Except.pure]
    have ht := tableOf_open hl ha hopen
    exact ⟨_, hopen, RunCursor.yields_of_stream (RunCursor.sound_new _ _) (ht.cursor_stream hs), ht.lookup_eq hs⟩

omit [Deps] in
/-- A log record gives back the group it was written for exactly when the group is sized and counted. -/
theorem log_reads_back_iff (ops : List Entry) : decodeLog (encodeLog ops) = .ok ops ↔ LogSized ops :=
  ⟨fun h => ((decodeLog_ok_iff _ ops).mp h).2, decodeLog_encodeLog⟩

end Agreement
end LsmDb
