import LsmDb.Engine.Alone

/-! A log between two rotations, written by `log_one` and `log_batch` and replayed by the next open. -/
namespace LsmDb
open Lib
set_option autoImplicit false

section Replay
variable [Deps] {t : Tid} {features : Features} {w : World}

/-- `log_one` and `log_batch` calls, one group each. -/
def logAll (features : Features) : List (List Entry) → M Unit
  | [] => pure ()
  | ops :: groups => do
    logOps features ops
    logAll features groups

/-- A fresh log, some calls, and the log opened and replayed into an empty memtable. -/
def logSession (features : Features) (groups : List (List Entry)) : M MemTable := do
  rotate features
  logAll features groups
  openLog features

/-- The log is open and holds these records. -/
def Holding (records : List Bytes) (w : World) : Prop := logRecords w.wal = records ∧ w.walOpen = true

/-- The log has been replaced by an empty one. -/
def rotatedWorld (w : World) : World :=
  { w with wal := some Deps.walNew, walOpen := true, spec := { w.spec with logged := w.spec.cur } }

theorem alone_rotate_some (hd : features.durability = true) {log : Deps.Wal} (hwal : w.wal = some log) :
    alone t allOk (rotate features).run w = some (.ok (), rotatedWorld w) := by
  have hset : exec t (.setWal false) .ok w = some ((), { w with walOpen := false }) := rfl
  have hremove : exec t .walRemove .ok { w with walOpen := false } = some (.ok (), { w with
      walOpen := false
      wal := none
      spec := { w.spec with logged := w.spec.cur } }) := by
    simp [exec, hwal]
  simp only [rotate, hd, if_true]
  rw [alone_lift hset, alone_lift hremove]
  rfl

theorem alone_rotate (hd : features.durability = true) (w : World) :
    ∃ w', alone t allOk (rotate features).run w = some (.ok (), w') ∧ Holding [] w' := by
  obtain hwal | ⟨log, hwal⟩ := Option.eq_none_or_eq_some w.wal
  · have hset : exec t (.setWal false) .ok w = some ((), { w with walOpen := false }) := rfl
    have hremove : exec t .walRemove .ok { w with walOpen := false } = some (.error .notFound, { w with walOpen := false }) := by
      simp [exec, hwal]
    simp only [rotate, hd, if_true]
    rw [alone_lift hset, alone_lift hremove]
    exact ⟨_, rfl, by simp [Holding, hwal]⟩
  · exact ⟨_, alone_rotate_some hd hwal, by simp [Holding, rotatedWorld]⟩

theorem alone_logOps (hd : features.durability = true) {records : List Bytes} (h : Holding records w) {ops : List Entry}
    (htaken : (encodeLog ops).length ≤ Deps.walMaxRecord) :
    ∃ w', alone t allOk (logOps features ops).run w = some (.ok (), w') ∧ Holding (records ++ [encodeLog ops]) w' := by
  obtain ⟨rfl, hopen⟩ := h
  obtain ⟨log, hiter, happend⟩ := exec_walAppend_ok (t := t) (w := w) htaken
  simp only [logOps, hd, if_true]
  have hinner : exec t .inner .ok w = some ((w.memtable, w.runs, true), w) := by
    simp only [exec, hopen]
  rw [alone_lift hinner]
  exact ⟨w.appended log ops, alone_io_ok (x := perform (.walAppend ops)) (alone_mk happend), hiter, hopen⟩

theorem alone_logAll (hd : features.durability = true) {groups : List (List Entry)}
    (htaken : ∀ ops ∈ groups, (encodeLog ops).length ≤ Deps.walMaxRecord) {records : List Bytes} (h : Holding records w) :
    ∃ w', alone t allOk (logAll features groups).run w = some (.ok (), w') ∧
      Holding (records ++ groups.map encodeLog) w' := by
  induction groups generalizing records w with
  | nil => exact ⟨w, rfl, by simpa using h⟩
  | cons ops groups ih =>
    obtain ⟨w₁, h₁, hw₁⟩ := alone_logOps hd h (htaken ops (by simp))
    obtain ⟨w₂, h₂, hw₂⟩ := ih (fun x hx => htaken x (by simp [hx])) hw₁
    refine ⟨w₂, ?_, by simpa using hw₂⟩
    rw [logAll, alone_bind_ok h₁]
    exact h₂

theorem alone_openLog (hd : features.durability = true) {m : MemTable}
    (hreplay : replayLog MemTable.new (logRecords w.wal) = .ok m) :
    alone t allOk (openLog features).run w = some (.ok m, { w with wal := some (w.wal.getD Deps.walNew) }) := by
  let w₁ : World := { w with wal := some (w.wal.getD Deps.walNew) }
  have hopen : exec t .walOpen .ok w = some (.ok (), w₁) := rfl
  have hiter : exec t .walIter .ok w₁ = some (.ok (logRecords w.wal), w₁) := by
    simp [exec, w₁]
  simp only [openLog, hd, if_true]
  rw [alone_bind_ok (alone_io_ok (alone_mk hopen)), alone_bind_ok (show alone t allOk
    (ExceptT.mk (perform .walIter) : M (List Bytes)).run w₁ = some (.ok (logRecords w.wal), w₁) from alone_mk hiter),
    hreplay]
  rfl

/-- The log record codec is exact, and a log whose records `wal-db` takes replays, when it was written since its last
rotation, to the memtable that applying the operations in order gives, counter included. -/
theorem log_exact :
    (∀ bytes ops, decodeLog bytes = .ok ops ↔ bytes = encodeLog ops ∧ ops.length < 2 ^ 32 ∧ ∀ e ∈ ops, e.Sized) ∧
      (∀ bytes err, decodeLog bytes = .error err → err.IsCorruption) ∧
      ∀ (t : Tid) (bloom : Bool) (groups : List (List Entry)) (w : World),
        (∀ ops ∈ groups, ops.length < 2 ^ 32 ∧ ∀ e ∈ ops, e.Sized) →
        (∀ ops ∈ groups, (encodeLog ops).length ≤ Deps.walMaxRecord) →
        ∃ w', alone t allOk (logSession ⟨true, bloom⟩ groups).run w =
          some (.ok (MemTable.new.applyAll groups.flatten), w') := by
  refine ⟨fun bytes ops => ?_, fun bytes err => decodeLog_refused, fun t bloom groups w hs htaken => ?_⟩
  · rw [decodeLog_ok_iff]
    exact and_congr_right fun _ => ⟨fun h => ⟨h.count, h.sized⟩, fun h => ⟨h.1, h.2⟩⟩
  · have hd : (Features.mk true bloom).durability = true := rfl
    obtain ⟨w₁, h₁, hw₁⟩ := alone_rotate hd w
    obtain ⟨w₂, h₂, hw₂⟩ := alone_logAll hd htaken hw₁
    rw [List.nil_append] at hw₂
    have hreplay := replayLog_encodeLog (fun ops hops => ⟨(hs ops hops).1, (hs ops hops).2⟩) MemTable.new
    rw [← hw₂.1] at hreplay
    refine ⟨{ w₂ with wal := some (w₂.wal.getD Deps.walNew) }, ?_⟩
    rw [logSession, alone_bind_ok h₁, alone_bind_ok h₂]
    exact alone_openLog hd hreplay

end Replay

/-- One record, then a batch that deletes the same key and writes another one twice. -/
theorem log_exact_session : letI := Deps.concrete
    ∃ m w', alone 1 allOk (logSession ⟨true, false⟩ [[([1], .value [7])],
        [([1], .tombstone), ([2], .value [8]), ([2], .value [8, 9])]]).run World.initial = some (.ok m, w') ∧
      m.iter = [([1], .tombstone), ([2], .value [8, 9])] ∧ m.approxSize = 4 := by
  let _ := Deps.concrete
  obtain ⟨w', h⟩ := log_exact.2.2 1 false [[([1], .value [7])], [([1], .tombstone), ([2], .value [8]), ([2], .value [8, 9])]]
    World.initial (by decide) (by decide)
  exact ⟨_, w', h, by decide, by decide⟩

end LsmDb
