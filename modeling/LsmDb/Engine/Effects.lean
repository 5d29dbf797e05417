import LsmDb.Engine.World

/-! What an operation may change. Each names the fields it touches, and leaves the others as they are; that an
operation keeps something is read off these names. -/
namespace LsmDb
open Lib
set_option autoImplicit false

inductive Field where
  | dir
  | wal
  | nextRunId
  | opener
  | active
  | ready
  | live
  | config
  | features
  | memtable
  | runs
  | walOpen
  | lock
  | nextSeq
  | compacting
  | pending
  | running
  | generation
  | lastError
  | cache
  | held
  | obsolete
  | known
  | finished
  | cur
  | flushed
  | logged
  | acked
  | unsure
  | seen
deriving DecidableEq

section Effects
variable [Deps] {t : Tid} {w w' : World}

/-- The field has the same value in both worlds. -/
def Field.Same (w w' : World) : Field → Prop
  | dir => w'.dir = w.dir
  | wal => w'.wal = w.wal
  | nextRunId => w'.nextRunId = w.nextRunId
  | opener => w'.opener = w.opener
  | active => w'.active = w.active
  | ready => w'.ready = w.ready
  | live => w'.live = w.live
  | config => w'.config = w.config
  | features => w'.features = w.features
  | memtable => w'.memtable = w.memtable
  | runs => w'.runs = w.runs
  | walOpen => w'.walOpen = w.walOpen
  | lock => w'.lock = w.lock
  | nextSeq => w'.nextSeq = w.nextSeq
  | compacting => w'.compacting = w.compacting
  | pending => w'.pending = w.pending
  | running => w'.running = w.running
  | generation => w'.generation = w.generation
  | lastError => w'.lastError = w.lastError
  | cache => w'.cache = w.cache
  | held => w'.held = w.held
  | obsolete => w'.obsolete = w.obsolete
  | known => w'.known = w.known
  | finished => w'.finished = w.finished
  | cur => w'.spec.cur = w.spec.cur
  | flushed => w'.spec.flushed = w.spec.flushed
  | logged => w'.spec.logged = w.spec.logged
  | acked => w'.spec.acked = w.spec.acked
  | unsure => w'.spec.unsure = w.spec.unsure
  | seen => w'.spec.seen = w.spec.seen

def Act.touches : Act → List Field
  | .lock | .unlock => [.lock]
  | .apply _ => [.memtable, .cur]
  | .take => [.memtable]
  | .setWal _ => [.walOpen]
  | .install _ _ => [.runs, .obsolete]
  | .snapshot _ => [.held, .seen]
  | .register _ _ _ => [.nextRunId, .known]
  | .release _ => [.held]
  | .fetchAdd => [.nextSeq]
  | .swapCompacting | .storeCompacting => [.compacting]
  | .signal => [.pending]
  | .awaitWork => [.pending, .running]
  | .finishWork _ => [.running, .generation, .lastError]
  | .cacheGet _ | .cacheInsert _ _ => [.cache]
  | .create _ _ | .append _ _ | .remove _ => [.dir]
  | .rename _ target => .dir :: .finished :: if target = MANIFEST then [.flushed] else []
  | .walOpen => [.wal]
  | .walAppend _ | .walRemove => [.wal, .logged]
  | .startEngine _ _ _ _ _ _ => [.live, .config, .features, .memtable, .runs, .walOpen, .lock, .nextSeq, .cache]
  | .dropEngine => [.ready, .live, .memtable, .runs, .walOpen, .lock, .nextSeq, .compacting, .pending, .running,
      .generation, .lastError, .cache, .held, .obsolete, .known, .cur, .acked, .unsure]
  | _ => []

/-- The worlds differ at most in these fields. -/
def Differ (fs : List Field) (w w' : World) : Prop := ∀ f, f ∉ fs → f.Same w w'

theorem exec_differ {o : Act} {ch : Choice} {r : Res o} (h : exec t o ch w = some (r, w')) : Differ o.touches w w' := by
  intro f hf
  have hsame : w' = w → f.Same w w' := by
    rintro rfl
    cases f <;> rfl
  cases o with
  | lock | awaitWork | snapshot =>
    simp only [exec] at h
    split at h
    · obtain ⟨_, rfl⟩ := Prod.mk.inj (Option.some.inj h)
      cases f <;> first | rfl | simp [Act.touches] at hf
    · cases h
  | unlock | apply | take | setWal | install | register | release | fetchAdd | swapCompacting | storeCompacting | signal
  | finishWork | cacheGet | cacheInsert | startEngine | dropEngine =>
    obtain ⟨_, rfl⟩ := Prod.mk.inj (Option.some.inj h)
    cases f <;> first | rfl | simp [Act.touches] at hf
  | inner | loadSeq | openRun =>
    exact hsame (Prod.mk.inj (Option.some.inj h)).2.symm
  | readBlock | createDir | «exists» | sync | walIter | spawn | readFaults =>
    simp only [exec] at h
    split at h <;> exact hsame (Prod.mk.inj (Option.some.inj h)).2.symm
  | readText | read =>
    simp only [exec] at h
    split at h
    · exact hsame (Prod.mk.inj (Option.some.inj h)).2.symm
    · split at h <;> exact hsame (Prod.mk.inj (Option.some.inj h)).2.symm
  | readDir =>
    simp only [exec] at h
    split at h
    · exact hsame (Prod.mk.inj (Option.some.inj h)).2.symm
    · split_ifs at h <;> exact hsame (Prod.mk.inj (Option.some.inj h)).2.symm
    · exact hsame (Prod.mk.inj (Option.some.inj h)).2.symm
  | create | walOpen =>
    simp only [exec] at h
    split at h
    · exact hsame (Prod.mk.inj (Option.some.inj h)).2.symm
    all_goals
      obtain ⟨_, rfl⟩ := Prod.mk.inj (Option.some.inj h)
      cases f <;> first | rfl | simp [Act.touches] at hf
  | append =>
    simp only [exec] at h
    split at h
    · exact hsame (Prod.mk.inj (Option.some.inj h)).2.symm
    · split at h
      · obtain ⟨_, rfl⟩ := Prod.mk.inj (Option.some.inj h)
        cases f <;> first | rfl | simp [Act.touches] at hf
      · split_ifs at h
        · obtain ⟨_, rfl⟩ := Prod.mk.inj (Option.some.inj h)
          cases f <;> first | rfl | simp [Act.touches] at hf
        · exact hsame (Prod.mk.inj (Option.some.inj h)).2.symm
  | rename source target =>
    simp only [exec] at h
    split at h
    · exact hsame (Prod.mk.inj (Option.some.inj h)).2.symm
    · split at h
      · exact hsame (Prod.mk.inj (Option.some.inj h)).2.symm
      · obtain ⟨_, rfl⟩ := Prod.mk.inj (Option.some.inj h)
        by_cases hman : target = MANIFEST
        · simp only [Act.touches, hman, if_true] at hf
          cases f <;> first | (dsimp only [Field.Same]; split_ifs <;> rfl) | rfl | simp at hf
        · have hno : ¬ (target = MANIFEST ∧ t ≠ compactorTid) := fun hm => hman hm.1
          simp only [Act.touches, hman, if_false] at hf
          simp only [if_neg hno]
          cases f <;> first | rfl | simp at hf
  | remove | walRemove =>
    simp only [exec] at h
    split at h
    · exact hsame (Prod.mk.inj (Option.some.inj h)).2.symm
    · split at h
      · exact hsame (Prod.mk.inj (Option.some.inj h)).2.symm
      · obtain ⟨_, rfl⟩ := Prod.mk.inj (Option.some.inj h)
        cases f <;> first | rfl | simp [Act.touches] at hf
  | walAppend ops =>
    rcases exec_walAppend h with ⟨_, heq, _⟩ | ⟨log, _, rfl, _⟩
    · exact hsame heq
    · cases f <;> first | rfl | simp [Act.touches] at hf

/-! ## Files -/

/-- The names whose files an operation may change. -/
def Act.files : Act → List Text
  | .create name _ | .append name _ | .remove name => [name]
  | .rename source target => [source, target]
  | _ => []

theorem exec_files {o : Act} {ch : Choice} {r : Res o} {name : Text} (h : exec t o ch w = some (r, w'))
    (hn : name ∉ o.files) : w'.dir.get? name = w.dir.get? name := by
  have hrest : Field.dir ∉ o.touches → w'.dir.get? name = w.dir.get? name := fun hd =>
    congrArg (SortedMap.get? · name) (exec_differ h .dir hd)
  have hsame : w' = w → w'.dir.get? name = w.dir.get? name := fun heq => by rw [heq]
  cases o with
  | create other data =>
    have hne : name ≠ other := by simpa [Act.files] using hn
    simp only [exec] at h
    split at h
    · exact hsame (Prod.mk.inj (Option.some.inj h)).2.symm
    all_goals
      obtain ⟨_, rfl⟩ := Prod.mk.inj (Option.some.inj h)
      exact SortedMap.get?_insert_ne _ _ hne
  | append other data =>
    have hne : name ≠ other := by simpa [Act.files] using hn
    simp only [exec] at h
    split at h
    · exact hsame (Prod.mk.inj (Option.some.inj h)).2.symm
    · split at h
      · obtain ⟨_, rfl⟩ := Prod.mk.inj (Option.some.inj h)
        exact SortedMap.get?_insert_ne _ _ hne
      · split_ifs at h
        · obtain ⟨_, rfl⟩ := Prod.mk.inj (Option.some.inj h)
          exact SortedMap.get?_insert_ne _ _ hne
        · exact hsame (Prod.mk.inj (Option.some.inj h)).2.symm
  | rename source target =>
    have hne : name ≠ source ∧ name ≠ target := by simpa [Act.files] using hn
    simp only [exec] at h
    split at h
    · exact hsame (Prod.mk.inj (Option.some.inj h)).2.symm
    · split at h
      · exact hsame (Prod.mk.inj (Option.some.inj h)).2.symm
      · obtain ⟨_, rfl⟩ := Prod.mk.inj (Option.some.inj h)
        show ((w.dir.erase source).insert target _).get? name = _
        rw [SortedMap.get?_insert_ne _ _ hne.2, SortedMap.get?_erase, if_neg hne.1]
  | remove other =>
    have hne : name ≠ other := by simpa [Act.files] using hn
    simp only [exec] at h
    split at h
    · exact hsame (Prod.mk.inj (Option.some.inj h)).2.symm
    · split at h
      · exact hsame (Prod.mk.inj (Option.some.inj h)).2.symm
      · obtain ⟨_, rfl⟩ := Prod.mk.inj (Option.some.inj h)
        show (w.dir.erase other).get? name = _
        rw [SortedMap.get?_erase, if_neg hne]
  | _ => exact hrest (by simp [Act.touches])

end Effects
end LsmDb
