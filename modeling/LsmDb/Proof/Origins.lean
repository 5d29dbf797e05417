import LsmDb.Proof.Compacting
import LsmDb.Proof.Protocol

/-! Where entries come from. Of a set of entries `V`, the engine's data are made of it: its memtable, its runs and their
files, its cache and its log. An operation that brings in nothing else leaves it so, and returns nothing else; every
program of the engine that is given entries of `V` keeps to such operations, whatever fails. -/
namespace LsmDb
open Lib
set_option autoImplicit false

/-! ## The log -/

theorem decodeLogLoop_own {ops ops' : List Entry} {count : ℕ} {rest : Bytes} (h32 : ∀ x ∈ ops, x.FitsU32)
    (hle : count ≤ ops.length) (h : decodeLogLoop count (ops.flatMap encodeEntry) = .ok (ops', rest)) :
    ops' = ops.take count ∧ rest = (ops.drop count).flatMap encodeEntry := by
  induction ops generalizing count ops' rest with
  | nil =>
    obtain rfl : count = 0 := Nat.le_zero.mp hle
    obtain ⟨rfl, rfl⟩ := Prod.mk.inj (Except.ok.inj h)
    exact ⟨rfl, rfl⟩
  | cons x ops ih =>
    cases count with
    | zero =>
      obtain ⟨rfl, rfl⟩ := Prod.mk.inj (Except.ok.inj h)
      exact ⟨rfl, rfl⟩
    | succ count =>
      simp only [decodeLogLoop, List.flatMap_cons] at h
      by_cases hx : x.Sized
      · rw [(readEntry_exact logText).read_append hx] at h
        simp only [bind, Except.bind] at h
        obtain ⟨⟨ops₁, rest₁⟩, hloop, h⟩ := bind_eq_ok.mp h
        obtain ⟨rfl, rfl⟩ := Prod.mk.inj (Except.ok.inj h)
        obtain ⟨rfl, rfl⟩ := ih (fun y hy => h32 y (List.mem_cons_of_mem _ hy)) (Nat.le_of_succ_le_succ hle) hloop
        exact ⟨rfl, rfl⟩
      · obtain ⟨err, herr⟩ := readEntry_oversized logText (h32 x List.mem_cons_self) hx (ops.flatMap encodeEntry)
        rw [herr] at h
        cases h

/-- A record of operations whose lengths fit their prefixes is read as it was written or refused, whatever its count. -/
theorem decodeLog_own {ops ops' : List Entry} (h32 : ∀ x ∈ ops, x.FitsU32) (h : decodeLog (encodeLog ops) = .ok ops') :
    ops' = ops := by
  obtain ⟨⟨count, rest⟩, hread, h⟩ := bind_eq_ok.mp h
  obtain ⟨⟨ops₁, rest₁⟩, hloop, h⟩ := bind_eq_ok.mp h
  obtain ⟨hend, h⟩ := check_eq_ok h
  obtain rfl := Except.ok.inj h
  have hcount : count = ops.length % 2 ^ 32 ∧ rest = ops.flatMap encodeEntry := by
    have hmod : encodeU32 ops.length = encodeU32 (ops.length % 2 ^ 32) := by
      have hb := leBytes_leValue (encodeU32 ops.length)
      rw [encodeU32_length, encodeU32, leValue_leBytes] at hb
      exact hb.symm
    rw [encodeLog, hmod, (readU32_exact _).read_append (Nat.mod_lt _ (by decide))] at hread
    obtain ⟨rfl, rfl⟩ := Prod.mk.inj (Except.ok.inj hread)
    exact ⟨rfl, rfl⟩
  obtain ⟨rfl, rfl⟩ := hcount
  obtain ⟨rfl, rfl⟩ := decodeLogLoop_own h32 (Nat.mod_le _ _) hloop
  -- what is left over is trailing bytes
  have hnil : ops.drop (ops.length % 2 ^ 32) = [] := by
    have hflat := not_not.mp hend
    cases hdrop : ops.drop (ops.length % 2 ^ 32) with
    | nil => rfl
    | cons x xs =>
      rw [hdrop] at hflat
      exact absurd hflat (encodeEntry_ne_nil x _)
  have htake := List.take_append_drop (ops.length % 2 ^ 32) ops
  rwa [hnil, List.append_nil] at htake

/-- A record of entries of `V`. -/
def LogFrom (V : Entry → Prop) (record : Bytes) : Prop := ∀ ops, decodeLog record = .ok ops → ∀ x ∈ ops, V x

theorem logFrom_encode {V : Entry → Prop} {ops : List Entry} (hV : ∀ x, V x → x.FitsU32) (h : ∀ x ∈ ops, V x) : LogFrom V (encodeLog ops) := by
  intro ops' hdec
  rw [decodeLog_own (fun x hx => hV x (h x hx)) hdec]
  exact h

theorem replayLog_from {V : Entry → Prop} {m m' : MemTable} {records : List Bytes} (hm : ∀ x ∈ m.iter, V x)
    (hlog : ∀ record ∈ records, LogFrom V record) (h : replayLog m records = .ok m') : ∀ x ∈ m'.iter, V x := by
  induction records generalizing m with
  | nil =>
    obtain rfl := Except.ok.inj h
    exact hm
  | cons record records ih =>
    obtain ⟨ops, hdec, hrest⟩ := bind_eq_ok.mp h
    refine ih (fun x hx => ?_) (fun r hr => hlog r (List.mem_cons_of_mem _ hr)) hrest
    rw [MemTable.iter_applyAll] at hx
    rcases mem_insertAll hx with hx | hx
    · exact hlog record List.mem_cons_self ops hdec x hx
    · exact hm x hx

section Origins
variable [Deps] {t : Tid} {w w' : World} {V : Entry → Prop}

/-! ## Data made of `V` -/

/-- The bytes of a finished run. -/
def FileFrom (V : Entry → Prop) (file : Bytes) : Prop := ∃ es bs, RunLayout es file bs ∧ Ascending es ∧ ∀ x ∈ es, V x

def SsTable.From (V : Entry → Prop) (table : SsTable) : Prop :=
  (∃ q, table.name = runFilename q) ∧ ∃ es bs, TableOf table es bs ∧ ∀ x ∈ es, V x

/-- A run that `SsTable::open` has read, before it has a handle. -/
def OpenedRun.From (V : Entry → Prop) (run : OpenedRun) : Prop :=
  ∃ es bs, RunLayout es run.file bs ∧ Ascending es ∧ run.index = handlesFrom 8 bs ∧ run.entryCount = es.length ∧
    ∀ x ∈ es, V x

structure World.From (V : Entry → Prop) (w : World) : Prop where
  memtable : ∀ x ∈ w.memtable.iter, V x
  runs : ∀ r ∈ w.runs, r.From V
  log : ∀ record ∈ logRecords w.wal, LogFrom V record
  cache : w.cache.Coherent fun _ block => ∀ x ∈ block, V x
  files : ∀ q d, look w.dir (.run q) = some d → ∃ file, d = .bin file ∧ FileFrom V file

/-- The manifest lists run files. -/
def World.Lists (w : World) : Prop :=
  ∀ text m, w.dir.get? MANIFEST = some (.text text) → parseManifest text = .ok m → ∀ n ∈ m.runs, ∃ q, n = runFilename q

theorem SsTable.From.block {table : SsTable} (h : table.From V) {i : ℕ} {block : DecodedBlock}
    (hb : table.readBlock i = .ok block) : ∀ x ∈ block, V x := by
  obtain ⟨_, es, bs, htable, hes⟩ := h
  cases hi : bs[i]? with
  | none =>
    have hnone : table.index[i]? = none := by
      rw [List.getElem?_eq_none_iff, htable.index_length]
      exact List.getElem?_eq_none_iff.mp hi
    simp [SsTable.readBlock, hnone] at hb
  | some b =>
    rcases htable.readBlock_cases hi with ⟨_, hok⟩ | ⟨_, err, herr⟩
    · obtain rfl := Except.ok.inj (hok.symm.trans hb)
      exact fun x hx => hes x (htable.layout.key_le (List.mem_of_getElem? hi) hx)
    · rw [herr] at hb
      cases hb

theorem OpenedRun.From.table {run : OpenedRun} (h : run.From V) {q : ℕ} {filter : Option RunFilter} {id : ℕ} :
    SsTable.From V ⟨run.file, runFilename q, run.index, run.entryCount, filter, id⟩ := by
  obtain ⟨es, bs, hlayout, hasc, hindex, hcount, hes⟩ := h
  exact ⟨⟨q, rfl⟩, es, bs, ⟨hlayout, hasc, hindex, hcount⟩, hes⟩

theorem openFile_from {d : Option Data} {ch : Choice} {run : OpenedRun}
    (hd : ∀ x, d = some x → ∃ file, x = .bin file ∧ FileFrom V file) (h : openFile d ch = .ok run) : run.From V := by
  have hread : ∀ file, FileFrom V file → ∀ p, SsTable.readIndex file.length (preadExact file) = .ok p →
      OpenedRun.From V ⟨file, p.1, p.2⟩ := by
    rintro file ⟨es, bs, hlayout, hasc, hes⟩ p hp
    rw [hlayout.readIndex_unique hasc hp]
    exact ⟨es, bs, hlayout, hasc, rfl, rfl, hes⟩
  cases ch with
  | fail n =>
    simp only [openFile] at h
    split_ifs at h
  | ok | order _ _ | faults _ =>
    cases d with
    | none => simp [openFile] at h
    | some x =>
      obtain ⟨file, rfl, hfile⟩ := hd x rfl
      simp only [openFile] at h
      cases hindex : SsTable.readIndex file.length (preadExact file) with
      | error err => simp [hindex] at h
      | ok p =>
        simp only [hindex, Except.ok.injEq] at h
        subst h
        exact hread file hfile p hindex

/-! ## Operations -/

/-- The names of run files, finished or not. -/
def Name.ofRun : Name → Bool
  | run _ | runTmp _ => true
  | _ => false

/-- An operation that brings in nothing but `V`, leaves run files that are being written alone, and does not number,
start or drop anything. -/
def Act.From (V : Entry → Prop) : Act → Prop
  | .apply ops => ∀ x ∈ ops, V x
  | .walAppend ops => LogFrom V (encodeLog ops)
  | .cacheInsert _ block => ∀ x ∈ block, V x
  | .install _ runs => ∀ r ∈ runs, r.From V
  | .readBlock table _ => table.From V
  | .openRun name => ∃ q, name = runFilename q
  | .register name run _ => (∃ q, name = runFilename q) ∧ run.From V
  | .readText name => name = MANIFEST
  | .create name _ | .append name _ => ∃ n : Name, name = n.text ∧ n.ofRun = false
  | .rename source target => ∃ m n : Name, source = m.text ∧ target = n.text ∧ m.ofRun = false ∧ n.ofRun = false
  | .remove name => ∃ n : Name, name = n.text ∧ ∀ q, n ≠ .runTmp q
  | .fetchAdd | .startEngine _ _ _ _ _ _ | .dropEngine => False
  | _ => True

/-- A result with nothing but `V` in it. -/
def Act.Gives (V : Entry → Prop) : (o : Act) → Res o → Prop
  | .inner, r => ∀ table ∈ r.2.1, table.From V
  | .take, r => Ascending r ∧ ∀ x ∈ r, V x
  | .snapshot _, r => (∀ x ∈ r.1.iter, V x) ∧ ∀ table ∈ r.2, table.From V
  | .register _ _ _, r => r.From V
  | .cacheGet _, r => ∀ block, r = some block → ∀ x ∈ block, V x
  | .readBlock _ _, r => ∀ block, r = .ok block → ∀ x ∈ block, V x
  | .readText _, r => ∀ text, r = .ok text → ∀ m, parseManifest text = .ok m → ∀ n ∈ m.runs, ∃ q, n = runFilename q
  | .openRun _, r => ∀ run, r = .ok run → run.From V
  | .walIter, r => ∀ records, r = .ok records → ∀ record ∈ records, LogFrom V record
  | _, _ => True

/-- What such an operation leaves: data made of `V`, and what runs that are being written rest on. -/
structure Stays (V : Entry → Prop) (w w' : World) : Prop where
  data : w'.From V
  nextSeq : w'.nextSeq = w.nextSeq
  temps : ∀ q, look w'.dir (.runTmp q) = look w.dir (.runTmp q)

theorem World.From.stays (h : w.From V) : Stays V w w := ⟨h, rfl, fun _ => rfl⟩

/-- A step that touches nothing that holds data. -/
theorem World.From.differ (h : w.From V) {fs : List Field} (hd : Differ fs w w')
    (hno : ∀ f ∈ [Field.memtable, .runs, .cache, .dir, .nextSeq], f ∉ fs) (hlog : logRecords w'.wal = logRecords w.wal) :
    Stays V w w' where
  data := by
    refine ⟨?_, ?_, ?_, ?_, ?_⟩
    · rw [hd .memtable (hno _ (by simp))]
      exact h.memtable
    · rw [hd .runs (hno _ (by simp))]
      exact h.runs
    · rw [hlog]
      exact h.log
    · rw [hd .cache (hno _ (by simp))]
      exact h.cache
    · rw [hd .dir (hno _ (by simp))]
      exact h.files
  nextSeq := hd .nextSeq (hno _ (by simp))
  temps q := by rw [hd .dir (hno _ (by simp))]

/-- Run files are as they were or gone. -/
theorem World.From.fewer (h : w.From V) {dir : SortedMap Text Data}
    (hdir : ∀ q, look dir (.run q) = look w.dir (.run q) ∨ look dir (.run q) = none) :
    ∀ q d, look dir (.run q) = some d → ∃ file, d = .bin file ∧ FileFrom V file := by
  intro q d hd
  rcases hdir q with hsame | hgone
  · exact h.files q d (hsame.symm.trans hd)
  · rw [hgone] at hd
    cases hd

omit [Deps] in
theorem Name.ne_ofRun {n m : Name} (hn : n.ofRun = false) (hm : m.ofRun = true) : m ≠ n := by
  rintro rfl
  rw [hm] at hn
  cases hn

omit [Deps] in
theorem look_aside (dir : SortedMap Text Data) {n m : Name} (hn : n.ofRun = false) (hm : m.ofRun = true) (d : Data) :
    look (dir.insert n.text d) m = look dir m := by
  rw [look_insert, Function.update_of_ne (Name.ne_ofRun hn hm)]

/-- A file that is not a run's is written. -/
theorem World.From.aside (h : w.From V) {n : Name} (hn : n.ofRun = false) (d : Data) :
    Stays V w { w with dir := w.dir.insert n.text d } where
  data := { h with files := fun q x hq => h.files q x (by rwa [look_aside _ hn rfl] at hq) }
  nextSeq := rfl
  temps q := look_aside _ hn rfl d

theorem World.From.create (h : w.From V) {n : Name} (hn : n.ofRun = false) {empty : Data} {ch : Choice}
    {r : Res (.create n.text empty)} (hx : exec t (.create n.text empty) ch w = some (r, w')) : Stays V w w' := by
  simp only [exec] at hx
  split at hx
  · obtain ⟨_, rfl⟩ := Prod.mk.inj (Option.some.inj hx)
    exact h.stays
  · obtain ⟨_, rfl⟩ := Prod.mk.inj (Option.some.inj hx)
    exact h.aside hn _
  · obtain ⟨_, rfl⟩ := Prod.mk.inj (Option.some.inj hx)
    exact h.aside hn _

theorem World.From.append (h : w.From V) {n : Name} (hn : n.ofRun = false) {data : Data} {ch : Choice}
    {r : Res (.append n.text data)} (hx : exec t (.append n.text data) ch w = some (r, w')) : Stays V w w' := by
  simp only [exec] at hx
  split at hx
  · obtain ⟨_, rfl⟩ := Prod.mk.inj (Option.some.inj hx)
    exact h.stays
  split at hx
  · obtain ⟨_, rfl⟩ := Prod.mk.inj (Option.some.inj hx)
    exact h.aside hn _
  split_ifs at hx
  · obtain ⟨_, rfl⟩ := Prod.mk.inj (Option.some.inj hx)
    exact h.aside hn _
  · obtain ⟨_, rfl⟩ := Prod.mk.inj (Option.some.inj hx)
    exact h.stays

theorem World.From.rename (h : w.From V) {m n : Name} (hm : m.ofRun = false) (hn : n.ofRun = false) {ch : Choice}
    {r : Res (.rename m.text n.text)} (hx : exec t (.rename m.text n.text) ch w = some (r, w')) : Stays V w w' := by
  have hdir : ∀ (d : Data) (x : Name), x.ofRun = true → look ((w.dir.erase m.text).insert n.text d) x = look w.dir x := by
    intro d x hofRun
    rw [look_aside _ hn hofRun, look_erase, Function.update_of_ne (Name.ne_ofRun hm hofRun)]
  simp only [exec] at hx
  split at hx
  · obtain ⟨_, rfl⟩ := Prod.mk.inj (Option.some.inj hx)
    exact h.stays
  split at hx
  · obtain ⟨_, rfl⟩ := Prod.mk.inj (Option.some.inj hx)
    exact h.stays
  · obtain ⟨_, rfl⟩ := Prod.mk.inj (Option.some.inj hx)
    exact ⟨{ h with files := fun q x hq => h.files q x (by rwa [← hdir _ _ rfl]) }, rfl, fun q => hdir _ _ rfl⟩

/-- A file goes; nothing else changes. -/
theorem exec_unlink {name : Text} {ch : Choice} {r : Res (.remove name)} (hx : exec t (.remove name) ch w = some (r, w')) :
    w' = w ∨ w' = { w with dir := w.dir.erase name } := by
  simp only [exec] at hx
  split at hx
  · exact Or.inl (Prod.mk.inj (Option.some.inj hx)).2.symm
  split at hx
  · exact Or.inl (Prod.mk.inj (Option.some.inj hx)).2.symm
  · exact Or.inr (Prod.mk.inj (Option.some.inj hx)).2.symm

theorem World.From.erase (h : w.From V) (name : Text) : World.From V { w with dir := w.dir.erase name } := by
  refine { h with files := h.fewer fun q => ?_ }
  rw [look_erase_text]
  split_ifs
  · exact Or.inr rfl
  · exact Or.inl rfl

theorem World.From.remove (h : w.From V) {n : Name} (hn : ∀ q, n ≠ .runTmp q) {ch : Choice} {r : Res (.remove n.text)}
    (hx : exec t (.remove n.text) ch w = some (r, w')) : Stays V w w' := by
  rcases exec_unlink hx with rfl | rfl
  · exact h.stays
  · refine ⟨h.erase _, rfl, fun q => ?_⟩
    rw [look_erase, Function.update_of_ne (Ne.symm (hn q))]

theorem World.From.walAppend (h : w.From V) {ops : List Entry} (hops : LogFrom V (encodeLog ops)) {ch : Choice}
    {r : Res (.walAppend ops)} (hx : exec t (.walAppend ops) ch w = some (r, w')) : Stays V w w' := by
  rcases exec_walAppend hx with ⟨_, rfl, _⟩ | ⟨log, hlog, rfl, _⟩
  · exact h.stays
  · refine ⟨⟨h.memtable, h.runs, fun record hrec => ?_, h.cache, h.files⟩, rfl, fun _ => rfl⟩
    have hin : record ∈ logRecords w.wal ++ [encodeLog ops] := hlog ▸ hrec
    rcases List.mem_append.mp hin with hold | hnew
    · exact h.log record hold
    · rw [List.mem_singleton.mp hnew]
      exact hops

theorem World.From.walRemove (h : w.From V) {ch : Choice} {r : Res .walRemove}
    (hx : exec t .walRemove ch w = some (r, w')) : Stays V w w' := by
  simp only [exec] at hx
  split at hx
  · obtain ⟨_, rfl⟩ := Prod.mk.inj (Option.some.inj hx)
    exact h.stays
  split at hx
  · obtain ⟨_, rfl⟩ := Prod.mk.inj (Option.some.inj hx)
    exact h.stays
  · obtain ⟨_, rfl⟩ := Prod.mk.inj (Option.some.inj hx)
    exact ⟨⟨h.memtable, h.runs, by simp, h.cache, h.files⟩, rfl, fun _ => rfl⟩

theorem World.From.readText (h : w.From V) (hl : w.Lists) {ch : Choice} {r : Res (.readText MANIFEST)}
    (hx : exec t (.readText MANIFEST) ch w = some (r, w')) : (Act.readText MANIFEST).Gives V r ∧ Stays V w w' := by
  simp only [exec] at hx
  split at hx
  · obtain ⟨rfl, rfl⟩ := Prod.mk.inj (Option.some.inj hx)
    exact ⟨fun text htext => (by cases htext), h.stays⟩
  split at hx
  · rename_i text hget
    obtain ⟨rfl, rfl⟩ := Prod.mk.inj (Option.some.inj hx)
    refine ⟨fun text' htext m hm => ?_, h.stays⟩
    obtain rfl := Except.ok.inj htext
    exact hl _ m hget hm
  · obtain ⟨rfl, rfl⟩ := Prod.mk.inj (Option.some.inj hx)
    exact ⟨fun text htext => (by cases htext), h.stays⟩
  · obtain ⟨rfl, rfl⟩ := Prod.mk.inj (Option.some.inj hx)
    exact ⟨fun text htext => (by cases htext), h.stays⟩

/-- An operation that brings in nothing but `V` returns nothing else, and leaves nothing else. -/
theorem exec_from {o : Act} {ch : Choice} {r : Res o} (h : w.From V) (hl : w.Lists) (ho : o.From V)
    (hx : exec t o ch w = some (r, w')) : o.Gives V r ∧ Stays V w w' := by
  cases o with
  | fetchAdd | startEngine | dropEngine => exact absurd ho id
  | create name empty =>
    obtain ⟨n, rfl, hn⟩ := ho
    exact ⟨trivial, h.create hn hx⟩
  | append name data =>
    obtain ⟨n, rfl, hn⟩ := ho
    exact ⟨trivial, h.append hn hx⟩
  | rename source target =>
    obtain ⟨m, n, rfl, rfl, hm, hn⟩ := ho
    exact ⟨trivial, h.rename hm hn hx⟩
  | remove name =>
    obtain ⟨n, rfl, hn⟩ := ho
    exact ⟨trivial, h.remove hn hx⟩
  | walAppend ops => exact ⟨trivial, h.walAppend ho hx⟩
  | walOpen => exact ⟨trivial, h.differ (exec_differ hx) (by simp [Act.touches]) (exec_walOpen hx)⟩
  | walRemove => exact ⟨trivial, h.walRemove hx⟩
  | readText name =>
    obtain rfl : name = MANIFEST := ho
    exact h.readText hl hx
  | inner =>
    obtain ⟨rfl, rfl⟩ := Prod.mk.inj (Option.some.inj hx)
    exact ⟨h.runs, h.stays⟩
  | apply ops =>
    obtain ⟨_, rfl⟩ := Prod.mk.inj (Option.some.inj hx)
    refine ⟨trivial, ⟨fun x hin => ?_, h.runs, h.log, h.cache, h.files⟩, rfl, fun _ => rfl⟩
    rw [MemTable.iter_applyAll] at hin
    exact (mem_insertAll hin).elim (ho x) (h.memtable x)
  | take =>
    obtain ⟨rfl, rfl⟩ := Prod.mk.inj (Option.some.inj hx)
    exact ⟨⟨w.memtable.iter_ascending, h.memtable⟩, ⟨by simp, h.runs, h.log, h.cache, h.files⟩, rfl, fun _ => rfl⟩
  | install obsolete runs =>
    obtain ⟨_, rfl⟩ := Prod.mk.inj (Option.some.inj hx)
    exact ⟨trivial, ⟨h.memtable, ho, h.log, h.cache, h.files⟩, rfl, fun _ => rfl⟩
  | snapshot want =>
    simp only [exec] at hx
    split at hx
    · obtain ⟨rfl, rfl⟩ := Prod.mk.inj (Option.some.inj hx)
      exact ⟨⟨h.memtable, h.runs⟩, ⟨h.memtable, h.runs, h.log, h.cache, h.files⟩, rfl, fun _ => rfl⟩
    · cases hx
  | register name run filter =>
    obtain ⟨rfl, rfl⟩ := Prod.mk.inj (Option.some.inj hx)
    obtain ⟨⟨q, rfl⟩, hrun⟩ := ho
    exact ⟨hrun.table, ⟨h.memtable, h.runs, h.log, h.cache, h.files⟩, rfl, fun _ => rfl⟩
  | cacheGet key =>
    obtain ⟨rfl, rfl⟩ := Prod.mk.inj (Option.some.inj hx)
    obtain ⟨hafter, hblock⟩ := BlockCache.get_spec h.cache key
    exact ⟨hblock, ⟨h.memtable, h.runs, h.log, hafter, h.files⟩, rfl, fun _ => rfl⟩
  | cacheInsert key block =>
    obtain ⟨_, rfl⟩ := Prod.mk.inj (Option.some.inj hx)
    exact ⟨trivial, ⟨h.memtable, h.runs, h.log, BlockCache.insert_spec h.cache ho, h.files⟩, rfl, fun _ => rfl⟩
  | readBlock table i =>
    simp only [exec] at hx
    split at hx
    · obtain ⟨rfl, rfl⟩ := Prod.mk.inj (Option.some.inj hx)
      exact ⟨fun block hb => (by cases hb), h.stays⟩
    · obtain ⟨rfl, rfl⟩ := Prod.mk.inj (Option.some.inj hx)
      exact ⟨fun block hb => (by cases hb), h.stays⟩
    · obtain ⟨rfl, rfl⟩ := Prod.mk.inj (Option.some.inj hx)
      exact ⟨fun block hb => SsTable.From.block ho hb, h.stays⟩
  | openRun name =>
    obtain ⟨rfl, rfl⟩ := Prod.mk.inj (Option.some.inj hx)
    obtain ⟨q, rfl⟩ := ho
    exact ⟨fun run hrun => openFile_from (fun d hd => h.files q d hd) hrun, h.stays⟩
  | walIter =>
    simp only [exec] at hx
    split at hx
    · obtain ⟨rfl, rfl⟩ := Prod.mk.inj (Option.some.inj hx)
      exact ⟨fun records hrec => (by cases hrec), h.stays⟩
    · obtain ⟨rfl, rfl⟩ := Prod.mk.inj (Option.some.inj hx)
      exact ⟨fun records hrec => (by cases hrec), h.stays⟩
    · obtain ⟨rfl, rfl⟩ := Prod.mk.inj (Option.some.inj hx)
      refine ⟨fun records hrec => ?_, h.stays⟩
      obtain rfl := Except.ok.inj hrec
      exact h.log
  | _ =>
    -- neither data nor run files
    have hd := exec_differ hx
    exact ⟨trivial, h.differ hd (by simp [Act.touches]) (congrArg logRecords (hd .wal (by simp [Act.touches])))⟩

end Origins
end LsmDb
