import LsmDb.Engine.Naming
import LsmDb.Proof.Protocol

/-! What a thread answers for in the directory: the files it has made and not yet handed over or removed, and the run
handles it will have to give up. Every program of the engine is followed once through these charges. -/
namespace LsmDb
open Lib
set_option autoImplicit false

section Charges
variable [Deps]

/-- A thread on an engine: whether it is still opening it, the files it answers for, its handles, whether it is inside
the write lock, and the run list it read there. -/
structure Charge where
  opens : Bool
  owes : List Text
  hands : List SsTable
  locked : Bool
  memo : Option (List SsTable)

/-- A thread without a call; an open before it lists the directory, and after it, with the names that may be left; a
call on an engine; an open that dropped its engine. `broken` is where results lead that the world never gives. -/
inductive Keeper where
  | idle
  | opening
  | sweeping (left : List Text)
  | serving (c : Charge)
  | gone
  | broken

namespace Keeper

def owes : Keeper → List Text
  | serving c => c.owes
  | _ => []

def hands : Keeper → List SsTable
  | serving c => c.hands
  | _ => []

def locked : Keeper → Bool
  | serving c => c.locked
  | _ => false

def memo : Keeper → Option (List SsTable)
  | serving c => c.memo
  | _ => none

def opens : Keeper → Bool
  | opening | sweeping _ => true
  | serving c => c.opens
  | _ => false

end Keeper

/-- The files of a run. -/
def SsTable.Owns (table : SsTable) (name : Text) : Prop := name = table.name ∨ name = sidecarPath table.name

/-- What the loop over the directory leaves. -/
def Spared (live : List Text) (name : Text) : Prop :=
  match classify name with
  | .temporary => False
  | .sidecar run => run ∈ live
  | .run _ => name ∈ live
  | .other => True

/-- Operations that leave the names of the directory, the run list, the handles and the lock alone. -/
def Act.inert : Act → Bool
  | .lock | .unlock | .install _ _ | .snapshot _ | .release _ | .create _ _ | .rename _ _ | .remove _
  | .startEngine _ _ _ _ _ _ | .dropEngine => false
  | _ => true

inductive ChargeStep : Keeper → (o : Act) → Res o → Keeper → Prop
  | keep {s : Keeper} {o : Act} {r : Res o} (ho : o.inert = true) : ChargeStep s o r s
  -- opening
  | unlink {name : Text} {r : Except IoError Unit} : ChargeStep .opening (.remove name) r .opening
  | list {r : Except IoError (List Text × Bool)} {found : List Text} (h : r = .ok (found, false)) :
      ChargeStep .opening .readDir r (.sweeping found)
  | sweep {left left' : List Text} {name : Text} {r : Except IoError Unit} (h : r ≠ .error .other)
      (hleft : ∀ n ∈ left, n ≠ name → n ∈ left') : ChargeStep (.sweeping left) (.remove name) r (.sweeping left')
  | unswept {left : List Text} {name : Text} {r : Except IoError Unit} :
      ChargeStep (.sweeping left) (.remove name) r (.sweeping left)
  | start {left : List Text} {config : LsmConfig} {features : Features} {m : MemTable} {runs : List SsTable} {b : Bool}
      {q : ℕ} {r : Unit} (h : ∀ n ∈ left, Spared (names runs) n) :
      ChargeStep (.sweeping left) (.startEngine config features m runs b q) r (.serving ⟨true, [], [], false, none⟩)
  -- the lock
  | lock {c : Charge} {r : Unit} (h : c.locked = false) :
      ChargeStep (.serving c) .lock r (.serving { c with locked := true, memo := none })
  | inner {c : Charge} {r : MemTable × List SsTable × Bool} (h : c.locked = true) :
      ChargeStep (.serving c) .inner r (.serving { c with memo := some r.2.1 })
  | unlock {c : Charge} {r : Unit} (h : c.locked = true) :
      ChargeStep (.serving c) .unlock r (.serving { c with locked := false, memo := none })
  -- handles
  | snapshot {c : Charge} {want : MemTable → List SsTable → Bool} {r : MemTable × List SsTable} (h : c.hands = []) :
      ChargeStep (.serving c) (.snapshot want) r (.serving { c with hands := if want r.1 r.2 then r.2 else [] })
  | release {c : Charge} {table : SsTable} {rest : List SsTable} {r : Bool} (h : c.hands = table :: rest) :
      ChargeStep (.serving c) (.release table) r (.serving { c with
        hands := rest
        owes := if r then table.name :: sidecarPath table.name :: c.owes else c.owes })
  -- files
  | create {c : Charge} {name : Text} {empty : Data} {r : Except IoError Unit} :
      ChargeStep (.serving c) (.create name empty) r (.serving { c with owes := name :: c.owes })
  | rename {c : Charge} {source target : Text} {r : Except IoError Unit} (owes : List Text)
      (hkeep : ∀ n ∈ c.owes, n ≠ source → n ∈ owes) (hnew : target = MANIFEST ∨ target ∈ owes) (h : r = .ok ()) :
      ChargeStep (.serving c) (.rename source target) r (.serving { c with owes := owes })
  | unrenamed {c : Charge} {source target : Text} {r : Except IoError Unit} {err : IoError} (h : r = .error err) :
      ChargeStep (.serving c) (.rename source target) r (.serving c)
  | remove {c : Charge} {name : Text} {r : Except IoError Unit} (owes : List Text) (h : r ≠ .error .other)
      (hkeep : ∀ n ∈ c.owes, n ≠ name → n ∈ owes) :
      ChargeStep (.serving c) (.remove name) r (.serving { c with owes := owes })
  -- a new run list, with all of the old one but runs that are in hand
  | install {c : Charge} {obsolete runs rs : List SsTable} {r : Unit} (owes : List Text) (hl : c.locked = true)
      (hm : c.memo = some rs)
      (hruns : ∀ r ∈ rs, r ∈ runs ∨ ∃ i ∈ c.hands, i ∈ obsolete ∧ i.runId = r.runId)
      (hkeep : ∀ n ∈ c.owes, n ∈ owes ∨ ∃ r ∈ runs, r.Owns n) :
      ChargeStep (.serving c) (.install obsolete runs) r (.serving { c with owes := owes, memo := none })
  | drop {c : Charge} {r : Unit} (ho : c.opens = true) : ChargeStep (.serving c) .dropEngine r .gone
  -- a handle with another name than the file it was opened from, an unlink that fails
  | misnamed {s : Keeper} {name : Text} {run : OpenedRun} {filter : Option RunFilter} {r : SsTable} (h : r.name ≠ name) :
      ChargeStep s (.register name run filter) r .broken
  | unremoved {s : Keeper} {name : Text} {r : Except IoError Unit} (h : r = .error .other) :
      ChargeStep s (.remove name) r .broken
  | broken {o : Act} {r : Res o} : ChargeStep .broken o r .broken

/-- A call that succeeds has nothing left to answer for. -/
def ChargeEnds (_ : Call) (s : Keeper) (reply : Reply) : Prop :=
  reply.isOk = true → s.owes = [] ∧ s.hands = [] ∧ s.locked = false

/-! ## Programs -/

section Programs
variable {α : Type} {features : Features} {config : LsmConfig} {c : Charge} {s : Keeper} {b : Bool}

theorem follows_broken {x : P α} {Q : Keeper → α → Prop} (h : ∀ v, Q .broken v) : x.Follows ChargeStep Q .broken := by
  induction x with
  | done v => exact h v
  | op o k ih => exact fun r => ⟨.broken, .broken, ih r⟩

theorem FollowsM.broken {x : M α} {Q : Keeper → α → Prop} {E : Keeper → Error → Prop} (h : ∀ v, Q .broken v)
    (he : ∀ err, E .broken err) : FollowsM ChargeStep Q E x .broken := by
  refine follows_broken fun r => ?_
  cases r with
  | ok v => exact h v
  | error err => exact he err

/-- A program of inert operations. -/
abbrev Inert (x : P α) : Prop := x.Uses fun o => o.inert = true

theorem FollowsM.inert {x : M α} {Q : Keeper → α → Prop} {E : Keeper → Error → Prop} (hx : Inert x.run) (hq : ∀ v, Q s v)
    (he : ∀ err, E s err) : FollowsM ChargeStep Q E x s :=
  FollowsM.still hx (fun _ _ ho => .keep ho) hq he

theorem FollowsM.perform_inert {β : Type} {o : Act} {Q : Keeper → β → Prop} {E : Keeper → Error → Prop} {f : Res o → M β}
    (ho : o.inert = true) (h : ∀ r, FollowsM ChargeStep Q E (f r) s) :
    FollowsM ChargeStep Q E ((LsmDb.perform o : P (Res o)) >>= f) s :=
  FollowsM.perform fun r => ⟨s, .keep ho, h r⟩

theorem inert_writeChunksTo (name : Text) (chunks : List Chunk) : Inert (writeChunksTo name chunks).run := by
  induction chunks with
  | nil => trivial
  | cons c cs ih => exact uses_bind (uses_io (uses_op rfl)) fun _ => ih

theorem inert_pushEntries (name : Text) (es : List Entry) (w : SsTableWriter) : Inert (pushEntries name w es).run := by
  induction es generalizing w with
  | nil => trivial
  | cons x es ih =>
    refine uses_bind (x := lift _) trivial fun y => ?_
    exact uses_bind (inert_writeChunksTo name _) fun _ => ih _

/-! ## Building a run -/

/-- A call that gave up, with these handles in hand. -/
def Fell (b : Bool) (hands : List SsTable) (locked : Bool) (s : Keeper) : Prop :=
  s = .broken ∨ ∃ owes memo, s = .serving ⟨b, owes, hands, locked, memo⟩

theorem fell_serving (c : Charge) : Fell c.opens c.hands c.locked (.serving c) := Or.inr ⟨_, _, rfl⟩

theorem charge_create {E : Keeper → Error → Prop} {Q : Keeper → Unit → Prop} {context : String} {name : Text} {empty : Data}
    (hq : Q (.serving { c with owes := name :: c.owes }) ()) (he : ∀ owes err, E (.serving { c with owes := owes }) err) :
    FollowsM ChargeStep Q E (io context (perform (.create name empty))) (.serving c) := by
  refine FollowsM.io fun r => ⟨_, .create, ?_⟩
  cases r with
  | ok v => exact hq
  | error err => exact he _ _

theorem charge_rename {E : Keeper → Error → Prop} {Q : Keeper → Unit → Prop} {context : String} {source target : Text}
    (owes : List Text) (hkeep : ∀ n ∈ c.owes, n ≠ source → n ∈ owes) (hnew : target = MANIFEST ∨ target ∈ owes)
    (hq : Q (.serving { c with owes := owes }) ()) (he : ∀ err, E (.serving c) err) :
    FollowsM ChargeStep Q E (io context (perform (.rename source target))) (.serving c) := by
  refine FollowsM.io fun r => ?_
  cases r with
  | ok v => exact ⟨_, .rename owes hkeep hnew rfl, hq⟩
  | error err => exact ⟨_, .unrenamed rfl, he _⟩

theorem charge_writeRunFile {name : Text} {es : List Entry} {readErr : Option Error} :
    FollowsM ChargeStep (fun s _ => s = .serving { c with owes := name :: c.owes }) (fun s _ => Fell c.opens c.hands c.locked s)
      (writeRunFile name es readErr) (.serving c) := by
  unfold writeRunFile
  refine FollowsM.bind (charge_create ?_ fun _ _ => fell_serving _)
  refine FollowsM.inert ?_ (fun _ => rfl) fun _ => fell_serving _
  refine uses_bind (inert_writeChunksTo _ _) fun _ => uses_bind (inert_pushEntries _ _ _) fun w => ?_
  cases readErr with
  | some err => trivial
  | none =>
    refine uses_bind (x := lift _) trivial fun chunks => ?_
    exact uses_bind (inert_writeChunksTo _ _) fun _ => uses_io (uses_op rfl)

theorem charge_writeSidecar {filter : RunFilter} {name : Text} :
    FollowsM ChargeStep (fun s _ => s = .serving { c with owes := sidecarPath name :: c.owes })
      (fun s _ => Fell c.opens c.hands c.locked s) (writeSidecar filter name) (.serving c) := by
  unfold writeSidecar
  refine FollowsM.bind (FollowsM.inert (x := lift _) trivial (fun bytes => ?_) fun _ => fell_serving _)
  refine FollowsM.bind (charge_create ?_ fun _ _ => fell_serving _)
  refine FollowsM.bind (FollowsM.inert (uses_io (uses_op rfl)) (fun _ => ?_) fun _ => fell_serving _)
  refine charge_rename (sidecarPath name :: c.owes) ?_ (Or.inr List.mem_cons_self) rfl fun _ => fell_serving _
  intro n hn hne
  exact List.mem_cons_of_mem _ ((List.mem_cons.mp hn).resolve_left hne)

/-- The thread answers for the files of the run it has built. -/
theorem charge_buildRun {context : String} {name : Text} {es : List Entry} {readErr : Option Error}
    {filter : Option RunFilter} (hc : c.owes = []) :
    FollowsM ChargeStep (fun s table => s = .broken ∨ table.name = name ∧
        ∃ owes, s = .serving { c with owes := owes } ∧ ∀ n ∈ owes, table.Owns n)
      (fun s _ => Fell c.opens c.hands c.locked s) (buildRun context name es readErr filter) (.serving c) := by
  have hopen : ∀ owes : List Text, (∀ n ∈ owes, n = name ∨ n = sidecarPath name) →
      FollowsM ChargeStep (fun s table => s = .broken ∨ table.name = name ∧
        ∃ owes, s = .serving { c with owes := owes } ∧ ∀ n ∈ owes, table.Owns n)
      (fun s _ => Fell c.opens c.hands c.locked s) (do
        let opened ← ExceptT.mk (perform (.openRun name))
        perform (.register name opened filter) : M SsTable) (.serving { c with owes := owes }) := by
    intro owes howes
    refine FollowsM.bind (FollowsM.inert (uses_op (o := .openRun name) rfl) (fun opened => ?_) fun _ => fell_serving _)
    refine FollowsM.last fun table => ?_
    by_cases hname : table.name = name
    · refine ⟨_, .keep rfl, Or.inr ⟨hname, owes, rfl, fun n hn => ?_⟩⟩
      rw [SsTable.Owns, hname]
      exact howes n hn
    · exact ⟨_, .misnamed hname, Or.inl rfl⟩
  unfold buildRun
  refine FollowsM.bind (Prog.Follows.mono charge_writeRunFile fun s r hr => ?_)
  cases r with
  | error err => exact hr
  | ok v =>
    obtain rfl : s = _ := hr
    refine FollowsM.bind (charge_rename [name] ?_ (Or.inr List.mem_cons_self) ?_ fun _ => fell_serving _)
    · intro n hn hne
      rw [hc] at hn
      exact absurd (List.mem_singleton.mp hn) hne
    cases filter with
    | none => exact hopen _ fun n hn => Or.inl (List.mem_singleton.mp hn)
    | some f =>
      refine FollowsM.bind (Prog.Follows.mono charge_writeSidecar fun s r hr => ?_)
      cases r with
      | error err => exact hr
      | ok v =>
        obtain rfl : s = _ := hr
        refine hopen _ fun n hn => ?_
        rcases List.mem_cons.mp hn with rfl | hn
        · exact Or.inr rfl
        · exact Or.inl (List.mem_singleton.mp hn)

theorem charge_storeManifest {q : ℕ} {l : List Text} :
    FollowsM ChargeStep (fun s _ => s = .serving c) (fun s _ => Fell c.opens c.hands c.locked s) (storeManifest q l) (.serving c) := by
  unfold storeManifest
  refine FollowsM.bind (charge_create ?_ fun _ _ => fell_serving _)
  refine FollowsM.bind (FollowsM.inert (uses_io (uses_op rfl)) (fun _ => ?_) fun _ => fell_serving _)
  refine FollowsM.bind (FollowsM.inert (uses_io (uses_op rfl)) (fun _ => ?_) fun _ => fell_serving _)
  refine charge_rename c.owes ?_ (Or.inl rfl) rfl fun _ => fell_serving _
  intro n hn hne
  exact (List.mem_cons.mp hn).resolve_left hne

/-! ## Writes and flushes -/

theorem inert_rotate (features : Features) : Inert (rotate features).run :=
  uses_rotate (p := fun o => o.inert = true) (fun _ => rfl) rfl rfl features

theorem inert_logOps (features : Features) (ops : List Entry) : Inert (logOps features ops).run := by
  unfold logOps
  cases features.durability with
  | false => trivial
  | true =>
    refine uses_perform rfl fun inner => ?_
    by_cases hopen : inner.2.2 = false
    · simp only [hopen, if_true]
      trivial
    · simp only [hopen]
      exact uses_io (uses_op rfl)

/-- A critical section that went through. -/
def Passed (b : Bool) (s : Keeper) : Prop := s = .broken ∨ ∃ memo, s = .serving ⟨b, [], [], true, memo⟩

theorem charge_flushLocked {memo : Option (List SsTable)} :
    FollowsM ChargeStep (fun s _ => Passed b s) (fun s _ => Fell b [] true s) (flushLocked config features)
      (.serving ⟨b, [], [], true, memo⟩) := by
  have hrest : ∀ n : ℕ, FollowsM ChargeStep (fun s _ => Passed b s) (fun s _ => Fell b [] true s) (do
      rotate features
      if config.compactionTrigger ≤ n then perform .signal : M Unit) (.serving ⟨b, [], [], true, none⟩) := by
    intro n
    refine FollowsM.inert (uses_bind (inert_rotate features) fun _ => ?_) (fun _ => Or.inr ⟨_, rfl⟩) fun _ => fell_serving _
    split_ifs
    · exact uses_last rfl
    · trivial
  unfold flushLocked
  refine FollowsM.perform_inert rfl fun entries => FollowsM.perform_inert rfl fun seq => ?_
  refine FollowsM.bind (Prog.Follows.mono (charge_buildRun rfl) fun s r hr => ?_)
  cases r with
  | error err => exact hr
  | ok table =>
    rcases hr with rfl | ⟨hname, owes, rfl, howes⟩
    · exact FollowsM.broken (fun _ => Or.inl rfl) fun _ => Or.inl rfl
    refine FollowsM.perform fun inner => ⟨_, .inner rfl, FollowsM.perform_inert rfl fun nextSeq => ?_⟩
    refine FollowsM.bind (Prog.Follows.mono charge_storeManifest fun s r hr => ?_)
    cases r with
    | error err => exact hr
    | ok v =>
      obtain rfl : s = _ := hr
      refine FollowsM.perform fun _ => ⟨_, .install [] rfl rfl ?_ ?_, hrest _⟩
      · exact fun r hr => Or.inl (List.mem_cons_of_mem _ hr)
      · exact fun n hn => Or.inr ⟨table, List.mem_cons_self, howes n hn⟩

/-- What a call holds that is done with its critical section. -/
def Quit (b : Bool) (s : Keeper) : Prop := s = .broken ∨ s = .serving ⟨b, [], [], false, none⟩

theorem charge_guard {body : M Unit} (h : FollowsM ChargeStep (fun s _ => Passed b s) (fun s _ => Fell b [] true s) body
      (.serving ⟨b, [], [], true, none⟩)) :
    FollowsM ChargeStep (fun s _ => Quit b s) (fun s _ => Fell b [] false s) (withGuard body)
      (.serving ⟨b, [], [], false, none⟩) := by
  refine FollowsM.withGuard (.lock rfl) (Prog.Follows.mono h fun s r hr => ?_)
  cases r with
  | ok v =>
    rcases hr with rfl | ⟨memo, rfl⟩
    · exact ⟨_, .broken, Or.inl rfl⟩
    · exact ⟨_, .unlock rfl, Or.inr rfl⟩
  | error err =>
    rcases hr with rfl | ⟨owes, memo, rfl⟩
    · exact ⟨_, .broken, Or.inl rfl⟩
    · exact ⟨_, .unlock rfl, Or.inr ⟨_, _, rfl⟩⟩

theorem charge_flush :
    FollowsM ChargeStep (fun s _ => Quit b s) (fun s _ => Fell b [] false s) (flush config features)
      (.serving ⟨b, [], [], false, none⟩) := by
  refine charge_guard (FollowsM.perform_inert rfl fun inner => ?_)
  split_ifs
  · exact Or.inr ⟨_, rfl⟩
  · exact charge_flushLocked

theorem charge_writeOps {ops : List Entry} :
    FollowsM ChargeStep (fun s _ => Quit b s) (fun s _ => Fell b [] false s) (writeOps config features ops)
      (.serving ⟨b, [], [], false, none⟩) := by
  refine charge_guard (FollowsM.bind (FollowsM.inert (inert_logOps features ops) (fun _ => ?_) fun _ => fell_serving _))
  refine FollowsM.perform_inert rfl fun _ => FollowsM.perform_inert rfl fun inner => ?_
  split_ifs
  · exact charge_flushLocked
  · exact Or.inr ⟨_, rfl⟩

/-! ## Reads -/

/-- The handles are given up one by one, and what is dead with them is removed. -/
theorem charge_dropRuns {tables : List SsTable} {owes : List Text} {locked : Bool} {memo : Option (List SsTable)} :
    (dropRuns tables).Follows ChargeStep (fun s _ => s = .broken ∨ s = .serving ⟨b, owes, [], locked, memo⟩)
      (.serving ⟨b, owes, tables, locked, memo⟩) := by
  induction tables with
  | nil => exact Or.inr rfl
  | cons table tables ih =>
    unfold dropRuns
    refine follows_perform fun last => ⟨_, .release rfl, ?_⟩
    cases last with
    | false => exact ih
    | true =>
      refine follows_perform fun r => ?_
      by_cases hr : r = .error .other
      · exact ⟨_, .unremoved hr, follows_broken fun _ => Or.inl rfl⟩
      refine ⟨_, .remove (sidecarPath table.name :: owes) hr ?_, follows_perform fun r' => ?_⟩
      · exact fun n hn hne => (List.mem_cons.mp hn).resolve_left hne
      by_cases hr' : r' = .error .other
      · exact ⟨_, .unremoved hr', follows_broken fun _ => Or.inl rfl⟩
      · exact ⟨_, .remove owes hr' fun n hn hne => (List.mem_cons.mp hn).resolve_left hne, ih⟩

theorem inert_lookup (table : SsTable) (key : Bytes) : Inert (lookup table key).run := by
  unfold lookup
  dsimp only
  split_ifs
  · trivial
  · refine uses_bind ?_ fun block => trivial
    unfold cachedBlock
    refine uses_perform rfl fun block => ?_
    cases block with
    | some block => trivial
    | none => exact uses_bind (uses_op (o := .readBlock table _) rfl) fun _ => uses_perform rfl fun _ => trivial

theorem inert_searchRuns (key : Bytes) (tables : List SsTable) : Inert (searchRuns key tables).run := by
  induction tables with
  | nil => trivial
  | cons table tables ih =>
    unfold searchRuns
    split_ifs
    · exact ih
    · refine uses_bind (inert_lookup table key) fun r => ?_
      rcases r with _ | ⟨_ | _⟩
      · exact ih
      · trivial
      · trivial

theorem charge_get {key : Bytes} :
    (get key).run.Follows ChargeStep (fun s _ => Quit b s) (.serving ⟨b, [], [], false, none⟩) := by
  unfold get
  refine follows_perform fun snap => ⟨_, .snapshot rfl, ?_⟩
  dsimp only
  cases hget : snap.1.get key with
  | some record =>
    cases record with
    | value v => exact Or.inr rfl
    | tombstone => exact Or.inr rfl
  | none =>
    rw [Option.isNone_none, if_pos rfl]
    refine Prog.Follows.bind ((inert_searchRuns key snap.2).follows (fun _ _ ho => .keep ho) fun r => ?_)
    exact Prog.Follows.bind (Prog.Follows.mono charge_dropRuns fun s _ hs => hs)

theorem charge_scan {range : Range} :
    (scan range).run.Follows ChargeStep (fun s _ => Quit b s) (.serving ⟨b, [], [], false, none⟩) := by
  unfold scan
  refine follows_perform fun snap => ⟨_, .snapshot rfl, follows_perform fun faults => ⟨_, .keep rfl, ?_⟩⟩
  exact Prog.Follows.bind (Prog.Follows.mono charge_dropRuns fun s _ hs => hs)

/-! ## Compaction -/

theorem charge_mergeRuns {inputs : List SsTable} :
    FollowsM ChargeStep (fun s _ => s = .broken ∨ s = .serving ⟨b, [], inputs, false, none⟩)
      (fun s _ => Fell b inputs false s) (mergeRuns features inputs) (.serving ⟨b, [], inputs, false, none⟩) := by
  unfold mergeRuns
  refine FollowsM.perform_inert rfl fun seq => FollowsM.perform_inert rfl fun faults => ?_
  refine FollowsM.bind (Prog.Follows.mono (charge_buildRun rfl) fun s r hr => ?_)
  cases r with
  | error err => exact hr
  | ok output =>
    rcases hr with rfl | ⟨hname, owes, rfl, howes⟩
    · exact FollowsM.broken (fun _ => Or.inl rfl) fun _ => Or.inl rfl
    refine FollowsM.withGuard (.lock rfl) (FollowsM.perform fun inner => ⟨_, .inner rfl, ?_⟩)
    refine FollowsM.perform_inert rfl fun nextSeq => FollowsM.bind (Prog.Follows.mono charge_storeManifest fun s r hr => ?_)
    cases r with
    | error err =>
      rcases hr with rfl | ⟨owes', memo, rfl⟩
      · exact ⟨_, .broken, Or.inl rfl⟩
      · exact ⟨_, .unlock rfl, Or.inr ⟨_, _, rfl⟩⟩
    | ok v =>
      obtain rfl : s = _ := hr
      refine FollowsM.last fun _ => ⟨_, .install [] rfl rfl ?_ ?_, _, .unlock rfl, Or.inr rfl⟩
      · intro r hr
        by_cases hin : inputs.any fun i => i.runId = r.runId
        · obtain ⟨i, hi, hid⟩ := List.any_eq_true.mp hin
          exact Or.inr ⟨i, hi, hi, of_decide_eq_true hid⟩
        · refine Or.inl (List.mem_append_left _ (List.mem_filter.mpr ⟨hr, ?_⟩))
          simpa using hin
      · exact fun n hn => Or.inr ⟨output, List.mem_append_right _ List.mem_cons_self, howes n hn⟩

/-- A round that fails has given up its handles all the same. -/
theorem charge_compactInner :
    (compactInner features).run.Follows ChargeStep (fun s r => r.isOk = true → Quit b s)
      (.serving ⟨b, [], [], false, none⟩) := by
  unfold compactInner
  refine follows_perform fun snap => ⟨_, .snapshot rfl, ?_⟩
  dsimp only
  by_cases hlen : snap.2.length < 2
  · rw [if_pos hlen, if_neg fun htwo => Nat.not_le_of_lt hlen (of_decide_eq_true htwo)]
    exact fun _ => Or.inr rfl
  rw [if_neg hlen, if_pos (decide_eq_true (Nat.le_of_not_lt hlen))]
  refine Prog.Follows.bind (Prog.Follows.mono charge_mergeRuns fun s r hr => ?_)
  cases r with
  | ok v =>
    rcases hr with rfl | rfl
    · exact follows_broken fun _ _ => Or.inl rfl
    · exact Prog.Follows.bind (Prog.Follows.mono charge_dropRuns fun s _ hs _ => hs)
  | error err =>
    rcases hr with rfl | ⟨owes, memo, rfl⟩
    · exact follows_broken fun _ _ => Or.inl rfl
    · refine Prog.Follows.bind (Prog.Follows.mono charge_dropRuns fun s _ hs => ?_)
      exact fun hok => absurd hok (by simp [Except.isOk, Except.toBool])

theorem charge_compactorRound :
    (compactorRound features).run.Follows ChargeStep (fun s r => r.isOk = true → Quit b s)
      (.serving ⟨b, [], [], false, none⟩) := by
  refine follows_perform fun _ => ⟨_, .keep rfl, Prog.Follows.bind ?_⟩
  refine follows_perform fun busy => ⟨_, .keep rfl, ?_⟩
  cases busy with
  | true => exact follows_perform fun _ => ⟨_, .keep rfl, fun _ => Or.inr rfl⟩
  | false =>
    refine Prog.Follows.bind (Prog.Follows.mono charge_compactInner fun s r hr => ?_)
    exact follows_perform fun _ => ⟨s, .keep rfl, follows_perform fun _ => ⟨s, .keep rfl, hr⟩⟩

/-! ## Opening -/

/-- An open that has no engine yet, or never will. -/
def Astray (s : Keeper) : Prop := s = .broken ∨ s = .opening

theorem charge_loadFilter {name : Text} :
    FollowsM ChargeStep (fun s _ => s = .opening) (fun s _ => s = .opening) (loadFilter features name) .opening := by
  unfold loadFilter
  cases features.bloom with
  | false => exact rfl
  | true =>
    rw [if_pos rfl]
    refine FollowsM.perform_inert rfl fun r => ?_
    rcases r with (_ | _) | bytes
    · exact rfl
    · exact rfl
    · dsimp only
      cases RunFilter.decode bytes with
      | some f => exact rfl
      | none => exact FollowsM.perform fun _ => ⟨_, .unlink, rfl⟩

/-- Every table is named after the file it was opened from. -/
theorem charge_openRuns (live : List Text) :
    FollowsM ChargeStep (fun s tables => s = .broken ∨ s = .opening ∧ names tables = live) (fun s _ => Astray s)
      (openRuns features live) .opening := by
  induction live with
  | nil => exact Or.inr ⟨rfl, rfl⟩
  | cons name rest ih =>
    unfold openRuns
    refine FollowsM.perform_inert rfl fun found => ?_
    cases found with
    | false => exact Or.inr rfl
    | true =>
      refine FollowsM.bind (FollowsM.inert (uses_op (o := .openRun name) rfl) (fun opened => ?_) fun _ => Or.inr rfl)
      refine FollowsM.bind (Prog.Follows.mono charge_loadFilter fun s r hr => ?_)
      cases r with
      | error err => exact Or.inr hr
      | ok filter =>
        obtain rfl : s = _ := hr
        refine FollowsM.perform fun table => ?_
        by_cases hname : table.name = name
        · refine ⟨_, .keep rfl, FollowsM.bind (Prog.Follows.mono ih fun s r hr => ?_)⟩
          cases r with
          | error err => exact hr
          | ok tables =>
            rcases hr with rfl | ⟨rfl, hnames⟩
            · exact Or.inl rfl
            · refine Or.inr ⟨rfl, ?_⟩
              rw [names, List.map_cons, hname]
              exact congrArg _ hnames
        · exact ⟨_, .misnamed hname, FollowsM.broken (fun _ => Or.inl rfl) fun _ => Or.inl rfl⟩

/-- The loop goes over a listing that broke off. -/
theorem charge_reclaim_broken {live : List Text} {nextSeq : ℕ} (found : List Text) :
    FollowsM ChargeStep (fun s _ => s = .opening) (fun s _ => s = .opening) (reclaim live nextSeq found) .opening := by
  have hremove : ∀ (context : String) (name : Text) (nextSeq : ℕ) (rest : List Text),
      (∀ q, FollowsM ChargeStep (fun s _ => s = .opening) (fun s _ => s = .opening) (reclaim live q rest) .opening) →
      FollowsM ChargeStep (fun s _ => s = .opening) (fun s _ => s = .opening) (do
        io context (perform (.remove name))
        reclaim live nextSeq rest : M ℕ) .opening := by
    intro context name nextSeq rest hrest
    refine FollowsM.bind (FollowsM.io fun r => ⟨_, .unlink, ?_⟩)
    cases r with
    | ok v => exact hrest _
    | error err => exact rfl
  have hall : ∀ q, FollowsM ChargeStep (fun s _ => s = .opening) (fun s _ => s = .opening) (reclaim live q found) .opening := by
    induction found with
    | nil => exact fun q => rfl
    | cons name rest ih =>
      intro q
      rw [reclaim_classify]
      cases classify name with
      | temporary => exact hremove _ _ _ _ ih
      | sidecar run =>
        simp only [reclaimAs]
        split_ifs
        · exact ih _
        · exact hremove _ _ _ _ ih
      | run seq =>
        simp only [reclaimAs]
        split_ifs
        · exact ih _
        · exact hremove _ _ _ _ ih
      | other => exact ih _
  exact hall nextSeq

/-- What the loop leaves of the names it goes over is spared. -/
theorem charge_reclaim {live : List Text} (found : List Text) : ∀ (nextSeq : ℕ) (left : List Text),
    FollowsM ChargeStep (fun s _ => ∃ left', s = .sweeping left' ∧ (∀ n ∈ left', n ∈ left) ∧
        ∀ n ∈ left', n ∈ found → Spared live n)
      (fun s _ => ∃ left', s = .sweeping left') (reclaim live nextSeq found) (.sweeping left) := by
  induction found with
  | nil => exact fun nextSeq left => ⟨left, rfl, fun n hn => hn, nofun⟩
  | cons name rest ih =>
    intro nextSeq left
    -- the name is removed
    have hremove : ∀ (context : String) (q : ℕ),
        FollowsM ChargeStep (fun s _ => ∃ left', s = .sweeping left' ∧ (∀ n ∈ left', n ∈ left) ∧
          ∀ n ∈ left', n ∈ name :: rest → Spared live n) (fun s _ => ∃ left', s = .sweeping left') (do
          io context (perform (.remove name))
          reclaim live q rest : M ℕ) (.sweeping left) := by
      intro context q
      refine FollowsM.bind (FollowsM.io fun r => ?_)
      cases r with
      | error err => exact ⟨_, .unswept, _, rfl⟩
      | ok v =>
        have hrest : FollowsM ChargeStep (fun s _ => ∃ left', s = .sweeping left' ∧ (∀ n ∈ left', n ∈ left) ∧
            ∀ n ∈ left', n ∈ name :: rest → Spared live n) (fun s _ => ∃ left', s = .sweeping left')
            (reclaim live q rest) (.sweeping (left.filter (· ≠ name))) := by
          refine Prog.Follows.mono (ih q _) fun s r hr => ?_
          cases r with
          | error err => exact hr
          | ok q' =>
            obtain ⟨left', rfl, hsub, hspared⟩ := hr
            refine ⟨left', rfl, fun n hn => (List.mem_filter.mp (hsub n hn)).1, fun n hn hin => ?_⟩
            have hne : n ≠ name := by simpa using (List.mem_filter.mp (hsub n hn)).2
            exact hspared n hn ((List.mem_cons.mp hin).resolve_left hne)
        exact ⟨_, .sweep (by simp) fun n hn hne => List.mem_filter.mpr ⟨hn, by simpa using hne⟩, hrest⟩
    -- the name is spared
    have hspare : Spared live name → ∀ q, FollowsM ChargeStep (fun s _ => ∃ left', s = .sweeping left' ∧
        (∀ n ∈ left', n ∈ left) ∧ ∀ n ∈ left', n ∈ name :: rest → Spared live n)
        (fun s _ => ∃ left', s = .sweeping left') (reclaim live q rest) (.sweeping left) := by
      intro hname q
      refine Prog.Follows.mono (ih q left) fun s r hr => ?_
      cases r with
      | error err => exact hr
      | ok q' =>
        obtain ⟨left', rfl, hsub, hspared⟩ := hr
        refine ⟨left', rfl, hsub, fun n hn hin => ?_⟩
        rcases List.mem_cons.mp hin with rfl | hin
        · exact hname
        · exact hspared n hn hin
    rw [reclaim_classify]
    cases hkind : classify name with
    | temporary => exact hremove _ _
    | sidecar run =>
      simp only [reclaimAs]
      split_ifs with hlive
      · exact hspare (by rw [Spared, hkind]; exact hlive) _
      · exact hremove _ _
    | run seq =>
      simp only [reclaimAs]
      split_ifs with hlive
      · exact hspare (by rw [Spared, hkind]; exact hlive) _
      · exact hremove _ _
    | other => exact hspare (by rw [Spared, hkind]; trivial) _

theorem inert_loadManifest : Inert loadManifest.run := by
  unfold loadManifest
  refine uses_perform rfl fun found => ?_
  cases found with
  | false => trivial
  | true =>
    refine uses_bind (uses_io (uses_op rfl)) fun text => ?_
    exact uses_bind (x := lift _) trivial fun m => trivial

theorem inert_openLog (features : Features) : Inert (openLog features).run := by
  unfold openLog
  cases features.durability with
  | false => trivial
  | true =>
    refine uses_bind (uses_io (uses_op rfl)) fun _ => ?_
    exact uses_bind (uses_op (o := .walIter) rfl) fun records => trivial

/-- Once the engine is built. -/
theorem charge_built :
    FollowsM ChargeStep (fun s _ => Quit true s) (fun s _ => s = .broken ∨ s = .gone) (orDrop do
      flush config features
      io "spawn compaction thread" (perform .spawn) : M Unit) (.serving ⟨true, [], [], false, none⟩) := by
  have hbuilt : FollowsM ChargeStep (fun s _ => Quit true s) (fun s _ => Fell true [] false s) (do
      flush config features
      io "spawn compaction thread" (perform .spawn) : M Unit) (.serving ⟨true, [], [], false, none⟩) := by
    refine FollowsM.bind (Prog.Follows.mono charge_flush fun s r hr => ?_)
    cases r with
    | error err => exact hr
    | ok v =>
      rcases hr with rfl | rfl
      · exact FollowsM.broken (fun _ => Or.inl rfl) fun _ => Or.inl rfl
      · exact FollowsM.inert (uses_io (uses_op rfl)) (fun _ => Or.inr rfl) fun _ => fell_serving _
  refine Prog.Follows.bind (Prog.Follows.mono hbuilt fun s r hr => ?_)
  cases r with
  | ok v => exact hr
  | error err =>
    rcases hr with rfl | ⟨owes, memo, rfl⟩
    · exact follows_perform fun _ => ⟨_, .broken, Or.inl rfl⟩
    · exact follows_perform fun _ => ⟨_, .drop rfl, Or.inr rfl⟩

theorem charge_readDir {context : String} :
    FollowsM ChargeStep (fun s r => s = if r.2 then .opening else .sweeping r.1) (fun _ _ => True)
      (io context (perform .readDir)) .opening := by
  refine FollowsM.io fun r => ?_
  rcases r with err | ⟨found, broken⟩
  · exact ⟨_, .keep rfl, trivial⟩
  cases broken with
  | true => exact ⟨_, .keep rfl, rfl⟩
  | false => exact ⟨_, .list rfl, rfl⟩

theorem charge_openWith :
    FollowsM ChargeStep (fun s _ => Quit true s) (fun _ _ => True) (openWith config features) .opening := by
  unfold openWith
  refine FollowsM.bind (FollowsM.inert (uses_io (uses_op rfl)) (fun _ => ?_) fun _ => trivial)
  refine FollowsM.bind (FollowsM.inert inert_loadManifest (fun manifest => ?_) fun _ => trivial)
  refine FollowsM.bind (Prog.Follows.mono (charge_openRuns _) fun s r hr => ?_)
  cases r with
  | error err => exact trivial
  | ok runs =>
    rcases hr with rfl | ⟨rfl, hnames⟩
    · exact FollowsM.broken (fun _ => Or.inl rfl) fun _ => trivial
    refine FollowsM.bind (Prog.Follows.mono charge_readDir fun s r hr => ?_)
    rcases r with err | ⟨found, broken⟩
    · exact trivial
    dsimp only
    cases broken with
    | true =>
      obtain rfl : s = _ := hr
      refine FollowsM.bind (Prog.Follows.mono (charge_reclaim_broken found) fun s r _ => ?_)
      cases r with
      | error err => exact trivial
      | ok q => exact trivial
    | false =>
      obtain rfl : s = _ := hr
      refine FollowsM.bind (Prog.Follows.mono (charge_reclaim found _ found) fun s r hr => ?_)
      cases r with
      | error err => exact trivial
      | ok q =>
        obtain ⟨left, rfl, hsub, hspared⟩ := hr
        dsimp only
        rw [if_neg Bool.false_ne_true]
        refine FollowsM.bind (FollowsM.inert (inert_openLog features) (fun m => ?_) fun _ => trivial)
        refine FollowsM.perform fun _ => ⟨_, .start ?_, Prog.Follows.mono charge_built fun s r hr => ?_⟩
        · intro n hn
          rw [hnames]
          exact hspared n hn (hsub n hn)
        · cases r with
          | ok v => exact hr
          | error err => exact trivial

/-- The charge a call starts with. -/
def Call.keeper : Call → Keeper
  | .openWith _ _ => .opening
  | _ => .serving ⟨false, [], [], false, none⟩

theorem Quit.clear (h : Quit b s) : s.owes = [] ∧ s.hands = [] ∧ s.locked = false := by
  rcases h with rfl | rfl
  · exact ⟨rfl, rfl, rfl⟩
  · exact ⟨rfl, rfl, rfl⟩

/-- Every program of the engine keeps to its charges. -/
theorem charge_program (config : LsmConfig) (features : Features) (call : Call) :
    (call.program config features).Follows ChargeStep (ChargeEnds call) call.keeper := by
  have hunit : ∀ {b : Bool} {x : M Unit} {s : Keeper} {E : Keeper → Error → Prop} (call : Call),
      FollowsM ChargeStep (fun s _ => Quit b s) E x s →
      (Reply.unit <$> x.run : P Reply).Follows ChargeStep (ChargeEnds call) s := by
    intro b x s E call hx
    refine Prog.Follows.bind (Prog.Follows.mono hx fun s r hr => ?_)
    cases r with
    | ok v => exact fun _ => Quit.clear hr
    | error err => exact fun hok => by cases hok
  cases call with
  | put | delete | write => exact hunit _ charge_writeOps
  | flush => exact hunit _ charge_flush
  | openWith config features => exact hunit _ charge_openWith
  | get key => exact Prog.Follows.bind (Prog.Follows.mono charge_get fun s _ hs _ => hs.clear)
  | scan range => exact Prog.Follows.bind (Prog.Follows.mono charge_scan fun s _ hs _ => hs.clear)
  | compact =>
    refine Prog.Follows.bind (Prog.Follows.mono charge_compactorRound fun s r hs hok => ?_)
    cases r with
    | ok v => exact (hs rfl).clear
    | error err => cases hok

end Programs
end Charges
end LsmDb
