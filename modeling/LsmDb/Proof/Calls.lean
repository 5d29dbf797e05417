import LsmDb.Proof.Compacting
import LsmDb.Proof.Recovery

/-! What each call does from its start to its return, and the answer it gives. -/
namespace LsmDb
open Lib
set_option autoImplicit false

section Calls
variable [Deps] {e : Env} {g : Ghost} {w : World} {A : Tid → Own} {t : Tid} {a : Own} {c c' : Config}

/-! ## What a call leaves -/

/-- The answer of a call, against the snapshot it was read from. -/
def Answered (e : Env) (seen : Sight) : Call → Reply → Prop
  | .get key, .value (.ok v) =>
    ∃ ess, Snapshot e seen ess ∧ (e.small = true → BloomLaws → v = answer (seen.memtable.iter :: ess) key)
  | .get _, .value (.error _) => ¬ e.Readable
  | .scan range, .pairs (.ok res) => ∃ ess, Snapshot e seen ess ∧ ScanOf (answer (seen.memtable.iter :: ess)) range res
  | .scan _, .pairs (.error _) => ¬ e.Readable
  | .put _ _, .unit (.ok _) | .delete _, .unit (.ok _) | .write _, .unit (.ok _) | .flush, .unit (.ok _)
  | .compact, .unit (.ok _) | .openWith _ _, .unit (.ok _) => True
  | .put _ _, .unit (.error _) | .delete _, .unit (.error _) | .write _, .unit (.error _)
  | .flush, .unit (.error _) | .openWith _ _, .unit (.error _) => e.Trouble
  | .compact, .unit (.error _) => e.CompactTrouble
  | _, _ => False

/-- Nothing in hand. -/
structure Free (a : Own) : Prop where
  mode : a.mode = .live
  opener : a.opener = false
  hold : a.hold = none
  held : a.held = []

/-- How far a call has come when it is done. -/
def Phase.After (ok : Bool) (p : Phase) : Call → Prop
  | .put key value => ok = true → ∃ prior, p = .applied [(key, .value value)] prior
  | .delete key => ok = true → ∃ prior, p = .applied [(key, .tombstone)] prior
  | .write batch => ok = true → ∃ prior, p = .applied batch.entries prior
  | .flush => ok = true → p = .saved
  | _ => p = .quiet

/-- A client that writes or flushes begins with its writes pending, a reader and the compactor with none. -/
def Phase.Begins (p : Phase) : Call → Prop
  | .put key value => ∃ prior, p = .pending [(key, .value value)] prior
  | .delete key => ∃ prior, p = .pending [(key, .tombstone)] prior
  | .write batch => ∃ prior, p = .pending batch.entries prior
  | .flush => ∃ prior, p = .pending [] prior
  | _ => p = .quiet

def Post (e : Env) (call : Call) (a : Own) (reply : Reply) : Prop :=
  Answered e a.seen call reply ∧
    match call with
    | .openWith _ _ =>
      (reply.isOk = true → ∃ x, a = { Own.starts a.seen with build := x }) ∧
        (reply.isOk = false → ∃ w, a = Own.opens a.seen w ∧ ∃ g, Disk e g w)
    | call => Free a ∧ a.phase.After reply.isOk call

/-! ## Calls -/

/-- A thread at the start of a call. -/
def Own.client (seen : Sight) (p : Phase) : Own := { Own.idle seen with mode := .live, phase := p }

variable {config : LsmConfig} {features : Features} {seen : Sight}

theorem safe_write_call {ops : List Entry} {prior : List Entry} {call : Call} (ht : t ≠ compactorTid)
    (hf : ∀ d, e.Good d → features.durability = d) (hops : e.Good true → LogSized ops) (hw : ∀ x ∈ ops, e.Within x)
    (hok : ∀ a, Free a → a.phase = .applied ops prior → Post e call a (.unit (.ok ())))
    (herr : ∀ a err, Free a → e.Trouble → Post e call a (.unit (.error err))) :
    SafeP e t (Post e call) (.unit <$> (writeOps config features ops).run) (Own.client seen (.pending ops prior)) := by
  refine SafeP.map (Logic.Safe.mono (safe_writeOps
    (Q := fun a _ => Free a ∧ a.phase = .applied ops prior) (E := fun a _ => Free a ∧ e.Trouble)
    rfl rfl rfl ht hf rfl rfl hops hw ?_ ?_) ?_)
  · exact fun x => ⟨⟨rfl, rfl, rfl, rfl⟩, rfl⟩
  · exact fun htr x l p err => ⟨⟨rfl, rfl, rfl, rfl⟩, htr⟩
  · intro a r hr
    cases r with
    | ok v => exact hok a hr.1 hr.2
    | error err => exact herr a err hr.1 hr.2

theorem safe_call {call : Call} {p : Phase} (ht : t = compactorTid ↔ call = .compact)
    (hopen : ∀ config features, call ≠ .openWith config features) (hf : ∀ d, e.Good d → features.durability = d)
    (hw : ∀ x ∈ call.ops, e.Within x) (hops : e.Good true → LogSized call.ops)
    (hp : p.Begins call) :
    SafeP e t (Post e call) (call.program config features) (Own.client seen p) := by
  have hclient : call ≠ .compact → t ≠ compactorTid := fun hne htc => hne (ht.mp htc)
  cases call with
  | put key value =>
    obtain ⟨prior, rfl⟩ := hp
    exact safe_write_call (hclient (by simp)) hf hops hw (fun a hfree hph => ⟨trivial, hfree, fun _ => ⟨prior, hph⟩⟩)
      fun a err hfree htr => ⟨htr, hfree, by simp [Reply.isOk, Phase.After]⟩
  | delete key =>
    obtain ⟨prior, rfl⟩ := hp
    exact safe_write_call (hclient (by simp)) hf hops hw (fun a hfree hph => ⟨trivial, hfree, fun _ => ⟨prior, hph⟩⟩)
      fun a err hfree htr => ⟨htr, hfree, by simp [Reply.isOk, Phase.After]⟩
  | write batch =>
    obtain ⟨prior, rfl⟩ := hp
    exact safe_write_call (hclient (by simp)) hf hops hw (fun a hfree hph => ⟨trivial, hfree, fun _ => ⟨prior, hph⟩⟩)
      fun a err hfree htr => ⟨htr, hfree, by simp [Reply.isOk, Phase.After]⟩
  | flush =>
    obtain ⟨prior, rfl⟩ := hp
    refine SafeP.map (Logic.Safe.mono (safe_flush (p := .saved)
      (Q := fun a _ => Free a ∧ a.phase = .saved) (E := fun a _ => Free a ∧ e.Trouble)
      rfl rfl rfl (hclient (by simp)) hf rfl (Or.inr ⟨rfl, rfl⟩) ?_ ?_) ?_)
    · exact fun x => ⟨⟨rfl, rfl, rfl, rfl⟩, rfl⟩
    · exact fun htr x l err => ⟨⟨rfl, rfl, rfl, rfl⟩, htr⟩
    · intro a r hr
      cases r with
      | ok v => exact ⟨trivial, hr.1, fun _ => hr.2⟩
      | error err => exact ⟨hr.2, hr.1, by simp [Reply.isOk, Phase.After]⟩
  | get key =>
    obtain rfl := hp
    refine SafeP.map (Logic.Safe.mono (safe_get
      (Q := fun a v => (Free a ∧ a.phase = .quiet) ∧ Answered e a.seen (.get key) (.value (.ok v)))
      (E := fun a _ => (Free a ∧ a.phase = .quiet) ∧ ¬ e.Readable) rfl rfl rfl rfl rfl rfl ?_ ?_) ?_)
    · exact fun seen ess v hsnap hv => ⟨⟨⟨rfl, rfl, rfl, rfl⟩, rfl⟩, ess, hsnap, hv⟩
    · exact fun hno seen err => ⟨⟨⟨rfl, rfl, rfl, rfl⟩, rfl⟩, hno⟩
    · intro a r hr
      cases r with
      | ok v => exact ⟨hr.2, hr.1.1, hr.1.2⟩
      | error err => exact ⟨hr.2, hr.1.1, hr.1.2⟩
  | scan range =>
    obtain rfl := hp
    refine SafeP.map (Logic.Safe.mono (safe_scan
      (Q := fun a res => (Free a ∧ a.phase = .quiet) ∧ Answered e a.seen (.scan range) (.pairs (.ok res)))
      (E := fun a _ => (Free a ∧ a.phase = .quiet) ∧ ¬ e.Readable) rfl rfl rfl rfl rfl rfl ?_ ?_) ?_)
    · exact fun seen ess v hsnap hv => ⟨⟨⟨rfl, rfl, rfl, rfl⟩, rfl⟩, ess, hsnap, hv⟩
    · exact fun hno seen err => ⟨⟨⟨rfl, rfl, rfl, rfl⟩, rfl⟩, hno⟩
    · intro a r hr
      cases r with
      | ok v => exact ⟨hr.2, hr.1.1, hr.1.2⟩
      | error err => exact ⟨hr.2, hr.1.1, hr.1.2⟩
  | compact =>
    obtain rfl := hp
    refine SafeP.map (Logic.Safe.mono (safe_compactorRound
      (Q := fun a _ => Free a ∧ a.phase = .quiet) (E := fun a _ => (Free a ∧ a.phase = .quiet) ∧ e.CompactTrouble)
      rfl rfl rfl rfl rfl (ht.mpr rfl) rfl ?_ ?_) ?_)
    · rintro a' ⟨seen, x, y, l, rfl⟩
      exact ⟨⟨rfl, rfl, rfl, rfl⟩, rfl⟩
    · rintro htr a' err ⟨seen, x, y, l, rfl⟩
      exact ⟨⟨⟨rfl, rfl, rfl, rfl⟩, rfl⟩, htr⟩
    · intro a r hr
      cases r with
      | ok v => exact ⟨trivial, hr.1, hr.2⟩
      | error err => exact ⟨hr.2, hr.1.1, hr.1.2⟩
  | openWith config features => exact absurd rfl (hopen config features)

theorem safe_open_call {config₀ : LsmConfig} {features₀ : Features} (hd : Disk e g w) (hnone : w.known = [])
    (hf : ∀ d, e.Good d → features.durability = d) (ht : t ≠ compactorTid) :
    SafeP e t (Post e (.openWith config features)) ((Call.openWith config features).program config₀ features₀)
      (Own.opens seen w) := by
  refine SafeP.map (Logic.Safe.mono (safe_openWith (Q := fun a _ => ∃ x, a = { Own.starts a.seen with build := x })
    (E := fun a _ => e.Trouble ∧ ∃ w, a = Own.opens a.seen w ∧ ∃ g, Disk e g w) hd hnone hf ht ?_ ?_) ?_)
  · exact fun x => ⟨x, rfl⟩
  · exact fun htr w' err hd' => ⟨htr, w', rfl, hd'⟩
  · intro a r hr
    cases r with
    | ok v => exact ⟨trivial, fun _ => hr, by simp [Reply.isOk]⟩
    | error err => exact ⟨hr.1, by simp [Reply.isOk], fun _ => hr.2⟩

end Calls
end LsmDb
