import LsmDb.Proof.Compaction
import LsmDb.Proof.Progress

/-! What readers are told. A read that returns a value returns the one its snapshot holds, whatever cannot be read;
when nothing fails every read returns, with the value of the reference store. -/
namespace LsmDb
open Lib
set_option autoImplicit false

section Answers
variable [Deps] {e : Env} {t : Tid} {c : Config} {w w' : World} {d : Bool}

theorem Reach.seen (h : Reach e c) {call : Call} {reply : Reply} (hth : c.threads t = .replied call reply) :
    Answered e (c.world.spec.seen t) call reply := by
  obtain ⟨A, hs⟩ := h.sound
  have ht := hs.threads t
  rw [hth] at ht
  rw [hs.inv.shared.seen t]
  exact ht.2

theorem Snapshot.get_eq {seen : Sight} {ess : List (List Entry)} (hs : Snapshot e seen ess) (hg : e.Good d) :
    answer (seen.memtable.iter :: ess) = seen.cur := (hs.cur d hg).symm

/-! ## Reads -/

/-- The answer of a read, when nothing fails. -/
def Read (cur : Store) : Call → Reply → Prop
  | .get key, reply => reply = .value (.ok (cur key))
  | .scan range, reply => ∃ res, reply = .pairs (.ok res) ∧ ScanOf cur range res
  | _, _ => True

theorem Answered.read {seen : Sight} {call : Call} {reply : Reply} (h : Answered e seen call reply) (hg : e.Good d)
    (hsmall : e.small = true) (hread : e.Readable) : Read seen.cur call reply := by
  cases call with
  | get key =>
    rcases reply with r | r | r
    · exact absurd h id
    · cases r with
      | error err => exact absurd hread h
      | ok v =>
        obtain ⟨ess, hs, hv⟩ := h
        show Reply.value (.ok v) = _
        rw [hv hsmall hg.laws, hs.get_eq hg]
    · exact absurd h id
  | scan range =>
    rcases reply with r | r | r
    · exact absurd h id
    · exact absurd h id
    · cases r with
      | error err => exact absurd hread h
      | ok res =>
        obtain ⟨ess, hs, hv⟩ := h
        rw [hs.get_eq hg] at hv
        exact ⟨res, rfl, hv⟩
  | _ => trivial

/-- Only a snapshot changes what a thread has seen. -/
theorem exec_seen {o : Act} {ch : Choice} {r : Res o} (hq : o.quiet = true) (h : exec t o ch w = some (r, w')) :
    w'.spec.seen = w.spec.seen :=
  exec_differ h .seen (by cases o <;> simp [Act.quiet, Act.touches] at hq ⊢)

theorem exec_snapshot {want : MemTable → List SsTable → Bool} {ch : Choice} {r : Res (.snapshot want)}
    (h : exec t (.snapshot want) ch w = some (r, w')) : w'.spec.seen t = ⟨w.spec.cur, w.memtable, w.runs⟩ := by
  simp only [exec] at h
  split at h
  · obtain ⟨_, rfl⟩ := Prod.mk.inj (Option.some.inj h)
    exact Function.update_self ..
  · simp at h

theorem reader_program {call : Call} (hcall : (∃ key, call = .get key) ∨ ∃ range, call = .scan range)
    (config : LsmConfig) (features : Features) : Reader (call.program config features) := by
  rcases hcall with ⟨key, rfl⟩ | ⟨range, rfl⟩
  · exact (reader_get key).map _
  · exact (reader_scan range).map _

/-- A read made when nobody else is around returns, with what the reference store holds. -/
theorem Reach.read_returns {call : Call} (h : Reach e c) (hg : e.Good d) (hsmall : e.small = true) (hread : e.Readable)
    (hidle : c.world.active = []) (hready : c.world.ready = true) (ht : t ≠ compactorTid)
    (hcall : (∃ key, call = .get key) ∨ ∃ range, call = .scan range) :
    Returns e t call c.world fun reply _ => Read c.world.spec.cur call reply := by
  have hops : call.ops = [] := by rcases hcall with ⟨key, rfl⟩ | ⟨range, rfl⟩ <;> rfl
  have hcur : (started c.world t call).spec.cur = c.world.spec.cur := by
    rcases hcall with ⟨key, rfl⟩ | ⟨range, rfl⟩ <;> rfl
  have hallow : e.allowsCall c.world call := by
    refine ⟨?_, ?_, ?_, ?_⟩
    · rw [hops]
      simp
    · rw [hops]
      simp
    · rw [hidle]
      simp
    · rintro config features rfl
      rcases hcall with ⟨key, hkey⟩ | ⟨range, hrange⟩
      · simp at hkey
      · simp at hrange
  have hcan : canStart c.world t call = true := by
    rcases hcall with ⟨key, rfl⟩ | ⟨range, rfl⟩ <;> simp [canStart, hready, ht, hidle]
  refine h.returns (J := fun prog w => (Reader prog ∧ w.spec.cur = c.world.spec.cur) ∨
    (Quiet prog ∧ (w.spec.seen t).cur = c.world.spec.cur)) hidle hcan ht hallow ?_ ?_ ?_
  · exact Or.inl ⟨reader_program hcall _ _, hcur⟩
  · intro o k ch r w w' _ _ hx hJ
    rcases hJ with ⟨⟨want, k', heq, hquiet⟩, hw⟩ | ⟨hquiet, hw⟩
    · obtain ⟨rfl, hk⟩ := Prog.op.inj heq
      obtain rfl := eq_of_heq hk
      refine Or.inr ⟨hquiet r, ?_⟩
      rw [exec_snapshot hx]
      exact hw
    · exact Or.inr ⟨hquiet.2 r, by rw [exec_seen hquiet.1 hx]; exact hw⟩
  · intro c' hr' _ reply w' hth hw' hJ
    have hans := (hr'.seen hth).read hg hsmall hread
    rcases hJ with ⟨⟨want, k', heq, _⟩, _⟩ | ⟨_, hseen⟩
    · simp at heq
    · have hsame : (ended w' t call reply).spec.seen = w'.spec.seen := by
        rcases hcall with ⟨key, rfl⟩ | ⟨range, rfl⟩ <;> (simp only [ended]; split_ifs <;> rfl)
      rw [hw', hsame, hseen] at hans
      exact hans

/-! ## When nothing fails -/

/-- No call fails, and keys and values are at most `2 ^ 30` bytes long. -/
def Env.calm (d : Bool) : Env where
  blockFaults := false
  ioFaults := false
  flushFaults := false
  statFaults := false
  limit := some MAX_RECORD_LEN
  counted := d
  small := true
  sequential := false
  durability := some d

theorem Env.good_calm (laws : BloomLaws) (d : Bool) : (Env.calm d).Good d :=
  ⟨laws, rfl, rfl, rfl, ⟨_, rfl, by decide, fun _ => le_rfl⟩, fun hd => hd⟩

theorem Env.readable_calm (laws : BloomLaws) (d : Bool) : (Env.calm d).Readable :=
  ⟨rfl, ⟨_, rfl, le_rfl⟩, d, Env.good_calm laws d⟩

def Call.reads : Call → Bool
  | .get _ | .scan _ => true
  | _ => false

omit [Deps] in
theorem Call.reads_cases {call : Call} (h : call.reads = true) :
    (∃ key, call = .get key) ∨ ∃ range, call = .scan range := by
  cases call with
  | get key => exact Or.inl ⟨key, rfl⟩
  | scan range => exact Or.inr ⟨range, rfl⟩
  | _ => simp [Call.reads] at h

/-- Whatever the interleaving, a read returns what the reference store held at the read's snapshot; and a read made
when nobody else is around does return. -/
theorem reads_follow_reference (laws : BloomLaws) (h : Reach (Env.calm d) c) :
    (∀ t call reply, c.threads t = .replied call reply → Read (c.world.spec.seen t).cur call reply) ∧
      (c.world.ready = true → c.world.active = [] → ∀ t ≠ compactorTid, ∀ call : Call, call.reads = true →
        Returns (Env.calm d) t call c.world fun reply _ => Read c.world.spec.cur call reply) := by
  have hgood := Env.good_calm laws d
  have hread := Env.readable_calm laws d
  refine ⟨fun t call reply hth => (h.seen hth).read hgood rfl hread, fun hready hidle t ht call hcall => ?_⟩
  exact h.read_returns hgood rfl hread hidle hready ht (Call.reads_cases hcall)

omit [Deps] in
/-- A reader takes its snapshot, the key is overwritten, and the reader returns. -/
theorem reads_follow_reference_overtaken : letI := Deps.concrete
    ∃ c, Reach (Env.calm false) c ∧ c.world.spec.cur [1] = some [8] ∧
      c.threads 2 = .replied (.get [1]) (.value (.ok ((c.world.spec.seen 2).cur [1]))) := by
  let _ := Deps.concrete
  have hplay : (Env.calm false).leads [.alone 1 allOk (.openWith LsmConfig.default ⟨false, true⟩),
      .alone 1 allOk (.put [1] [7]), .alone 1 allOk .flush, .start 2 (.get [1]), .acts 2 [.ok],
      .alone 1 allOk (.put [1] [8]), .acts 2 (List.replicate 4 .ok), .finish 2]
      (fun c => c.world.spec.cur [1] = some [8] ∧
        c.reply 2 = some (.get [1], .value (.ok (some [7])))) = true := by decide +kernel
  obtain ⟨c, hreach, hc⟩ := Env.reach_leads hplay
  obtain ⟨hcur, h2⟩ := of_decide_eq_true hc
  have hget := (reads_follow_reference concrete_laws hreach).1 2 _ _ (Config.reply_eq h2)
  exact ⟨c, hreach, hcur, by rw [Config.reply_eq h2, hget]⟩

/-! ## When blocks cannot be read -/

/-- Every key keeps its value, whatever is in front of the inputs. -/
def Event.Keeps (ev : Event) : Prop :=
  ∃ fresh inputs output ess es, ev.before.runs = fresh ++ inputs ∧ ev.after.runs = fresh ++ [output] ∧
    List.Forall₂ (fun r es => ∃ bs, TableOf r es bs) inputs ess ∧ (∃ bs, TableOf output es bs) ∧
    (∀ front, answer (front ++ [es]) = answer (front ++ ess)) ∧ listed ev.before = names ev.after.runs

/-- A compaction that failed changed nothing, and any other kept the value of every key. -/
def Unharmed (log : List Event) (reply : Reply) : Prop :=
  if reply.isOk then ∀ ev ∈ log, ev.Silent ∨ ev.Commits ∨ ev.Keeps else ∀ ev ∈ log, ev.Silent

theorem Event.Swaps.keeps {ev : Event} {inputs : List SsTable} (h : ev.Swaps inputs) : ev.Keeps := by
  obtain ⟨⟨fresh, output, ess, items, hruns, hnew, hin, hmerge, hout, hlist⟩, _, _⟩ := h
  exact ⟨fresh, inputs, output, ess, valueEntries items, hruns, hnew, hin, hout, answer_merged hmerge, hlist⟩

theorem CompactEnd.unharmed {log : List Event} {s : CompactStage} {r : Except Error Unit} (h : CompactEnd s r)
    (hlog : CompactLog log s) : Unharmed log (.unit r) := by
  cases r with
  | error err =>
    obtain ⟨inputs, rfl⟩ := h
    exact hlog.2.2
  | ok v =>
    rcases h with rfl | ⟨inputs, rfl⟩ | ⟨inputs, rfl⟩
    · exact fun ev hev => Or.inl (hlog.2 ev hev)
    · exact fun ev hev => Or.inl (hlog.2.2 ev hev)
    · obtain ⟨hs, hlen, before, commit, between, swap, after, rfl, hc, hw, hall⟩ := hlog
      intro ev hev
      simp only [List.mem_append, List.mem_cons] at hev
      rcases hev with hev | rfl | hev | rfl | hev
      · exact Or.inl (hall ev (by simp [hev]))
      · exact Or.inr (Or.inl hc)
      · exact Or.inl (hall ev (by simp [hev]))
      · exact Or.inr (Or.inr hw.keeps)
      · exact Or.inl (hall ev (by simp [hev]))

/-- Whichever blocks cannot be read, and whatever else has failed before: a read that succeeds tells what the
memtable and the runs of its snapshot hold, which is the reference store as long as no flush failed; and a
compaction fails without effect or keeps the value of every key. -/
theorem corruption_is_reported (laws : BloomLaws) (hsmall : e.small = true) (h : Reach e c) :
    (∀ t key v, c.threads t = .replied (.get key) (.value (.ok v)) →
      ∃ ess, List.Forall₂ Reads (c.world.spec.seen t).runs ess ∧
        v = answer ((c.world.spec.seen t).memtable.iter :: ess) key ∧
        ∀ d, e.Good d → v = (c.world.spec.seen t).cur key) ∧
      (∀ t range res, c.threads t = .replied (.scan range) (.pairs (.ok res)) →
        ∃ ess, List.Forall₂ Reads (c.world.spec.seen t).runs ess ∧
          ScanOf (answer ((c.world.spec.seen t).memtable.iter :: ess)) range res ∧
          ∀ d, e.Good d → ScanOf (c.world.spec.seen t).cur range res) ∧
      ∀ config features log reply c',
        c.threads compactorTid = .running .compact (Call.compact.program config features) →
        During e compactorTid c log c' → c'.threads compactorTid = .running .compact (.done reply) →
        Unharmed log reply := by
  refine ⟨fun t key v hth => ?_, fun t range res hth => ?_, fun config features log reply c' hth hd hdone => ?_⟩
  · obtain ⟨ess, hs, hv⟩ := h.seen hth
    refine ⟨ess, hs.reads, hv hsmall laws, fun d hg => ?_⟩
    rw [hv hsmall laws, hs.get_eq hg]
  · obtain ⟨ess, hs, hv⟩ := h.seen hth
    refine ⟨ess, hs.reads, hv, fun d hg => ?_⟩
    rw [← hs.get_eq hg]
    exact hv
  · obtain ⟨s, r, rfl, hend, hlog, _⟩ := h.compactEnd hth hd hdone
    exact hend.unharmed hlog

omit [Deps] in
/-- One reader meets a block that fails its checksum, another reads the block before it fails. -/
theorem corruption_is_reported_checksum : letI := Deps.concrete
    ∃ c, Reach { Env.calm false with blockFaults := true } c ∧
      c.threads 2 = .replied (.get [1]) (.value (.error BlockFault.checksum.error)) ∧
      ∃ ess, List.Forall₂ Reads (c.world.spec.seen 3).runs ess ∧
        some [7] = answer ((c.world.spec.seen 3).memtable.iter :: ess) [1] := by
  let _ := Deps.concrete
  have hplay : Env.leads { Env.calm false with blockFaults := true }
      [.alone 1 allOk (.openWith LsmConfig.default ⟨false, true⟩), .alone 1 allOk (.put [1] [7]), .alone 1 allOk .flush,
        .start 2 (.get [1]), .acts 2 [.ok, .ok, .fail 1, .ok], .finish 2, .alone 3 allOk (.get [1])]
      (fun c => c.reply 2 = some (.get [1], .value (.error BlockFault.checksum.error)) ∧
        c.reply 3 = some (.get [1], .value (.ok (some [7])))) = true := by decide +kernel
  obtain ⟨c, hreach, hc⟩ := Env.reach_leads hplay
  obtain ⟨h2, h3⟩ := of_decide_eq_true hc
  obtain ⟨ess, hreads, hv, _⟩ := (corruption_is_reported concrete_laws rfl hreach).1 3 _ _ (Config.reply_eq h3)
  exact ⟨c, hreach, Config.reply_eq h2, ess, hreads, hv⟩

end Answers
end LsmDb
