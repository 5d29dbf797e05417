import LsmDb.Proof.History

/-! A run being written: reserving its number, its four files, reopening it. -/
namespace LsmDb
open Lib
set_option autoImplicit false

section Build
variable [Deps] {e : Env} {g : Ghost} {w : World} {A : Tid → Own} {t : Tid} {a : Own} {b : Build}

/-- An I/O failure the environment allows this thread. -/
def Env.Faulty (e : Env) (t : Tid) (a : Own) : Prop :=
  if t = compactorTid ∨ a.opener = true then e.ioFaults = true else e.flushFaults = true

theorem faulty_of (hs : Shared w A) {fails : Bool}
    (h : if t = compactorTid ∨ w.opener = some t then e.ioFaults = true ∨ fails = false
      else e.flushFaults = true ∨ fails = false) (hf : fails = true) : e.Faulty t (A t) := by
  unfold Env.Faulty
  simp only [hs.opener t]
  split_ifs at h ⊢ <;> exact h.resolve_right (by simp [hf])

/-! ## Reserving a number -/

/-- A number of its own, and nothing under its names but what an earlier session left in temporaries. -/
structure Reserved (b : Build) : Prop where
  run : b.run = none
  side : b.side = none
  table : b.table = none
  committed : b.committed = false

theorem does_fetchAdd {Q : Own → ℕ → Prop} (hm : a.mode = .live)
    (hq : ∀ b, Reserved b → Q { a with build := some b } b.seq) : Does e t .fetchAdd a Q := by
  refine Does.live hm ?_
  intro g w A hr ha
  subst ha
  refine ⟨trivial, fun c r w' hc hx => ?_⟩
  have hlt : w.nextSeq + 1 < 2 ^ 64 := hc
  have hmod : (w.nextSeq + 1) % 2 ^ 64 = w.nextSeq + 1 := Nat.mod_eq_of_lt hlt
  simp only [exec, Option.some.injEq, Prod.mk.injEq] at hx
  obtain ⟨rfl, rfl⟩ := hx
  have hs := hr.session
  refine ⟨g, _, ⟨?_, ?_⟩, hq ⟨w.nextSeq, look w.dir (.runTmp w.nextSeq), none, none,
    look w.dir (.sideTmp w.nextSeq), [], none, false⟩ ⟨rfl, rfl, rfl, rfl⟩⟩
  · refine { hs with
      seq_lt := ?_
      fresh := ?_
      known := ?_
      ns_lt := ?_ }
    · show (w.nextSeq + 1) % 2 ^ 64 < 2 ^ 64
      rw [hmod]
      exact hlt
    · intro s hle
      have hle' : (w.nextSeq + 1) % 2 ^ 64 ≤ s := hle
      rw [hmod] at hle'
      exact hs.fresh s (by omega)
    · intro r hr'
      obtain ⟨s, hlt', hof⟩ := hs.known r hr'
      refine ⟨s, ?_, hof⟩
      show s < (w.nextSeq + 1) % 2 ^ 64
      omega
    · intro hstat s hmem
      show s < (w.nextSeq + 1) % 2 ^ 64
      have := hs.ns_lt hstat s hmem
      omega
  · have hl := hr.crew.threads t
    refine hr.crew.step ⟨rfl, rfl, rfl, rfl⟩ hm ⟨rfl, rfl⟩ ?_ ?_ ?_ ?_ ?_
    · rw [← hr.crew.shared.seen, Function.update_eq_self]
    · intro b hb t' b' hne hb'
      simp only [Option.some.injEq] at hb
      subst hb
      have hlt' := ((hr.crew.threads t').building b' hb').lt
      exact fun heq => absurd hlt' (by rw [← heq]; simp)
    · refine { hl with
        mirrors := fun h hh => { hl.mirrors h hh with }
        building := ?_ }
      intro b hb
      simp only [Option.some.injEq] at hb
      subst hb
      obtain ⟨hrun, hside⟩ := hs.fresh w.nextSeq le_rfl
      refine ⟨?_, rfl, hrun, hside, rfl, fun hne => absurd rfl hne, ?_, fun r hr' => by simp at hr', ?_⟩
      · show w.nextSeq < (w.nextSeq + 1) % 2 ^ 64
        omega
      · intro r hmem hname
        obtain ⟨s, hlt', hof⟩ := hs.known r hmem
        rw [hof.name] at hname
        have heq : s = w.nextSeq := runFilename_injective hname
        omega
      · intro hstat _ hmem
        have hlt' : w.nextSeq < w.nextSeq := hs.ns_lt hstat _ hmem
        omega
    · intro t' _ hl'
      refine { hl' with
        mirrors := fun h hh => { hl'.mirrors h hh with }
        building := fun b hb => { hl'.building b hb with lt := ?_ } }
      have hlt' := (hl'.building b hb).lt
      show b.seq < (w.nextSeq + 1) % 2 ^ 64
      omega
    · intro d hd hseq
      rw [Function.update_eq_self]
      exact hr.crew.told d hd hseq

theorem does_loadSeq {Q : Own → ℕ → Prop} (hm : a.mode = .live) (hq : ∀ q, q < 2 ^ 64 → Q a q) :
    Does e t .loadSeq a Q := by
  refine Does.look hm (fun _ => trivial) ?_
  intro g w A hr ha c r w' _ hx
  simp only [exec, Option.some.injEq, Prod.mk.injEq] at hx
  obtain ⟨rfl, rfl⟩ := hx
  exact ⟨rfl, hq _ hr.session.seq_lt⟩

/-- Giving up on a run: its files stay where they are, owned by nobody. -/
theorem Running.abandon (hr : Running e g w A) (hm : (A t).mode = .live) :
    Running e g w (Function.update A t { A t with build := none }) := by
  refine ⟨hr.session, ?_⟩
  have hl := hr.crew.threads t
  exact hr.crew.keep ⟨rfl, rfl, rfl, rfl⟩ hm ⟨rfl, rfl⟩ rfl rfl rfl (fun b hb => by simp at hb)
    { hl with building := fun b hb => by simp at hb } (fun t' _ hl' => hl')

/-! ## Its files -/

/-- The four names of a run number. -/
def Name.Of (s : ℕ) (n : Name) : Prop := n = .runTmp s ∨ n = .run s ∨ n = .side s ∨ n = .sideTmp s

/-- The build as it stands in a directory. -/
def Build.at (b : Build) (dir : SortedMap Text Data) (entries : List Entry) : Build :=
  { b with
    tmp := look dir (.runTmp b.seq)
    run := look dir (.run b.seq)
    side := look dir (.side b.seq)
    sideTmp := look dir (.sideTmp b.seq)
    entries := entries }

omit [Deps] in
theorem Name.not_of {s q : ℕ} (h : q ≠ s) :
    ¬ (Name.run q).Of s ∧ ¬ (Name.runTmp q).Of s ∧ ¬ (Name.side q).Of s ∧ ¬ (Name.sideTmp q).Of s := by
  simp [Name.Of, h]

theorem Stored.files {content : ℕ → List Entry} {ns : List ℕ} {dir dir' : SortedMap Text Data}
    {finished finished' : Text → Option Bytes} {s : ℕ} {es : List Entry}
    (hs : Stored e content ns dir finished) (hnot : e.statFaults = false → s ∉ ns)
    (hlook : ∀ n, ¬ n.Of s → look dir' n = look dir n)
    (hfin : ∀ q, q ≠ s → finished' (runFilename q) = finished (runFilename q))
    (hrun : ∀ d, look dir' (.run s) = some d → RunFile (Function.update content s es) finished' s d)
    (hside : ∀ d, look dir' (.side s) = some d → SideFile (Function.update content s es) s d) :
    Stored e (Function.update content s es) ns dir' finished' where
  run q d hd := by
    by_cases hne : q = s
    · subst hne
      exact hrun d hd
    · rw [hlook _ (Name.not_of hne).1] at hd
      obtain ⟨hlt, hbytes, hasc⟩ := hs.run q d hd
      refine ⟨hlt, ?_, ?_⟩
      · rw [hfin q hne, Function.update_of_ne hne]
        exact hbytes
      · rw [Function.update_of_ne hne]
        exact hasc
  side q d hd := by
    by_cases hne : q = s
    · subst hne
      exact hside d hd
    · rw [hlook _ (Name.not_of hne).2.2.1] at hd
      unfold SideFile
      rw [Function.update_of_ne hne]
      exact hs.side q d hd
  manifest := by
    rw [hlook _ (by simp [Name.Of])]
    exact hs.manifest
  nodup := hs.nodup
  present hstat q hmem := by
    have hne : q ≠ s := by
      rintro rfl
      exact hnot hstat hmem
    rw [hlook _ (Name.not_of hne).1]
    exact hs.present hstat q hmem

/-- The files of a run that is not yet reopened change; `es` is what the run holds from now on. -/
theorem Running.files (hr : Running e g w A) (hm : (A t).mode = .live) (hb : (A t).build = some b)
    (htab : b.table = none) (hcom : b.committed = false) {dir : SortedMap Text Data}
    {finished : Text → Option Bytes} {es : List Entry}
    (hlook : ∀ n, ¬ n.Of b.seq → look dir n = look w.dir n)
    (hfin : ∀ s, s ≠ b.seq → finished (runFilename s) = w.finished (runFilename s))
    (hrun : ∀ d, look dir (.run b.seq) = some d →
      RunFile (Function.update g.content b.seq es) finished b.seq d)
    (hside : ∀ d, look dir (.side b.seq) = some d → SideFile (Function.update g.content b.seq es) b.seq d) :
    Running e { g with content := Function.update g.content b.seq es }
      { w with dir := dir, finished := finished }
      (Function.update A t { A t with build := some (b.at dir es) }) := by
  have hs := hr.session
  have hbuild := (hr.crew.threads t).building b hb
  -- what the others look at is under other names
  have hother : ∀ s, s ≠ b.seq → look dir (.run s) = look w.dir (.run s) ∧
      look dir (.runTmp s) = look w.dir (.runTmp s) ∧ look dir (.side s) = look w.dir (.side s) ∧
      look dir (.sideTmp s) = look w.dir (.sideTmp s) := by
    intro s hne
    obtain ⟨h1, h2, h3, h4⟩ := Name.not_of hne
    exact ⟨hlook _ h1, hlook _ h2, hlook _ h3, hlook _ h4⟩
  have htmp : look dir .manifestTmp = look w.dir .manifestTmp := hlook _ (by simp [Name.Of])
  have hcontent : ∀ s, s ≠ b.seq → Function.update g.content b.seq es s = g.content s :=
    fun s hne => Function.update_of_ne hne es g.content
  have hnot : e.statFaults = false → b.seq ∉ g.ns := fun hstat => hbuild.unlisted hstat hcom
  have hlayers : ∀ d, e.Good d →
      ({ g with content := Function.update g.content b.seq es } : Ghost).layers = g.layers := by
    intro d hd
    refine List.map_congr_left fun s hmem => hcontent s ?_
    rintro rfl
    exact hnot hd.stat hmem
  have htable : ∀ r ∈ w.known, r.name ≠ runFilename b.seq := by
    intro r hmem hname
    have hsome := hbuild.only r hmem hname
    rw [htab] at hsome
    simp at hsome
  have hinput : ∀ t', ∀ x ∈ (A t').inputs, ∀ s, x.1.name = runFilename s →
      Function.update g.content b.seq es s = x.2 := by
    intro t' x hx s hname
    have hmem : x.1 ∈ w.runs := (hr.crew.threads t').suffix.mem (List.mem_map_of_mem hx)
    have hne : s ≠ b.seq := by
      rintro rfl
      exact htable x.1 (hs.runs_known x.1 hmem) hname
    rw [hcontent s hne]
    exact (hr.crew.threads t').input x hx s hname
  refine ⟨?_, ?_⟩
  · exact { hs with
      stored := hs.stored.files hnot hlook hfin hrun hside
      durable := fun d hd => { hs.durable d hd with
        within := fun s hmem x hx => by
          have hne : s ≠ b.seq := by
            rintro rfl
            exact hnot hd.stat hmem
          refine (hs.durable d hd).within s hmem x ?_
          have hx' : x ∈ Function.update g.content b.seq es s := hx
          rwa [hcontent s hne] at hx'
        flushed := by
          rw [hlayers d hd]
          exact (hs.durable d hd).flushed
        logged := by
          rw [hlayers d hd]
          exact (hs.durable d hd).logged }
      fresh := fun s hle => by
        have hne : s ≠ b.seq := by
          have hlt := hbuild.lt
          have hle' : w.nextSeq ≤ s := hle
          omega
        show look dir (.run s) = none ∧ look dir (.side s) = none
        rw [(hother s hne).1, (hother s hne).2.2.1]
        exact hs.fresh s hle
      known := fun r hmem => by
        obtain ⟨s, hlt, hof⟩ := hs.known r hmem
        have hne : s ≠ b.seq := by
          rintro rfl
          exact htable r hmem hof.name
        refine ⟨s, hlt, hof.name, ?_, ?_⟩
        · show ∃ bs, TableOf r (Function.update g.content b.seq es s) bs
          rw [hcontent s hne]
          exact hof.table
        · show BloomLaws → Covers r.filter (Function.update g.content b.seq es s)
          rw [hcontent s hne]
          exact hof.covers
      view := fun d hd => { hs.view d hd with
        cur := by
          rw [hlayers d hd]
          exact (hs.view d hd).cur } }
  · have hl := hr.crew.threads t
    refine hr.crew.keep ⟨rfl, rfl, rfl, rfl⟩ hm ⟨rfl, rfl⟩ rfl rfl rfl ?_ ?_ ?_
    · intro b' hb'
      simp only [Option.some.injEq] at hb'
      subst hb'
      exact ⟨b, hb, rfl⟩
    · refine { hl with
        mirrors := fun h hh => { hl.mirrors h hh with tmp := by rw [htmp]; exact (hl.mirrors h hh).tmp }
        building := ?_
        input := hinput t }
      intro b' hb'
      simp only [Option.some.injEq] at hb'
      subst hb'
      exact { hbuild with
        tmp := rfl
        run := rfl
        side := rfl
        sideTmp := rfl
        content := fun _ => Function.update_self _ _ _ }
    · intro t' hne hl'
      refine { hl' with
        mirrors := fun h hh => { hl'.mirrors h hh with tmp := by rw [htmp]; exact (hl'.mirrors h hh).tmp }
        building := fun b' hb' => ?_
        input := hinput t' }
      have hseq : b'.seq ≠ b.seq := Ne.symm (hr.crew.apart t t' b b' (Ne.symm hne) hb hb')
      have hbuild' := hl'.building b' hb'
      exact { hbuild' with
        tmp := by rw [(hother _ hseq).2.1]; exact hbuild'.tmp
        run := by rw [(hother _ hseq).1]; exact hbuild'.run
        side := by rw [(hother _ hseq).2.2.1]; exact hbuild'.side
        sideTmp := by rw [(hother _ hseq).2.2.2]; exact hbuild'.sideTmp
        content := by
          show _ → Function.update g.content b.seq es b'.seq = _
          rw [hcontent _ hseq]
          exact hbuild'.content }

/-- A run that is still being written: no handle, not listed, no sidecar before the run itself. -/
structure Build.Open (b : Build) : Prop where
  table : b.table = none
  committed : b.committed = false
  side : b.run = none → b.side = none

theorem Reserved.open (hb : Reserved b) : b.Open := ⟨hb.table, hb.committed, fun _ => hb.side⟩

/-- One of the two temporaries changes. -/
def Build.put (b : Build) (n : Name) (d : Option Data) : Build :=
  if n = .runTmp b.seq then { b with tmp := d } else { b with sideTmp := d }

theorem Build.put_tmp (b : Build) (d : Option Data) : b.put (.runTmp b.seq) d = { b with tmp := d } := by
  simp [put]

theorem Build.put_sideTmp (b : Build) (d : Option Data) :
    b.put (.sideTmp b.seq) d = { b with sideTmp := d } := by
  simp [put]

/-- The contents behind a run number do not change unless its run is installed. -/
theorem Building.update_content (hbuild : Building e g w b) (hne : b.run ≠ none) :
    Function.update g.content b.seq b.entries = g.content := by
  rw [← hbuild.content hne, Function.update_eq_self]

theorem Running.temps (hr : Running e g w A) (hm : (A t).mode = .live) (hb : (A t).build = some b)
    (hopen : b.Open) {n : Name} (hn : n = .runTmp b.seq ∨ n = .sideTmp b.seq) {d : Option Data}
    {dir : SortedMap Text Data} (hlook : look dir = Function.update (look w.dir) n d) :
    ∃ g', Running e g' { w with dir := dir }
      (Function.update A t { A t with build := some (b.put n d) }) := by
  have hbuild := (hr.crew.threads t).building b hb
  have hrun : look dir (.run b.seq) = b.run := by
    rw [hlook, Function.update_of_ne (by rcases hn with rfl | rfl <;> simp)]
    exact hbuild.run
  have hside : look dir (.side b.seq) = b.side := by
    rw [hlook, Function.update_of_ne (by rcases hn with rfl | rfl <;> simp)]
    exact hbuild.side
  have hput : b.at dir b.entries = b.put n d := by
    unfold Build.at
    rw [hrun, hside]
    rcases hn with rfl | rfl
    · rw [Build.put_tmp]
      simp [hlook, Function.update_of_ne, hbuild.sideTmp]
    · rw [Build.put_sideTmp]
      simp [hlook, Function.update_of_ne, hbuild.tmp]
  rw [← hput]
  refine ⟨_, hr.files hm hb hopen.table hopen.committed ?_ (fun _ _ => rfl) ?_ ?_⟩
  · intro m hm'
    rw [hlook, Function.update_of_ne]
    rintro rfl
    exact hm' (by rcases hn with rfl | rfl <;> simp [Name.Of])
  · intro x hx
    rw [hrun] at hx
    have hne : b.run ≠ none := by simp [hx]
    rw [hbuild.update_content hne]
    exact hr.session.stored.run b.seq x (by rw [hbuild.run, hx])
  · intro x hx
    rw [hside] at hx
    have hne : b.run ≠ none := fun hnone => by simp [hopen.side hnone] at hx
    rw [hbuild.update_content hne]
    exact hr.session.stored.side b.seq x (by rw [hbuild.side, hx])

theorem Running.drop_update (hr : Running e g w (Function.update A t a)) (hm : a.mode = .live) :
    Running e g w (Function.update A t { a with build := none }) := by
  have hab := hr.abandon (t := t) (by rw [Function.update_self]; exact hm)
  rwa [Function.update_idem, Function.update_self] at hab

theorem does_create {Q : Own → Except IoError Unit → Prop} (hm : a.mode = .live) (hb : a.build = some b)
    (hopen : b.Open) {n : Name} (hn : n = .runTmp b.seq ∨ n = .sideTmp b.seq) {x : Data}
    (hok : Q { a with build := some (b.put n (some x)) } (.ok ()))
    (herr : e.Faulty t a → Q { a with build := none } (.error .other)) : Does e t (.create n.text x) a Q := by
  refine Does.live hm ?_
  intro g w A hr ha
  subst ha
  refine ⟨⟨n, rfl⟩, fun c r w' hc hx => ?_⟩
  obtain ⟨g', hdone⟩ := hr.temps hm hb hopen hn (look_insert w.dir n x)
  cases c with
  | fail k =>
    have hf : e.Faulty t (A t) := faulty_of hr.crew.shared hc rfl
    cases k <;> simp only [exec, Option.some.injEq, Prod.mk.injEq] at hx <;> obtain ⟨rfl, rfl⟩ := hx
    · exact ⟨g, _, hr.abandon hm, herr hf⟩
    · exact ⟨g', _, hdone.drop_update hm, herr hf⟩
  | ok | order _ _ | faults _ =>
    simp only [exec, Option.some.injEq, Prod.mk.injEq] at hx
    obtain ⟨rfl, rfl⟩ := hx
    exact ⟨g', _, hdone, hok⟩

theorem Building.temp {n : Name} (hbuild : Building e g w b) (hn : n = .runTmp b.seq ∨ n = .sideTmp b.seq)
    {old : Data} (hold : b.put n (some old) = b) : w.dir.get? n.text = some old := by
  rcases hn with rfl | rfl
  · rw [Build.put_tmp] at hold
    have htmp := hbuild.tmp
    rw [← hold] at htmp
    exact htmp
  · rw [Build.put_sideTmp] at hold
    have htmp := hbuild.sideTmp
    rw [← hold] at htmp
    exact htmp

theorem does_append {Q : Own → Except IoError Unit → Prop} (hm : a.mode = .live) (hb : a.build = some b)
    (hopen : b.Open) {n : Name} (hn : n = .runTmp b.seq ∨ n = .sideTmp b.seq) {old x : Data}
    (hold : b.put n (some old) = b)
    (hok : old.fits x = true → Q { a with build := some (b.put n (some (old.append x))) } (.ok ()))
    (herr : e.Faulty t a → Q { a with build := none } (.error .other)) : Does e t (.append n.text x) a Q := by
  refine Does.live hm ?_
  intro g w A hr ha
  subst ha
  have hget : w.dir.get? n.text = some old := ((hr.crew.threads t).building b hb).temp hn hold
  refine ⟨trivial, fun c r w' hc hx => ?_⟩
  by_cases hfits : old.fits x = true
  · obtain ⟨g', hdone⟩ := hr.temps hm hb hopen hn (look_insert w.dir n (old.append x))
    cases c with
    | fail k =>
      have hf : e.Faulty t (A t) := faulty_of hr.crew.shared hc rfl
      obtain ⟨g'', hpart⟩ := hr.temps hm hb hopen hn (look_insert w.dir n (old.append (x.take k)))
      simp only [exec, hget, Option.some.injEq, Prod.mk.injEq] at hx
      obtain ⟨rfl, rfl⟩ := hx
      exact ⟨g'', _, hpart.drop_update hm, herr hf⟩
    | ok | order _ _ | faults _ =>
      simp only [exec, hget, hfits, ↓reduceIte, Option.some.injEq, Prod.mk.injEq] at hx
      obtain ⟨rfl, rfl⟩ := hx
      exact ⟨g', _, hdone, hok hfits⟩
  · have hf : e.Faulty t (A t) := faulty_of hr.crew.shared hc (by simp [Act.fails, hget, hfits])
    cases c with
    | fail k =>
      obtain ⟨g'', hpart⟩ := hr.temps hm hb hopen hn (look_insert w.dir n (old.append (x.take k)))
      simp only [exec, hget, Option.some.injEq, Prod.mk.injEq] at hx
      obtain ⟨rfl, rfl⟩ := hx
      exact ⟨g'', _, hpart.drop_update hm, herr hf⟩
    | ok | order _ _ | faults _ =>
      simp only [exec, hget, hfits, Bool.false_eq_true, ↓reduceIte, Option.some.injEq, Prod.mk.injEq] at hx
      obtain ⟨rfl, rfl⟩ := hx
      exact ⟨g, _, hr.abandon hm, herr hf⟩

theorem does_sync {Q : Own → Except IoError Unit → Prop} (hm : a.mode = .live) {name : Text}
    (hok : Q a (.ok ())) (herr : e.Faulty t a → Q a (.error .other)) : Does e t (.sync name) a Q := by
  refine Does.live hm ?_
  intro g w A hr ha
  subst ha
  refine ⟨trivial, fun c r w' hc hx => ?_⟩
  have hsame : Running e g w (Function.update A t (A t)) := by rwa [Function.update_eq_self]
  cases c with
  | fail k =>
    simp only [exec, Option.some.injEq, Prod.mk.injEq] at hx
    obtain ⟨rfl, rfl⟩ := hx
    exact ⟨g, _, hsame, herr (faulty_of hr.crew.shared hc rfl)⟩
  | ok | order _ _ | faults _ =>
    simp only [exec, Option.some.injEq, Prod.mk.injEq] at hx
    obtain ⟨rfl, rfl⟩ := hx
    exact ⟨g, _, hsame, hok⟩

/-! ## Installing and reopening it -/

omit [Deps] in
theorem look_rename (dir : SortedMap Text Data) (m n : Name) (d : Data) :
    look ((dir.erase m.text).insert n.text d) =
      Function.update (Function.update (look dir) m none) n (some d) := by
  rw [look_insert, look_erase]

/-- What renaming does, when the name is not the manifest's. -/
theorem exec_rename {m n : Name} (hn : n ≠ .manifest) {bytes : Bytes}
    (hget : look w.dir m = some (.bin bytes)) {c : Choice} {r : Except IoError Unit} {w' : World}
    (hx : exec t (.rename m.text n.text) c w = some (r, w')) :
    r = .ok () ∧ w' = { w with
      dir := (w.dir.erase m.text).insert n.text (.bin bytes)
      finished := Function.update w.finished n.text (some bytes) } ∨
    (Act.rename m.text n.text).fails w c = true ∧ r = .error .other ∧ w' = w := by
  have hget' : w.dir.get? m.text = some (.bin bytes) := hget
  have hman : ¬ (n.text = MANIFEST ∧ t ≠ compactorTid) :=
    fun h => hn (Name.text_injective (m := .manifest) h.1)
  cases c with
  | fail k =>
    simp only [exec, Option.some.injEq, Prod.mk.injEq] at hx
    exact Or.inr ⟨rfl, hx.1.symm, hx.2.symm⟩
  | ok | order _ _ | faults _ =>
    simp only [exec, hget', if_neg hman, Option.some.injEq, Prod.mk.injEq] at hx
    exact Or.inl ⟨hx.1.symm, hx.2.symm⟩

theorem does_install_run {Q : Own → Except IoError Unit → Prop} (hm : a.mode = .live) (hb : a.build = some b)
    (hopen : b.Open) (hrun : b.run = none) {bytes : Bytes} (htmp : b.tmp = some (.bin bytes))
    {es : List Entry} {bs : List (List Entry)} (hl : RunLayout es bytes bs) (hasc : Ascending es)
    (hok : Q { a with build := some { b with tmp := none, run := some (.bin bytes), entries := es } } (.ok ()))
    (herr : e.Faulty t a → Q { a with build := none } (.error .other)) :
    Does e t (.rename (tmpPath (runFilename b.seq)) (runFilename b.seq)) a Q := by
  refine Does.live hm ?_
  intro g w A hr ha
  subst ha
  have hs := hr.session
  have hbuild := (hr.crew.threads t).building b hb
  have hname : ∀ r ∈ w.known, r.name ≠ runFilename b.seq := by
    intro r hmem heq
    have hsome := hbuild.only r hmem heq
    rw [hopen.table] at hsome
    simp at hsome
  refine ⟨⟨⟨.run b.seq, rfl⟩, ?_⟩, fun c r w' hc hx => ?_⟩
  · intro s hseq
    obtain rfl := runFilename_injective hseq
    refine ⟨?_, ?_, fun r hmem => hname r (hs.runs_known r hmem), fun x hx => hname x.2 (hs.held_known x hx)⟩
    · exact hbuild.run.trans hrun
    · exact hbuild.side.trans (hopen.side hrun)
  · rcases exec_rename (m := .runTmp b.seq) (n := .run b.seq) (by simp) (hbuild.tmp.trans htmp) hx with
      ⟨rfl, rfl⟩ | ⟨hfail, rfl, rfl⟩
    · have hlook := look_rename w.dir (.runTmp b.seq) (.run b.seq) (.bin bytes)
      have hat : b.at ((w.dir.erase (Name.runTmp b.seq).text).insert (Name.run b.seq).text (.bin bytes)) es =
          { b with tmp := none, run := some (.bin bytes), entries := es } := by
        unfold Build.at
        rw [hlook]
        simp [Function.update_of_ne, hbuild.side, hbuild.sideTmp]
      rw [← hat] at hok
      refine ⟨_, _, hr.files hm hb hopen.table hopen.committed ?_ ?_ ?_ ?_, hok⟩
      · intro n hn
        simp only [Name.Of, not_or] at hn
        rw [hlook, Function.update_of_ne hn.2.1, Function.update_of_ne hn.1]
      · intro s hne
        exact Function.update_of_ne (fun heq => hne (runFilename_injective heq)) _ _
      · intro d hd
        rw [hlook, Function.update_self] at hd
        simp only [Option.some.injEq] at hd
        subst hd
        refine ⟨lt_of_le_of_lt hbuild.lt hs.seq_lt, ⟨bytes, bs, rfl, Function.update_self _ _ _, ?_⟩, ?_⟩
        · rwa [Function.update_self]
        · rwa [Function.update_self]
      · intro d hd
        rw [hlook, Function.update_of_ne (by simp), Function.update_of_ne (by simp), hbuild.side,
          hopen.side hrun] at hd
        simp at hd
    · exact ⟨g, _, hr.abandon hm, herr (faulty_of hr.crew.shared hc hfail)⟩

theorem does_install_side {Q : Own → Except IoError Unit → Prop} (hm : a.mode = .live) (hb : a.build = some b)
    (hopen : b.Open) (hrun : b.run ≠ none) {bytes : Bytes} (htmp : b.sideTmp = some (.bin bytes))
    (hcov : ∀ f, RunFilter.decode bytes = some f → BloomLaws → Covers (some f) b.entries)
    (hok : Q { a with build := some { b with sideTmp := none, side := some (.bin bytes) } } (.ok ()))
    (herr : e.Faulty t a → Q { a with build := none } (.error .other)) :
    Does e t (.rename (tmpPath (sidecarPath (runFilename b.seq))) (sidecarPath (runFilename b.seq))) a Q := by
  refine Does.live hm ?_
  intro g w A hr ha
  subst ha
  have hbuild := (hr.crew.threads t).building b hb
  refine ⟨⟨⟨.side b.seq, rfl⟩, ?_⟩, fun c r w' hc hx => ?_⟩
  · intro s hseq
    have hne := Name.text_injective (n := .side b.seq) (m := .run s) hseq
    simp at hne
  · rcases exec_rename (m := .sideTmp b.seq) (n := .side b.seq) (by simp) (hbuild.sideTmp.trans htmp) hx with
      ⟨rfl, rfl⟩ | ⟨hfail, rfl, rfl⟩
    · have hlook := look_rename w.dir (.sideTmp b.seq) (.side b.seq) (.bin bytes)
      have hat : b.at ((w.dir.erase (Name.sideTmp b.seq).text).insert (Name.side b.seq).text (.bin bytes))
          b.entries = { b with sideTmp := none, side := some (.bin bytes) } := by
        unfold Build.at
        rw [hlook]
        simp [Function.update_of_ne, hbuild.run, hbuild.tmp]
      have hsame := hbuild.update_content hrun
      rw [← hat] at hok
      have hfin : ∀ s, Function.update w.finished (Name.side b.seq).text (some bytes) (runFilename s) =
          w.finished (runFilename s) := by
        intro s
        refine Function.update_of_ne (fun heq => ?_) _ _
        have hne := Name.text_injective (n := .run s) (m := .side b.seq) heq
        simp at hne
      refine ⟨_, _, hr.files hm hb hopen.table hopen.committed ?_ (fun s _ => hfin s) ?_ ?_, hok⟩
      · intro n hn
        simp only [Name.Of, not_or] at hn
        rw [hlook, Function.update_of_ne hn.2.2.1, Function.update_of_ne hn.2.2.2]
      · intro d hd
        rw [hlook, Function.update_of_ne (by simp), Function.update_of_ne (by simp)] at hd
        obtain ⟨hlt, hbytes, hasc⟩ := hr.session.stored.run b.seq d hd
        rw [hsame]
        refine ⟨hlt, ?_, hasc⟩
        rw [hfin]
        exact hbytes
      · intro d hd
        rw [hlook, Function.update_self] at hd
        simp only [Option.some.injEq] at hd
        subst hd
        refine ⟨bytes, rfl, ?_⟩
        rw [Function.update_self]
        exact hcov
    · exact ⟨g, _, hr.abandon hm, herr (faulty_of hr.crew.shared hc hfail)⟩

/-- Reopening the run reads the index that was written. -/
theorem does_openRun {Q : Own → Except Error OpenedRun → Prop} (hm : a.mode = .live) (hb : a.build = some b)
    {bytes : Bytes} (hrun : b.run = some (.bin bytes))
    (hok : ∀ index count, SsTable.readIndex bytes.length (preadExact bytes) = .ok (index, count) →
      Q a (.ok ⟨bytes, index, count⟩))
    (herr : ∀ err, e.Faulty t a ∨ SsTable.readIndex bytes.length (preadExact bytes) = .error err →
      Q { a with build := none } (.error err)) : Does e t (.openRun (runFilename b.seq)) a Q := by
  refine Does.live hm ?_
  intro g w A hr ha
  subst ha
  have hbuild := (hr.crew.threads t).building b hb
  have hget : w.dir.get? (runFilename b.seq) = some (.bin bytes) := hbuild.run.trans hrun
  refine ⟨trivial, fun c r w' hc hx => ?_⟩
  simp only [exec, hget, Option.some.injEq, Prod.mk.injEq] at hx
  obtain ⟨rfl, rfl⟩ := hx
  have hdrop : ∀ err, e.Faulty t (A t) ∨ SsTable.readIndex bytes.length (preadExact bytes) = .error err →
      ∃ g' a', Running e g' w (Function.update A t a') ∧ Q a' (.error err) :=
    fun err h => ⟨g, _, hr.abandon hm, herr err h⟩
  cases c with
  | fail k =>
    have hf : e.Faulty t (A t) := faulty_of hr.crew.shared hc rfl
    simp only [openFile]
    split_ifs <;> exact hdrop _ (Or.inl hf)
  | ok | order _ _ | faults _ =>
    simp only [openFile]
    cases hread : SsTable.readIndex bytes.length (preadExact bytes) with
    | error err => exact hdrop err (Or.inr hread)
    | ok p => exact ⟨g, A t, by rwa [Function.update_eq_self], hok p.1 p.2 hread⟩

theorem does_register {Q : Own → SsTable → Prop} (hm : a.mode = .live) (hb : a.build = some b)
    (hopen : b.Open) {bytes : Bytes} (hrun : b.run = some (.bin bytes)) {index : List BlockHandle} {count : ℕ}
    (hread : SsTable.readIndex bytes.length (preadExact bytes) = .ok (index, count))
    {filter : Option RunFilter} (hcov : BloomLaws → Covers filter b.entries)
    (hq : ∀ r, r.name = runFilename b.seq → (∃ bs, TableOf r b.entries bs) →
      Q { a with build := some { b with table := some r } } r) :
    Does e t (.register (runFilename b.seq) ⟨bytes, index, count⟩ filter) a Q := by
  refine Does.live hm ?_
  intro g w A hr ha
  subst ha
  have hs := hr.session
  have hl := hr.crew.threads t
  have hbuild := hl.building b hb
  refine ⟨trivial, fun c r w' hc hx => ?_⟩
  simp only [exec, Option.some.injEq, Prod.mk.injEq] at hx
  obtain ⟨hrr, rfl⟩ := hx
  rw [hrr]
  have hname : r.name = runFilename b.seq := by rw [← hrr]
  have hrid : r.runId = w.nextRunId := by rw [← hrr]
  have hindex : r.index = index := by rw [← hrr]
  have htable : ∃ bs, TableOf r b.entries bs := by
    obtain ⟨b', bs, hd, _, hlay⟩ := (hs.stored.run b.seq _ (hbuild.run.trans hrun)).bytes
    have hbytes : bytes = b' := by simpa using hd
    rw [← hbytes, hbuild.content (by simp [hrun])] at hlay
    have hasc := (hs.stored.run b.seq _ (hbuild.run.trans hrun)).ascending
    rw [hbuild.content (by simp [hrun])] at hasc
    have hu := hlay.readIndex_unique hasc hread
    simp only [Prod.mk.injEq] at hu
    refine ⟨bs, by rw [← hrr]; exact hlay, hasc, by rw [hindex]; exact hu.1, by rw [← hrr]; exact hu.2⟩
  have hfilter : BloomLaws → Covers r.filter b.entries := by rw [← hrr]; exact hcov
  have hnew : ∀ x ∈ w.known, x.name ≠ runFilename b.seq := by
    intro x hmem heq
    have hsome := hbuild.only x hmem heq
    rw [hopen.table] at hsome
    simp at hsome
  refine ⟨g, _, ⟨?_, ?_⟩, hq r hname htable⟩
  · exact { hs with
      known := fun x hmem => by
        rcases List.mem_cons.mp hmem with rfl | hmem
        · refine ⟨b.seq, hbuild.lt, hname, ?_, ?_⟩
          · rw [hbuild.content (by simp [hrun])]
            exact htable
          · rw [hbuild.content (by simp [hrun])]
            exact hfilter
        · exact hs.known x hmem
      id_lt := (hs.numbered.open hrid).id_lt
      id_ne := (hs.numbered.open hrid).id_ne
      name_ne := List.pairwise_cons.mpr ⟨fun x hmem heq => hnew x hmem (by rw [← heq, hname]), hs.name_ne⟩
      obsolete_lt := fun i hi => by
        have hlt := hs.obsolete_lt i hi
        show i < w.nextRunId + 1
        omega
      runs_known := fun x hmem => List.mem_cons_of_mem _ (hs.runs_known x hmem)
      held_known := fun x hmem => List.mem_cons_of_mem _ (hs.held_known x hmem)
      gone := fun hstat x hmem hobs => by
        rcases List.mem_cons.mp hmem with rfl | hmem
        · have hlt := hs.obsolete_lt _ hobs
          omega
        · exact hs.gone hstat x hmem hobs
      cached := fun hsm => (hs.cached hsm).open (by rw [hrid]; exact (hc hsm).1) fun hen => by
        rcases (hc hsm).2 hs.live with hle | hdis
        · rw [hindex]
          exact hle
        · rw [hdis] at hen
          simp at hen }
  · refine hr.crew.keep ⟨rfl, rfl, rfl, rfl⟩ hm ⟨rfl, rfl⟩ rfl rfl rfl ?_ ?_ ?_
    · intro b' hb'
      simp only [Option.some.injEq] at hb'
      subst hb'
      exact ⟨b, hb, rfl⟩
    · refine { hl with
        mirrors := fun h hh => { hl.mirrors h hh with }
        building := ?_
        dead := fun x hx => { hl.dead x hx with known := List.mem_cons_of_mem _ (hl.dead x hx).known } }
      intro b' hb'
      simp only [Option.some.injEq] at hb'
      subst hb'
      exact { hbuild with
        only := fun x hmem heq => by
          rcases List.mem_cons.mp hmem with rfl | hmem
          · rfl
          · exact absurd heq (hnew x hmem)
        table := fun x hx => by
          simp only [Option.some.injEq] at hx
          subst hx
          refine ⟨List.mem_cons_self, hname, ?_, ?_⟩
          · intro hobs
            have hlt := hs.obsolete_lt _ hobs
            omega
          · intro hmem
            exact hnew _ (hs.runs_known _ hmem) hname }
    · intro t' hne hl'
      refine { hl' with
        mirrors := fun h hh => { hl'.mirrors h hh with }
        building := fun b' hb' => ?_
        dead := fun x hx => { hl'.dead x hx with known := List.mem_cons_of_mem _ (hl'.dead x hx).known } }
      have hbuild' := hl'.building b' hb'
      have hseq : b.seq ≠ b'.seq := hr.crew.apart t t' b b' (Ne.symm hne) hb hb'
      exact { hbuild' with
        only := fun x hmem heq => by
          rcases List.mem_cons.mp hmem with rfl | hmem
          · rw [hname] at heq
            exact absurd (runFilename_injective heq) hseq
          · exact hbuild'.only x hmem heq
        table := fun x hx => by
          obtain ⟨h1, h2⟩ := hbuild'.table x hx
          exact ⟨List.mem_cons_of_mem _ h1, h2⟩ }

end Build
end LsmDb
