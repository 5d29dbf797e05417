import LsmDb.Core.Record
import LsmDb.Lib.Decimal

/-! The manifest text and the names of the engine's files (`manifest.rs`, `sidecar_path` of `bloom.rs`,
`WAL_FILE` of `durability.rs`). -/
namespace LsmDb
open Lib
set_option autoImplicit false

/-! ## Names -/

def MANIFEST : Text := ['M', 'A', 'N', 'I', 'F', 'E', 'S', 'T']
def TMP : Text := ['.', 't', 'm', 'p']
def BLOOM : Text := ['.', 'b', 'l', 'o', 'o', 'm']
def SST : Text := ['.', 's', 's', 't']
def RUN : Text := ['r', 'u', 'n', '-']
def MANIFEST_TMP : Text := MANIFEST ++ TMP
def WAL_FILE : Text := ['w', 'a', 'l', '.', 'l', 'o', 'g']

/-- `format!("run-{seq:010}.sst")`. -/
def runFilename (seq : ℕ) : Text :=
  RUN ++ (List.replicate (10 - (decimal seq).length) '0' ++ decimal seq) ++ SST

def tmpPath (name : Text) : Text := name ++ TMP

def sidecarPath (name : Text) : Text := name ++ BLOOM

def stripPrefix (pre name : Text) : Option Text :=
  if pre.isPrefixOf name then some (name.drop pre.length) else none

def stripSuffix (suf name : Text) : Option Text :=
  if suf.isSuffixOf name then some (name.take (name.length - suf.length)) else none

def seqOf (name : Text) : Option ℕ := do
  let rest ← stripPrefix RUN name
  let digits ← stripSuffix SST rest
  parseU64 digits

/-! ## The text -/

def HEADER : Text :=
  ['L', 'S', 'M', 'D', 'B', '-', 'M', 'A', 'N', 'I', 'F', 'E', 'S', 'T', ' ', 'v', '1']
def NEXT_SEQ : Text := ['n', 'e', 'x', 't', '_', 's', 'e', 'q', '=']

structure Manifest where
  nextSeq : ℕ
  runs : List Text
deriving DecidableEq, Repr

/-- The body `Manifest::store` writes. -/
def manifestText (nextSeq : ℕ) (runs : List Text) : Text :=
  HEADER ++ '\n' :: (NEXT_SEQ ++ decimal nextSeq ++ '\n' :: runs.flatMap fun run => run ++ ['\n'])

def stripCr (line : Text) : Text := if line.getLast? = some '\r' then line.dropLast else line

/-- `str::lines`, with the characters of the current line so far. -/
def linesFrom (line : Text) : Text → List Text
  | [] => if line = [] then [] else [line]
  | c :: cs => if c = '\n' then stripCr line :: linesFrom [] cs else linesFrom (line ++ [c]) cs

def lines (text : Text) : List Text := linesFrom [] text

/-- `Manifest::load` once the text has been read. -/
def parseManifest (text : Text) : Except Error Manifest :=
  match lines text with
  | [] => .error (.corruption "manifest header missing or unrecognised")
  | header :: rest =>
    if header ≠ HEADER then .error (.corruption "manifest header missing or unrecognised")
    else
      match rest with
      | [] => .error (.corruption "manifest truncated")
      | line :: rest =>
        match (stripPrefix NEXT_SEQ line).bind parseU64 with
        | some nextSeq => .ok ⟨nextSeq, rest.filter (· ≠ [])⟩
        | none => .error (.corruption "manifest next_seq line malformed")

/-! ## Names apart -/

theorem stripPrefix_append (pre rest : Text) : stripPrefix pre (pre ++ rest) = some rest := by
  have h : pre.isPrefixOf (pre ++ rest) = true := by
    rw [List.isPrefixOf_iff_prefix]
    exact List.prefix_append pre rest
  simp [stripPrefix, h]

theorem stripSuffix_append (suf front : Text) : stripSuffix suf (front ++ suf) = some front := by
  have h : suf.isSuffixOf (front ++ suf) = true := by
    rw [List.isSuffixOf_iff_suffix]
    exact List.suffix_append front suf
  simp [stripSuffix, h]

theorem seqOf_runFilename {n : ℕ} (h : n < 2 ^ 64) : seqOf (runFilename n) = some n := by
  unfold seqOf runFilename
  rw [List.append_assoc, stripPrefix_append]
  simp only [bind, Option.bind, stripSuffix_append]
  exact parseU64_decimal h _

theorem runFilename_injective {m n : ℕ} (h : runFilename m = runFilename n) : m = n := by
  unfold runFilename at h
  have hpad : List.replicate (10 - (decimal m).length) '0' ++ decimal m =
      List.replicate (10 - (decimal n).length) '0' ++ decimal n :=
    List.append_cancel_left (List.append_cancel_right h)
  have hm := digitsFrom_zeros (10 - (decimal m).length) (decimal m)
  have hn := digitsFrom_zeros (10 - (decimal n).length) (decimal n)
  rw [hpad, hn, digitsFrom_decimal, digitsFrom_decimal] at hm
  simpa using hm.symm

/-- The files the engine makes. -/
inductive Name where
  | manifest
  | manifestTmp
  | run (seq : ℕ)
  | runTmp (seq : ℕ)
  | side (seq : ℕ)
  | sideTmp (seq : ℕ)
deriving DecidableEq

def Name.text : Name → Text
  | manifest => MANIFEST
  | manifestTmp => MANIFEST_TMP
  | run seq => runFilename seq
  | runTmp seq => tmpPath (runFilename seq)
  | side seq => sidecarPath (runFilename seq)
  | sideTmp seq => tmpPath (sidecarPath (runFilename seq))

-- The last character tells a run, a temporary, a sidecar and the manifest apart.

theorem getLast_runFilename (n : ℕ) : (runFilename n).getLast? = some 't' := by
  simp [runFilename, SST]

theorem getLast_tmp (name : Text) : (name ++ TMP).getLast? = some 'p' := by simp [TMP]

theorem getLast_bloom (name : Text) : (name ++ BLOOM).getLast? = some 'm' := by simp [BLOOM]

theorem getLast_manifest : MANIFEST.getLast? = some 'T' := rfl

/-- What a name is without its `.tmp`. -/
def Name.stem : Name → Option Name
  | manifestTmp => some manifest
  | runTmp seq => some (run seq)
  | sideTmp seq => some (side seq)
  | _ => none

theorem Name.text_stem {n m : Name} (h : n.stem = some m) : n.text = m.text ++ TMP := by
  cases n with
  | manifest => simp [stem] at h
  | run seq => simp [stem] at h
  | side seq => simp [stem] at h
  | manifestTmp =>
    simp only [stem, Option.some.injEq] at h
    rw [← h]
    rfl
  | runTmp seq =>
    simp only [stem, Option.some.injEq] at h
    rw [← h]
    rfl
  | sideTmp seq =>
    simp only [stem, Option.some.injEq] at h
    rw [← h]
    rfl

theorem Name.getLast_of_stem {n : Name} (h : n.stem ≠ none) : n.text.getLast? = some 'p' := by
  cases hs : n.stem with
  | none => exact absurd hs h
  | some m => rw [text_stem hs, getLast_tmp]

theorem Name.text_injective_of_stem_none {n m : Name} (hn : n.stem = none) (hm : m.stem = none)
    (h : n.text = m.text) : n = m := by
  have hl := congrArg List.getLast? h
  cases n <;> cases m <;> simp only [stem, reduceCtorEq] at hn hm <;>
    simp only [text, sidecarPath, getLast_runFilename, getLast_bloom, getLast_manifest, Option.some.injEq,
      Char.reduceEq] at hl
  · rfl
  · rw [runFilename_injective h]
  · rw [runFilename_injective (List.append_cancel_right h)]

theorem Name.getLast_of_stem_none {n : Name} (h : n.stem = none) : n.text.getLast? ≠ some 'p' := by
  cases n <;> simp only [stem, reduceCtorEq] at h
  · simp [text, getLast_manifest]
  · simp [text, getLast_runFilename]
  · simp only [text, sidecarPath, getLast_bloom]
    decide

theorem Name.stem_stem {n m : Name} (h : n.stem = some m) : m.stem = none := by
  cases n <;> simp only [stem, reduceCtorEq, Option.some.injEq] at h <;> rw [← h] <;> rfl

theorem Name.stem_injective {n m x : Name} (hn : n.stem = some x) (hm : m.stem = some x) : n = m := by
  cases n <;> simp only [stem, reduceCtorEq, Option.some.injEq] at hn <;> subst hn <;>
    cases m <;> simp [stem] at hm ⊢ <;> exact hm.symm

theorem Name.text_injective {n m : Name} (h : n.text = m.text) : n = m := by
  have hl := congrArg List.getLast? h
  cases hn : n.stem with
  | none =>
    cases hm : m.stem with
    | none => exact text_injective_of_stem_none hn hm h
    | some m' =>
      have hp : m.text.getLast? = some 'p' := getLast_of_stem (by rw [hm]; simp)
      exact absurd (hl.trans hp) (getLast_of_stem_none hn)
  | some n' =>
    have hp : n.text.getLast? = some 'p' := getLast_of_stem (by rw [hn]; simp)
    cases hm : m.stem with
    | none => exact absurd (hl.symm.trans hp) (getLast_of_stem_none hm)
    | some m' =>
      rw [text_stem hn, text_stem hm] at h
      have heq := text_injective_of_stem_none (stem_stem hn) (stem_stem hm) (List.append_cancel_right h)
      subst heq
      exact stem_injective hn hm

@[simp] theorem Name.text_inj {n m : Name} : n.text = m.text ↔ n = m :=
  ⟨Name.text_injective, fun h => by rw [h]⟩

/-! ## The text read back -/

/-- A line that `lines` returns as it is. -/
structure PlainLine (line : Text) : Prop where
  newline : '\n' ∉ line
  cr : line.getLast? ≠ some '\r'

theorem linesFrom_append {line : Text} (h : '\n' ∉ line) (acc rest : Text) :
    linesFrom acc (line ++ '\n' :: rest) = stripCr (acc ++ line) :: linesFrom [] rest := by
  induction line generalizing acc with
  | nil => simp [linesFrom]
  | cons c cs ih =>
    have hc : c ≠ '\n' := by
      intro hc
      exact h (by simp [hc])
    have htail : '\n' ∉ cs := by
      intro hm
      exact h (by simp [hm])
    rw [List.cons_append, linesFrom, if_neg hc, ih htail, List.append_assoc]
    rfl

theorem linesFrom_plain {line : Text} (h : PlainLine line) (rest : Text) :
    linesFrom [] (line ++ '\n' :: rest) = line :: linesFrom [] rest := by
  rw [linesFrom_append h.newline, List.nil_append, stripCr, if_neg h.cr]

theorem lines_flatMap {runs : List Text} (h : ∀ run ∈ runs, PlainLine run) :
    linesFrom [] (runs.flatMap fun run => run ++ ['\n']) = runs := by
  induction runs with
  | nil => rfl
  | cons run runs ih =>
    have hplain := linesFrom_plain (h run (by simp)) (runs.flatMap fun run => run ++ ['\n'])
    rw [List.flatMap_cons, List.append_assoc]
    rw [ih fun r hr => h r (by simp [hr])] at hplain
    exact hplain

theorem plain_of_isDigit {text : Text} (h : ∀ c ∈ text, c.isDigit = true) : PlainLine text where
  newline hm := by simpa using h _ hm
  cr hl := by simpa using h _ (List.mem_of_getLast? hl)

theorem newline_notMem_runFilename (n : ℕ) : '\n' ∉ runFilename n := by
  intro hm
  simp only [runFilename, List.mem_append] at hm
  rcases hm with (hm | hm | hm) | hm
  · simp [RUN] at hm
  · have hz := (List.mem_replicate.mp hm).2
    simp at hz
  · exact (plain_of_isDigit (decimal_isDigit n)).newline hm
  · simp [SST] at hm

theorem plain_runFilename (n : ℕ) : PlainLine (runFilename n) where
  newline := newline_notMem_runFilename n
  cr := by rw [getLast_runFilename]; decide

theorem runFilename_ne_nil (n : ℕ) : runFilename n ≠ [] := by
  intro h
  have hl := getLast_runFilename n
  rw [h] at hl
  simp at hl

/-- The stored text loads as what was stored. -/
theorem parseManifest_manifestText {nextSeq : ℕ} (h : nextSeq < 2 ^ 64) {runs : List Text}
    (hr : ∀ run ∈ runs, ∃ n, run = runFilename n) :
    parseManifest (manifestText nextSeq runs) = .ok ⟨nextSeq, runs⟩ := by
  have hseq : PlainLine (NEXT_SEQ ++ decimal nextSeq) := by
    have hd := plain_of_isDigit (decimal_isDigit nextSeq)
    refine ⟨?_, ?_⟩
    · intro hm
      rcases List.mem_append.mp hm with hm | hm
      · simp [NEXT_SEQ] at hm
      · exact hd.newline hm
    · rw [List.getLast?_append_of_ne_nil _ (decimal_ne_nil nextSeq)]
      exact hd.cr
  have hplain : ∀ run ∈ runs, PlainLine run := by
    intro run hrun
    obtain ⟨n, rfl⟩ := hr run hrun
    exact plain_runFilename n
  have hlines : lines (manifestText nextSeq runs) = HEADER :: (NEXT_SEQ ++ decimal nextSeq) :: runs := by
    unfold lines manifestText
    rw [linesFrom_plain ⟨by decide, by decide⟩, linesFrom_plain hseq, lines_flatMap hplain]
  have hparse : parseU64 (decimal nextSeq) = some nextSeq := by
    have hz := parseU64_decimal h 0
    simpa using hz
  have hfilter : runs.filter (· ≠ []) = runs := by
    rw [List.filter_eq_self]
    intro run hrun
    obtain ⟨n, rfl⟩ := hr run hrun
    simpa using runFilename_ne_nil n
  simp only [parseManifest, hlines, ne_eq, not_true_eq_false, ↓reduceIte, stripPrefix_append,
    Option.bind_some, hparse]
  simpa using hfilter

end LsmDb
