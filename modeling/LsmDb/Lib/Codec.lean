import LsmDb.Lib.LittleEndian
import Mathlib.Order.Basic

/-! Readers that take a value off the front of a byte string, and when they are exact: the encodings of valid
values are read back and nothing else is accepted. Exactness composes along the reader's own binds. -/
namespace LsmDb.Lib
set_option autoImplicit false

variable {ε α β κ : Type}

abbrev Reader (ε α : Type) := Bytes → Except ε (α × Bytes)

/-- The reader accepts exactly the encodings of valid values; what it does not accept it refuses. -/
structure Exact (read : Reader ε α) (encode : α → Bytes) (valid : α → Prop) (refusal : ε → Prop) : Prop where
  ok_iff : ∀ bytes a rest, read bytes = .ok (a, rest) ↔ valid a ∧ bytes = encode a ++ rest
  refused : ∀ bytes err, read bytes = .error err → refusal err

theorem bind_eq_ok {x : Except ε α} {f : α → Except ε β} {b : β} :
    (x >>= f) = .ok b ↔ ∃ a, x = .ok a ∧ f a = .ok b := by
  cases x with
  | error err => simp [bind, Except.bind]
  | ok a => simp [bind, Except.bind]

theorem bind_eq_error {x : Except ε α} {f : α → Except ε β} {err : ε} :
    (x >>= f) = .error err ↔ x = .error err ∨ ∃ a, x = .ok a ∧ f a = .error err := by
  cases x with
  | error err' => simp [bind, Except.bind]
  | ok a => simp [bind, Except.bind]

/-- A check that returns early when it fails. -/
theorem check_eq_ok {p : Prop} [Decidable p] {err : ε} {k : Unit → Except ε β} {b : β}
    (h : (if p then (throw err : Except ε Unit) >>= k else k ()) = .ok b) : ¬ p ∧ k () = .ok b := by
  by_cases hp : p
  · rw [if_pos hp] at h
    cases h
  · rw [if_neg hp] at h
    exact ⟨hp, h⟩

namespace Exact

variable {read : Reader ε α} {encode : α → Bytes} {valid : α → Prop} {refusal : ε → Prop}

theorem read_append (h : Exact read encode valid refusal) {a : α} (ha : valid a) (rest : Bytes) :
    read (encode a ++ rest) = .ok (a, rest) := (h.ok_iff _ _ _).mpr ⟨ha, rfl⟩

/-- One reader after the other. The first value is not kept: the second value determines it. -/
theorem bind (h : Exact read encode valid refusal) {next : α → Reader ε β} {encode' : β → Bytes} {valid' : β → Prop}
    (first : β → α) (h' : ∀ a, valid a → Exact (next a) encode' (fun b => valid' b ∧ first b = a) refusal) :
    Exact (fun bytes => read bytes >>= fun x => next x.1 x.2) (fun b => encode (first b) ++ encode' b)
      (fun b => valid (first b) ∧ valid' b) refusal where
  ok_iff bytes b rest := by
    rw [bind_eq_ok]
    constructor
    · rintro ⟨⟨a, mid⟩, hread, hnext⟩
      obtain ⟨ha, rfl⟩ := (h.ok_iff _ _ _).mp hread
      obtain ⟨⟨hb, rfl⟩, hmid⟩ := ((h' a ha).ok_iff _ _ _).mp hnext
      have hmid : mid = encode' b ++ rest := hmid
      exact ⟨⟨ha, hb⟩, by rw [hmid, List.append_assoc]⟩
    · rintro ⟨⟨ha, hb⟩, rfl⟩
      refine ⟨(first b, encode' b ++ rest), (h.ok_iff _ _ _).mpr ⟨ha, by rw [List.append_assoc]⟩, ?_⟩
      exact ((h' (first b) ha).ok_iff _ _ _).mpr ⟨⟨hb, rfl⟩, rfl⟩
  refused bytes err herr := by
    rcases bind_eq_error.mp herr with hread | ⟨⟨a, mid⟩, hread, hnext⟩
    · exact h.refused _ _ hread
    · exact (h' a ((h.ok_iff _ _ _).mp hread).1).refused _ _ hnext

/-- The value is wrapped on the way out; `un` takes it out of its wrapping again. -/
theorem map (h : Exact read encode valid refusal) (wrap : α → β) (un : β → α) (hun : ∀ a, valid a → un (wrap a) = a) :
    Exact (fun bytes => read bytes >>= fun x => .ok (wrap x.1, x.2)) (fun b => encode (un b))
      (fun b => valid (un b) ∧ wrap (un b) = b) refusal where
  ok_iff bytes b rest := by
    rw [bind_eq_ok]
    constructor
    · rintro ⟨⟨a, mid⟩, hread, hwrap⟩
      obtain ⟨rfl, rfl⟩ := Prod.mk.inj (Except.ok.inj hwrap)
      obtain ⟨ha, hbytes⟩ := (h.ok_iff _ _ _).mp hread
      simp only [hun a ha]
      exact ⟨⟨ha, trivial⟩, hbytes⟩
    · rintro ⟨⟨ha, hb⟩, hbytes⟩
      exact ⟨(un b, rest), (h.ok_iff _ _ _).mpr ⟨ha, hbytes⟩, by rw [hb]⟩
  refused bytes err herr := by
    rcases bind_eq_error.mp herr with hread | ⟨_, _, hok⟩
    · exact h.refused _ _ hread
    · cases hok

/-- A check on the value read. -/
theorem guard (h : Exact read encode valid refusal) (p : α → Prop) [DecidablePred p] {err : ε} (herr : refusal err) :
    Exact (fun bytes => read bytes >>= fun x => if p x.1 then .error err else .ok x) encode
      (fun a => valid a ∧ ¬ p a) refusal where
  ok_iff bytes a rest := by
    rw [bind_eq_ok]
    constructor
    · rintro ⟨x, hread, hx⟩
      split_ifs at hx with hp
      obtain rfl : x = (a, rest) := Except.ok.inj hx
      obtain ⟨ha, hbytes⟩ := (h.ok_iff _ _ _).mp hread
      exact ⟨⟨ha, hp⟩, hbytes⟩
    · rintro ⟨⟨ha, hp⟩, hbytes⟩
      exact ⟨(a, rest), (h.ok_iff _ _ _).mpr ⟨ha, hbytes⟩, if_neg hp⟩
  refused bytes err' herr' := by
    rcases bind_eq_error.mp herr' with hread | ⟨x, _, hx⟩
    · exact h.refused _ _ hread
    · split_ifs at hx
      obtain rfl := Except.error.inj hx
      exact herr

/-- Only what is said of the valid values and their encodings matters. -/
theorem congr (h : Exact read encode valid refusal) {read' : Reader ε α} {encode' : α → Bytes} {valid' : α → Prop}
    (hread : ∀ bytes, read' bytes = read bytes) (hvalid : ∀ a, valid' a ↔ valid a)
    (hencode : ∀ a, valid a → encode' a = encode a) : Exact read' encode' valid' refusal where
  ok_iff bytes a rest := by
    rw [hread, h.ok_iff, hvalid]
    constructor
    · rintro ⟨ha, hbytes⟩
      exact ⟨ha, by rw [hencode a ha]; exact hbytes⟩
    · rintro ⟨ha, hbytes⟩
      exact ⟨ha, by rw [← hencode a ha]; exact hbytes⟩
  refused bytes err herr := h.refused bytes err ((hread bytes).symm.trans herr)

end Exact

/-! ## Items up to the end of the bytes -/

/-- Items are read until the bytes run out; each is checked against the key before it. -/
def readAll (read : Reader ε α) (key : α → κ) (check : Option κ → κ → Except ε Unit) :
    ℕ → Option κ → Bytes → Except ε (List α)
  | 0, _, _ => .ok []
  | fuel + 1, prev, rest =>
    if rest = [] then .ok []
    else do
      let (a, rest) ← read rest
      check prev (key a)
      let as ← readAll read key check fuel (some (key a)) rest
      return a :: as

section ReadAll
variable [LinearOrder κ] {read : Reader ε α} {encode : α → Bytes} {valid : α → Prop} {refusal : ε → Prop} {key : α → κ}
  {check : Option κ → κ → Except ε Unit} {fuel : ℕ} {bytes : Bytes}

/-- What the items must be: valid, with keys that ascend from above `prev`. -/
structure Listed (valid : α → Prop) (key : α → κ) (prev : Option κ) (as : List α) : Prop where
  valid : ∀ a ∈ as, valid a
  ascending : as.Pairwise fun a b => key a < key b
  above : ∀ p ∈ prev, ∀ a ∈ as, p < key a

theorem Listed.nil (prev : Option κ) : Listed valid key prev [] :=
  ⟨by simp, List.Pairwise.nil, by simp⟩

theorem listed_cons {prev : Option κ} {a : α} {as : List α} : Listed valid key prev (a :: as) ↔
    valid a ∧ (∀ p ∈ prev, p < key a) ∧ Listed valid key (some (key a)) as := by
  constructor
  · rintro ⟨hv, ha, hp⟩
    obtain ⟨hlt, htail⟩ := List.pairwise_cons.mp ha
    refine ⟨hv a (by simp), fun p hpp => hp p hpp a (by simp), fun x hx => hv x (by simp [hx]), htail, ?_⟩
    intro p hpp x hx
    obtain rfl : key a = p := Option.some.inj hpp
    exact hlt x hx
  · rintro ⟨hv, hp, htail⟩
    have habove : ∀ x ∈ as, key a < key x := htail.above _ rfl
    refine ⟨?_, List.pairwise_cons.mpr ⟨habove, htail.ascending⟩, ?_⟩
    · intro x hx
      rcases List.mem_cons.mp hx with rfl | hx
      · exact hv
      · exact htail.valid x hx
    · intro p hpp x hx
      rcases List.mem_cons.mp hx with rfl | hx
      · exact hp p hpp
      · exact (hp p hpp).trans (habove x hx)

/-- The loop is exact when the reader of one item is and no item is empty. -/
theorem readAll_ok_iff (h : Exact read encode valid refusal) (hne : ∀ a, encode a ≠ [])
    (hcheck : ∀ prev k, check prev k = .ok () ↔ ∀ p ∈ prev, p < k) (hfuel : bytes.length ≤ fuel) (prev : Option κ)
    (as : List α) :
    readAll read key check fuel prev bytes = .ok as ↔ bytes = as.flatMap encode ∧ Listed valid key prev as := by
  induction fuel generalizing bytes prev as with
  | zero =>
    obtain rfl : bytes = [] := List.eq_nil_of_length_eq_zero (by omega)
    simp only [readAll, Except.ok.injEq]
    constructor
    · rintro rfl
      exact ⟨rfl, Listed.nil prev⟩
    · rintro ⟨hnil, _⟩
      cases as with
      | nil => rfl
      | cons a as => simp [hne a] at hnil
  | succ fuel ih =>
    simp only [readAll]
    by_cases hnil : bytes = []
    · subst hnil
      rw [if_pos rfl, Except.ok.injEq]
      constructor
      · rintro rfl
        exact ⟨rfl, Listed.nil prev⟩
      · rintro ⟨hempty, _⟩
        cases as with
        | nil => rfl
        | cons a as => simp [hne a] at hempty
    · rw [if_neg hnil]
      -- an item takes at least one byte, so the rest is within the fuel that is left
      have hshort : ∀ a rest, bytes = encode a ++ rest → rest.length ≤ fuel := by
        rintro a rest rfl
        have hpos : 0 < (encode a).length := List.length_pos_iff.mpr (hne a)
        rw [List.length_append] at hfuel
        omega
      constructor
      · intro hread
        obtain ⟨⟨a, rest⟩, hitem, hread⟩ := bind_eq_ok.mp hread
        obtain ⟨u, hkey, hread⟩ := bind_eq_ok.mp hread
        obtain ⟨tail, hloop, hread⟩ := bind_eq_ok.mp hread
        obtain rfl : a :: tail = as := Except.ok.inj hread
        obtain ⟨hva, hbytes⟩ := (h.ok_iff _ _ _).mp hitem
        obtain ⟨hrest, hlisted⟩ := (ih (hshort a rest hbytes) _ _).mp hloop
        refine ⟨?_, listed_cons.mpr ⟨hva, (hcheck _ _).mp hkey, hlisted⟩⟩
        rw [List.flatMap_cons, ← hrest]
        exact hbytes
      · rintro ⟨hbytes, hlisted⟩
        cases as with
        | nil => exact absurd hbytes hnil
        | cons a as =>
          obtain ⟨hva, hp, htail⟩ := listed_cons.mp hlisted
          rw [List.flatMap_cons] at hbytes
          refine bind_eq_ok.mpr ⟨(a, as.flatMap encode), (h.ok_iff _ _ _).mpr ⟨hva, hbytes⟩, ?_⟩
          refine bind_eq_ok.mpr ⟨(), (hcheck _ _).mpr hp, ?_⟩
          exact bind_eq_ok.mpr ⟨as, (ih (hshort a _ hbytes) _ _).mpr ⟨rfl, htail⟩, rfl⟩

omit [LinearOrder κ] in
theorem readAll_refused (h : Exact read encode valid refusal)
    (hcheck : ∀ prev k err, check prev k = .error err → refusal err) {prev : Option κ} {err : ε}
    (herr : readAll read key check fuel prev bytes = .error err) : refusal err := by
  induction fuel generalizing bytes prev with
  | zero => cases herr
  | succ fuel ih =>
    simp only [readAll] at herr
    split_ifs at herr with hnil
    rcases bind_eq_error.mp herr with hread | ⟨⟨a, rest⟩, _, herr⟩
    · exact h.refused _ _ hread
    · rcases bind_eq_error.mp herr with hkey | ⟨u, _, herr⟩
      · exact hcheck _ _ _ hkey
      · rcases bind_eq_error.mp herr with hloop | ⟨_, _, hok⟩
        · exact ih hloop
        · cases hok

end ReadAll

/-! ## A counted number of items -/

/-- Exactly `n` items. -/
def readMany (read : Reader ε α) : ℕ → Reader ε (List α)
  | 0, rest => .ok ([], rest)
  | n + 1, rest => do
    let (a, rest) ← read rest
    let (as, rest) ← readMany read n rest
    return (a :: as, rest)

theorem readMany_exact {read : Reader ε α} {encode : α → Bytes} {valid : α → Prop} {refusal : ε → Prop}
    (h : Exact read encode valid refusal) (n : ℕ) :
    Exact (readMany read n) (fun as => as.flatMap encode) (fun as => as.length = n ∧ ∀ a ∈ as, valid a) refusal := by
  induction n with
  | zero =>
    refine ⟨fun bytes as rest => ?_, fun bytes err herr => by cases herr⟩
    simp only [readMany, Except.ok.injEq, Prod.mk.injEq]
    constructor
    · rintro ⟨rfl, rfl⟩
      simp
    · rintro ⟨⟨hlen, _⟩, hbytes⟩
      obtain rfl := List.eq_nil_of_length_eq_zero hlen
      exact ⟨rfl, hbytes⟩
  | succ n ih =>
    refine ⟨fun bytes as rest => ?_, fun bytes err herr => ?_⟩
    · constructor
      · intro hread
        obtain ⟨⟨a, rest₁⟩, hitem, hread⟩ := bind_eq_ok.mp hread
        obtain ⟨⟨tail, rest₂⟩, htail, hread⟩ := bind_eq_ok.mp hread
        obtain ⟨rfl, rfl⟩ := Prod.mk.inj (Except.ok.inj hread)
        obtain ⟨ha, rfl⟩ := (h.ok_iff _ _ _).mp hitem
        obtain ⟨⟨hlen, hall⟩, hrest⟩ := (ih.ok_iff _ _ _).mp htail
        have hrest : rest₁ = tail.flatMap encode ++ rest₂ := hrest
        refine ⟨⟨by simp [hlen], fun x hx => ?_⟩, by rw [hrest, List.flatMap_cons, List.append_assoc]⟩
        rcases List.mem_cons.mp hx with rfl | hx
        · exact ha
        · exact hall x hx
      · rintro ⟨⟨hlen, hall⟩, rfl⟩
        cases as with
        | nil => simp at hlen
        | cons a as =>
          have hlen' : as.length = n := by simpa using hlen
          refine bind_eq_ok.mpr ⟨(a, as.flatMap encode ++ rest), ?_, ?_⟩
          · exact (h.ok_iff _ _ _).mpr ⟨hall a (by simp), by rw [List.flatMap_cons, List.append_assoc]⟩
          · refine bind_eq_ok.mpr ⟨(as, rest), ?_, rfl⟩
            exact (ih.ok_iff _ _ _).mpr ⟨⟨hlen', fun x hx => hall x (by simp [hx])⟩, rfl⟩
    · rcases bind_eq_error.mp herr with hread | ⟨⟨a, rest⟩, _, herr⟩
      · exact h.refused _ _ hread
      · rcases bind_eq_error.mp herr with htail | ⟨_, _, hok⟩
        · exact ih.refused _ _ htail
        · cases hok

end LsmDb.Lib
