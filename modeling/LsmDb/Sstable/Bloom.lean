import LsmDb.Core.Wire
import LsmDb.Core.Deps

/-! Per-run bloom filters (`bloom.rs`). With the `bloom` feature off a builder holds no filter and
`finish` returns none, so one definition with the feature as a flag covers both builds. -/
namespace LsmDb
open Lib
set_option autoImplicit false

variable [Deps]

/-- `"LSMBLM01"`. -/
def SIDECAR_MAGIC : Bytes := [76, 83, 77, 66, 76, 77, 48, 49]

structure RunFilter where
  filter : Deps.BloomFilter

structure RunFilterBuilder where
  filter : Option Deps.BloomFilter

/-- A zero-key run gets no filter, and neither does one the library refuses to size. -/
def builder (bloom : Bool) (capacity : ℕ) : RunFilterBuilder :=
  ⟨if bloom then (if capacity = 0 then none else Deps.bloomNew capacity) else none⟩

def RunFilterBuilder.add (b : RunFilterBuilder) (key : Bytes) : RunFilterBuilder :=
  ⟨b.filter.map fun f => Deps.bloomInsert f key⟩

def RunFilterBuilder.addAll (b : RunFilterBuilder) (keys : List Bytes) : RunFilterBuilder :=
  keys.foldl RunFilterBuilder.add b

def RunFilterBuilder.finish (b : RunFilterBuilder) : Option RunFilter := b.filter.map RunFilter.mk

namespace RunFilter

def mightContain (f : RunFilter) (key : Bytes) : Bool := Deps.bloomContains f.filter key

/-- The sidecar envelope: magic, checksum of the payload, payload. -/
def sidecarBytes (f : RunFilter) : Except Error Bytes :=
  match Deps.toAllocvec f.filter with
  | some payload => .ok (SIDECAR_MAGIC ++ encodeU32 (crc32c payload) ++ payload)
  | none => .error (.corruption "failed to encode bloom sidecar")

/-- The filter only if magic and checksum both match. -/
def decode (bytes : Bytes) : Option RunFilter :=
  if bytes.length < 12 ∨ bytes.take 8 ≠ SIDECAR_MAGIC then none
  else
    let payload := bytes.drop 12
    if crc32c payload ≠ leValue ((bytes.drop 8).take 4) then none
    else (Deps.fromBytes payload).map RunFilter.mk

end RunFilter

/-- `SsTable::might_contain`: without a filter the run is consulted. -/
def mightContain (filter : Option RunFilter) (key : Bytes) : Bool :=
  match filter with
  | some f => f.mightContain key
  | none => true

/-! ## No false negatives -/

/-- The filter passes every key of the run. -/
def Covers (filter : Option RunFilter) (es : List Entry) : Prop :=
  ∀ e ∈ es, mightContain filter e.1 = true

theorem covers_none (es : List Entry) : Covers none es := fun _ _ => rfl

theorem covers_addAll (laws : BloomLaws) (b : RunFilterBuilder) (keys : List Bytes) {k : Bytes}
    (h : k ∈ keys ∨ mightContain b.finish k = true) : mightContain (b.addAll keys).finish k = true := by
  induction keys generalizing b with
  | nil =>
    rcases h with h | h
    · simp at h
    · exact h
  | cons x keys ih =>
    refine ih (b.add x) ?_
    rcases h with h | h
    · rcases List.mem_cons.mp h with rfl | h
      · right
        cases hb : b.filter with
        | none => simp [RunFilterBuilder.finish, RunFilterBuilder.add, hb, mightContain]
        | some f =>
          simpa [RunFilterBuilder.finish, RunFilterBuilder.add, hb, mightContain,
            RunFilter.mightContain] using laws.contains_insert_self f k
      · exact Or.inl h
    · right
      cases hb : b.filter with
      | none => simp [RunFilterBuilder.finish, RunFilterBuilder.add, hb, mightContain]
      | some f =>
        have hf : Deps.bloomContains f k = true := by
          simpa [RunFilterBuilder.finish, hb, mightContain, RunFilter.mightContain] using h
        simpa [RunFilterBuilder.finish, RunFilterBuilder.add, hb, mightContain,
          RunFilter.mightContain] using laws.contains_insert f x k hf

/-- A filter built while a run is written covers the run. -/
theorem covers_build (laws : BloomLaws) (bloom : Bool) (capacity : ℕ) (es : List Entry) :
    Covers ((builder bloom capacity).addAll (es.map Prod.fst)).finish es := by
  intro e he
  exact covers_addAll laws _ _ (Or.inl (List.mem_map_of_mem he))

theorem sidecarBytes_ok {f : RunFilter} {b : Bytes} (h : f.sidecarBytes = .ok b) :
    ∃ payload, Deps.toAllocvec f.filter = some payload ∧
      b = SIDECAR_MAGIC ++ encodeU32 (crc32c payload) ++ payload := by
  unfold RunFilter.sidecarBytes at h
  cases hp : Deps.toAllocvec f.filter with
  | none => simp [hp] at h
  | some payload => exact ⟨payload, rfl, by simpa [hp] using h.symm⟩

/-- A sidecar that was written reads back as a filter with the same answers. -/
theorem decode_sidecarBytes (laws : BloomLaws) {f : RunFilter} {b : Bytes}
    (h : f.sidecarBytes = .ok b) :
    ∃ g, RunFilter.decode b = some g ∧ ∀ k, g.mightContain k = f.mightContain k := by
  obtain ⟨payload, hp, rfl⟩ := sidecarBytes_ok h
  obtain ⟨g, hg, hsame⟩ := laws.fromBytes_toAllocvec f.filter payload hp
  have hlen : (SIDECAR_MAGIC ++ encodeU32 (crc32c payload)).length = 12 := by
    rw [List.length_append, encodeU32_length]
    rfl
  have hmagic : (SIDECAR_MAGIC ++ encodeU32 (crc32c payload) ++ payload).take 8 = SIDECAR_MAGIC := by
    rw [List.append_assoc]
    exact List.take_left' rfl
  have hcrc : (((SIDECAR_MAGIC ++ encodeU32 (crc32c payload) ++ payload).drop 8).take 4) =
      encodeU32 (crc32c payload) := by
    rw [List.append_assoc]
    have hd : (SIDECAR_MAGIC ++ (encodeU32 (crc32c payload) ++ payload)).drop 8 =
        encodeU32 (crc32c payload) ++ payload := List.drop_left' rfl
    rw [hd]
    exact List.take_left' (encodeU32_length _)
  have hrest : (SIDECAR_MAGIC ++ encodeU32 (crc32c payload) ++ payload).drop 12 = payload :=
    List.drop_left' hlen
  have hv := leValue_encodeU32 (crc32c_lt payload)
  have hge : ¬ (SIDECAR_MAGIC ++ encodeU32 (crc32c payload) ++ payload).length < 12 := by
    rw [List.length_append, hlen]
    omega
  refine ⟨⟨g⟩, ?_, hsame⟩
  simp only [RunFilter.decode, hge, hmagic, hcrc, hrest, hv, hg, ne_eq, not_true_eq_false, or_self,
    ↓reduceIte, Option.map_some]

end LsmDb
