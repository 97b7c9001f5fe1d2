import Haute.Inference.Schema
import Haute.Inference.Walk

/-!
# Inference in chunks

A file that is inferred in ranges gives each range a state of its own and merges the states
from left to right. `walkChunks_eq` says that this is the state a single walk of all the
records ends in, whatever the cuts: the same columns in the same order, the same types, the
same arrays, and where a record is refused the same error. The schema is assembled from the
state, so it is the same one.
-/

namespace Haute

namespace InferenceState

/-- The root level has been seen: every state is created with it. -/
def Started (s : InferenceState) : Prop := [] ∈ s.levels.keys

theorem keysChecked_new : new.KeysChecked := fun _ h => absurd h (Finset.notMem_empty _)

theorem started_new : new.Started := List.mem_singleton_self _

/-- A range without records has nothing to add. -/
theorem merge_new {s : InferenceState} (hs : s.Started) : s.merge new = s := by
  obtain ⟨cols, hcols⟩ := OrdDict.mem_keys_iff.mp hs
  have hlevels : s.levels.mergeWith mergeColumns (OrdDict.empty.insert [] .empty) = s.levels :=
    OrdDict.upsert_eq_self hcols rfl
  simp [merge, new, hlevels]

theorem Started.merge {s : InferenceState} (hs : s.Started) (t : InferenceState) :
    (s.merge t).Started :=
  OrdDict.mem_keys_mergeWith.mpr (.inl hs)

theorem KeysChecked.merge {s t : InferenceState} (hs : s.KeysChecked) (ht : t.KeysChecked) :
    (s.merge t).KeysChecked := fun key hkey =>
  (Finset.mem_union.mp hkey).elim (hs key) (ht key)

end InferenceState

/-! ### Chunks -/

theorem walkRecords_append (first rest : List Record) (s : InferenceState) :
    walkRecords (first ++ rest) s = walkRecords first s >>= walkRecords rest := List.foldlM_append

/-- A range walked with a state of its own and merged is the range walked on. -/
theorem walkRecords_eq_merge {s : InferenceState} (hstarted : s.Started) (hchecked : s.KeysChecked)
    (records : List Record) : walkRecords records s = (walkRecords records .new).map s.merge := by
  have h := walkRecords_merge hchecked records .new
  rwa [InferenceState.merge_new hstarted] at h

/-- A walk from a fresh state has seen the root. -/
theorem started_of_walkRecords {records : List Record} {s : InferenceState}
    (h : walkRecords records .new = .ok s) : s.Started := by
  have hself :=
    walkRecords_eq_merge InferenceState.started_new InferenceState.keysChecked_new records
  rw [h] at hself
  have hmerge : s = InferenceState.new.merge s := Except.ok.inj hself
  rw [hmerge]
  exact InferenceState.started_new.merge s

private theorem foldlM_merge (rest : List (List Record)) {merged : InferenceState}
    (hstarted : merged.Started) (hchecked : merged.KeysChecked) :
    rest.foldlM (fun merged chunk => do
      let s ← walkRecords chunk .new
      .ok (merged.merge s)) merged = walkRecords rest.flatten merged := by
  induction rest generalizing merged with
  | nil => rfl
  | cons chunk rest ih =>
    rw [List.foldlM_cons, List.flatten_cons, walkRecords_append,
      walkRecords_eq_merge hstarted hchecked]
    cases hchunk : walkRecords chunk .new with
    | error e => rfl
    | ok s =>
      have hs : s.KeysChecked := walkRecords_keysChecked InferenceState.keysChecked_new hchunk
      exact ih (hstarted.merge s) (hchecked.merge hs)

/-- **Chunks merge to one walk**: the state and the error are those of a single pass. -/
theorem walkChunks_eq (chunks : List (List Record)) :
    walkChunks chunks = walkRecords chunks.flatten .new := by
  cases chunks with
  | nil => rfl
  | cons first rest =>
    rw [walkChunks, List.flatten_cons, walkRecords_append]
    cases hfirst : walkRecords first .new with
    | error e => rfl
    | ok merged =>
      exact foldlM_merge rest (started_of_walkRecords hfirst)
        (walkRecords_keysChecked InferenceState.keysChecked_new hfirst)

/-- **Chunked inference is a homomorphism.** However the records are cut into chunks, the merged
state is assembled into the schema that one walk of all the records gives, and where a record is
refused both raise its error. The assembly folds the mixed arrays in as many passes as it takes. -/
theorem chunked_inference (chunks : List (List Record)) (passes : ℕ) :
    (walkChunks chunks).map (assembleInferenceSchema passes)
      = (walkRecords chunks.flatten .new).map (assembleInferenceSchema passes) := by
  rw [walkChunks_eq]

end Haute
