import Codex.Foundation.Lowercase
import Codex.Foundation.Search
import Mathlib.Data.List.Destutter
import Mathlib.Data.List.Flatten
import Mathlib.Data.List.Sort

/-!
# Fuzzy matching

A needle is searched as a subsequence of letters in lower case.
-/

namespace Codex.FuzzyMatch

open List CaseTable

variable (table : CaseTable)

def i32Max : Int := 2147483647

def asI32 (value : Int) : Int := value.bmod 4294967296

def loweredChars (haystack : Text) : List (Char × Nat) :=
  haystack.zipIdx.flatMap fun entry => (table.lower entry.1).map fun lc => (lc, entry.2)

def firstLowerPos (lowered : List (Char × Nat)) (resultOrigIndices : List Nat) : Nat :=
  match resultOrigIndices.head? with
  | none => 0
  | some targetOrig => (lowered.findIdx? fun entry => entry.2 == targetOrig).getD 0

def scoreOf (first last loweredNeedleLen : Nat) : Int :=
  let window := asI32 (asI32 last - asI32 first + 1 - asI32 loweredNeedleLen)
  let score := max window 0
  if first = 0 then score - 100 else score

/-- Each hit has its lowered letter and the positions of the letter and of the lowered one. -/
def resultOf (lowered : List (Char × Nat)) (loweredNeedleLen : Nat)
    (hits : List ((Char × Nat) × Nat)) : List Nat × Int :=
  let resultOrigIndices := hits.map fun hit => hit.1.2
  let first := firstLowerPos lowered resultOrigIndices
  let last := (hits.getLast?.map Prod.snd).getD first
  ((resultOrigIndices.insertionSort (· ≤ ·)).destutter (· ≠ ·), scoreOf first last loweredNeedleLen)

def fuzzyMatch (haystack needle : Text) : Option (List Nat × Int) :=
  if needle.isEmpty then some ([], i32Max)
  else
    let lowered := loweredChars table haystack
    let loweredNeedle := table.toLowercase needle
    (Subsequence.greedy (fun hit => hit.1.1) loweredNeedle lowered.zipIdx).map
      (resultOf lowered loweredNeedle.length)

variable {table} {haystack needle : Text}

theorem map_fst_loweredChars (haystack : Text) :
    (loweredChars table haystack).map Prod.fst = haystack.flatMap table.lower := by
  have letters : haystack.zipIdx.map Prod.fst = haystack := zipIdx_map_fst 0 haystack
  have lowered (ent : Char × Nat) :
      ((table.lower ent.1).map fun lc => (lc, ent.2)).map Prod.fst = table.lower ent.1 := by
    rw [map_map]
    exact map_id _
  simp only [loweredChars, map_flatMap, lowered]
  conv_rhs => rw [← letters, flatMap_map]

theorem snd_lt_of_mem_loweredChars {ent : Char × Nat}
    (mem : ent ∈ loweredChars table haystack) : ent.2 < haystack.length := by
  obtain ⟨letter, place, lowered⟩ := mem_flatMap.mp mem
  obtain ⟨lc, _, rfl⟩ := List.mem_map.mp lowered
  have bounds := snd_lt_of_mem_zipIdx place
  simpa using bounds

theorem isSome_fuzzyMatch : (fuzzyMatch table haystack needle).isSome = true ↔
      (table.toLowercase needle).Sublist (haystack.flatMap table.lower) := by
  cases needle with
  | nil => simp [fuzzyMatch, toLowercase, lowerFrom]
  | cons c tl =>
    have letters : (loweredChars table haystack).zipIdx.map (fun hit => hit.1.1) =
        haystack.flatMap table.lower := by
      rw [← map_fst_loweredChars]
      conv_rhs => rw [← zipIdx_map_fst 0 (loweredChars table haystack), map_map]
      rfl
    simp only [fuzzyMatch, isEmpty_cons, Bool.false_eq_true, if_false]
    rw [Option.isSome_map, Subsequence.isSome_greedy, letters]

theorem pairwise_sort_destutter (idxs : List Nat) :
    ((idxs.insertionSort (· ≤ ·)).destutter (· ≠ ·)).Pairwise (· < ·) := by
  have sorted := (pairwise_insertionSort (· ≤ ·) idxs).sublist
    (destutter_sublist (· ≠ ·) _)
  have apart := isChain_destutter (· ≠ ·) (idxs.insertionSort (· ≤ ·))
  rw [← isChain_iff_pairwise, isChain_iff_getElem]
  intro place ins
  exact lt_of_le_of_ne (isChain_iff_getElem.mp sorted.isChain place ins)
    (isChain_iff_getElem.mp apart place ins)

theorem mem_of_mem_sort_destutter {indices : List Nat} {idx : Nat}
    (mem : idx ∈ (indices.insertionSort (· ≤ ·)).destutter (· ≠ ·)) : idx ∈ indices :=
  (mem_insertionSort (· ≤ ·)).mp ((destutter_sublist (· ≠ ·) _).subset mem)

theorem indices_of_fuzzyMatch {idxs : List Nat} {score : Int}
    (found : fuzzyMatch table haystack needle = some (idxs, score)) :
    idxs.Pairwise (· < ·) ∧ ∀ idx ∈ idxs, idx < haystack.length := by
  rw [fuzzyMatch] at found
  split_ifs at found
  · cases found
    simp
  obtain ⟨hits, greedy, res⟩ := Option.map_eq_some_iff.mp found
  cases res
  refine ⟨pairwise_sort_destutter _, ?_⟩
  intro idx mem
  obtain ⟨hit, isHit, rfl⟩ := List.mem_map.mp (mem_of_mem_sort_destutter mem)
  have place := (Subsequence.greedy_sublist greedy).subset isHit
  exact snd_lt_of_mem_loweredChars (fst_mem_of_mem_zipIdx place)

variable (table) in
/-- A subsequence is found, and the indices found increase and are in range. -/
def FindsSubsequence (haystack needle : Text) : Prop :=
  (needle.Sublist haystack → (fuzzyMatch table haystack needle).isSome = true) ∧
    ∀ indices score, fuzzyMatch table haystack needle = some (indices, score) →
      indices.Pairwise (· < ·) ∧ ∀ idx ∈ indices, idx < haystack.length

theorem findsSubsequence_iff_isSome : FindsSubsequence table haystack needle ↔
      (needle.Sublist haystack →
        (table.toLowercase needle).Sublist (haystack.flatMap table.lower)) := by
  rw [FindsSubsequence, isSome_fuzzyMatch]
  exact and_iff_left fun _ _ hit => indices_of_fuzzyMatch hit

theorem findsSubsequence_self_iff (lawful : table.Lawful) :
    FindsSubsequence table needle needle ↔ ¬ table.HasFinalSigma needle := by
  rw [findsSubsequence_iff_isSome, HasFinalSigma, ← lowerFrom_eq_flatMap_iff lawful]
  constructor
  · intro finds
    exact (finds (List.Sublist.refl needle)).eq_of_length (length_lowerFrom lawful)
  intro eq _
  rw [toLowercase, eq]

/-- A needle without a final sigma is found wherever it is a subsequence. -/
theorem fuzzyMatch_findsSubsequence_iff (lawful : table.Lawful) (needle : Text) :
    ((∀ haystack, FindsSubsequence table haystack needle) ↔ ¬ table.HasFinalSigma needle) ∧
      ∀ haystack, FindsSubsequence table haystack needle ↔ (needle.Sublist haystack →
          ((table.markFrom [] needle).flatMap table.lower).Sublist
            (haystack.flatMap table.lower)) := by
  refine ⟨⟨fun finds => (findsSubsequence_self_iff lawful).mp (finds needle), ?_⟩, ?_⟩
  · intro unmarked haystack
    rw [findsSubsequence_iff_isSome, toLowercase, (lowerFrom_eq_flatMap_iff lawful).mpr unmarked]
    exact fun subsequence => subsequence.flatMap table.lower
  intro haystack
  rw [findsSubsequence_iff_isSome, toLowercase, lowerFrom_eq_flatMap_markFrom lawful]

def sampleTable : CaseTable where
  lower c :=
    if c = 'Α' then ['α'] else if c = 'Σ' then ['σ'] else if c = 'İ' then ['i', '\u0307']
    else [c.toLower]
  caseIgnorable c := c = '.' ∨ c = '\u0307'
  cased c := c.isAlpha ∨ c ∈ ['Α', 'α', 'Σ', 'σ', 'ς', 'İ']

theorem sampleTable_lawful : sampleTable.Lawful where
  lower_sigma := by decide
  lower_finalSigma := by decide

theorem fuzzyMatch_findsSubsequence_iff_sample :
    sampleTable.Lawful ∧ ∀ haystack, FindsSubsequence sampleTable haystack "İΣΑ" :=
  ⟨sampleTable_lawful, (fuzzyMatch_findsSubsequence_iff sampleTable_lawful _).1.mpr
    ((lowerFrom_eq_flatMap_iff sampleTable_lawful).mp (by decide))⟩

/-- A word that ends in a capital sigma is not found in itself. -/
theorem fuzzyMatch_misses_finalSigma : ¬ FindsSubsequence sampleTable "ΑΣ" "ΑΣ" := by
  intro finds
  have missed : fuzzyMatch sampleTable "ΑΣ" "ΑΣ" = none := by decide
  have hit := finds.1 (List.Sublist.refl _)
  rw [missed] at hit
  cases hit

end Codex.FuzzyMatch
