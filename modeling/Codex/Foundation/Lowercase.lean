import Codex.Foundation.Text

/-!
# Lower case

The ASCII lower case, and the final sigma at the end of a word.
-/

namespace Codex.Text

open List

def toAsciiLowercase (text : Text) : Text := text.map Char.toLower

theorem toNat_toLower (c : Char) :
    c.toLower.toNat = if 65 ≤ c.toNat ∧ c.toNat ≤ 90 then c.toNat + 32 else c.toNat := by
  have bounds : (c.val ≥ 'A'.val ∧ c.val ≤ 'Z'.val) ↔ 65 ≤ c.toNat ∧ c.toNat ≤ 90 := Iff.rfl
  by_cases upper : 65 ≤ c.toNat ∧ c.toNat ≤ 90
  · have lowered : c.toLower = _ := dif_pos (bounds.mpr upper)
    rw [lowered, if_pos upper]
    have shifted : (c.val + ('a'.val - 'A'.val)).toNat = (c.toNat + 32) % 2 ^ 32 := by
      rw [UInt32.toNat_add]
      rfl
    exact shifted.trans (Nat.mod_eq_of_lt (by omega))
  have kept : c.toLower = c := dif_neg fun letter => upper (bounds.mp letter)
  rw [kept, if_neg upper]

theorem toNat_toUpper (c : Char) :
    c.toUpper.toNat = if 97 ≤ c.toNat ∧ c.toNat ≤ 122 then c.toNat - 32 else c.toNat := by
  have bounds : (c.val ≥ 'a'.val ∧ c.val ≤ 'z'.val) ↔ 97 ≤ c.toNat ∧ c.toNat ≤ 122 := Iff.rfl
  by_cases lower : 97 ≤ c.toNat ∧ c.toNat ≤ 122
  · have raised : c.toUpper = _ := dif_pos (bounds.mpr lower)
    rw [raised, if_pos lower]
    have shifted : (c.val + ('A'.val - 'a'.val)).toNat =
        (c.toNat + ('A'.val - 'a'.val).toNat) % 2 ^ 32 := UInt32.toNat_add _ _
    have distance : ('A'.val - 'a'.val).toNat = 2 ^ 32 - 32 := rfl
    rw [distance] at shifted
    exact shifted.trans (by omega)
  have kept : c.toUpper = c := dif_neg fun letter => lower (bounds.mp letter)
  rw [kept, if_neg lower]

theorem toLower_toLower (c : Char) : c.toLower.toLower = c.toLower := by
  apply Char.toNat_inj.mp
  rw [toNat_toLower c.toLower, toNat_toLower c]
  split_ifs <;> omega

theorem toUpper_toUpper (c : Char) : c.toUpper.toUpper = c.toUpper := by
  apply Char.toNat_inj.mp
  rw [toNat_toUpper c.toUpper, toNat_toUpper c]
  split_ifs <;> omega

theorem isAlpha_iff (c : Char) :
    c.isAlpha = true ↔ 65 ≤ c.toNat ∧ c.toNat ≤ 90 ∨ 97 ≤ c.toNat ∧ c.toNat ≤ 122 := by
  have upper : c.isUpper = true ↔ 65 ≤ c.toNat ∧ c.toNat ≤ 90 := decide_eq_true_iff
  have lower : c.isLower = true ↔ 97 ≤ c.toNat ∧ c.toNat ≤ 122 :=
    Bool.and_eq_true_iff.trans (and_congr decide_eq_true_iff decide_eq_true_iff)
  exact Bool.or_eq_true_iff.trans (or_congr upper lower)

theorem isAlpha_toUpper (c : Char) : c.toUpper.isAlpha = c.isAlpha := by
  rw [Bool.eq_iff_iff, isAlpha_iff, isAlpha_iff, toNat_toUpper]
  split_ifs <;> omega

@[simp]
theorem toAsciiLowercase_toAsciiLowercase (text : Text) :
    toAsciiLowercase (toAsciiLowercase text) = toAsciiLowercase text := by
  rw [toAsciiLowercase, toAsciiLowercase, map_map]
  exact map_congr_left fun c _ => toLower_toLower c

@[simp]
theorem isWhitespace_toLower (c : Char) : isWhitespace c.toLower = isWhitespace c := by
  simp only [isWhitespace, toNat_toLower]
  split
  · rename_i upper
    rw [Bool.eq_iff_iff]
    simp only [Bool.or_eq_true, Bool.and_eq_true, decide_eq_true_eq, beq_iff_eq]
    omega
  · rfl

def Caseless (d : Char) : Prop := ∀ c : Char, c.toLower = d ↔ c = d

theorem caseless_of_toNat {d : Char}
    (out : d.toNat < 65 ∨ 90 < d.toNat ∧ d.toNat < 97 ∨ 122 < d.toNat) : Caseless d := by
  intro c
  rw [← Char.toNat_inj, ← Char.toNat_inj, toNat_toLower]
  split <;> omega

section

variable {text : Text}

theorem trim_toAsciiLowercase : trim (toAsciiLowercase text) = toAsciiLowercase (trim text) := by
  have eq : isWhitespace ∘ Char.toLower = isWhitespace := funext isWhitespace_toLower
  simp only [trim, trimEnd, trimStart, toAsciiLowercase, List.rdropWhile, dropWhile_map, eq,
    ← map_reverse]

theorem toAsciiLowercase_eq_iff {other : Text} (caseless : ∀ d ∈ other, Caseless d) :
    toAsciiLowercase text = other ↔ text = other := by
  induction text generalizing other with
  | nil => rfl
  | cons c text ih =>
    cases other with
    | nil => simp [toAsciiLowercase]
    | cons d other =>
      have tl := @ih other fun e mem => caseless e (by simp [mem])
      simp only [toAsciiLowercase] at tl
      simp [toAsciiLowercase, tl, caseless d (by simp) c]

theorem dropPrefix?_toAsciiLowercase {marker : Text} (caseless : ∀ d ∈ marker, Caseless d) :
    (toAsciiLowercase text).dropPrefix? marker =
      (text.dropPrefix? marker).map toAsciiLowercase := by
  induction marker generalizing text with
  | nil => simp
  | cons d marker ih =>
    cases text with
    | nil => rfl
    | cons c text =>
      have tl := @ih text fun e mem => caseless e (by simp [mem])
      have head : (c.toLower == d) = (c == d) := by
        rw [Bool.eq_iff_iff, beq_iff_eq, beq_iff_eq]
        exact caseless d (by simp) c
      simp only [toAsciiLowercase] at tl
      simp only [toAsciiLowercase, map_cons, List.dropPrefix?, head]
      split
      · exact tl
      · rfl

variable {d : Char} (caseless : Caseless d)
include caseless

theorem mem_toAsciiLowercase : d ∈ toAsciiLowercase text ↔ d ∈ text := by
  simp only [toAsciiLowercase, mem_map]
  constructor
  · rintro ⟨c, mem, lower⟩
    exact (caseless c).mp lower ▸ mem
  intro mem
  exact ⟨d, mem, (caseless d).mpr rfl⟩

theorem head?_toAsciiLowercase_eq_iff :
    (toAsciiLowercase text).head? = some d ↔ text.head? = some d := by
  cases text with
  | nil => rfl
  | cons c text => simp [toAsciiLowercase, caseless c]

theorem count_toAsciiLowercase : (toAsciiLowercase text).count d = text.count d := by
  rw [toAsciiLowercase, List.count, countP_map]
  refine countP_congr fun c _ => ?_
  simp [caseless c]

theorem takeWhile_ne_toAsciiLowercase :
    (toAsciiLowercase text).takeWhile (· ≠ d) = toAsciiLowercase (text.takeWhile (· ≠ d)) := by
  have eq : (fun c : Char => decide (c ≠ d)) ∘ Char.toLower = fun c => decide (c ≠ d) := by
    funext c
    simp [caseless c]
  rw [toAsciiLowercase, takeWhile_map, eq]
  rfl

end

end Codex.Text

namespace Codex

open List

structure CaseTable where
  lower : Char → Text
  caseIgnorable : Char → Bool
  cased : Char → Bool

namespace CaseTable

structure Lawful (tab : CaseTable) : Prop where
  lower_sigma : tab.lower 'Σ' = ['σ']
  lower_finalSigma : tab.lower 'ς' = ['ς']

variable (tab : CaseTable)

def caseIgnorableThenCased (chars : Text) : Bool :=
  (chars.dropWhile tab.caseIgnorable).head?.any tab.cased

def endsWord (pre after : Text) : Bool :=
  tab.caseIgnorableThenCased pre && !tab.caseIgnorableThenCased after

def mapUppercaseSigma (pre after : Text) : Char :=
  if tab.endsWord pre after then 'ς' else 'σ'

def lowerFrom (pre : Text) : Text → Text
  | [] => []
  | c :: after =>
    (if c = 'Σ' then [tab.mapUppercaseSigma pre after] else tab.lower c) ++
      lowerFrom (c :: pre) after

def toLowercase (text : Text) : Text := tab.lowerFrom [] text

def markFrom (pre : Text) : Text → Text
  | [] => []
  | c :: after =>
    (if c = 'Σ' ∧ tab.endsWord pre after then 'ς' else c) :: markFrom (c :: pre) after

def HasFinalSigmaFrom (pre text : Text) : Prop :=
  ∃ front after, text = front ++ 'Σ' :: after ∧ tab.endsWord (front.reverse ++ pre) after

def HasFinalSigma (text : Text) : Prop := tab.HasFinalSigmaFrom [] text

variable {tab} {pre text : Text}

theorem hasFinalSigmaFrom_cons (c : Char) (after : Text) :
    tab.HasFinalSigmaFrom pre (c :: after) ↔ (c = 'Σ' ∧ tab.endsWord pre after = true) ∨
        tab.HasFinalSigmaFrom (c :: pre) after := by
  constructor
  · rintro ⟨front, past, split, ends⟩
    rcases cons_eq_append_iff.mp split with ⟨rfl, eq⟩ | ⟨front', rfl, eq⟩
    · obtain ⟨rfl, rfl⟩ := List.cons.inj eq
      exact .inl ⟨rfl, ends⟩
    rw [reverse_cons, append_assoc] at ends
    exact .inr ⟨front', past, eq, ends⟩
  rintro (⟨rfl, ends⟩ | ⟨front, past, rfl, ends⟩)
  · exact ⟨[], after, rfl, ends⟩
  refine ⟨c :: front, past, rfl, ?_⟩
  rwa [reverse_cons, append_assoc]

theorem lowerFrom_eq_flatMap_markFrom (lawful : tab.Lawful) :
    tab.lowerFrom pre text = (tab.markFrom pre text).flatMap tab.lower := by
  induction text generalizing pre with
  | nil => rfl
  | cons c after ih =>
    rw [lowerFrom, markFrom, flatMap_cons, ih, mapUppercaseSigma]
    congr 1
    rcases eq_or_ne c 'Σ' with rfl | other
    · cases tab.endsWord pre after
      · simp [lawful.lower_sigma]
      · simp [lawful.lower_finalSigma]
    · simp [other]

theorem length_lowerFrom (lawful : tab.Lawful) :
    (tab.lowerFrom pre text).length = (text.flatMap tab.lower).length := by
  induction text generalizing pre with
  | nil => rfl
  | cons c after ih =>
    rw [lowerFrom, flatMap_cons, length_append, length_append, ih]
    split_ifs with sigma
    · rw [sigma, lawful.lower_sigma]
      rfl
    · rfl

theorem lowerFrom_eq_flatMap_iff (lawful : tab.Lawful) :
    tab.lowerFrom pre text = text.flatMap tab.lower ↔ ¬ tab.HasFinalSigmaFrom pre text := by
  induction text generalizing pre with
  | nil => simp [lowerFrom, HasFinalSigmaFrom]
  | cons c after ih =>
    rw [lowerFrom, flatMap_cons, hasFinalSigmaFrom_cons, not_or, ← ih]
    split_ifs with sigma
    · subst sigma
      rw [lawful.lower_sigma, singleton_append, singleton_append, List.cons.injEq]
      simp [mapUppercaseSigma]
    · simp [sigma]

end CaseTable
end Codex
