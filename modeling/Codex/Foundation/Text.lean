import Mathlib.Data.List.DropRight

/-!
# Text as lists of Unicode scalar values

Lists of characters evaluate in the kernel.
-/

namespace Codex

open List

abbrev Text := List Char

instance : Coe String Text := ⟨String.toList⟩

namespace Text

instance instLawfulBEq : LawfulBEq Text := List.instLawfulBEq


/-- The characters with the Unicode `White_Space` property. -/
def isWhitespace (c : Char) : Bool :=
  (9 ≤ c.toNat && c.toNat ≤ 13) || c.toNat == 0x20 || c.toNat == 0x85 || c.toNat == 0xA0 ||
    c.toNat == 0x1680 || (0x2000 ≤ c.toNat && c.toNat ≤ 0x200A) || c.toNat == 0x2028 ||
    c.toNat == 0x2029 || c.toNat == 0x202F || c.toNat == 0x205F || c.toNat == 0x3000

def trimStart (text : Text) : Text := text.dropWhile isWhitespace

def trimEnd (text : Text) : Text := text.rdropWhile isWhitespace

def trim (text : Text) : Text := trimEnd (trimStart text)

def Blank (text : Text) : Prop := ∀ c ∈ text, isWhitespace c = true

def stripCarriageReturn (line : Text) : Text :=
  if line.getLast? = some '\r' then line.dropLast else line

variable {c : Char} {tail head text line marker : Text}

theorem trimEnd_concat_whitespace (text : Text) (space : isWhitespace c = true) :
    trimEnd (text ++ [c]) = trimEnd text := by
  simp [trimEnd, rdropWhile_concat_pos _ _ _ space]

theorem trimEnd_append_blank (text : Text) (blank : Blank tail) :
    trimEnd (text ++ tail) = trimEnd text := by
  induction tail using reverseRecOn with
  | nil => simp
  | append_singleton tail c ih =>
    rw [← append_assoc, trimEnd_concat_whitespace _ (blank c (by simp))]
    exact ih fun d mem => blank d (by simp [mem])

theorem trimStart_append_blank (blank : Blank head) (text : Text) :
    trimStart (head ++ text) = trimStart text := by
  induction head with
  | nil => rfl
  | cons c head ih =>
    have space : isWhitespace c = true := blank c (by simp)
    simp only [trimStart, cons_append, dropWhile_cons, space, if_true]
    exact ih fun d mem => blank d (by simp [mem])

theorem trimEnd_prefix_trimEnd {fst second : Text} (lt : fst <+: second) :
    trimEnd fst <+: trimEnd second := by
  obtain ⟨tl, rfl⟩ := lt
  induction tl using reverseRecOn with
  | nil => simp
  | append_singleton tl ch ih =>
    rw [← append_assoc]
    cases space : isWhitespace ch with
    | true => rwa [trimEnd_concat_whitespace _ space]
    | false =>
      rw [trimEnd, trimEnd, rdropWhile_concat_neg _ _ _ (by simp [space])]
      exact ((List.rdropWhile_prefix _ _).trans (prefix_append _ _)).trans
        (prefix_append _ _)

theorem trimStart_append (text tail : Text) :
    trimStart (text ++ tail) = if trimStart text = [] then trimStart tail
      else trimStart text ++ tail := by
  by_cases empty : trimStart text = [] <;>
    simp_all [trimStart, dropWhile_append]

theorem trim_append_blank (text : Text) (blank : Blank tail) : trim (text ++ tail) = trim text := by
  rw [trim, trimStart_append]
  split
  · rename_i empty
    have vanishes : trimStart tail = [] := dropWhile_eq_nil_iff.mpr blank
    rw [vanishes, trim, empty]
  · exact trimEnd_append_blank _ blank

theorem trim_blank_append (blank : Blank head) (text : Text) : trim (head ++ text) = trim text := by
  rw [trim, trimStart_append_blank blank, trim]

theorem trimEnd_eq_nil_iff (text : Text) : trimEnd text = [] ↔ Blank text := by
  simp [trimEnd, Blank, rdropWhile_eq_nil_iff]

theorem trimStart_eq_nil_iff (text : Text) : trimStart text = [] ↔ Blank text := by
  simp [trimStart, Blank, dropWhile_eq_nil_iff]

theorem trim_eq_nil_of_blank (blank : Blank text) : trim text = [] := by
  rw [trim, (trimStart_eq_nil_iff text).mpr blank]
  rfl

theorem mem_of_mem_stripCarriageReturn (mem : c ∈ stripCarriageReturn line) : c ∈ line := by
  unfold stripCarriageReturn at mem
  split at mem
  · exact (dropLast_sublist line).mem mem
  · exact mem

theorem Blank.stripCarriageReturn (blank : Blank line) : Blank (stripCarriageReturn line) :=
  fun c mem => blank c (mem_of_mem_stripCarriageReturn mem)

theorem exists_trim (text : Text) :
    ∃ lead trail, Blank lead ∧ Blank trail ∧ text = lead ++ (trim text ++ trail) := by
  have leading : Blank (text.takeWhile isWhitespace) := fun c mem =>
    (mem_takeWhile_imp mem)
  have trailing : Blank ((trimStart text).rtakeWhile isWhitespace) := fun c mem =>
    mem_rtakeWhile_imp mem
  refine ⟨_, _, leading, trailing, ?_⟩
  rw [trim, trimEnd, rdropWhile_append_rtakeWhile, trimStart, takeWhile_append_dropWhile]

theorem isWhitespace_of_getLast?_trim {last : Char} (final : (trim text).getLast? = some last) :
    isWhitespace last = false := by
  have ne : trim text ≠ [] := fun empty => by simp [empty] at final
  rw [getLast?_eq_some_getLast ne] at final
  rw [← Option.some.inj final]
  exact Bool.eq_false_iff.mpr (rdropWhile_last_not isWhitespace (trimStart text) ne)

theorem stripCarriageReturn_cases (line : Text) :
    line.getLast? ≠ some '\r' ∧ stripCarriageReturn line = line ∨
      line = stripCarriageReturn line ++ ['\r'] := by
  by_cases final : line.getLast? = some '\r'
  · obtain ⟨front, rfl⟩ := getLast?_eq_some_iff.mp final
    simp [stripCarriageReturn]
  · exact Or.inl ⟨final, if_neg final⟩

theorem trim_stripCarriageReturn (line : Text) : trim (stripCarriageReturn line) = trim line := by
  have blank : Blank ['\r'] := by
    simp only [Blank, mem_singleton, forall_eq]
    decide
  rcases stripCarriageReturn_cases line with ⟨-, eq⟩ | ended
  · rw [eq]
  · conv_rhs => rw [ended, trim_append_blank _ blank]

theorem eq_append_of_dropPrefix? {rest : Text} (dropped : text.dropPrefix? marker = some rest) :
    text = marker ++ rest := by
  obtain ⟨front, rfl, eq⟩ := dropPrefix?_eq_some_iff.mp dropped
  rw [beq_iff_eq.mp eq]

theorem isPrefixOf_of_dropPrefix?_eq_none (dropped : text.dropPrefix? marker = none) :
    marker.isPrefixOf text = false := by
  rw [Bool.eq_false_iff]
  intro hit
  obtain ⟨rest, rfl⟩ := isPrefixOf_iff_prefix.mp hit
  have stripped : (marker ++ rest).dropPrefix? marker = some rest :=
    dropPrefix?_eq_some_iff.mpr ⟨marker, rfl, beq_self_eq_true marker⟩
  cases dropped.symm.trans stripped

/-- The terminated lines, after a buffered part of the first, and the remainder. -/
def splitLinesFrom (buffer : Text) : Text → List Text × Text
  | [] => ([], buffer)
  | c :: text =>
    if c = '\n' then
      (buffer :: (splitLinesFrom [] text).1, (splitLinesFrom [] text).2)
    else splitLinesFrom (buffer ++ [c]) text

def splitLines (text : Text) : List Text × Text := splitLinesFrom [] text

/-- A terminator is a line feed with at most one carriage return; an empty remainder is no line. -/
def lines (text : Text) : List Text :=
  (splitLines text).1.map stripCarriageReturn ++
    if (splitLines text).2 = [] then [] else [(splitLines text).2]

theorem splitLinesFrom_append (buf left right : Text) : splitLinesFrom buf (left ++ right) =
      ((splitLinesFrom buf left).1 ++ (splitLinesFrom (splitLinesFrom buf left).2 right).1,
        (splitLinesFrom (splitLinesFrom buf left).2 right).2) := by
  induction left generalizing buf with
  | nil => rfl
  | cons c left ih =>
    by_cases terminator : c = '\n'
    · simp [splitLinesFrom, terminator, ih []]
    · simp [splitLinesFrom, terminator, ih (buf ++ [c])]

theorem flatMap_splitLinesFrom (buf text : Text) :
    (splitLinesFrom buf text).1.flatMap (· ++ ['\n']) ++ (splitLinesFrom buf text).2 =
      buf ++ text := by
  induction text generalizing buf with
  | nil => simp [splitLinesFrom]
  | cons c text ih =>
    by_cases terminator : c = '\n'
    · simp [splitLinesFrom, terminator, ih []]
    · simp [splitLinesFrom, terminator, ih (buf ++ [c])]

theorem flatMap_splitLines (text : Text) :
    (splitLines text).1.flatMap (· ++ ['\n']) ++ (splitLines text).2 = text :=
  flatMap_splitLinesFrom [] text

theorem splitLinesFrom_of_notMem (buf : Text) (unbroken : '\n' ∉ line) :
    splitLinesFrom buf line = ([], buf ++ line) := by
  induction line generalizing buf with
  | nil => simp [splitLinesFrom]
  | cons c line ih =>
    have head : c ≠ '\n' := fun eq => unbroken (by simp [eq])
    have tail : '\n' ∉ line := fun mem => unbroken (by simp [mem])
    simp [splitLinesFrom, head, ih (buf ++ [c]) tail]

theorem splitLinesFrom_of_fst_eq_nil {buf : Text} (unbroken : (splitLinesFrom buf text).1 = []) :
    splitLinesFrom buf text = ([], buf ++ text) := by
  induction text generalizing buf with
  | nil => simp [splitLinesFrom]
  | cons c text ih =>
    by_cases terminator : c = '\n'
    · simp [splitLinesFrom, terminator] at unbroken
    simp only [splitLinesFrom, terminator, if_false] at unbroken ⊢
    rw [ih unbroken]
    simp

theorem splitLinesFrom_buffer (buf text : Text) : splitLinesFrom buf text =
      match splitLines text with
      | ([], last) => ([], buf ++ last)
      | (line :: done, last) => ((buf ++ line) :: done, last) := by
  induction text generalizing buf with
  | nil => simp [splitLines, splitLinesFrom]
  | cons c text ih =>
    by_cases terminator : c = '\n'
    · simp [splitLines, splitLinesFrom, terminator]
    simp only [splitLines, splitLinesFrom, terminator, if_false, nil_append]
    rw [ih (buf ++ [c]), ih [c]]
    cases split : splitLines text with
    | mk done last => cases done <;> simp

/-- A property of all characters but line feeds holds throughout the lines. -/
theorem forall_mem_splitLinesFrom {holds : Char → Prop} {buf text : Text}
    (buffered : ∀ c ∈ buf, holds c) (fed : ∀ c ∈ text, c ≠ '\n' → holds c) :
    (∀ line ∈ (splitLinesFrom buf text).1, ∀ c ∈ line, holds c) ∧
      ∀ c ∈ (splitLinesFrom buf text).2, holds c := by
  induction text generalizing buf with
  | nil => simpa [splitLinesFrom] using buffered
  | cons c text ih =>
    have later : ∀ d ∈ text, d ≠ '\n' → holds d := fun d mem => fed d (by simp [mem])
    by_cases terminator : c = '\n'
    · have tl := @ih [] (by simp) later
      simp only [splitLinesFrom, terminator, if_true, mem_cons, forall_eq_or_imp]
      exact ⟨⟨buffered, tl.1⟩, tl.2⟩
    have ext : ∀ d ∈ buf ++ [c], holds d := by
      intro d mem
      rcases mem_append.mp mem with earlier | new
      · exact buffered d earlier
      rw [mem_singleton.mp new]
      exact fed c (by simp) terminator
    simpa only [splitLinesFrom, terminator, if_false] using ih ext later

theorem notMem_splitLines (text : Text) :
    (∀ line ∈ (splitLines text).1, '\n' ∉ line) ∧ '\n' ∉ (splitLines text).2 := by
  have unbroken := @forall_mem_splitLinesFrom (· ≠ '\n') [] text (by simp) fun _ _ y => y
  exact ⟨fun line mem stop => unbroken.1 line mem _ stop rfl,
    fun stop => unbroken.2 _ stop rfl⟩

theorem blank_splitLines (blank : Blank text) :
    (∀ line ∈ (splitLines text).1, Blank line) ∧ Blank (splitLines text).2 :=
  forall_mem_splitLinesFrom (by simp) fun c mem _ => blank c mem

theorem getLast?_of_splitLines_eq_nil (full : (splitLines text).2 = []) (ne : text ≠ []) :
    text.getLast? = some '\n' := by
  cases text using reverseRecOn with
  | nil => exact absurd rfl ne
  | append_singleton text c =>
    by_cases terminator : c = '\n'
    · simp [terminator]
    · simp [splitLines, splitLinesFrom_append, splitLinesFrom, terminator] at full

theorem splitLines_intercalate {front : List Text} {last : Text}
    (unbroken : ∀ line ∈ front, '\n' ∉ line) (lastUnbroken : '\n' ∉ last) :
    splitLines (['\n'].intercalate (front ++ [last])) = (front, last) := by
  induction front with
  | nil => simp [splitLines, splitLinesFrom_of_notMem [] lastUnbroken]
  | cons line front ih =>
    have tl := ih fun y mem => unbroken y (by simp [mem])
    have head : splitLinesFrom [] line = ([], line) :=
      splitLinesFrom_of_notMem [] (unbroken line (by simp))
    have joined : ['\n'].intercalate (line :: front ++ [last]) =
        line ++ '\n' :: ['\n'].intercalate (front ++ [last]) := by
      cases front <;> simp [intercalate_cons_cons]
    rw [joined, splitLines, splitLinesFrom_append, head]
    simp only [splitLinesFrom, if_true, nil_append]
    rw [← splitLines, tl]

def splitOnce (delimiter : Text) : Text → Option (Text × Text)
  | [] => none
  | c :: text =>
    match (c :: text).dropPrefix? delimiter with
    | some rest => some ([], rest)
    | none => (splitOnce delimiter text).map fun parts => (c :: parts.1, parts.2)

theorem eq_of_splitOnce {delim pre after : Text} (hit : splitOnce delim text = some (pre, after)) :
    text = pre ++ (delim ++ after) := by
  induction text generalizing pre with
  | nil => cases hit
  | cons c text ih =>
    rw [splitOnce] at hit
    cases here : (c :: text).dropPrefix? delim with
    | some tl =>
      rw [here] at hit
      obtain ⟨rfl, rfl⟩ := Prod.mk.inj (Option.some.inj hit)
      rw [nil_append]
      exact eq_append_of_dropPrefix? here
    | none =>
      rw [here] at hit
      obtain ⟨⟨front, tl⟩, later, eq⟩ := Option.map_eq_some_iff.mp hit
      cases eq
      rw [ih later, cons_append]

theorem eq_of_flatMap_separator {α : Type*} [DecidableEq α] {sep : α} {left right : List (List α)}
    (plain : ∀ item ∈ left, sep ∉ item) (plain' : ∀ item ∈ right, sep ∉ item)
    (eq : left.flatMap (sep :: ·) = right.flatMap (sep :: ·)) : left = right := by
  have fst : ∀ (item : List α) (tl : List (List α)), sep ∉ item →
      (item ++ tl.flatMap (sep :: ·)).takeWhile (· ≠ sep) = item := by
    intro item tl absent
    have all : ∀ elem ∈ item, (decide (elem ≠ sep)) = true := by
      intro elem mem
      exact decide_eq_true fun equal => absent (equal ▸ mem)
    rw [takeWhile_append_of_pos all]
    cases tl <;> simp
  induction left generalizing right with
  | nil =>
    cases right with
    | nil => rfl
    | cons item right => simp at eq
  | cons item left ih =>
    cases right with
    | nil => simp at eq
    | cons other right =>
      rw [flatMap_cons, flatMap_cons, cons_append, cons_append, List.cons.injEq] at eq
      have equal : item = other := by
        rw [← fst item left (plain item (by simp)), eq.2,
          fst other right (plain' other (by simp))]
      subst equal
      rw [ih (fun item mem => plain item (by simp [mem]))
        (fun item mem => plain' item (by simp [mem])) (append_cancel_left eq.2)]

end Text

def base64Alphabet : Text :=
  "ABCDEFGHIJKLMNOPQRSTUVWXYZabcdefghijklmnopqrstuvwxyz0123456789+/".toList

def sextet (digit : Char) : Option Nat := base64Alphabet.findIdx? (· == digit)

def decodeBase64 : Text → Option (List UInt8)
  | [] => some []
  | [a, b, '=', '='] => do
      let bits := (← sextet a) * 64 + (← sextet b)
      pure [.ofNat (bits / 16)]
  | [a, b, c, '='] => do
      let bits := ((← sextet a) * 64 + (← sextet b)) * 64 + (← sextet c)
      pure [.ofNat (bits / 1024), .ofNat (bits / 4)]
  | a :: b :: c :: d :: rest => do
      let bits := (((← sextet a) * 64 + (← sextet b)) * 64 + (← sextet c)) * 64 + (← sextet d)
      pure (.ofNat (bits / 65536) :: .ofNat (bits / 256) :: .ofNat bits :: (← decodeBase64 rest))
  | _ => none

def sextetDigit (bits : Nat) : Char := base64Alphabet.getD (bits % 64) 'A'

def encodeBase64 : List UInt8 → Text
  | [] => []
  | [a] =>
    let bits := a.toNat * 16
    [sextetDigit (bits / 64), sextetDigit bits, '=', '=']
  | [a, b] =>
    let bits := (a.toNat * 256 + b.toNat) * 4
    [sextetDigit (bits / 4096), sextetDigit (bits / 64), sextetDigit bits, '=']
  | a :: b :: c :: rest =>
    let bits := (a.toNat * 256 + b.toNat) * 256 + c.toNat
    sextetDigit (bits / 262144) :: sextetDigit (bits / 4096) :: sextetDigit (bits / 64) ::
      sextetDigit bits :: encodeBase64 rest

theorem sextet_sextetDigit (bits : Nat) : sextet (sextetDigit bits) = some (bits % 64) := by
  have all : ∀ value : Fin 64, sextet (sextetDigit value) = some value.val := by decide +kernel
  have reduced : sextetDigit bits = sextetDigit (bits % 64) := by
    rw [sextetDigit, sextetDigit, Nat.mod_mod]
  rw [reduced]
  exact all ⟨bits % 64, Nat.mod_lt _ (by decide)⟩

theorem sextetDigit_ne_padding (bits : Nat) : sextetDigit bits ≠ '=' := by
  intro eq
  have hit := sextet_sextetDigit bits
  have padding : sextet '=' = none := by decide +kernel
  rw [eq, padding] at hit
  cases hit

open UInt8

private theorem ofNat_eq {bits : Nat} {byte : UInt8} (low : bits % 256 = byte.toNat) :
    ofNat bits = byte := by
  rw [← UInt8.toNat_inj, toNat_ofNat']
  exact low

theorem decodeBase64_encodeBase64 (bytes : List UInt8) :
    decodeBase64 (encodeBase64 bytes) = some bytes := by
  induction bytes using encodeBase64.induct with
  | case1 => rfl
  | case2 a =>
    have small := a.toNat_lt
    rw [encodeBase64, decodeBase64, sextet_sextetDigit, sextet_sextetDigit]
    change some [ofNat _] = _
    rw [@ofNat_eq _ a (by omega)]
  | case3 a b =>
    have fst := a.toNat_lt
    have snd := b.toNat_lt
    rw [encodeBase64, decodeBase64, sextet_sextetDigit, sextet_sextetDigit, sextet_sextetDigit]
    · change some [ofNat _, ofNat _] = _
      rw [@ofNat_eq _ a (by omega), @ofNat_eq _ b (by omega)]
    · exact sextetDigit_ne_padding _
  | case4 a b c tl ih =>
    have fst := a.toNat_lt
    have snd := b.toNat_lt
    have third := c.toNat_lt
    -- The last digit of a full group is no padding, so the padded cases do not apply.
    have full := sextetDigit_ne_padding ((a.toNat * 256 + b.toNat) * 256 + c.toNat)
    rw [encodeBase64, decodeBase64, sextet_sextetDigit, sextet_sextetDigit, sextet_sextetDigit,
      sextet_sextetDigit, ih]
    · change some (ofNat _ :: ofNat _ :: ofNat _ :: tl) = _
      rw [@ofNat_eq _ a (by omega), @ofNat_eq _ b (by omega), @ofNat_eq _ c (by omega)]
    · exact fun _ padding _ => full padding
    · exact fun padding _ => full padding

end Codex
