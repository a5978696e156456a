import Codex.UriPath.Join

/-!
# The laws of containment

A preorder that respects equality if equal URIs spell what is not UTF-8 alike.
-/

namespace Codex.UriPath

open List

variable {byte : UInt8} {c : Char} {bytes : List UInt8} {conv : PathConvention}

open UInt8

theorem toAsciiLowercase_of_not_ascii (high : 128 ≤ byte.toNat) : toAsciiLowercase byte = byte := by
  refine if_neg fun upper => ?_
  have low : byte.toNat ≤ 90 := le_iff_toNat_le.mp upper.2
  omega

theorem eq_of_toAsciiLowercase_high (high : 128 ≤ (toAsciiLowercase byte).toNat) :
    toAsciiLowercase byte = byte := by
  by_cases ascii : byte.toNat < 128
  · have each : ∀ val : Fin 128, (toAsciiLowercase (ofNat val)).toNat < 128 := by
      decide +kernel
    have lower := each ⟨byte.toNat, ascii⟩
    rw [UInt8.ofNat_toNat] at lower
    omega
  · exact toAsciiLowercase_of_not_ascii (Nat.le_of_not_lt ascii)

theorem utf8EncodeChar_ascii (ascii : c.toNat < 128) : String.utf8EncodeChar c = [ofNat c.toNat] :=
  String.utf8EncodeChar_eq_singleton (by
    rw [Char.utf8Size_eq_one_iff, UInt32.le_iff_toNat_le]
    exact Nat.le_of_lt_succ ascii)

theorem high_of_mem_utf8EncodeChar (wide : 128 ≤ c.toNat)
    (mem : byte ∈ String.utf8EncodeChar c) : 128 ≤ byte.toNat := by
  have small : ¬ c.val.toNat ≤ 127 := by
    change ¬ c.toNat ≤ 127
    omega
  simp only [String.utf8EncodeChar, if_neg small] at mem
  split_ifs at mem <;>
    simp only [mem_cons, not_mem_nil, or_false] at mem <;>
    rcases mem with rfl | rfl | rfl | rfl <;>
    rw [toNat_ofNat'] <;> omega

theorem map_toAsciiLowercase_utf8EncodeChar (c : Char) :
    (String.utf8EncodeChar c).map toAsciiLowercase = String.utf8EncodeChar c.toLower := by
  by_cases ascii : c.toNat < 128
  · have lower : c.toLower.toNat < 128 := by
      rw [Text.toNat_toLower]
      split_ifs <;> omega
    have each : ∀ value : Fin 128, toAsciiLowercase (ofNat value) =
        ofNat (if 65 ≤ value.val ∧ value.val ≤ 90 then value + 32 else value) := by
      decide +kernel
    rw [utf8EncodeChar_ascii ascii, utf8EncodeChar_ascii lower, Text.toNat_toLower]
    exact congrArg (fun byte => [byte]) (each ⟨c.toNat, ascii⟩)
  have eq : c.toLower = c := by
    rw [← Char.toNat_inj, Text.toNat_toLower]
    exact if_neg fun upper => ascii (by omega)
  rw [eq]
  exact (map_congr_left fun byte mem => toAsciiLowercase_of_not_ascii
    (high_of_mem_utf8EncodeChar (Nat.le_of_not_lt ascii) mem)).trans (map_id _)

theorem map_toAsciiLowercase_utf8 (text : Text) :
    (text.flatMap String.utf8EncodeChar).map toAsciiLowercase =
      (Text.toAsciiLowercase text).flatMap String.utf8EncodeChar := by
  rw [map_flatMap, Text.toAsciiLowercase, flatMap_map]
  exact flatMap_congr fun c _ => map_toAsciiLowercase_utf8EncodeChar c

def IsText (bytes : List UInt8) : Prop := ∃ text : Text, bytes = text.flatMap String.utf8EncodeChar

theorem fromUTF8?_isSome_iff (bytes : List UInt8) :
    (String.fromUTF8? ⟨bytes.toArray⟩).isSome = true ↔ IsText bytes := by
  have valid : (String.fromUTF8? ⟨bytes.toArray⟩).isSome = true ↔
      ByteArray.IsValidUTF8 ⟨bytes.toArray⟩ := by
    rw [String.fromUTF8?]
    split_ifs with valid <;> simp [valid]
  rw [valid]
  constructor
  · rintro ⟨text, eq⟩
    have data := congrArg ByteArray.data eq
    rw [List.utf8Encode, data_toByteArray] at data
    exact ⟨text, Array.mk.inj data⟩
  rintro ⟨text, rfl⟩
  refine ⟨text, ?_⟩
  ext1
  rw [List.utf8Encode, data_toByteArray]

theorem exists_of_lowercase_utf8EncodeChar
    (lower : bytes.map toAsciiLowercase = String.utf8EncodeChar c) :
    ∃ d, bytes = String.utf8EncodeChar d := by
  by_cases ascii : c.toNat < 128
  · rw [utf8EncodeChar_ascii ascii, map_eq_singleton_iff] at lower
    obtain ⟨byte, rfl, lower⟩ := lower
    have small : byte.toNat < 128 := by
      by_contra high
      rw [toAsciiLowercase_of_not_ascii (Nat.le_of_not_lt high)] at lower
      rw [lower, toNat_ofNat'] at high
      omega
    have val : (Char.ofNat byte.toNat).toNat = byte.toNat := by
      rw [Char.ofNat, dif_pos (.inl (by omega))]
      rfl
    refine ⟨Char.ofNat byte.toNat, ?_⟩
    rw [utf8EncodeChar_ascii (by rwa [val]), val, UInt8.ofNat_toNat]
  refine ⟨c, ?_⟩
  rw [← lower]
  refine ((map_congr_left fun byte mem => ?_).trans (map_id _)).symm
  refine eq_of_toAsciiLowercase_high (high_of_mem_utf8EncodeChar (Nat.le_of_not_lt ascii) ?_)
  rw [← lower]
  exact mem_map_of_mem mem

theorem isText_of_lowercase {text : Text}
    (lower : bytes.map toAsciiLowercase = text.flatMap String.utf8EncodeChar) : IsText bytes := by
  induction text generalizing bytes with
  | nil => exact ⟨[], map_eq_nil_iff.mp lower⟩
  | cons c text ih =>
    obtain ⟨front, back, rfl, fst, tl⟩ := map_eq_append_iff.mp lower
    obtain ⟨d, rfl⟩ := exists_of_lowercase_utf8EncodeChar fst
    obtain ⟨others, rfl⟩ := ih tl
    exact ⟨d :: others, rfl⟩

theorem isText_congr {left right : List UInt8}
    (eq : left.map toAsciiLowercase = right.map toAsciiLowercase) : IsText left ↔ IsText right := by
  have one : ∀ {left right : List UInt8},
      left.map toAsciiLowercase = right.map toAsciiLowercase → IsText left → IsText right := by
    rintro left right eq ⟨text, rfl⟩
    rw [map_toAsciiLowercase_utf8] at eq
    exact isText_of_lowercase eq.symm
  exact ⟨one eq, one eq.symm⟩

theorem hexValue_toLower (c : Char) : hexValue c.toLower = hexValue c := by
  have order : ∀ low high : Char,
    (low ≤ c ∧ c ≤ high ↔ low.toNat ≤ c.toNat ∧ c.toNat ≤ high.toNat) ∧
      (low ≤ c.toLower ∧ c.toLower ≤ high ↔
        low.toNat ≤ c.toLower.toNat ∧ c.toLower.toNat ≤ high.toNat) := fun _ _ =>
    ⟨Iff.rfl, Iff.rfl⟩
  have values : '0'.toNat = 48 ∧ '9'.toNat = 57 ∧ 'a'.toNat = 97 ∧ 'f'.toNat = 102 ∧
    'A'.toNat = 65 ∧ 'F'.toNat = 70 := by decide
  simp only [hexValue, order, values, Text.toNat_toLower]
  split_ifs <;> first | rfl | omega

theorem lowercase_decodeBinary (text : Text) :
    (decodeBinary (Text.toAsciiLowercase text)).map toAsciiLowercase =
      (decodeBinary text).map toAsciiLowercase := by
  fun_induction decodeBinary text with
  | case1 => rfl
  | case2 fst snd tl high low isHigh isLow ih =>
    have got : decodeBinary (Text.toAsciiLowercase ('%' :: fst :: snd :: tl)) =
        (high * 16 + low).toUInt8 :: decodeBinary (Text.toAsciiLowercase tl) := by
      change decodeBinary ('%' :: fst.toLower :: snd.toLower :: _) = _
      simp only [decodeBinary, hexValue_toLower, isHigh, isLow]
      rfl
    rw [got, map_cons, ih, map_cons]
  | case3 fst snd tl none ih =>
    change (decodeBinary ('%' :: Text.toAsciiLowercase (fst :: snd :: tl))).map _ = _
    rw [decodeBinary_percent, map_cons, ih, map_cons]
    rintro head next tail eq
    obtain ⟨rfl, rfl, -⟩ : fst.toLower = head ∧ snd.toLower = next ∧ _ = tail := by
      simpa [Text.toAsciiLowercase] using eq
    rw [hexValue_toLower, hexValue_toLower]
    cases high : hexValue fst with
    | none => exact .inl rfl
    | some digit =>
      exact .inr (Option.eq_none_iff_forall_ne_some.mpr fun low => none digit low high)
  | case4 c tl plain ih =>
    by_cases percent : c = '%'
    · subst percent
      change (decodeBinary ('%' :: Text.toAsciiLowercase tl)).map _ = _
      rw [decodeBinary_percent, map_cons, ih, utf8EncodeChar_percent]
      · rfl
      rintro head next tail eq
      obtain ⟨fst, others, rfl, -, more⟩ := map_eq_cons_iff.mp eq
      obtain ⟨snd, end', rfl, -, -⟩ := map_eq_cons_iff.mp more
      exact (plain fst snd end' rfl rfl).elim
    have other : c.toLower ≠ '%' := fun eq =>
      percent ((Text.caseless_of_toNat (.inl (by decide)) c).mp eq)
    change (decodeBinary (c.toLower :: Text.toAsciiLowercase tl)).map _ = _
    rw [decodeBinary.eq_3 _ _ (by simp [other]), map_append, ih, map_append,
      map_toAsciiLowercase_utf8EncodeChar, map_toAsciiLowercase_utf8EncodeChar,
      Text.toLower_toLower]

theorem utf8_injective : Function.Injective (List.flatMap String.utf8EncodeChar) := by
  intro left right eq
  have encoded : left.utf8Encode = right.utf8Encode := congrArg List.toByteArray eq
  have decoded := congrArg ByteArray.utf8Decode? encoded
  rw [utf8Decode?_utf8Encode, utf8Decode?_utf8Encode] at decoded
  exact Array.mk.inj (Option.some.inj decoded)

theorem nativeSegmentsMatch_windows (left right : Text) :
    nativeSegmentsMatch .windows left right = true ↔
      (decodeUriPath left).map toAsciiLowercase = (decodeUriPath right).map toAsciiLowercase := by
  simp only [nativeSegmentsMatch, eqIgnoreAsciiCase, Bool.or_eq_true, decide_eq_true_eq]
  refine or_iff_right_of_imp fun spelled => ?_
  have lower := spelled
  rw [map_toAsciiLowercase_utf8, map_toAsciiLowercase_utf8] at lower
  have bytes : (decodeBinary left).map toAsciiLowercase =
      (decodeBinary right).map toAsciiLowercase := by
    rw [← lowercase_decodeBinary left, utf8_injective lower, lowercase_decodeBinary]
  have both := isText_congr bytes
  rw [← fromUTF8?_isSome_iff, ← fromUTF8?_isSome_iff] at both
  rw [decodeUriPath, decodeUriPath]
  by_cases text : (String.fromUTF8? ⟨(decodeBinary left).toArray⟩).isSome = true
  · rwa [if_pos text, if_pos (both.mp text)]
  · rwa [if_neg text, if_neg fun valid => text (both.mpr valid)]

/-- The percent-decoded bytes of a segment are text. -/
def isUtf8 (seg : Text) : Bool := (String.fromUTF8? ⟨(decodeBinary seg).toArray⟩).isSome

theorem decodeUriPath_eq (seg : Text) : decodeUriPath seg =
    if isUtf8 seg then decodeBinary seg else seg.flatMap String.utf8EncodeChar := rfl

/-- Segments with the same bytes match if these are text or their spellings agree. -/
theorem nativeSegmentsMatch_of_bytes {left right : Text}
    (bytes : (decodeBinary left).map toAsciiLowercase =
      (decodeBinary right).map toAsciiLowercase) :
    nativeSegmentsMatch .windows left right = true ↔ (isUtf8 left = false →
      eqIgnoreAsciiCase (left.flatMap String.utf8EncodeChar)
        (right.flatMap String.utf8EncodeChar) = true) := by
  have both : isUtf8 left = true ↔ isUtf8 right = true := by
    rw [isUtf8, isUtf8, fromUTF8?_isSome_iff, fromUTF8?_isSome_iff]
    exact isText_congr bytes
  rw [nativeSegmentsMatch_windows]
  cases valid : isUtf8 left with
  | true =>
    have valid' : isUtf8 right = true := both.mp valid
    rw [decodeUriPath_eq, decodeUriPath_eq, if_pos valid, if_pos valid']
    simp [bytes]
  | false =>
    have valid' : ¬ isUtf8 right = true := fun text => by
      rw [both.mpr text] at valid
      cases valid
    rw [decodeUriPath_eq, decodeUriPath_eq, if_neg (Bool.eq_false_iff.mp valid), if_neg valid']
    simp [eqIgnoreAsciiCase]

theorem nativeSegmentsMatch_trans {fst snd third : Text}
    (left : nativeSegmentsMatch conv fst snd = true)
    (right : nativeSegmentsMatch conv snd third = true) :
    nativeSegmentsMatch conv fst third = true := by
  cases conv with
  | posix => simpa [nativeSegmentsMatch] using
      (of_decide_eq_true left).trans (of_decide_eq_true right)
  | windows =>
    rw [nativeSegmentsMatch_windows] at left right ⊢
    exact left.trans right

theorem nativePathSegmentsStartWith_cons (conv : PathConvention) (seg other : Text)
    (segs base : List Text) :
    nativePathSegmentsStartWith (seg :: segs) (other :: base) conv =
      (nativeSegmentsMatch conv seg other &&
        nativePathSegmentsStartWith segs base conv) := by
  simp [nativePathSegmentsStartWith, Bool.and_left_comm]

theorem nativePathSegmentsStartWith_trans {fst snd third : List Text}
    (left : nativePathSegmentsStartWith fst snd conv = true)
    (right : nativePathSegmentsStartWith snd third conv = true) :
    nativePathSegmentsStartWith fst third conv = true := by
  induction third generalizing fst snd with
  | nil => simp [nativePathSegmentsStartWith]
  | cons seg third ih =>
    cases snd with
    | nil => simp [nativePathSegmentsStartWith] at right
    | cons mid snd =>
      cases fst with
      | nil => simp [nativePathSegmentsStartWith] at left
      | cons outer fst =>
        rw [nativePathSegmentsStartWith_cons, Bool.and_eq_true] at left right ⊢
        exact ⟨nativeSegmentsMatch_trans left.1 right.1, ih left.2 right.2⟩

namespace PathUri

variable (api : UrlApi)

def SameSegments (uri other : PathUri) : Prop :=
  match containmentPathSegments uri.url (uri.convention api),
    containmentPathSegments other.url (uri.convention api) with
  | some left, some right => List.Forall₂
      (fun seg counter => nativeSegmentsMatch (uri.convention api) seg counter = true)
      left right
  | none, none => True
  | _, _ => False

/-- Segments at the same place that are not UTF-8 are spelled alike up to ASCII case. -/
def SpelledAlike (uri other : PathUri) : Prop :=
  ∀ pair ∈ (nonEmpty uri.url.segments).zip (nonEmpty other.url.segments),
    isUtf8 pair.1 = false → eqIgnoreAsciiCase (pair.1.flatMap String.utf8EncodeChar)
      (pair.2.flatMap String.utf8EncodeChar) = true

/-- A preorder that respects equality and holds both ways between the same segments only. -/
structure LawfulContainment (uris : Set PathUri) : Prop where
  refl : ∀ a ∈ uris, a.startsWith api a = true
  trans : ∀ a ∈ uris, ∀ b ∈ uris, ∀ c ∈ uris,
    a.startsWith api b = true → b.startsWith api c = true → a.startsWith api c = true
  congr : ∀ a ∈ uris, ∀ b ∈ uris, a.same api b = true → ∀ c ∈ uris,
    a.startsWith api c = b.startsWith api c ∧ c.startsWith api a = c.startsWith api b
  antisymm : ∀ a ∈ uris, ∀ b ∈ uris,
    a.startsWith api b = true → b.startsWith api a = true → a.SameSegments api b

def Within (uri base : PathUri) : Prop :=
  uri.isOpaque api = false ∧ base.isOpaque api = false ∧ uri.url.host = base.url.host ∧
    uri.url.inferPathConvention api = base.url.inferPathConvention api ∧
    ∃ segs baseSegments, containmentPathSegments uri.url (uri.convention api) = some segs ∧
      containmentPathSegments base.url (uri.convention api) = some baseSegments ∧
      nativePathSegmentsStartWith segs baseSegments (uri.convention api) = true

variable {api} {uri other base : PathUri}

theorem startsWith_iff :
    uri.startsWith api base = true ↔ uri.same api base = true ∨ uri.Within api base := by
  rw [startsWith]
  split_ifs with eq hidden host conv
  · simp [eq]
  · have clear : ¬ uri.Within api base := fun le => by
      rw [Bool.or_eq_true] at hidden
      rcases hidden with hidden | hidden
      · exact Bool.false_ne_true (le.1.symm.trans hidden)
      · exact Bool.false_ne_true (le.2.1.symm.trans hidden)
    simp [eq, clear]
  · simp [eq, Within, host]
  · simp [eq, Within, conv]
  simp only [Bool.or_eq_true, not_or, Bool.not_eq_true] at hidden
  simp only [eq, Bool.false_eq_true, false_or, Within, hidden, not_not.mp host,
    not_not.mp conv, true_and, convention]
  cases containmentPathSegments uri.url _ <;> cases containmentPathSegments base.url _ <;> simp

theorem Within.trans (left : uri.Within api other) (right : other.Within api base) :
    uri.Within api base := by
  obtain ⟨clear, -, host, conv, segs, mid, hit, between, starts⟩ := left
  obtain ⟨-, baseClear, host', conv', mid', baseSegments, hit', baseFound, starts'⟩ :=
    right
  have cmp : other.convention api = uri.convention api := by
    rw [PathUri.convention, PathUri.convention, conv]
  rw [cmp] at hit' baseFound starts'
  obtain rfl := Option.some.inj (between.symm.trans hit')
  exact ⟨clear, baseClear, host.trans host', conv.trans conv', segs, baseSegments,
    hit, baseFound, nativePathSegmentsStartWith_trans starts starts'⟩

theorem eq_or_within_of_same (eq : uri.same api other = true)
    (segs : uri.SameSegments api other) : uri = other ∨ uri.Within api other := by
  rcases same_iff.mp eq with url | ⟨path, path2, left, right, host, -⟩
  · obtain ⟨url', _⟩ := uri
    obtain ⟨_, _⟩ := other
    cases url
    exact .inl rfl
  obtain ⟨windows, clear, plain, -⟩ := windowsIdentityPathBytes_eq_some left
  obtain ⟨windows', clear', plain', -⟩ := windowsIdentityPathBytes_eq_some right
  refine .inr ⟨clear, clear', host, windows.trans windows'.symm, _, _,
    containmentPathSegments_of_plain plain, containmentPathSegments_of_plain plain', ?_⟩
  rw [SameSegments, containmentPathSegments_of_plain plain,
    containmentPathSegments_of_plain plain'] at segs
  obtain ⟨length, each⟩ := List.forall₂_iff_zip.mp segs
  rw [nativePathSegmentsStartWith, Bool.and_eq_true, decide_eq_true_eq, all_eq_true]
  exact ⟨length.ge, fun pair mem => each mem⟩

theorem eq_or_within (agree : uri.same api other = true → uri.SameSegments api other)
    (starts : uri.startsWith api other = true) : uri = other ∨ uri.Within api other := by
  rcases startsWith_iff.mp starts with eq | le
  · exact eq_or_within_of_same eq (agree eq)
  · exact .inr le

theorem sameSegments_of_within (left : uri.Within api other) (right : other.Within api uri) :
    uri.SameSegments api other := by
  obtain ⟨-, -, -, conv, segs, others, hit, hit', starts⟩ := left
  obtain ⟨-, -, -, -, others', segs', again, again', starts'⟩ := right
  have cmp : other.convention api = uri.convention api := by
    rw [PathUri.convention, PathUri.convention, conv]
  rw [cmp] at again again'
  obtain rfl := Option.some.inj (hit'.symm.trans again)
  obtain rfl := Option.some.inj (hit.symm.trans again')
  simp only [nativePathSegmentsStartWith, Bool.and_eq_true, decide_eq_true_eq,
    all_eq_true] at starts starts'
  rw [SameSegments, hit, hit']
  exact List.forall₂_iff_zip.mpr ⟨le_antisymm starts'.1 starts.1, fun {_ _} => starts.2 _⟩

theorem sameSegments_refl (uri : PathUri) : uri.SameSegments api uri := by
  rw [SameSegments]
  cases containmentPathSegments uri.url (uri.convention api) with
  | none => trivial
  | some segs =>
    refine List.forall₂_same.mpr fun seg _ => ?_
    cases uri.convention api <;> simp [nativeSegmentsMatch, eqIgnoreAsciiCase]

theorem sameSegments_iff (eq : uri.same api other = true) :
    uri.SameSegments api other ↔ uri.SpelledAlike other := by
  rcases same_iff.mp eq with url | ⟨path, path2, left, right, -, bytes⟩
  · obtain ⟨url', _⟩ := uri
    obtain ⟨_, _⟩ := other
    cases url
    obtain ⟨-, each⟩ := List.forall₂_iff_zip.mp (List.forall₂_same.mpr
      fun (seg : Text) (_ : seg ∈ nonEmpty url'.segments) => rfl)
    refine iff_of_true (sameSegments_refl _) fun pair mem _ => ?_
    rw [each mem]
    simp [eqIgnoreAsciiCase]
  obtain ⟨windows, -, plain, rfl⟩ := windowsIdentityPathBytes_eq_some left
  obtain ⟨-, -, plain', rfl⟩ := windowsIdentityPathBytes_eq_some right
  have decoded := lowercase_segments_of_identity (fun _ mem => (plain _ mem).1)
    (fun _ mem => (plain' _ mem).1) bytes
  rw [← List.forall₂_eq_eq_eq, forall₂_map_left_iff, forall₂_map_right_iff,
    List.forall₂_iff_zip] at decoded
  rw [SameSegments, containmentPathSegments_of_plain plain,
    containmentPathSegments_of_plain plain', convention, windows]
  refine List.forall₂_iff_zip.trans ((and_iff_right decoded.1).trans ?_)
  constructor
  · intro each pair mem
    exact (nativeSegmentsMatch_of_bytes (decoded.2 mem)).mp (each mem)
  · intro each left right mem
    exact (nativeSegmentsMatch_of_bytes (decoded.2 mem)).mpr (each _ mem)

/-- The laws hold among URIs exactly when equal ones spell their segments that are not UTF-8 alike
up to ASCII case. -/
theorem lawfulContainment_iff (uris : Set PathUri) : LawfulContainment api uris ↔
      ∀ a ∈ uris, ∀ b ∈ uris, a.same api b = true → a.SpelledAlike b := by
  have alike : (∀ a ∈ uris, ∀ b ∈ uris, a.same api b = true → a.SpelledAlike b) ↔
      ∀ a ∈ uris, ∀ b ∈ uris, a.same api b = true → a.SameSegments api b :=
    forall₄_congr fun a _ b _ => forall_congr' fun eq => (sameSegments_iff eq).symm
  rw [alike]
  constructor
  · intro lawful a aMem b bMem eq
    exact lawful.antisymm a aMem b bMem (startsWith_of_same eq)
      (startsWith_of_same (same_symm eq))
  intro agree
  have trans : ∀ a ∈ uris, ∀ b ∈ uris, ∀ c ∈ uris,
      a.startsWith api b = true → b.startsWith api c = true → a.startsWith api c = true := by
    intro a aMem b bMem c cMem left right
    rcases eq_or_within (agree a aMem b bMem) left with rfl | above
    · exact right
    rcases eq_or_within (agree b bMem c cMem) right with rfl | below
    · exact left
    · exact startsWith_iff.mpr (.inr (above.trans below))
  refine ⟨fun a _ => startsWith_of_same (same_refl a), trans, ?_, ?_⟩
  · intro a aMem b bMem eq c cMem
    have forth := startsWith_of_same eq
    have back := startsWith_of_same (same_symm eq)
    exact ⟨Bool.eq_iff_iff.mpr ⟨trans b bMem a aMem c cMem back, trans a aMem b bMem c cMem forth⟩,
      Bool.eq_iff_iff.mpr ⟨fun below => trans c cMem a aMem b bMem below forth,
        fun below => trans c cMem b bMem a aMem below back⟩⟩
  intro a aMem b bMem left right
  rcases eq_or_within (agree a aMem b bMem) left with rfl | above
  · exact sameSegments_refl a
  rcases eq_or_within (agree b bMem a aMem) right with rfl | below
  · exact sameSegments_refl _
  · exact sameSegments_of_within above below

/-- Two spellings are equal, but only one contains a file spelled like it. -/
theorem startsWith_not_utf8 :
    ∃ a b c : PathUri, a.same asciiUrlApi b = true ∧ c.startsWith asciiUrlApi a = true ∧
      c.startsWith asciiUrlApi b = false :=
  ⟨localUri ["C:", "%FFa"] rfl, localUri ["C:", "%FF%61"] rfl,
    localUri ["C:", "%FFa", "x"] rfl, by decide +kernel⟩

end PathUri

end Codex.UriPath
