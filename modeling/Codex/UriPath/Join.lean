import Codex.Foundation.Lowercase
import Codex.Foundation.Walk
import Mathlib.Data.UInt

/-!
# Join and parent of path URIs

Going up removes the last raw segment; the depth counts those that are not empty.
-/

namespace Codex.UriPath

structure FileUrl where
  host : Option Text
  segments : List Text
  deriving DecidableEq

/-- The path `/`. -/
def rootSegments : List Text := [[]]

variable (segments : List Text)

def popIfEmpty : List Text :=
  if segments ≠ rootSegments ∧ segments.getLast? = some [] then segments.dropLast else segments

def popSegment : List Text :=
  if segments.length ≤ 1 then rootSegments else segments.dropLast

def pushSegment (seg : Text) : List Text :=
  if segments = rootSegments then [seg] else segments ++ [seg]

def nonEmpty : List Text := segments.filter (· ≠ [])

def content : List Text := segments.dropWhile (· = [])

section

variable {segments : List Text} (segments : List Text)

theorem nonEmpty_content : nonEmpty (content segments) = nonEmpty segments := by
  induction segments with
  | nil => rfl
  | cons head tail ih =>
    by_cases empty : head = []
    · subst empty
      simpa [content, nonEmpty] using ih
    · simp [content, empty]

theorem content_append_of_ne_nil {seg : Text} (ne : seg ≠ []) :
    content (segments ++ [seg]) = content segments ++ [seg] := by
  rw [content, List.dropWhile_append]
  split_ifs with idle
  · have none : content segments = [] := by simpa [content] using idle
    simp [none, ne]
  · rfl

theorem content_push {seg : Text} (ne : seg ≠ []) :
    content (pushSegment segments seg) = content segments ++ [seg] := by
  rw [pushSegment]
  split_ifs with root
  · subst root
    simp [content, rootSegments, ne]
  · exact content_append_of_ne_nil segments ne

theorem content_dropLast : content segments.dropLast = (content segments).dropLast := by
  induction segments with
  | nil => rfl
  | cons head tail ih =>
    cases tail with
    | nil => by_cases empty : head = [] <;> simp [content, empty]
    | cons next tail =>
      by_cases empty : head = []
      · subst empty
        simpa [content] using ih
      · simp [content, empty]

theorem content_pop : content (popSegment segments) = (content segments).dropLast := by
  rw [popSegment]
  split_ifs with single
  · rw [← content_dropLast, List.dropLast_eq_take]
    have none : segments.length - 1 = 0 := by omega
    simp [none, content, rootSegments]
  · exact content_dropLast segments

end

inductive PathConvention
  | posix
  | windows
  deriving DecidableEq

def PathConvention.anchorDepth : PathConvention → Nat
  | posix => 0
  | windows => 1

/-- The `url` crate, for paths without tabs and line breaks, which it drops from a segment. -/
structure UrlApi where
  encodeSegment : Text → Text
  parseHost : Text → Option Text
  base64Encode : List UInt8 → Text
  base64Decode : Text → Option (List UInt8)
  encodeSegment_nil : encodeSegment [] = []
  encodeSegment_ne_nil : ∀ seg, seg ≠ [] → encodeSegment seg ≠ []

inductive PathUriParseError
  | invalidFileUriPath (path : Text)

def isWindowsDriveUriSegment (seg : Text) : Bool :=
  seg.head?.any Char.isAlpha &&
    (seg.tail = ":".toList || seg.tail = "%3A".toList || seg.tail = "%3a".toList)

namespace FileUrl

def render (url : FileUrl) : Text :=
  "file://".toList ++ url.host.getD [] ++ '/' :: ['/'].intercalate url.segments

def withoutLocalhostAuthority (url : FileUrl) : FileUrl :=
  if url.host = some "localhost".toList then { url with host := none } else url

def upperDrive : List Text → List Text
  | [] => []
  | [] :: segments => [] :: upperDrive segments
  | (letter :: rest) :: segments =>
    (if isWindowsDriveUriSegment (letter :: rest) then letter.toUpper :: rest
      else letter :: rest) :: segments

def withNormalizedWindowsDriveLetter (url : FileUrl) : FileUrl :=
  if url.host.isSome then url else { url with segments := upperDrive url.segments }

def canonical (url : FileUrl) : FileUrl :=
  url.withoutLocalhostAuthority.withNormalizedWindowsDriveLetter

def containsNull (url : FileUrl) : Bool :=
  url.segments.any fun seg => decide ("%00".toList <:+: seg)

def badPathSegments : List Text := ["%00", "bad", "path"]

end FileUrl

section

variable (api : UrlApi)

def decodeBadPathUri (url : FileUrl) : Option (List UInt8) :=
  match url.host, url.segments.dropPrefix? FileUrl.badPathSegments with
  | none, some [encoded] =>
    if encoded = [] then none
    else (api.base64Decode encoded).filter fun bytes => api.base64Encode bytes = encoded
  | _, _ => none

def wideChars : List UInt8 → List Nat
  | low :: high :: rest => (low.toNat + 256 * high.toNat) :: wideChars rest
  | _ => []

def inferOpaquePathConvention (bytes : List UInt8) : Option PathConvention :=
  if bytes.head? = some '/'.toNat.toUInt8 then some .posix
  else if bytes.length % 2 ≠ 0 then none
  else match wideChars bytes with
    | first :: snd :: _ =>
      if (first < 256 ∧ (Char.ofNat first).isAlpha ∧ snd = ':'.toNat) ∨
          (first = '\\'.toNat ∧ snd = '\\'.toNat) then some .windows
      else none
    | _ => none

def FileUrl.inferPathConvention (url : FileUrl) : Option PathConvention :=
  match decodeBadPathUri api url with
  | some bytes => inferOpaquePathConvention bytes
  | none =>
    if url.host.isSome then some .windows
    else if (url.segments.find? (· ≠ [])).any isWindowsDriveUriSegment then some .windows
    else some .posix

end

namespace FileUrl

theorem isWindowsDriveUriSegment_toUpper (letter : Char) (tl : Text) :
    isWindowsDriveUriSegment (letter.toUpper :: tl) = isWindowsDriveUriSegment (letter :: tl) := by
  exact congrArg (· && _) (Text.isAlpha_toUpper letter)

theorem upperDrive_upperDrive (segments : List Text) :
    upperDrive (upperDrive segments) = upperDrive segments := by
  induction segments with
  | nil => rfl
  | cons seg segments ih =>
    cases seg with
    | nil => simp [upperDrive, ih]
    | cons letter tl =>
      simp only [upperDrive]
      split_ifs with drive
      · rw [upperDrive, if_pos ((isWindowsDriveUriSegment_toUpper letter tl).trans drive),
          Text.toUpper_toUpper]
      · simp [upperDrive, drive]

theorem canonical_canonical (url : FileUrl) : url.canonical.canonical = url.canonical := by
  obtain ⟨host, segs⟩ := url
  cases host with
  | none => simp [canonical, withoutLocalhostAuthority, withNormalizedWindowsDriveLetter,
      upperDrive_upperDrive]
  | some host =>
    by_cases loopback : host = "localhost"
    · simp [canonical, withoutLocalhostAuthority, withNormalizedWindowsDriveLetter, loopback,
        upperDrive_upperDrive]
    simp only [canonical, withoutLocalhostAuthority, Option.some.injEq, loopback, if_false,
      withNormalizedWindowsDriveLetter, Option.isSome_some, if_true]

end FileUrl

structure PathUri where
  url : FileUrl
  canonical : url.canonical = url

section

variable (api : UrlApi)

def validateFileUrl (url : FileUrl) : Except PathUriParseError Unit :=
  if url.containsNull ∧ decodeBadPathUri api url = none then .error (.invalidFileUriPath url.render)
  else .ok ()

def PathUri.tryFrom (url : FileUrl) : Except PathUriParseError PathUri :=
  match validateFileUrl api url with
  | .error fault => .error fault
  | .ok () => .ok ⟨url.canonical, url.canonical_canonical⟩

def fromOpaquePathBytes (bytes : List UInt8) : PathUri where
  url := { host := none, segments := FileUrl.badPathSegments ++ [api.base64Encode bytes] }
  canonical := rfl

structure Normalizing where
  segments : List Text := []
  depth : Nat := 0
  hasTrailingSeparator : Bool := false

def Normalizing.next (anchorDepth : Nat) (state : Normalizing) (seg : Text) : Normalizing :=
  if seg = [] then { state with hasTrailingSeparator := true }
  else if seg = "." then { state with hasTrailingSeparator := false }
  else if seg = ".." then
    if anchorDepth < state.depth then ⟨state.segments.dropLast, state.depth - 1, false⟩
    else { state with hasTrailingSeparator := false }
  else ⟨state.segments ++ [seg], state.depth + 1, false⟩

/-- With an empty component for a trailing separator or a drive alone. -/
def normalizedSegments (conv : PathConvention) (host : Option Text)
    (segments : List Text) : List Text :=
  let state := segments.foldl (Normalizing.next conv.anchorDepth) {}
  state.segments ++
    if state.hasTrailingSeparator ∨
      (conv = .windows ∧ host = none ∧ state.depth = conv.anchorDepth) then [[]]
    else []

def pathUriFromSegments (conv : PathConvention) (host : Option Text)
    (segments : List Text) : Option PathUri :=
  let path := ((normalizedSegments conv host segments).map api.encodeSegment).foldl
    pushSegment rootSegments
  match host with
  | none => (PathUri.tryFrom api ⟨none, path⟩).toOption
  | some host =>
    (api.parseHost host).bind fun host => (PathUri.tryFrom api ⟨some host, path⟩).toOption

def isWindowsSeparator (c : Char) : Bool := c = '\\' || c = '/'

variable (path : Text)

def windowsOpaquePathUri : PathUri :=
  fromOpaquePathBytes api (path.flatMap fun c =>
    let units := if c.toNat < 0x10000 then [c.toNat]
      else [0xD800 + (c.toNat - 0x10000) / 0x400, 0xDC00 + (c.toNat - 0x10000) % 0x400]
    units.flatMap fun unit => [(unit % 256).toUInt8, (unit / 256).toUInt8])

def parsePosixPath : Option PathUri :=
  match path with
  | '/' :: rest =>
    if '\x00' ∈ rest then
      some (fromOpaquePathBytes api (path.flatMap String.utf8EncodeChar))
    else pathUriFromSegments api .posix none (rest.splitOn '/')
  | _ => none

def isWindowsDriveAbsolutePath : Bool :=
  match path with
  | drive :: ':' :: sep :: _ => drive.isAlpha && isWindowsSeparator sep
  | _ => false

def normalizeWindowsDevicePath : Option Text :=
  let unc (device : String) := (path.dropPrefix? device.toList).map ("\\\\".toList ++ ·)
  let drive (device : String) :=
    (path.dropPrefix? device.toList).filter isWindowsDriveAbsolutePath
  unc "\\\\?\\UNC\\" <|> unc "\\\\.\\UNC\\" <|> drive "\\\\?\\" <|> drive "\\\\.\\"

def usesNamespace : Bool :=
  match path with
  | first :: snd :: name :: sep :: _ =>
    isWindowsSeparator first && isWindowsSeparator snd && isWindowsSeparator sep &&
      (name = '.' || name = '?')
  | _ => false

def parseUnnormalizedWindowsPath : Option PathUri :=
  if usesNamespace path ∨ '\x00' ∈ path then some (windowsOpaquePathUri api path)
  else if isWindowsDriveAbsolutePath path then
    pathUriFromSegments api .windows none
      (path.take 2 :: (path.drop 3).splitOnP isWindowsSeparator)
  else match path with
    | first :: snd :: rest =>
      if isWindowsSeparator first ∧ isWindowsSeparator snd then
        match rest.splitOnP isWindowsSeparator with
        | host :: share :: components =>
          if host = [] ∨ share = [] then none
          else pathUriFromSegments api .windows (some host) (share :: components) <|>
            some (windowsOpaquePathUri api path)
        | _ => none
      else none
    | _ => none

def parseWindowsPath : Option PathUri :=
  match normalizeWindowsDevicePath path with
  | none => parseUnnormalizedWindowsPath api path
  | some normalized =>
    let unfit (part : Option Text) : Bool :=
      part.all fun text => text ∈ [[], ".".toList, "..".toList]
    let components := (normalized.drop 2).splitOnP isWindowsSeparator
    let unc := "\\\\".toList.isPrefixOf normalized
    if unc ∧ (unfit components[0]? ∨ unfit components[1]?) then
      some (windowsOpaquePathUri api path)
    else some (((parseUnnormalizedWindowsPath api normalized).filter fun uri =>
      uri.url.inferPathConvention api = some .windows ∧ decodeBadPathUri api uri.url = none ∧
        (unc → uri.url.host.any (· ≠ []))).getD (windowsOpaquePathUri api path))

def fromAbsoluteNativePath (conv : PathConvention) : Option PathUri :=
  let parsed := match conv with
    | .posix => parsePosixPath api path
    | .windows => parseWindowsPath api path
  parsed.map fun uri =>
    if uri.url.host ≠ some [] ∧ uri.url.inferPathConvention api = some conv then uri
    else match conv with
      | .posix => fromOpaquePathBytes api (path.flatMap String.utf8EncodeChar)
      | .windows => windowsOpaquePathUri api path

end

section

variable (api : UrlApi)

def joinStep (anchorDepth : Nat) (place : Walk.Place Text) (part : Text) : Walk.Place Text :=
  if part = [] ∨ part = "." then place
  else if part = ".." then
    if anchorDepth < place.depth then ⟨popSegment place.stack, place.depth - 1⟩ else place
  else ⟨pushSegment place.stack (api.encodeSegment part), place.depth + 1⟩

def popToAnchor (anchorDepth : Nat) : (depth : Nat) → (segments : List Text) → Walk.Place Text
  | 0, segments => ⟨segments, 0⟩
  | depth + 1, segments =>
    if anchorDepth < depth + 1 then popToAnchor anchorDepth depth (popSegment segments)
    else ⟨segments, depth + 1⟩

def isRootRelative (path : Text) : Bool :=
  path.head?.any isWindowsSeparator && !path.tail.head?.any isWindowsSeparator

def pathComponents (conv : PathConvention) (path : Text) : List Text :=
  match conv with
  | .posix => path.splitOn '/'
  | .windows => (path.map fun c => if c = '\\' then '/' else c).splitOn '/'

def joinRelative (conv : PathConvention) (url : FileUrl) (path : Text) : FileUrl :=
  let anchorDepth := conv.anchorDepth
  let depth := (nonEmpty url.segments).length
  let segments := popIfEmpty url.segments
  let start := if conv = .windows ∧ isRootRelative path then
    popToAnchor anchorDepth depth segments else ⟨segments, depth⟩
  { url with segments :=
      ((pathComponents conv path).foldl (joinStep api anchorDepth) start).stack }

def stripSameDrive (conv : PathConvention) (url : FileUrl) (path : Text) :
    Except PathUriParseError Text :=
  match conv, path with
  | .windows, drive :: ':' :: rest =>
    if drive.isAlpha then
      if (url.segments.find? (· ≠ [])).any fun segment => isWindowsDriveUriSegment segment &&
          segment.head?.any (·.toLower = drive.toLower) then .ok rest
      else .error (.invalidFileUriPath path)
    else .ok path
  | _, path => .ok path

def PathUri.join (base : PathUri) (path : Text) : Except PathUriParseError PathUri :=
  if '\x00' ∈ path then .error (.invalidFileUriPath path)
  else if path = [] then .ok base
  else match base.url.inferPathConvention api with
    | none => .error (.invalidFileUriPath base.url.render)
    | some conv =>
      match fromAbsoluteNativePath api path conv with
      | some absolute => .ok absolute
      | none =>
        match stripSameDrive conv base.url path with
        | .error fault => .error fault
        | .ok path =>
          if decodeBadPathUri api base.url ≠ none then
            .error (.invalidFileUriPath base.url.render)
          else PathUri.tryFrom api (joinRelative api conv base.url path)

end

namespace FileUrl

theorem upperDrive_dropLast (segs : List Text) :
    upperDrive segs.dropLast = (upperDrive segs).dropLast := by
  induction segs with
  | nil => rfl
  | cons seg segs ih =>
    cases segs with
    | nil => cases seg <;> rfl
    | cons next segs =>
      cases seg with
      | cons letter tl => rfl
      | nil =>
        rw [List.dropLast_cons_cons, upperDrive, ih, upperDrive]
        cases tail : upperDrive (next :: segs) with
        | cons head others => rfl
        | nil => cases next <;> simp [upperDrive] at tail

theorem upperDrive_popSegment {segments : List Text} (upper : upperDrive segments = segments) :
    upperDrive (popSegment segments) = popSegment segments := by
  rw [popSegment]
  split_ifs
  · rfl
  · rw [upperDrive_dropLast, upper]

theorem upperDrive_popIfEmpty {segments : List Text} (upper : upperDrive segments = segments) :
    upperDrive (popIfEmpty segments) = popIfEmpty segments := by
  rw [popIfEmpty]
  split_ifs
  · rw [upperDrive_dropLast, upper]
  · exact upper

theorem canonical_eq_self_iff {url : FileUrl} :
    url.canonical = url ↔ url.host ≠ some "localhost".toList ∧
      (url.host = none → upperDrive url.segments = url.segments) := by
  obtain ⟨host, segs⟩ := url
  cases host with
  | none => simp [canonical, withoutLocalhostAuthority, withNormalizedWindowsDriveLetter]
  | some host =>
    by_cases loopback : host = "localhost"
    · simp [canonical, withoutLocalhostAuthority, withNormalizedWindowsDriveLetter, loopback]
    simp only [canonical, withoutLocalhostAuthority, Option.some.injEq, loopback, if_false,
      withNormalizedWindowsDriveLetter, Option.isSome_some, if_true, ne_eq, not_false_eq_true,
      reduceCtorEq, false_implies, and_self]

end FileUrl

def PathUri.isRoot (api : UrlApi) (uri : PathUri) : Bool :=
  match decodeBadPathUri api uri.url, uri.url.inferPathConvention api with
  | none, some conv => (nonEmpty uri.url.segments).length ≤ conv.anchorDepth
  | _, _ => true

def PathUri.parent (api : UrlApi) (uri : PathUri) : Option PathUri :=
  if uri.isRoot api then none
  else some {
    url := { uri.url with segments := popSegment (popIfEmpty uri.url.segments) }
    canonical := by
      obtain ⟨remote, upper⟩ := FileUrl.canonical_eq_self_iff.mp uri.canonical
      exact FileUrl.canonical_eq_self_iff.mpr ⟨remote, fun bare =>
        FileUrl.upperDrive_popSegment (FileUrl.upperDrive_popIfEmpty (upper bare))⟩ }

def hexDigit (value : Nat) : Char := (Nat.digitChar value).toUpper

def percentEncodeChar (c : Char) : Text :=
  if c.toNat ≤ 32 ∨ 127 ≤ c.toNat ∨ c ∈ "\"#<>?`^\x7b\x7d/%\\".toList then
    (String.utf8EncodeChar c).flatMap fun byte =>
      ['%', hexDigit (byte.toNat / 16), hexDigit (byte.toNat % 16)]
  else [c]

/-- The alphabet of `URL_SAFE_NO_PAD`. -/
def urlSafe : Char → Char
  | '+' => '-'
  | '/' => '_'
  | '-' => '+'
  | '_' => '/'
  | c => c

theorem percentEncodeChar_ne_nil (c : Char) : percentEncodeChar c ≠ [] := by
  rw [percentEncodeChar]
  split_ifs
  · cases bytes : String.utf8EncodeChar c with
    | nil => exact absurd bytes String.utf8EncodeChar_ne_nil
    | cons byte tl => simp
  · exact List.cons_ne_nil _ _

def asciiUrlApi : UrlApi where
  encodeSegment segment := segment.flatMap percentEncodeChar
  parseHost host :=
    if host ≠ [] ∧ host.all fun c => c.isAlphanum || c = '-' || c = '.' then
      some (host.map Char.toLower) else none
  base64Encode bytes := ((encodeBase64 bytes).filter (· ≠ '=')).map urlSafe
  base64Decode text := if text.any (· ∈ "+/=".toList) then none
    else decodeBase64 (text.map urlSafe ++ List.replicate ((4 - text.length % 4) % 4) '=')
  encodeSegment_nil := rfl
  encodeSegment_ne_nil segment named := by
    cases segment with
    | nil => exact absurd rfl named
    | cons c rest => simp [percentEncodeChar_ne_nil]

def localUri (segments : List Text) (upper : FileUrl.upperDrive segments = segments) : PathUri :=
  ⟨⟨none, segments⟩, FileUrl.canonical_eq_self_iff.mpr ⟨nofun, fun _ => upper⟩⟩

open List

def hexValue (c : Char) : Option Nat :=
  if '0' ≤ c ∧ c ≤ '9' then some (c.toNat - '0'.toNat)
  else if 'a' ≤ c ∧ c ≤ 'f' then some (c.toNat - 'a'.toNat + 10)
  else if 'A' ≤ c ∧ c ≤ 'F' then some (c.toNat - 'A'.toNat + 10)
  else none

def decodeBinary : Text → List UInt8
  | [] => []
  | '%' :: first :: snd :: rest =>
    match hexValue first, hexValue snd with
    | some high, some low => (high * 16 + low).toUInt8 :: decodeBinary rest
    | _, _ => '%'.toUInt8 :: decodeBinary (first :: snd :: rest)
  | c :: rest => String.utf8EncodeChar c ++ decodeBinary rest

def decodeUriPath (seg : Text) : List UInt8 :=
  let bytes := decodeBinary seg
  if (String.fromUTF8? ⟨bytes.toArray⟩).isSome then bytes
  else seg.flatMap String.utf8EncodeChar

def toAsciiLowercase (byte : UInt8) : UInt8 :=
  if 65 ≤ byte ∧ byte ≤ 90 then byte + 32 else byte

def eqIgnoreAsciiCase (left right : List UInt8) : Bool :=
  left.map toAsciiLowercase = right.map toAsciiLowercase

def slash : UInt8 := '/'.toUInt8

def backslash : UInt8 := '\\'.toUInt8

section

variable (api : UrlApi)

def windowsIdentityPathBytes (uri : PathUri) : Option (List UInt8) :=
  if uri.url.inferPathConvention api ≠ some .windows ∨ decodeBadPathUri api uri.url ≠ none ∨
      uri.url.segments.any (fun seg =>
        (decodeBinary seg).any fun byte => byte = slash || byte = backslash) then none
  else some (decodeBinary ('/' :: ['/'].intercalate uri.url.segments))

def PathUri.same (left right : PathUri) : Bool :=
  left.url = right.url ||
    match windowsIdentityPathBytes api left, windowsIdentityPathBytes api right with
    | some path, some other =>
      left.url.host = right.url.host && eqIgnoreAsciiCase path other
    | _, _ => false

end

def containmentPathSegments (url : FileUrl) (convention : PathConvention) : Option (List Text) :=
  let segments := nonEmpty url.segments
  if segments.any fun seg => (decodeBinary seg).any fun byte =>
      byte = slash || (convention = .windows && byte = backslash) then none
  else some segments

def nativeSegmentsMatch (convention : PathConvention) (seg base : Text) : Bool :=
  match convention with
  | .posix => decodeBinary seg = decodeBinary base
  | .windows =>
    eqIgnoreAsciiCase (seg.flatMap String.utf8EncodeChar)
        (base.flatMap String.utf8EncodeChar) ||
      eqIgnoreAsciiCase (decodeUriPath seg) (decodeUriPath base)

def nativePathSegmentsStartWith (segments base : List Text) (convention : PathConvention) : Bool :=
  base.length ≤ segments.length &&
    (segments.zip base).all fun pair => nativeSegmentsMatch convention pair.1 pair.2

namespace PathUri

variable (api : UrlApi)

def convention (uri : PathUri) : PathConvention := (uri.url.inferPathConvention api).getD .posix

def isOpaque (uri : PathUri) : Bool := (decodeBadPathUri api uri.url).isSome

def lexicalDepth (uri : PathUri) : Option Nat :=
  if uri.isOpaque api then none
  else (uri.url.inferPathConvention api).bind fun convention =>
    (containmentPathSegments uri.url convention).map List.length

def startsWith (uri base : PathUri) : Bool :=
  if uri.same api base then true
  else if uri.isOpaque api || base.isOpaque api then false
  else if uri.url.host ≠ base.url.host then false
  else if uri.url.inferPathConvention api ≠ base.url.inferPathConvention api then false
  else
    let convention := (uri.url.inferPathConvention api).getD .posix
    match containmentPathSegments uri.url convention,
      containmentPathSegments base.url convention with
    | some segments, some baseSegments =>
      nativePathSegmentsStartWith segments baseSegments convention
    | _, _ => false

def topmost (uri : PathUri) : PathUri :=
  (fun ancestor : PathUri => (ancestor.parent api).getD ancestor)^[uri.url.segments.length] uri

def joinDescendant (base : PathUri) (path : Text) : Option PathUri :=
  (base.join api path).toOption.filter fun descendant =>
    let windows := base.url.inferPathConvention api = some .windows
    !(path.head? = some '/' ||
      (windows && (path.head? = some '\\' ||
        (path.splitOnP isWindowsSeparator).any fun seg => ':' ∈ seg)) ||
      !descendant.startsWith api base)

end PathUri

theorem utf8EncodeChar_slash : String.utf8EncodeChar '/' = [slash] := by decide

theorem utf8EncodeChar_percent : String.utf8EncodeChar '%' = ['%'.toUInt8] := by decide

theorem decodeBinary_percent {rest : Text} (plain : ∀ fst snd tail, rest = fst :: snd :: tail →
      hexValue fst = none ∨ hexValue snd = none) :
    decodeBinary ('%' :: rest) = '%'.toUInt8 :: decodeBinary rest := by
  match rest with
  | fst :: snd :: tail =>
    rcases plain fst snd tail rfl with none | none
    · simp [decodeBinary, none]
    · cases hexValue fst <;> simp [decodeBinary, none]
  | [] => decide
  | [single] =>
    rw [decodeBinary.eq_3 _ _ (by simp), utf8EncodeChar_percent, singleton_append]

theorem decodeBinary_slash (text : Text) :
    decodeBinary ('/' :: text) = slash :: decodeBinary text := by
  rw [decodeBinary.eq_3 _ _ (by simp), utf8EncodeChar_slash, singleton_append]

theorem decodeBinary_append_slash (front back : Text) :
    decodeBinary (front ++ '/' :: back) = decodeBinary front ++ slash :: decodeBinary back := by
  have slashDigit : hexValue '/' = none := by decide
  fun_induction decodeBinary front with
  | case1 => exact decodeBinary_slash back
  | case2 fst snd tl high low isHigh isLow ih =>
    simp [decodeBinary, isHigh, isLow, ih]
  | case3 fst snd tl none ih =>
    rw [cons_append, decodeBinary_percent, ih, cons_append]
    rintro head next tail eq
    obtain ⟨rfl, rfl, -⟩ : fst = head ∧ snd = next ∧ _ = tail := by simpa using eq
    cases high : hexValue fst with
    | none => exact .inl rfl
    | some digit =>
      refine .inr (Option.eq_none_iff_forall_ne_some.mpr fun low isLow => ?_)
      exact none digit low high isLow
  | case4 c tl plain ih =>
    by_cases percent : c = '%'
    · -- fewer than two characters are left before the slash, which is no digit
      subst percent
      rw [cons_append, decodeBinary_percent, ih, utf8EncodeChar_percent]
      · rfl
      rintro head next tail eq
      match tl with
      | [] =>
        obtain ⟨rfl, -⟩ : '/' = head ∧ _ := by simpa using eq
        exact .inl slashDigit
      | [single] =>
        obtain ⟨-, rfl, -⟩ : single = head ∧ '/' = next ∧ _ := by simpa using eq
        exact .inr slashDigit
      | fst :: snd :: others => exact (plain fst snd others rfl rfl).elim
    rw [cons_append, decodeBinary.eq_3 _ _ (by simp [percent]), ih,
      append_assoc]

theorem decodeBinary_eq_nil {text : Text} : decodeBinary text = [] ↔ text = [] := by
  fun_cases decodeBinary text with
  | case1 | case2 | case3 | case4 => simp

theorem decodeBinary_path (seg : Text) (segs : List Text) :
    decodeBinary ('/' :: ['/'].intercalate (seg :: segs)) =
      ((seg :: segs).map decodeBinary).flatMap (slash :: ·) := by
  induction segs generalizing seg with
  | nil => simp [decodeBinary_slash]
  | cons next segs ih =>
    have joined : '/' :: ['/'].intercalate (seg :: next :: segs) =
        ('/' :: seg) ++ '/' :: ['/'].intercalate (next :: segs) := by
      simp [List.intercalate]
    rw [joined, decodeBinary_append_slash, ← decodeBinary_slash (List.intercalate _ _), ih,
      decodeBinary_slash]
    rfl

theorem toAsciiLowercase_eq_slash (byte : UInt8) :
    toAsciiLowercase byte = slash ↔ byte = slash := by
  rw [toAsciiLowercase]
  split_ifs with upper
  · have low : 65 ≤ byte.toNat := UInt8.le_iff_toNat_le.mp upper.1
    have high : byte.toNat ≤ 90 := UInt8.le_iff_toNat_le.mp upper.2
    have val : slash.toNat = 47 := rfl
    have shift : UInt8.toNat 32 = 32 := rfl
    rw [← UInt8.toNat_inj, ← UInt8.toNat_inj, UInt8.toNat_add, val, shift]
    omega
  · exact Iff.rfl

namespace PathUri

variable {api : UrlApi} {uri other : PathUri}

theorem same_refl (uri : PathUri) : uri.same api uri = true := by
  simp [same]

theorem startsWith_of_same (eq : uri.same api other = true) : uri.startsWith api other = true := by
  rw [startsWith, if_pos eq]

def decodedSegments (segments : List Text) : List (List UInt8) :=
  (if segments = [] then [[]] else segments).map decodeBinary

theorem filter_decodedSegments (segs : List Text) :
    ((decodedSegments segs).map (List.map toAsciiLowercase)).filter (· ≠ []) =
      (nonEmpty segs).map fun seg => (decodeBinary seg).map toAsciiLowercase := by
  have kept : (fun bytes : List UInt8 => decide (bytes ≠ [])) ∘
      (fun seg => (decodeBinary seg).map toAsciiLowercase) =
        fun seg : Text => decide (seg ≠ []) := by
    funext seg
    simp [decodeBinary_eq_nil]
  rw [decodedSegments, map_map, Function.comp_def, filter_map, kept]
  split_ifs with none
  · subst none
    rfl
  · rfl

theorem windowsIdentityPathBytes_eq_some {bytes : List UInt8}
    (identity : windowsIdentityPathBytes api uri = some bytes) :
    uri.url.inferPathConvention api = some .windows ∧ uri.isOpaque api = false ∧
      (∀ seg ∈ uri.url.segments, slash ∉ decodeBinary seg ∧ backslash ∉ decodeBinary seg) ∧
      bytes = (decodedSegments uri.url.segments).flatMap (slash :: ·) := by
  rw [windowsIdentityPathBytes] at identity
  split_ifs at identity with hidden
  simp only [not_or, not_not] at hidden
  obtain ⟨windows, clear, plain⟩ := hidden
  refine ⟨windows, by simp [isOpaque, clear], ?_, ?_⟩
  · intro seg mem
    simp only [any_eq_true, not_exists, not_and, Bool.or_eq_true, decide_eq_true_eq,
      not_or] at plain
    exact ⟨fun hit => (plain seg mem slash hit).1 rfl,
      fun hit => (plain seg mem backslash hit).2 rfl⟩
  rw [← Option.some.inj identity, decodedSegments]
  cases uri.url.segments with
  | nil => decide
  | cons seg segs =>
    rw [decodeBinary_path, if_neg (cons_ne_nil seg segs)]

theorem same_iff : uri.same api other = true ↔ uri.url = other.url ∨
    ∃ path path2, windowsIdentityPathBytes api uri = some path ∧
      windowsIdentityPathBytes api other = some path2 ∧ uri.url.host = other.url.host ∧
      eqIgnoreAsciiCase path path2 = true := by
  rw [same, Bool.or_eq_true, decide_eq_true_eq]
  cases windowsIdentityPathBytes api uri <;> cases windowsIdentityPathBytes api other <;> simp

theorem same_symm (eq : uri.same api other = true) : other.same api uri = true := by
  rcases same_iff.mp eq with url | ⟨path, path2, left, right, host, bytes⟩
  · exact same_iff.mpr (.inl url.symm)
  refine same_iff.mpr (.inr ⟨path2, path, right, left, host.symm, ?_⟩)
  rw [eqIgnoreAsciiCase, decide_eq_true_eq] at bytes ⊢
  exact bytes.symm

theorem inferPathConvention_of_same (eq : uri.same api other = true) :
    uri.url.inferPathConvention api = other.url.inferPathConvention api := by
  rcases same_iff.mp eq with url | ⟨path, path2, left, right, -, -⟩
  · rw [url]
  · rw [(windowsIdentityPathBytes_eq_some left).1, (windowsIdentityPathBytes_eq_some right).1]

theorem containmentPathSegments_of_plain {url : FileUrl} {conv : PathConvention}
    (plain : ∀ seg ∈ url.segments, slash ∉ decodeBinary seg ∧ backslash ∉ decodeBinary seg) :
    containmentPathSegments url conv = some (nonEmpty url.segments) := by
  rw [containmentPathSegments]
  apply if_neg
  simp only [any_eq_true, not_exists, not_and, Bool.or_eq_true, decide_eq_true_eq, not_or,
    Bool.and_eq_true]
  intro seg mem byte here
  obtain ⟨noSlash, noBackslash⟩ := plain seg (mem_of_mem_filter mem)
  exact ⟨fun eq => noSlash (eq ▸ here), fun _ eq => noBackslash (eq ▸ here)⟩

/-- Equal identities have the same decoded segments up to ASCII case. -/
theorem lowercase_segments_of_identity {left right : List Text}
    (plain : ∀ seg ∈ left, slash ∉ decodeBinary seg)
    (plain' : ∀ seg ∈ right, slash ∉ decodeBinary seg)
    (eq : eqIgnoreAsciiCase ((decodedSegments left).flatMap (slash :: ·))
      ((decodedSegments right).flatMap (slash :: ·)) = true) :
    ((nonEmpty left).map fun seg => (decodeBinary seg).map toAsciiLowercase) =
      (nonEmpty right).map fun seg => (decodeBinary seg).map toAsciiLowercase := by
  have lowered : ∀ segs : List (List UInt8), (segs.flatMap (slash :: ·)).map toAsciiLowercase =
        (segs.map (List.map toAsciiLowercase)).flatMap (slash :: ·) := by
    intro segs
    rw [map_flatMap, flatMap_map]
    rfl
  have separate : ∀ segs : List Text, (∀ seg ∈ segs, slash ∉ decodeBinary seg) →
      ∀ item ∈ (decodedSegments segs).map (List.map toAsciiLowercase), slash ∉ item := by
    intro segs absent item mem hit
    obtain ⟨bytes, got, rfl⟩ := List.mem_map.mp mem
    obtain ⟨byte, here, isSlash⟩ := List.mem_map.mp hit
    obtain rfl := (toAsciiLowercase_eq_slash byte).mp isSlash
    obtain ⟨seg, mine, rfl⟩ := List.mem_map.mp got
    split_ifs at mine
    · obtain rfl := mem_singleton.mp mine
      cases here
    · exact absent seg mine here
  rw [eqIgnoreAsciiCase, decide_eq_true_eq, lowered, lowered] at eq
  rw [← filter_decodedSegments, ← filter_decodedSegments,
    Text.eq_of_flatMap_separator (separate left plain) (separate right plain') eq]

theorem lexicalDepth_of_same (eq : uri.same api other = true) :
    uri.lexicalDepth api = other.lexicalDepth api := by
  rcases same_iff.mp eq with url | ⟨path, path2, left, right, -, bytes⟩
  · rw [lexicalDepth, lexicalDepth, isOpaque, isOpaque, url]
  obtain ⟨windows, clear, plain, rfl⟩ := windowsIdentityPathBytes_eq_some left
  obtain ⟨windows', clear', plain', rfl⟩ := windowsIdentityPathBytes_eq_some right
  have length := congrArg List.length (lowercase_segments_of_identity
    (fun seg mem => (plain _ mem).1) (fun seg mem => (plain' _ mem).1) bytes)
  rw [length_map, length_map] at length
  simp [lexicalDepth, clear, clear', windows, windows',
    containmentPathSegments_of_plain plain, containmentPathSegments_of_plain plain', length]

theorem lexicalDepth_le {depth baseDepth : Nat} (below : uri.startsWith api other = true)
    (deep : uri.lexicalDepth api = some depth)
    (baseDeep : other.lexicalDepth api = some baseDepth) : baseDepth ≤ depth := by
  rw [startsWith] at below
  split_ifs at below with eq hidden host convention
  · rw [lexicalDepth_of_same eq, baseDeep] at deep
    exact (Option.some.inj deep).le
  rw [lexicalDepth] at deep baseDeep
  split_ifs at deep baseDeep
  rw [← not_not.mp convention] at baseDeep
  obtain ⟨shared, inferred, cnt⟩ := Option.bind_eq_some_iff.mp deep
  rw [inferred, Option.bind_some] at baseDeep
  obtain ⟨segs, hit, rfl⟩ := Option.map_eq_some_iff.mp cnt
  obtain ⟨baseSegments, baseFound, rfl⟩ := Option.map_eq_some_iff.mp baseDeep
  simp only [inferred, Option.getD_some, hit, baseFound, nativePathSegmentsStartWith,
    Bool.and_eq_true, decide_eq_true_eq] at below
  exact below.1

end PathUri

end Codex.UriPath
