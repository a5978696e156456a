import Codex.UriPath.Join

/-!
# Lexical resolution of path URIs

A relative path is a list of moves, up for `..` and down for a name.
-/

namespace Codex.UriPath

open List Walk

variable (segments : List Text)

def startsWithLowerDrive : Bool :=
  (segments.find? (· ≠ [])).any fun segment =>
    isWindowsDriveUriSegment segment && segment.head?.any fun letter => letter.toUpper ≠ letter

namespace FileUrl

theorem upperDrive_eq_self_iff :
    upperDrive segments = segments ↔ startsWithLowerDrive segments = false := by
  induction segments with
  | nil => simp [upperDrive, startsWithLowerDrive]
  | cons seg segments ih =>
    cases seg with
    | nil => simpa [upperDrive, startsWithLowerDrive] using ih
    | cons letter tl =>
      by_cases drive : isWindowsDriveUriSegment (letter :: tl) = true
      all_goals simp [upperDrive, startsWithLowerDrive, drive]

theorem nonEmpty_upperDrive : nonEmpty (upperDrive segments) = upperDrive (nonEmpty segments) := by
  induction segments with
  | nil => rfl
  | cons seg segments ih =>
    cases seg with
    | nil => simpa [upperDrive, nonEmpty] using ih
    | cons letter tl =>
      by_cases drive : isWindowsDriveUriSegment (letter :: tl) = true
      all_goals simp [upperDrive, nonEmpty, drive]

theorem length_upperDrive : (upperDrive segments).length = segments.length := by
  induction segments with
  | nil => rfl
  | cons seg segments ih => cases seg <;> simp [upperDrive, ih]

theorem nonEmpty_canonical (url : FileUrl) :
    url.canonical.host = (FileUrl.mk url.host (nonEmpty url.segments)).canonical.host ∧
      nonEmpty url.canonical.segments =
        (FileUrl.mk url.host (nonEmpty url.segments)).canonical.segments := by
  obtain ⟨host, segments⟩ := url
  simp only [canonical, withoutLocalhostAuthority, withNormalizedWindowsDriveLetter]
  split_ifs <;> simp_all [nonEmpty_upperDrive]

theorem canonical_of_remote {host : Option Text} (remote : host ≠ some "localhost".toList) :
    (FileUrl.mk host segments).canonical =
      ⟨host, if host = none then upperDrive segments else segments⟩ := by
  cases host with
  | none => rfl
  | some host =>
    simp only [canonical, withoutLocalhostAuthority, remote, if_false,
      withNormalizedWindowsDriveLetter, Option.isSome_some, if_true, reduceCtorEq]

end FileUrl

theorem nonEmpty_popIfEmpty : nonEmpty (popIfEmpty segments) = nonEmpty segments := by
  rw [popIfEmpty]
  split_ifs with trailing
  · obtain ⟨front, rfl⟩ := getLast?_eq_some_iff.mp trailing.2
    simp [nonEmpty]
  · rfl

theorem filter_content_popIfEmpty (segments : List Text) :
    (content (popIfEmpty segments)).filter (· ≠ []) = nonEmpty segments := by
  rw [← nonEmpty_popIfEmpty segments, ← nonEmpty_content]
  rfl

theorem nonEmpty_append (front back : List Text) :
    nonEmpty (front ++ back) = nonEmpty front ++ nonEmpty back :=
  filter_append _ _

theorem nonEmpty_push (seg : Text) :
    nonEmpty (pushSegment segments seg) = nonEmpty segments ++ nonEmpty [seg] := by
  rw [pushSegment]
  split_ifs with root
  · subst root
    rfl
  · exact nonEmpty_append segments [seg]

theorem nonEmpty_foldl_push (segments added : List Text) :
    nonEmpty (added.foldl pushSegment segments) = nonEmpty segments ++ nonEmpty added := by
  induction added generalizing segments with
  | nil => simp [nonEmpty]
  | cons seg added ih =>
    rw [foldl_cons, ih, nonEmpty_push, append_assoc, ← nonEmpty_append, singleton_append]

section

variable (api : UrlApi)

def move (part : Text) : Option (Move Text) :=
  if part = [] ∨ part = "." then none
  else if part = ".." then some .up
  else some (.down (api.encodeSegment part))

theorem ne_nil_of_down {comps : List Text} {segment : Text}
    (down : .down segment ∈ comps.filterMap (move api)) : segment ≠ [] := by
  obtain ⟨part, -, isMove⟩ := mem_filterMap.mp down
  rw [move] at isMove
  split_ifs at isMove with idle up
  · cases isMove
  obtain rfl : api.encodeSegment part = segment := by simpa using isMove
  exact api.encodeSegment_ne_nil part fun empty => idle (.inl empty)

def tidy (place : Place Text) : Place Text := ⟨content place.stack, place.depth⟩

theorem tidy_joinStep (anchor : Nat) (place : Place Text) (part : Text) :
    tidy (joinStep api anchor place part) =
      (move api part).elim (tidy place) (Walk.step anchor (tidy place)) := by
  rw [joinStep, move]
  split_ifs with idle up deep
  · rfl
  · simp [tidy, Walk.step, deep, content_pop]
  · simp [tidy, Walk.step, deep]
  have named : part ≠ [] := fun empty => idle (.inl empty)
  simp [tidy, Walk.step, content_push _ (api.encodeSegment_ne_nil part named)]

theorem tidy_foldl_joinStep (anchor : Nat) (comps : List Text) (place : Place Text) :
    tidy (comps.foldl (joinStep api anchor) place) =
      walk anchor (tidy place) (comps.filterMap (move api)) := by
  rw [walk, foldl_filterMap]
  refine (foldl_hom tidy fun place part => ?_).symm
  rw [tidy_joinStep]
  cases move api part <;> rfl

theorem tidy_popToAnchor (anchor depth : Nat) (segments : List Text) :
    tidy (popToAnchor anchor depth segments) =
      walk anchor ⟨content segments, depth⟩ (List.replicate (depth - anchor) .up) := by
  induction depth generalizing segments with
  | zero => rw [Nat.zero_sub]; rfl
  | succ depth ih =>
    rw [popToAnchor]
    split_ifs with deep
    · have one : depth + 1 - anchor = depth - anchor + 1 := by omega
      rw [ih, one, replicate_succ, content_pop, walk, walk, foldl_cons]
      simp [Walk.step, deep]
    have none : depth + 1 - anchor = 0 := by omega
    rw [none]
    rfl

def joinMoves (convention : PathConvention) (depth : Nat) (path : Text) : List (Move Text) :=
  (if convention = .windows ∧ isRootRelative path then
      List.replicate (depth - convention.anchorDepth) .up else []) ++
    (pathComponents convention path).filterMap (move api)

theorem content_joinRelative (convention : PathConvention) (url : FileUrl) (path : Text) :
    content (joinRelative api convention url path).segments = (walk convention.anchorDepth
        ⟨content (popIfEmpty url.segments), (nonEmpty url.segments).length⟩
        (joinMoves api convention (nonEmpty url.segments).length path)).stack := by
  have run := tidy_foldl_joinStep api convention.anchorDepth (pathComponents convention path)
  by_cases rooted : convention = .windows ∧ isRootRelative path = true
  · rw [joinMoves, if_pos rooted, walk_append, ← tidy_popToAnchor, ← run, joinRelative]
    simp only [if_pos rooted]
    rfl
  rw [joinMoves, if_neg rooted, nil_append, joinRelative]
  simp only [if_neg rooted]
  exact congrArg Place.stack
    (run ⟨popIfEmpty url.segments, (nonEmpty url.segments).length⟩)

theorem down_of_joinMoves {convention : PathConvention} {depth : Nat} {path seg : Text}
    (down : .down seg ∈ joinMoves api convention depth path) : seg ≠ [] := by
  rcases mem_append.mp down with ascent | named
  · split_ifs at ascent
    · cases (mem_replicate.mp ascent).2
    · cases ascent
  · exact ne_nil_of_down api named

end

def relativeText (convention : PathConvention) (path : Text) : Text :=
  match convention, path with
  | .windows, drive :: ':' :: rest => if drive.isAlpha then rest else path
  | _, path => path

theorem eq_relativeText {convention : PathConvention} {url : FileUrl} {path text : Text}
    (stripped : stripSameDrive convention url path = .ok text) :
    text = relativeText convention path := by
  unfold stripSameDrive at stripped
  unfold relativeText
  split at stripped
  · split_ifs at stripped with letter eq
    all_goals simpa [letter] using stripped.symm
  · simp_all

namespace PathUri

variable (api : UrlApi) (base : PathUri)

variable (path : Text)

/-- Those of the base, or of its root for a rooted path, and the components of the path. -/
def resolved : List Text :=
  let text := relativeText (base.convention api) path
  let segments := nonEmpty base.url.segments
  resolve (base.convention api).anchorDepth
    (if base.convention api = .windows ∧ isRootRelative text then
      segments.take (base.convention api).anchorDepth else segments)
    ((pathComponents (base.convention api) text).filterMap (move api))

def ascent : Nat :=
  let depth := (nonEmpty base.url.segments).length
  (net (base.convention api).anchorDepth depth
    (joinMoves api (base.convention api) depth
      (relativeText (base.convention api) path))).removed

/-- The raw segments, without a trailing empty one, that some ascents remove. -/
def lastSegments (count : Nat) : List Text := (content (popIfEmpty base.url.segments)).rtake count

def JoinsTo (res : PathUri) : Prop :=
  res.url.host = base.url.host ∧ nonEmpty res.url.segments = base.resolved api path

def ParentIsLexical : Prop :=
  match base.parent api with
  | none => base.isRoot api
  | some parent => ¬ base.isRoot api ∧ parent.url.host = base.url.host ∧
      nonEmpty parent.url.segments = (nonEmpty base.url.segments).dropLast

variable {api base}

theorem resolved_eq : base.resolved api path =
      resolve (base.convention api).anchorDepth (nonEmpty base.url.segments)
        (joinMoves api (base.convention api) (nonEmpty base.url.segments).length
          (relativeText (base.convention api) path)) := by
  rw [resolved, joinMoves]
  split_ifs
  · rw [resolve_replicate_up]
  · rw [nil_append]

theorem nonEmpty_joinRelative_iff (path : Text) :
    let joined := joinRelative api (base.convention api) base.url
      (relativeText (base.convention api) path)
    let tidy := ∀ seg ∈ base.lastSegments (base.ascent api path), seg ≠ []
    (nonEmpty joined.segments = base.resolved api path ↔ tidy) ∧
      ((nonEmpty joined.segments).length = (base.resolved api path).length ↔ tidy) := by
  intro joined tidy
  have cnt := filter_content_popIfEmpty base.url.segments
  have walked := @filter_walk_iff _ (base.convention api).anchorDepth
    (content (popIfEmpty base.url.segments)) (fun seg => decide (seg ≠ []))
    (joinMoves api (base.convention api) (nonEmpty base.url.segments).length
      (relativeText (base.convention api) path))
    (fun seg down => decide_eq_true (down_of_joinMoves api down))
  rw [cnt, ← content_joinRelative, ← resolved_eq] at walked
  simp only [decide_eq_true_eq] at walked
  rw [← nonEmpty_content joined.segments]
  exact walked

/-- No empty segment is removed, and the path does not begin with a lower-case drive. -/
theorem joinRelative_lexical_iff {path : Text} {res : PathUri}
    (joined : res.url = (joinRelative api (base.convention api) base.url
      (relativeText (base.convention api) path)).canonical) :
    base.JoinsTo api path res ↔ (∀ seg ∈ base.lastSegments (base.ascent api path), seg ≠ []) ∧
        (base.url.host = none → startsWithLowerDrive (base.resolved api path) = false) := by
  obtain ⟨remote, -⟩ := FileUrl.canonical_eq_self_iff.mp base.canonical
  obtain ⟨eq, long⟩ := @nonEmpty_joinRelative_iff api base path
  obtain ⟨host, segments⟩ := FileUrl.nonEmpty_canonical (joinRelative api (base.convention api)
    base.url (relativeText (base.convention api) path))
  have kept : (joinRelative api (base.convention api) base.url
      (relativeText (base.convention api) path)).host = base.url.host := rfl
  rw [kept, FileUrl.canonical_of_remote _ remote] at host segments
  rw [JoinsTo, joined, host, segments, ← eq]
  by_cases bare : base.url.host = none
  · simp only [bare, if_true, true_and, true_implies]
    rw [← FileUrl.upperDrive_eq_self_iff]
    constructor
    · intro written
      have size := congrArg List.length written
      rw [FileUrl.length_upperDrive] at size
      have walked := eq.mpr (long.mp size)
      exact ⟨walked, by rw [walked] at written; exact written⟩
    rintro ⟨walked, upper⟩
    rw [walked, upper]
  · simp [bare]

theorem joinsTo_self : base.JoinsTo api [] base := by
  refine ⟨rfl, ?_⟩
  rw [resolved]
  cases base.convention api <;> simp [relativeText, pathComponents, isRootRelative, move,
    resolve, walk, List.splitOn]

theorem tidy_self : (∀ seg ∈ base.lastSegments (base.ascent api []), seg ≠ []) ∧
    (base.url.host = none → startsWithLowerDrive (base.resolved api []) = false) := by
  have still : base.ascent api [] = 0 := by
    rw [ascent]
    cases base.convention api <;> simp [relativeText, pathComponents, isRootRelative, move,
      joinMoves, net, List.splitOn]
  constructor
  · simp [still, lastSegments, List.rtake]
  intro bare
  obtain ⟨-, upper⟩ := FileUrl.canonical_eq_self_iff.mp base.canonical
  rw [← joinsTo_self.2, ← FileUrl.upperDrive_eq_self_iff, ← FileUrl.nonEmpty_upperDrive, upper bare]

end PathUri

section

variable {api : UrlApi}

def spelledWindows (path : Text) : Option (Option Text × List Text) :=
  if isWindowsDriveAbsolutePath path then
    some (none, path.take 2 :: (path.drop 3).splitOnP isWindowsSeparator)
  else match (path.drop 2).splitOnP isWindowsSeparator with
    | host :: share :: comps => some (some host, share :: comps)
    | _ => none

variable (convention : PathConvention)

def spelled (path : Text) : Option (Option Text × List Text) :=
  match convention, path with
  | .posix, '/' :: tl => some (none, tl.splitOn '/')
  | .posix, _ => none
  | .windows, path => spelledWindows ((normalizeWindowsDevicePath path).getD path)

def SpelledBy (api : UrlApi) (convention : PathConvention) (host : Option Text)
    (comps : List Text) (uri : PathUri) : Prop :=
  let target : FileUrl := ⟨host.bind api.parseHost,
    resolve convention.anchorDepth [] (comps.filterMap (move api))⟩
  uri.url.host = target.canonical.host ∧ nonEmpty uri.url.segments = target.canonical.segments

theorem next_eq_step (anchor : Nat) (st : Normalizing) (part : Text) :
    (⟨(st.next anchor part).segments.map api.encodeSegment,
        (st.next anchor part).depth⟩ : Place Text) =
      (move api part).elim ⟨st.segments.map api.encodeSegment, st.depth⟩
        (Walk.step anchor ⟨st.segments.map api.encodeSegment, st.depth⟩) := by
  by_cases empty : part = []
  · simp [Normalizing.next, move, empty]
  by_cases dot : part = "."
  · simp [Normalizing.next, move, dot]
  by_cases up : part = ".."
  · by_cases deep : anchor < st.depth
    · simp [Normalizing.next, move, up, deep, Walk.step, map_dropLast]
    · simp [Normalizing.next, move, up, deep, Walk.step]
  simp only [Normalizing.next, move, empty, dot, up, if_false, or_self, Option.elim_some,
    Walk.step, map_append, map_singleton]

theorem foldl_next_eq_walk (anchor : Nat) (comps : List Text) (st : Normalizing) :
    (⟨(comps.foldl (Normalizing.next anchor) st).segments.map api.encodeSegment,
        (comps.foldl (Normalizing.next anchor) st).depth⟩ : Place Text) =
      walk anchor ⟨st.segments.map api.encodeSegment, st.depth⟩ (comps.filterMap (move api)) := by
  rw [walk, foldl_filterMap]
  refine (foldl_hom (fun st : Normalizing => (⟨st.segments.map api.encodeSegment, st.depth⟩ :
    Place Text)) fun st part => ?_).symm
  rw [next_eq_step]
  cases move api part <;> rfl

theorem nonEmpty_resolve_nil (anchor : Nat) (comps : List Text) :
    nonEmpty (resolve anchor [] (comps.filterMap (move api))) =
      resolve anchor [] (comps.filterMap (move api)) :=
  filter_eq_self.mpr fun _ mem =>
    decide_eq_true (ne_nil_of_down api (mem_resolve_nil mem))

variable {uri : PathUri} {convention : PathConvention} {path : Text}

theorem url_of_tryFrom {url : FileUrl} (taken : (PathUri.tryFrom api url).toOption = some uri) :
    uri.url = url.canonical := by
  rw [PathUri.tryFrom] at taken
  split at taken
  · cases taken
  cases taken
  rfl

theorem nonEmpty_normalizedSegments (host : Option Text) (comps : List Text) :
    nonEmpty (((normalizedSegments convention host comps).map api.encodeSegment).foldl
        pushSegment rootSegments) =
      resolve convention.anchorDepth [] (comps.filterMap (move api)) := by
  have walked := congrArg (nonEmpty ∘ Place.stack)
    (@foldl_next_eq_walk api convention.anchorDepth comps {})
  rw [← nonEmpty_resolve_nil, nonEmpty_foldl_push, normalizedSegments, map_append, nonEmpty_append]
  have root : nonEmpty rootSegments = [] := rfl
  have sep : nonEmpty ([[]].map api.encodeSegment) = [] := by
    simp [nonEmpty, api.encodeSegment_nil]
  split_ifs
  · rw [root, sep, nil_append, append_nil]
    exact walked
  rw [root, nil_append, map_nil]
  exact (append_nil _).trans walked

theorem spelledBy_of_pathUriFromSegments {host : Option Text} {comps : List Text}
    (built : pathUriFromSegments api convention host comps = some uri) :
    SpelledBy api convention host comps uri := by
  have tgt : ∃ url : FileUrl, uri.url = url.canonical ∧ url.host = host.bind api.parseHost ∧
      nonEmpty url.segments = resolve convention.anchorDepth [] (comps.filterMap (move api)) := by
    have segments := @nonEmpty_normalizedSegments api convention host comps
    cases host with
    | none => exact ⟨_, url_of_tryFrom built, rfl, segments⟩
    | some host =>
      obtain ⟨stored, parsed, taken⟩ := Option.bind_eq_some_iff.mp built
      exact ⟨_, url_of_tryFrom taken, parsed.symm, segments⟩
  obtain ⟨url, written, hosted, segments⟩ := tgt
  rw [SpelledBy, written, ← hosted, ← segments]
  exact FileUrl.nonEmpty_canonical url

def OpaqueOrSpelled (api : UrlApi) (convention : PathConvention)
    (reading : Option (Option Text × List Text)) (uri : PathUri) : Prop :=
  (∃ bytes, uri = fromOpaquePathBytes api bytes) ∨ ∃ host comps, reading = some (host, comps) ∧
      SpelledBy api convention host comps uri

theorem parsePosixPath_cases (parsed : parsePosixPath api path = some uri) :
    OpaqueOrSpelled api .posix (spelled .posix path) uri := by
  unfold parsePosixPath at parsed
  split at parsed
  · split_ifs at parsed
    · exact .inl ⟨_, (Option.some.inj parsed).symm⟩
    · exact .inr ⟨_, _, rfl, spelledBy_of_pathUriFromSegments parsed⟩
  · cases parsed

theorem parseUnnormalizedWindowsPath_cases
    (parsed : parseUnnormalizedWindowsPath api path = some uri) :
    OpaqueOrSpelled api .windows (spelledWindows path) uri := by
  unfold parseUnnormalizedWindowsPath at parsed
  split_ifs at parsed with special drive
  · exact .inl ⟨_, (Option.some.inj parsed).symm⟩
  · exact .inr ⟨_, _, if_pos drive, spelledBy_of_pathUriFromSegments parsed⟩
  split at parsed
  · split_ifs at parsed
    split at parsed
    · rename_i host share comps split
      split_ifs at parsed
      rw [Option.orElse_eq_orElse, Option.orElse_eq_or] at parsed
      rcases Option.or_eq_some_iff.mp parsed with built | ⟨-, fallback⟩
      · refine .inr ⟨some host, share :: comps, ?_, spelledBy_of_pathUriFromSegments built⟩
        rw [spelledWindows, if_neg drive]
        simp [split]
      · exact .inl ⟨_, (Option.some.inj fallback).symm⟩
    · cases parsed
  · cases parsed

theorem parseWindowsPath_cases (parsed : parseWindowsPath api path = some uri) :
    OpaqueOrSpelled api .windows (spelled .windows path) uri := by
  unfold parseWindowsPath at parsed
  split at parsed
  · rename_i plain
    have reading : spelled .windows path = spelledWindows path := by
      rw [spelled, plain, Option.getD_none]
    rw [reading]
    exact parseUnnormalizedWindowsPath_cases parsed
  rename_i normalized device
  have reading : spelled .windows path = spelledWindows normalized := by
    rw [spelled, device, Option.getD_some]
  dsimp only at parsed
  split_ifs at parsed
  · exact .inl ⟨_, (Option.some.inj parsed).symm⟩
  rw [reading]
  generalize kept : (parseUnnormalizedWindowsPath api normalized).filter _ = ordinary
    at parsed
  cases ordinary with
  | none => exact .inl ⟨_, (Option.some.inj parsed).symm⟩
  | some hit =>
    obtain rfl : hit = uri := Option.some.inj parsed
    exact parseUnnormalizedWindowsPath_cases (Option.filter_eq_some_iff.mp kept).1

theorem fromAbsoluteNativePath_cases
    (absolute : fromAbsoluteNativePath api path convention = some uri) :
    OpaqueOrSpelled api convention (spelled convention path) uri := by
  cases convention with
  | posix =>
    obtain ⟨hit, parsed, eq⟩ := Option.map_eq_some_iff.mp absolute
    split_ifs at eq
    · exact eq ▸ parsePosixPath_cases parsed
    · exact .inl ⟨_, eq.symm⟩
  | windows =>
    obtain ⟨hit, parsed, eq⟩ := Option.map_eq_some_iff.mp absolute
    split_ifs at eq
    · exact eq ▸ parseWindowsPath_cases parsed
    · exact .inl ⟨_, eq.symm⟩

theorem fromAbsoluteNativePath_nil : fromAbsoluteNativePath api [] convention = none := by
  cases convention <;> rfl

end

namespace PathUri

variable {api : UrlApi} {base : PathUri}

/-- An empty path leaves the base, an absolute one replaces it, a relative one is walked. -/
theorem join_cases {path : Text} {res : PathUri} (joined : base.join api path = .ok res) :
    (path = [] ∧ res = base) ∨ fromAbsoluteNativePath api path (base.convention api) = some res ∨
      (fromAbsoluteNativePath api path (base.convention api) = none ∧
        res.url = (joinRelative api (base.convention api) base.url
          (relativeText (base.convention api) path)).canonical) := by
  rw [join] at joined
  by_cases null : '\x00' ∈ path
  · rw [if_pos null] at joined
    cases joined
  by_cases empty : path = []
  · rw [if_neg null, if_pos empty] at joined
    exact .inl ⟨empty, (Except.ok.inj joined).symm⟩
  rw [if_neg null, if_neg empty] at joined
  cases inferred : base.url.inferPathConvention api with
  | none => simp [inferred] at joined
  | some convention =>
    have spelling : base.convention api = convention := by
      rw [PathUri.convention, inferred, Option.getD_some]
    rw [spelling]
    simp only [inferred] at joined
    cases absolute : fromAbsoluteNativePath api path convention with
    | some hit =>
      simp only [absolute] at joined
      exact .inr (.inl (by rw [Except.ok.inj joined]))
    | none =>
      simp only [absolute] at joined
      cases stripped : stripSameDrive convention base.url path with
      | error fault => simp [stripped] at joined
      | ok text =>
        simp only [stripped] at joined
        split_ifs at joined
        rw [eq_relativeText stripped] at joined
        exact .inr (.inr ⟨rfl, url_of_tryFrom (by rw [joined]; rfl)⟩)

theorem parentIsLexical_iff : base.ParentIsLexical api ↔
      base.isRoot api = true ∨ ∀ seg ∈ base.lastSegments 1, seg ≠ [] := by
  rw [ParentIsLexical, parent]
  by_cases root : base.isRoot api = true
  · simp [root]
  have deep : 1 ≤ (nonEmpty base.url.segments).length := by
    rw [isRoot] at root
    split at root
    · simp only [decide_eq_true_eq, not_le] at root
      omega
    · exact absurd rfl root
  have cnt := filter_content_popIfEmpty base.url.segments
  have le : 1 ≤ ((content (popIfEmpty base.url.segments)).filter (· ≠ [])).length := by
    rwa [cnt]
  have removed : (nonEmpty (popSegment (popIfEmpty base.url.segments))) =
      ((content (popIfEmpty base.url.segments)).rdrop 1).filter (· ≠ []) := by
    rw [← nonEmpty_content, content_pop, dropLast_eq_take]
    rfl
  have last : (nonEmpty base.url.segments).dropLast =
      ((content (popIfEmpty base.url.segments)).filter (· ≠ [])).rdrop 1 := by
    rw [cnt, dropLast_eq_take]
    rfl
  have size := filter_rdrop_iff (fun seg : Text => decide (seg ≠ [])) le
  simp only [root, if_false, Bool.false_eq_true, not_false_eq_true, true_and, false_or]
  rw [removed, last]
  constructor
  · intro eq seg mem
    rw [eq, length_rdrop] at size
    exact of_decide_eq_true (size.mp rfl seg mem)
  intro named
  exact filter_rdrop le fun seg mem => decide_eq_true (named seg mem)

end PathUri

/-- Join and parent are lexical where no empty segment is removed and no lower-case drive results.
-/
theorem join_parent_lexical_iff (api : UrlApi) (base : PathUri) :
    (∀ path res, base.join api path = .ok res →
      match fromAbsoluteNativePath api path (base.convention api) with
      | some absolute => res = absolute ∧ OpaqueOrSpelled api (base.convention api)
          (spelled (base.convention api) path) res
      | none => base.JoinsTo api path res ↔
          (∀ segment ∈ base.lastSegments (base.ascent api path), segment ≠ []) ∧
            (base.url.host = none → startsWithLowerDrive (base.resolved api path) = false)) ∧
    (base.ParentIsLexical api ↔
      base.isRoot api = true ∨ ∀ segment ∈ base.lastSegments 1, segment ≠ []) := by
  refine ⟨fun path res joined => ?_, PathUri.parentIsLexical_iff⟩
  rcases PathUri.join_cases joined with ⟨rfl, rfl⟩ | absolute | ⟨relative, walked⟩
  · rw [fromAbsoluteNativePath_nil]
    exact iff_of_true PathUri.joinsTo_self PathUri.tidy_self
  · rw [absolute]
    exact ⟨rfl, fromAbsoluteNativePath_cases absolute⟩
  rw [relative]
  exact PathUri.joinRelative_lexical_iff walked

theorem join_parent_lexical_sibling :
    let base := localUri ["a", "b"] rfl
    base.join asciiUrlApi "../c" = .ok (localUri ["a", "c"] rfl) ∧
      base.JoinsTo asciiUrlApi "../c" (localUri ["a", "c"] rfl) ∧
      base.ParentIsLexical asciiUrlApi := by
  intro base
  have joined : base.join asciiUrlApi "../c" =
      .ok (localUri ["a", "c"] rfl) := rfl
  obtain ⟨join, parent⟩ := join_parent_lexical_iff asciiUrlApi base
  exact ⟨joined, (join _ _ joined).mpr ⟨by decide, by decide⟩, parent.mpr (.inr (by decide))⟩

/-- Two steps up from `file:///a//b` is `file:///a`, and one from `file:///a/b//` is `file:///a/b`.
-/
theorem join_parent_keep_empty_segments :
    let twice := localUri ["a", [], "b"] rfl
    let trailing := localUri ["a", "b", [], []] rfl
    twice.join asciiUrlApi "../.." = .ok (localUri ["a"] rfl) ∧
      ¬ twice.JoinsTo asciiUrlApi "../.." (localUri ["a"] rfl) ∧
      trailing.parent asciiUrlApi = some (localUri ["a", "b"] rfl) ∧
      ¬ trailing.ParentIsLexical asciiUrlApi := by
  intro twice trailing
  exact ⟨rfl, fun lexical => absurd lexical.2 (by decide), rfl,
    fun lexical => absurd lexical.2.2 (by decide)⟩

end Codex.UriPath
