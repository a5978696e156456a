import Codex.Foundation.Glob
import Codex.Foundation.Lowercase
import Codex.Foundation.Run

/-!
# Domain patterns of the network proxy

A pattern names a host, the subdomains of a domain, or both.
-/

namespace Codex.NetworkProxy

inductive NetworkDomainPermission
  | none
  | allow
  | deny
  deriving DecidableEq

namespace NetworkDomainPermission

def rank : NetworkDomainPermission → Nat
  | none => 0
  | allow => 1
  | deny => 2

def strictest (first snd : NetworkDomainPermission) : NetworkDomainPermission :=
  if first.rank < snd.rank then snd else first

end NetworkDomainPermission

structure NetworkDomainPermissionEntry where
  pattern : Text
  permission : NetworkDomainPermission

def recordPermission (entry : NetworkDomainPermissionEntry) :
    List NetworkDomainPermissionEntry → List NetworkDomainPermissionEntry
  | [] => [entry]
  | known :: rest =>
    if known.pattern = entry.pattern then
      { known with permission := known.permission.strictest entry.permission } :: rest
    else known :: recordPermission entry rest

def effectiveEntries (entries : List NetworkDomainPermissionEntry) :
    List NetworkDomainPermissionEntry :=
  entries.foldl (fun effective entry => recordPermission entry effective) []

open List

theorem recordPermission_of_new {ent : NetworkDomainPermissionEntry}
    {effective : List NetworkDomainPermissionEntry}
    (new : ∀ known ∈ effective, known.pattern ≠ ent.pattern) :
    recordPermission ent effective = effective ++ [ent] := by
  induction effective with
  | nil => rfl
  | cons known tl ih =>
    rw [recordPermission, if_neg (new known mem_cons_self),
      ih fun y later => new y (mem_cons_of_mem _ later)]
    rfl

theorem effectiveEntries_of_distinct {entries : List NetworkDomainPermissionEntry}
    (nodup : entries.Pairwise fun ent y => ent.pattern ≠ y.pattern) :
    effectiveEntries entries = entries := by
  rw [effectiveEntries]
  induction entries using reverseRecOn with
  | nil => rfl
  | append_singleton entries ent ih =>
    have ⟨front, _, cross⟩ := pairwise_append.mp nodup
    rw [foldl_append, ih front]
    exact recordPermission_of_new fun known mem => cross known mem ent (by simp)

inductive NetworkUnixSocketPermission
  | allow
  | deny
  deriving DecidableEq

inductive NetworkMode
  | limited
  | full
  deriving DecidableEq

namespace NetworkMode

def rank : NetworkMode → Nat
  | limited => 0
  | full => 1

def debugName : NetworkMode → Text
  | limited => "Limited"
  | full => "Full"

end NetworkMode

structure NetworkProxyConfig (Hooks : Type) where
  enabled : Bool := false
  allowUpstreamProxy : Bool := true
  dangerouslyAllowNonLoopbackProxy : Bool := false
  dangerouslyAllowAllUnixSockets : Bool := false
  mode : NetworkMode := .full
  domains : Option (List NetworkDomainPermissionEntry) := none
  unixSockets : Option (List (Text × NetworkUnixSocketPermission)) := none
  allowLocalBinding : Bool := false
  mitmHooks : Hooks

namespace NetworkProxyConfig

variable {Hooks : Type} (config : NetworkProxyConfig Hooks)

def domainEntries (permission : NetworkDomainPermission) : Option (List Text) :=
  (config.domains.map fun entries =>
    ((effectiveEntries entries).filter fun entry => entry.permission = permission).map
      (·.pattern)).filter (· ≠ [])

def allowedDomains : Option (List Text) := config.domainEntries .allow

def deniedDomains : Option (List Text) := config.domainEntries .deny

def allowUnixSockets : List Text :=
  ((config.unixSockets.getD []).filter fun entry => entry.2 = .allow).map (·.1)

end NetworkProxyConfig

open Text (trim toAsciiLowercase splitOnce)

structure HostParsers where
  isIpAddr : Text → Bool
  parseUrlHost : Text → Option Text

def trimDots (text : Text) : Text := text.rdropWhile (· = '.')

section

variable (pars : HostParsers)

def normalizeIpLiteral (host : Text) : Option Text :=
  if pars.isIpAddr host then some host
  else ["%25".toList, "%".toList].findSome? fun delimiter =>
    (splitOnce delimiter host).bind fun parts =>
      if pars.isIpAddr parts.1 then some (parts.1 ++ '%' :: parts.2) else none

def normalizeDnsHostOrIpLiteral (host : Text) : Text :=
  let host := trimDots (toAsciiLowercase host)
  (normalizeIpLiteral pars host).getD host

def normalizeHost (host : Text) : Text :=
  let host := trim host
  if host.head? = some '[' ∧ ']' ∈ host then
    normalizeDnsHostOrIpLiteral pars ((host.drop 1).takeWhile (· ≠ ']'))
  -- a single colon separates a port; an unbracketed IPv6 address has several
  else if host.count ':' = 1 then
    normalizeDnsHostOrIpLiteral pars (host.takeWhile (· ≠ ':'))
  else normalizeDnsHostOrIpLiteral pars host

def normalizePattern (pattern : Text) : Text :=
  let pattern := trim pattern
  if pattern = "*" then "*"
  else match pattern.dropPrefix? "**." with
    | some domain => "**." ++ normalizeHost pars domain
    | none =>
      match pattern.dropPrefix? "*." with
      | some domain => "*." ++ normalizeHost pars domain
      | none => normalizeHost pars pattern

end

inductive DomainPattern
  | apexAndSubdomains (domain : Text)
  | subdomainsOnly (domain : Text)
  | exact (domain : Text)
  deriving DecidableEq

namespace DomainPattern

def domain : DomainPattern → Text
  | apexAndSubdomains domain => domain
  | subdomainsOnly domain => domain
  | exact domain => domain

def parseDomain (domain : Text) (build : Text → DomainPattern) : DomainPattern :=
  let domain := trim domain
  if domain = [] then exact [] else build domain

def parse (input : Text) : DomainPattern :=
  let input := trim input
  if input = [] then exact []
  else match input.dropPrefix? "**." with
    | some domain => parseDomain domain apexAndSubdomains
    | none =>
      match input.dropPrefix? "*." with
      | some domain => parseDomain domain subdomainsOnly
      | none => exact input

end DomainPattern

/-- A domain as the comparison with constraints sees it. -/
def parseDomainForConstraints (pars : HostParsers) (domain : Text) : Text :=
  let domain := trimDots (trim domain)
  if domain = [] then []
  else
    let host := if domain.head? = some '[' ∧ domain.getLast? = some ']' then
      (domain.drop 1).dropLast else domain
    if '*' ∈ host ∨ '?' ∈ host ∨ '%' ∈ host then domain
    else (pars.parseUrlHost host).getD []

def normalizeDomain (domain : Text) : Text := toAsciiLowercase (trimDots domain)

def domainEq (left right : Text) : Bool := normalizeDomain left = normalizeDomain right

def isSubdomainOrEqual (child parent : Text) : Bool :=
  normalizeDomain child = normalizeDomain parent ||
    ('.' :: normalizeDomain parent).isSuffixOf (normalizeDomain child)

def isStrictSubdomain (child parent : Text) : Bool :=
  normalizeDomain child ≠ normalizeDomain parent &&
    ('.' :: normalizeDomain parent).isSuffixOf (normalizeDomain child)

namespace DomainPattern

def parseForConstraints (pars : HostParsers) (input : Text) : DomainPattern :=
  let input := trim input
  if input = [] then exact []
  else match input.dropPrefix? "**." with
    | some domain => apexAndSubdomains (parseDomainForConstraints pars domain)
    | none =>
      match input.dropPrefix? "*." with
      | some domain => subdomainsOnly (parseDomainForConstraints pars domain)
      | none => exact (parseDomainForConstraints pars input)

def allows : DomainPattern → DomainPattern → Bool
  | exact domain, exact cand => domainEq cand domain
  | exact _, _ => false
  | subdomainsOnly domain, exact cand => isStrictSubdomain cand domain
  | subdomainsOnly domain, subdomainsOnly cand => isSubdomainOrEqual cand domain
  | subdomainsOnly domain, apexAndSubdomains cand => isStrictSubdomain cand domain
  | apexAndSubdomains domain, cand => isSubdomainOrEqual cand.domain domain

def globs : DomainPattern → List Text
  | exact domain => [domain]
  | subdomainsOnly domain => ["?*." ++ domain]
  | apexAndSubdomains domain => [domain, "?*." ++ domain]

end DomainPattern

def expandDomainPattern (pattern : Text) : List Text := (DomainPattern.parse pattern).globs

def PlainGlob (glob : Text) : Prop :=
  ∀ c ∈ glob, c ≠ '[' ∧ c ≠ ']' ∧ c ≠ '\x7b' ∧ c ≠ '\x7d' ∧ c ≠ '\\'

instance (glob : Text) : Decidable (PlainGlob glob) :=
  List.decidableBAll (fun c => c ≠ '[' ∧ c ≠ ']' ∧ c ≠ '\x7b' ∧ c ≠ '\x7d' ∧ c ≠ '\\') glob

def globTokens (glob : Text) : List (Glob.Token Char) :=
  glob.map fun c => if c = '*' then .many else if c = '?' then .one none else .one (some c)

/-- The glob library, for patterns with no other special characters than `*` and `?`. -/
structure GlobEngine where
  builds : Text → Bool
  isMatch : Text → Text → Bool
  sameLetter : Char → Char → Bool
  plain_builds : ∀ glob, PlainGlob glob → builds glob = true
  /-- `*` stands for any text and `?` for any one character. -/
  wildcards : ∀ glob host, PlainGlob glob →
    isMatch glob host = Glob.isMatch sameLetter (globTokens glob) host
  /-- Letters are the same up to their case. -/
  same_refl : ∀ c, sameLetter c c = true
  same_trans : ∀ c d e, sameLetter c d = true → sameLetter d e = true → sameLetter c e = true
  same_dot : ∀ c, sameLetter '.' c = true → c = '.'

inductive GlobalWildcard
  | allow
  | reject
  deriving DecidableEq

section

variable (pars : HostParsers) (engine : GlobEngine)

def isGlobalWildcardDomainPattern (pattern : Text) : Bool :=
  (expandDomainPattern (normalizePattern pars pattern)).any (· = "*")

def addGlob (globs : List Text) (cand : Text) : Except Text (List Text) :=
  if cand ∈ globs then .ok globs
  else if engine.builds cand then .ok (globs ++ [cand])
  else .error ("invalid glob pattern: " ++ cand)

def addPattern (globalWildcard : GlobalWildcard) (globs : List Text) (pattern : Text) :
    Except Text (List Text) :=
  if globalWildcard = .reject ∧ isGlobalWildcardDomainPattern pars pattern then
    .error ("unsupported global wildcard domain pattern \"*\"; use exact hosts or scoped " ++
      "wildcards like *.example.com or **.example.com").toList
  else (expandDomainPattern (normalizePattern pars pattern)).foldlM (addGlob engine) globs

def compileGlobsetWithPolicy (globalWildcard : GlobalWildcard) (pats : List Text) :
    Except Text (List Text) :=
  pats.foldlM (addPattern pars engine globalWildcard) []

def compileAllowlistGlobset (pats : List Text) : Except Text (List Text) :=
  compileGlobsetWithPolicy pars engine .allow pats

def compileDenylistGlobset (pats : List Text) : Except Text (List Text) :=
  compileGlobsetWithPolicy pars engine .reject pats

def GlobEngine.anyMatch (engine : GlobEngine) (globs : List Text) (host : Text) : Bool :=
  globs.any (engine.isMatch · host)

end

open Text

section

variable {pars : HostParsers}

theorem caseless_of_wildcard {marker : Text} (wildcard : marker ⊆ "*.") :
    ∀ d ∈ marker, Caseless d := by
  intro d mem
  apply caseless_of_toNat
  have dotOrStar : d = '*' ∨ d = '.' := by simpa using wildcard mem
  rcases dotOrStar with rfl | rfl <;> decide

variable (host : Text)

theorem normalizeHost_toAsciiLowercase :
    normalizeHost pars (toAsciiLowercase host) = normalizeHost pars host := by
  have dns : ∀ host, normalizeDnsHostOrIpLiteral pars (toAsciiLowercase host) =
      normalizeDnsHostOrIpLiteral pars host := by
    simp [normalizeDnsHostOrIpLiteral]
  have opening : Caseless '[' := caseless_of_toNat (by decide)
  have closing : Caseless ']' := caseless_of_toNat (by decide)
  have colon : Caseless ':' := caseless_of_toNat (by decide)
  have past : ∀ text : Text, (toAsciiLowercase text).drop 1 = toAsciiLowercase (text.drop 1) := by
    simp [toAsciiLowercase]
  simp only [normalizeHost, trim_toAsciiLowercase, head?_toAsciiLowercase_eq_iff opening,
    mem_toAsciiLowercase closing, count_toAsciiLowercase colon, past,
    takeWhile_ne_toAsciiLowercase closing, takeWhile_ne_toAsciiLowercase colon, dns]

theorem normalizePattern_toAsciiLowercase (pattern : Text) :
    normalizePattern pars (toAsciiLowercase pattern) = normalizePattern pars pattern := by
  have star := @caseless_of_wildcard "*" (by decide)
  have apex := @caseless_of_wildcard "**." (by decide)
  have below := @caseless_of_wildcard "*." (by decide)
  simp only [normalizePattern, trim_toAsciiLowercase, toAsciiLowercase_eq_iff star,
    dropPrefix?_toAsciiLowercase apex, dropPrefix?_toAsciiLowercase below]
  cases (trim pattern).dropPrefix? "**." with
  | some dom => simp [normalizeHost_toAsciiLowercase]
  | none =>
    cases (trim pattern).dropPrefix? "*." with
    | some dom => simp [normalizeHost_toAsciiLowercase]
    | none => simp [normalizeHost_toAsciiLowercase]

theorem shorter_or_eq_of_sublist {text other : Text} (sublist : text.Sublist other) :
    text.length < other.length ∨ text = other :=
  sublist.length_le.lt_or_eq.imp_right sublist.eq_of_length

theorem trimDots_subset (text : Text) : trimDots text ⊆ text :=
  (List.rdropWhile_prefix _ _).subset

theorem trim_subset (text : Text) : trim text ⊆ text :=
  List.Subset.trans (List.rdropWhile_prefix _ _).subset (dropWhile_suffix _).subset

theorem toAsciiLowercase_subset {fst second : Text} (subset : fst ⊆ second) :
    toAsciiLowercase fst ⊆ toAsciiLowercase second :=
  map_subset Char.toLower subset

theorem normalizeIpLiteral_subset {host literal : Text}
    (hit : normalizeIpLiteral pars host = some literal) : literal ⊆ host := by
  rw [normalizeIpLiteral] at hit
  split at hit
  · rw [← Option.some.inj hit]
    exact List.Subset.refl _
  obtain ⟨delimiter, mem, taken⟩ := exists_of_findSome?_eq_some hit
  obtain ⟨⟨address, zone⟩, split, taken⟩ := Option.bind_eq_some_iff.mp taken
  have percent : '%' ∈ delimiter := by
    have either : delimiter = "%25" ∨ delimiter = "%" := by simpa using mem
    rcases either with rfl | rfl <;> decide
  split at taken
  · rw [← Option.some.inj taken, eq_of_splitOnce split]
    intro c le
    rcases mem_append.mp le with front | past
    · exact mem_append_left _ front
    refine mem_append_right _ (mem_append.mpr ?_)
    rcases mem_cons.mp past with rfl | past
    · exact .inl percent
    · exact .inr past
  · cases taken

theorem normalizeDnsHostOrIpLiteral_subset :
    normalizeDnsHostOrIpLiteral pars host ⊆ toAsciiLowercase host := by
  rw [normalizeDnsHostOrIpLiteral]
  cases hit : normalizeIpLiteral pars (trimDots (toAsciiLowercase host)) with
  | some literal => exact List.Subset.trans (normalizeIpLiteral_subset hit) (trimDots_subset _)
  | none => exact trimDots_subset _

theorem normalizeHost_subset : normalizeHost pars host ⊆ toAsciiLowercase host := by
  have part : ∀ lt, lt ⊆ trim host →
      normalizeDnsHostOrIpLiteral pars lt ⊆ toAsciiLowercase host := fun lt subset =>
    List.Subset.trans (normalizeDnsHostOrIpLiteral_subset lt)
      (toAsciiLowercase_subset (List.Subset.trans subset (trim_subset host)))
  simp only [normalizeHost]
  split_ifs
  · exact part _ (List.Subset.trans (List.takeWhile_prefix _).subset (drop_subset _ _))
  · exact part _ (List.takeWhile_prefix _).subset
  · exact part _ (List.Subset.refl _)

theorem normalizeIpLiteral_shorter {host literal : Text}
    (hit : normalizeIpLiteral pars host = some literal) :
    literal.length < host.length ∨ literal = host := by
  rw [normalizeIpLiteral] at hit
  split at hit
  · exact .inr (Option.some.inj hit).symm
  obtain ⟨delim, mem, taken⟩ := exists_of_findSome?_eq_some hit
  obtain ⟨⟨address, zone⟩, split, taken⟩ := Option.bind_eq_some_iff.mp taken
  have whole := eq_of_splitOnce split
  split at taken
  · have either : delim = "%25" ∨ delim = "%" := by simpa using mem
    have eq := Option.some.inj taken
    rcases either with rfl | rfl
    · left
      simp [← eq, whole]
    · exact .inr (eq.symm.trans whole.symm)
  · cases taken

theorem normalizeDnsHostOrIpLiteral_shorter :
    (normalizeDnsHostOrIpLiteral pars host).length < host.length ∨
      normalizeDnsHostOrIpLiteral pars host = toAsciiLowercase host := by
  have length : (toAsciiLowercase host).length = host.length := length_map _
  have dots := shorter_or_eq_of_sublist
    (List.rdropWhile_prefix (· = '.') (toAsciiLowercase host)).sublist
  rw [length] at dots
  rw [normalizeDnsHostOrIpLiteral]
  cases hit : normalizeIpLiteral pars (trimDots (toAsciiLowercase host)) with
  | none => exact dots
  | some literal =>
    rcases normalizeIpLiteral_shorter hit with lt | rfl
    · exact .inl (lt.trans_le (dots.elim le_of_lt fun eq => by rw [trimDots, eq, length]))
    · exact dots

theorem length_normalizeDnsHostOrIpLiteral_le :
    (normalizeDnsHostOrIpLiteral pars host).length ≤ host.length := by
  rcases normalizeDnsHostOrIpLiteral_shorter host with lt | eq
  · exact lt.le
  · rw [eq, toAsciiLowercase, length_map]

theorem normalizeHost_shorter : (normalizeHost pars host).length < host.length ∨
      normalizeHost pars host = toAsciiLowercase host := by
  have inner : (trim host).Sublist host :=
    (List.rdropWhile_prefix _ _).sublist.trans (dropWhile_suffix _).sublist
  -- The host that is left when brackets or a port are taken off is shorter.
  have part : ∀ left : Text, left.length < (trim host).length →
      (normalizeDnsHostOrIpLiteral pars left).length < host.length := fun left shorter =>
    ((length_normalizeDnsHostOrIpLiteral_le left).trans_lt shorter).trans_le inner.length_le
  simp only [normalizeHost]
  split_ifs with bracket port
  · left
    apply part
    have front := (List.takeWhile_prefix (l := (trim host).drop 1) (· ≠ ']')).length_le
    have ne : 0 < (trim host).length := length_pos_of_mem bracket.2
    rw [length_drop] at front
    omega
  · left
    apply part
    have here : ':' ∈ trim host := count_pos_iff.mp (by omega)
    rcases shorter_or_eq_of_sublist (List.takeWhile_prefix (l := trim host) (· ≠ ':')).sublist with
      lt | eq
    · exact lt
    rw [takeWhile_eq_self_iff] at eq
    simpa using eq ':' here
  rcases shorter_or_eq_of_sublist inner with lt | eq
  · exact .inl ((length_normalizeDnsHostOrIpLiteral_le (trim host)).trans_lt lt)
  rw [eq]
  exact normalizeDnsHostOrIpLiteral_shorter host

theorem normalizeHost_normalizeHost {host : Text}
    (kept : host.length ≤ (normalizeHost pars host).length) :
    normalizeHost pars (normalizeHost pars host) = normalizeHost pars host := by
  rcases normalizeHost_shorter host with lt | eq
  · exact absurd lt (Nat.not_lt.mpr kept)
  · rw [eq, normalizeHost_toAsciiLowercase, eq]

theorem normalizePattern_subset (pattern : Text) :
    normalizePattern pars pattern ⊆ toAsciiLowercase pattern := by
  have whole : ∀ marker dom : Text, marker ⊆ "*." → trim pattern = marker ++ dom →
      marker ++ normalizeHost pars dom ⊆ toAsciiLowercase pattern := by
    intro marker dom wildcard eq c mem
    have kept := toAsciiLowercase_subset (trim_subset pattern)
    rw [eq] at kept
    rcases mem_append.mp mem with front | past
    · refine kept ((mem_toAsciiLowercase (caseless_of_wildcard wildcard c front)).mpr ?_)
      exact mem_append_left _ front
    refine kept (toAsciiLowercase_subset ?_ (normalizeHost_subset dom past))
    exact subset_append_right _ _
  simp only [normalizePattern]
  split_ifs with star
  · have marker := whole "*" [] (by decide) star
    exact fun c mem => marker (mem_append_left _ mem)
  cases apex : (trim pattern).dropPrefix? "**." with
  | some dom => exact whole _ dom (by decide) (eq_append_of_dropPrefix? apex)
  | none =>
    cases below : (trim pattern).dropPrefix? "*." with
    | some dom => exact whole _ dom (by decide) (eq_append_of_dropPrefix? below)
    | none =>
      exact List.Subset.trans (normalizeHost_subset _)
        (toAsciiLowercase_subset (trim_subset pattern))

end

section

variable {pars : HostParsers} {engine : GlobEngine}

variable {globs result : List Text} {globalWildcard : GlobalWildcard}

theorem mem_addGlob {cand : Text} (added : addGlob engine globs cand = .ok result)
    (glob : Text) : glob ∈ result ↔ glob ∈ globs ∨ glob ∈ [cand] := by
  rw [addGlob] at added
  split_ifs at added with known
  · obtain rfl := Except.ok.inj added
    simp only [mem_singleton, iff_self_or]
    rintro rfl
    exact known
  cases added
  exact mem_append

theorem mem_addPattern {pat : Text}
    (added : addPattern pars engine globalWildcard globs pat = .ok result) (glob : Text) :
    glob ∈ result ↔ glob ∈ globs ∨ glob ∈ expandDomainPattern (normalizePattern pars pat) := by
  rw [addPattern] at added
  split_ifs at added
  rw [mem_of_foldlM (fun cand => [cand]) added fun _ _ _ => mem_addGlob]
  simp

theorem mem_compileGlobsetWithPolicy {pats : List Text}
    (compiled : compileGlobsetWithPolicy pars engine globalWildcard pats = .ok globs)
    (glob : Text) : glob ∈ globs ↔
      ∃ pattern ∈ pats, glob ∈ expandDomainPattern (normalizePattern pars pattern) := by
  rw [mem_of_foldlM _ compiled fun _ _ _ => mem_addPattern]
  simp

end

end Codex.NetworkProxy
