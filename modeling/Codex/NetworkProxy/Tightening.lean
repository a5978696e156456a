import Codex.NetworkProxy.Policy

/-!
# Configurations under managed constraints

An accepted configuration denies what the managed denylist denies.
-/

namespace Codex.NetworkProxy

open Text (trim toAsciiLowercase)

structure NetworkProxyConstraints where
  enabled : Option Bool := none
  mode : Option NetworkMode := none
  allowUpstreamProxy : Option Bool := none
  dangerouslyAllowNonLoopbackProxy : Option Bool := none
  dangerouslyAllowAllUnixSockets : Option Bool := none
  allowedDomains : Option (List Text) := none
  allowlistExpansionEnabled : Option Bool := none
  deniedDomains : Option (List Text) := none
  denylistExpansionEnabled : Option Bool := none
  allowUnixSockets : Option (List Text) := none
  allowLocalBinding : Option Bool := none

structure NetworkProxyConstraintError where
  fieldName : String
  candidate : Text
  allowed : Text

structure DebugFormat where
  ofList : List Text → Text
  ofSet : List Text → Text

section

variable {Hooks : Type} (pars : HostParsers) (debug : DebugFormat)
  (validateMitmHookConfig : Hooks → Except Text Unit)

def validateNonGlobalWildcardDomainPatterns (fieldName : String) (pats : List Text) :
    Except NetworkProxyConstraintError Unit :=
  match pats.find? (isGlobalWildcardDomainPattern pars ·) with
  | some pattern => .error {
      fieldName
      candidate := trim pattern
      allowed := ("exact hosts or scoped wildcards like *.example.com or " ++
        "**.example.com").toList }
  | none => .ok ()

def validateSwitch (fieldName : String) (candidate permitted : Bool) :
    Except NetworkProxyConstraintError Unit :=
  if candidate && !permitted then .error {
    fieldName
    candidate := "true"
    allowed := "false (disabled by managed config)" }
  else .ok ()

def validateMode (candidate : NetworkMode) (managed : Option NetworkMode) :
    Except NetworkProxyConstraintError Unit :=
  match managed with
  | none => .ok ()
  | some maxMode =>
    if maxMode.rank < candidate.rank then .error {
      fieldName := "network.mode"
      candidate := candidate.debugName
      allowed := maxMode.debugName ++ " or more restrictive" }
    else .ok ()

def validateAllowedDomains (candidate denied managed : List Text) (expansion : Option Bool) :
    Except NetworkProxyConstraintError Unit :=
  let required := managed.map toAsciiLowercase
  let denied := denied.map toAsciiLowercase
  match expansion with
  | some true =>
    let missing := required.filter fun entry =>
      entry ∉ candidate.map toAsciiLowercase ∧ entry ∉ denied
    if missing = [] then .ok () else .error {
      fieldName := "network.allowed_domains"
      candidate := "missing managed allowed_domains entries"
      allowed := debug.ofSet missing }
  | some false =>
    let expected := required.filter (· ∉ denied)
    if candidate.map toAsciiLowercase ⊆ expected ∧ expected ⊆ candidate.map toAsciiLowercase then
      .ok ()
    else .error {
      fieldName := "network.allowed_domains"
      candidate := debug.ofList candidate
      allowed := "must match managed allowed_domains" }
  | none =>
    let invalid := candidate.filter fun entry =>
      !managed.any fun pattern => (DomainPattern.parseForConstraints pars pattern).allows
        (DomainPattern.parseForConstraints pars entry)
    if invalid = [] then .ok () else .error {
      fieldName := "network.allowed_domains"
      candidate := debug.ofList invalid
      allowed := "subset of managed allowed_domains" }

def validateDeniedDomains (candidate managed : List Text) (expansion : Option Bool) :
    Except NetworkProxyConstraintError Unit :=
  let required := managed.map toAsciiLowercase
  match expansion with
  | some false =>
    if candidate.map toAsciiLowercase ⊆ required ∧ required ⊆ candidate.map toAsciiLowercase then
      .ok ()
    else .error {
      fieldName := "network.denied_domains"
      candidate := debug.ofList candidate
      allowed := "must match managed denied_domains" }
  | _ =>
    let missing := required.filter (· ∉ candidate.map toAsciiLowercase)
    if missing = [] then .ok () else .error {
      fieldName := "network.denied_domains"
      candidate := "missing managed denied_domains entries"
      allowed := debug.ofSet missing }

def validateUnixSockets (candidate managed : List Text) : Except NetworkProxyConstraintError Unit :=
  let invalid := candidate.filter fun entry =>
    toAsciiLowercase entry ∉ managed.map toAsciiLowercase
  if invalid = [] then .ok () else .error {
    fieldName := "network.allow_unix_sockets"
    candidate := debug.ofList invalid
    allowed := "subset of managed allow_unix_sockets" }

def validateManaged (managed : Option (List Text))
    (check : List Text → Except NetworkProxyConstraintError Unit) :
    Except NetworkProxyConstraintError Unit :=
  match managed with
  | none => .ok ()
  | some managed => check managed

def validateManagedDomains (fieldName : String) (managed : Option (List Text))
    (check : List Text → Except NetworkProxyConstraintError Unit) :
    Except NetworkProxyConstraintError Unit :=
  validateManaged managed fun pats => do
    validateNonGlobalWildcardDomainPatterns pars fieldName pats
    check pats

def validatePolicyAgainstConstraints (config : NetworkProxyConfig Hooks)
    (limits : NetworkProxyConstraints) : Except NetworkProxyConstraintError Unit := do
  let configAllowedDomains := config.allowedDomains.getD []
  let configDeniedDomains := config.deniedDomains.getD []
  (validateMitmHookConfig config.mitmHooks).mapError fun msg =>
    { fieldName := "network.mitm_hooks", candidate := msg
      allowed := "valid MITM hook configuration" }
  validateNonGlobalWildcardDomainPatterns pars "network.denied_domains" configDeniedDomains
  validateSwitch "network.enabled" config.enabled (limits.enabled.getD true)
  validateMode config.mode limits.mode
  validateSwitch "network.allow_upstream_proxy" config.allowUpstreamProxy
    (limits.allowUpstreamProxy.getD true)
  validateSwitch "network.dangerously_allow_non_loopback_proxy"
    config.dangerouslyAllowNonLoopbackProxy
    (limits.dangerouslyAllowNonLoopbackProxy.getD true)
  -- without a managed list of sockets, all of them may be allowed
  validateSwitch "network.dangerously_allow_all_unix_sockets"
    config.dangerouslyAllowAllUnixSockets
    (limits.dangerouslyAllowAllUnixSockets.getD limits.allowUnixSockets.isNone)
  validateSwitch "network.allow_local_binding" config.allowLocalBinding
    (limits.allowLocalBinding.getD true)
  validateManagedDomains pars "network.allowed_domains" limits.allowedDomains
    fun managed => validateAllowedDomains pars debug configAllowedDomains configDeniedDomains
      managed limits.allowlistExpansionEnabled
  validateManagedDomains pars "network.denied_domains" limits.deniedDomains
    fun managed => validateDeniedDomains debug configDeniedDomains managed
      limits.denylistExpansionEnabled
  validateManaged limits.allowUnixSockets
    fun managed => validateUnixSockets debug config.allowUnixSockets managed

end

open DomainPattern List

section

variable {Hooks : Type} {pars : HostParsers} {debug : DebugFormat}
  {validateMitmHookConfig : Hooks → Except Text Unit} {config : NetworkProxyConfig Hooks}
  {limits : NetworkProxyConstraints}

theorem validated_domains (taken : validatePolicyAgainstConstraints pars debug
      validateMitmHookConfig config limits = .ok ()) :
    (∀ managed, limits.allowedDomains = some managed →
      validateAllowedDomains pars debug (config.allowedDomains.getD [])
        (config.deniedDomains.getD []) managed limits.allowlistExpansionEnabled = .ok ()) ∧
    (∀ managed, limits.deniedDomains = some managed →
      validateDeniedDomains debug (config.deniedDomains.getD []) managed
        limits.denylistExpansionEnabled = .ok ()) := by
  rw [validatePolicyAgainstConstraints] at taken
  -- the checks before those of the domain lists
  iterate 8 obtain ⟨-, -, taken⟩ := bind_eq_ok_iff.mp taken
  obtain ⟨_, allowed, taken⟩ := bind_eq_ok_iff.mp taken
  obtain ⟨_, denied, -⟩ := bind_eq_ok_iff.mp taken
  constructor
  · intro managed here
    rw [here] at allowed
    obtain ⟨-, -, passed⟩ := bind_eq_ok_iff.mp allowed
    exact passed
  intro managed here
  rw [here] at denied
  obtain ⟨-, -, passed⟩ := bind_eq_ok_iff.mp denied
  exact passed

/-- The managed allowlist allows every entry as far as patterns are compared. -/
theorem exists_allows_of_validated {cand denied managed : List Text}
    (valid : validateAllowedDomains pars debug cand denied managed none = .ok ())
    {ent : Text} (mem : ent ∈ cand) :
    ∃ pat ∈ managed, (parseForConstraints pars pat).allows (parseForConstraints pars ent) := by
  rw [validateAllowedDomains] at valid
  split_ifs at valid with none
  simpa using filter_eq_nil_iff.mp none ent mem

theorem mem_of_validated {cand managed : List Text}
    (valid : validateDeniedDomains debug cand managed none = .ok ())
    {pattern : Text} (mem : pattern ∈ managed) :
    ∃ ent ∈ cand, toAsciiLowercase ent = toAsciiLowercase pattern := by
  simp only [validateDeniedDomains] at valid
  split_ifs at valid with none
  simpa using filter_eq_nil_iff.mp none _ (mem_map_of_mem mem)

end

open Text (toAsciiLowercase)

section

variable (pars : HostParsers) (engine : GlobEngine)

/-- The candidate list matches no host that the managed list does not. -/
def AllowlistWithin (candidate managed : List Text) : Prop :=
  ∀ globs managedGlobs, compileAllowlistGlobset pars engine candidate = .ok globs →
    compileAllowlistGlobset pars engine managed = .ok managedGlobs →
    ∀ host, engine.anyMatch globs host → engine.anyMatch managedGlobs host

/-- The candidate list matches every host that the managed list does. -/
def DenylistWithin (managed candidate : List Text) : Prop :=
  ∀ managedGlobs globs, compileDenylistGlobset pars engine managed = .ok managedGlobs →
    compileDenylistGlobset pars engine candidate = .ok globs →
    ∀ host, engine.anyMatch managedGlobs host → engine.anyMatch globs host

def enforcedPattern (pattern : Text) : DomainPattern :=
  DomainPattern.parse (normalizePattern pars pattern)

def DomainPattern.mapDomain (change : Text → Text) : DomainPattern → DomainPattern
  | apexAndSubdomains domain => apexAndSubdomains (change domain)
  | subdomainsOnly domain => subdomainsOnly (change domain)
  | exact domain => exact (change domain)

def DomainPattern.hasApex : DomainPattern → Bool
  | exact _ | apexAndSubdomains _ => true
  | subdomainsOnly _ => false

def DomainPattern.hasSubdomains : DomainPattern → Bool
  | subdomainsOnly _ | apexAndSubdomains _ => true
  | exact _ => false

/-- Enforcement reads the pattern like the constraint check, but for case and final dots. -/
def ReadAlike (pattern : Text) : Prop :=
  enforcedPattern pars pattern =
    (DomainPattern.parseForConstraints pars pattern).mapDomain normalizeDomain

/-- The domain does not begin with stars and a dot. -/
def Headed (domain : Text) : Prop := (domain.dropWhile (· = '*')).head? ≠ some '.'

/-- The entry and the managed patterns that allow it are enforced as they are compared. -/
def ReadFaithfully (managed : List Text) (entry : Text) : Prop :=
  ReadAlike pars entry ∧ Headed (enforcedPattern pars entry).domain ∧
    ∀ pattern ∈ managed, (DomainPattern.parseForConstraints pars pattern).allows
      (DomainPattern.parseForConstraints pars entry) → ReadAlike pars pattern

def LiteralText (text : Text) : Prop :=
  ∀ c ∈ text, c ∉ ['*', '?', '[', ']', '\x7b', '\x7d', '\\']

/-- The pattern is enforced as a domain without wildcards, with or without what is below it. -/
def Literal (pattern : Text) : Prop := LiteralText (enforcedPattern pars pattern).domain

def Alike (want text : Text) : Prop := Forall₂ (engine.sameLetter · · = true) want text

/-- The pattern matches the domain, as its own or as one below. -/
def CoversApex (pattern : DomainPattern) (domain : Text) : Prop :=
  pattern.hasApex = true ∧ Alike engine pattern.domain domain ∨
    pattern.hasSubdomains = true ∧ ∃ rest, rest <:+ domain ∧ rest ≠ domain ∧
      Alike engine ('.' :: pattern.domain) rest

/-- The pattern matches all that is below the domain. -/
def CoversSubdomains (pattern : DomainPattern) (domain : Text) : Prop :=
  pattern.hasSubdomains = true ∧ ∃ rest, rest <:+ '.' :: domain ∧
    Alike engine ('.' :: pattern.domain) rest

/-- Each glob of the entry is covered by a managed pattern. -/
def Covered (managed : List Text) (entry : Text) : Prop :=
  ((enforcedPattern pars entry).hasApex = true → ∃ pattern ∈ managed,
    CoversApex engine (enforcedPattern pars pattern) (enforcedPattern pars entry).domain) ∧
  ((enforcedPattern pars entry).hasSubdomains = true → ∃ pattern ∈ managed,
    CoversSubdomains engine (enforcedPattern pars pattern) (enforcedPattern pars entry).domain)

instance (pattern : Text) : Decidable (ReadAlike pars pattern) :=
  inferInstanceAs (Decidable (_ = _))

instance (domain : Text) : Decidable (Headed domain) :=
  inferInstanceAs (Decidable (_ ≠ _))

instance (managed : List Text) (entry : Text) : Decidable (ReadFaithfully pars managed entry) :=
  inferInstanceAs (Decidable (_ ∧ _ ∧ _))

end

section

variable {engine : GlobEngine} {parent child host : Text}

theorem PlainGlob.subset {first snd : Text} (plain : PlainGlob snd)
    (subset : first ⊆ snd) : PlainGlob first :=
  fun c mem => plain c (subset mem)

theorem PlainGlob.subdomains {dom : Text} (plain : PlainGlob dom) : PlainGlob ("?*." ++ dom) := by
  intro c mem
  rcases mem_append.mp mem with front | past
  · have either : c = '?' ∨ c = '*' ∨ c = '.' := by simpa using front
    rcases either with rfl | rfl | rfl <;> decide
  · exact plain c past

theorem globTokens_append (fst second : Text) :
    globTokens (fst ++ second) = globTokens fst ++ globTokens second :=
  map_append

theorem exists_token_of_notStar {txt : Text} {c : Char} (mem : c ∈ txt) (y : c ≠ '*') :
    ∃ token ∈ globTokens txt, token ≠ .many := by
  refine ⟨_, mem_map_of_mem mem, ?_⟩
  rw [if_neg y]
  split <;> simp

theorem isMatch_subdomains (plain : PlainGlob child) {front : Text} {c : Char}
    (below : child = front ++ '.' :: parent) (mem : c ∈ front) (y : c ≠ '*')
    (hit : engine.isMatch child host) : engine.isMatch ("?*." ++ parent) host := by
  have plainParent : PlainGlob parent := plain.subset fun d le => by simp [below, le]
  rw [engine.wildcards _ _ plain, below, globTokens_append] at hit
  rw [engine.wildcards _ _ plainParent.subdomains,
    show "?*." ++ parent = "?*" ++ '.' :: parent from rfl, globTokens_append]
  exact Glob.isMatch_widen hit (exists_token_of_notStar mem y)

theorem Headed.exists_notStar {front : Text} (headed : Headed (front ++ '.' :: parent)) :
    ∃ c ∈ front, c ≠ '*' := by
  by_contra! stars
  refine headed ?_
  rw [dropWhile_append_of_pos (by simpa using stars)]
  rfl

theorem isMatch_of_below (plain : PlainGlob child) (headed : Headed child)
    (below : '.' :: parent <:+ child) :
    (engine.isMatch child host → engine.isMatch ("?*." ++ parent) host) ∧
    (engine.isMatch ("?*." ++ child) host →
      engine.isMatch ("?*." ++ parent) host) := by
  obtain ⟨front, rfl⟩ := below
  constructor
  · obtain ⟨c, mem, y⟩ := headed.exists_notStar
    exact isMatch_subdomains plain rfl mem y
  refine isMatch_subdomains plain.subdomains (append_assoc _ _ _).symm
    (mem_append_left _ ?_) (c := '?') (by decide)
  decide

end

open Text

section

variable {pars : HostParsers} {engine : GlobEngine}

theorem below_of_isStrictSubdomain {child parent : Text} (strict : isStrictSubdomain child parent) :
    '.' :: normalizeDomain parent <:+ normalizeDomain child := by
  simp only [isStrictSubdomain, Bool.and_eq_true, isSuffixOf_iff_suffix] at strict
  exact strict.2

theorem isSubdomainOrEqual_iff {child parent : Text} : isSubdomainOrEqual child parent ↔
    normalizeDomain child = normalizeDomain parent ∨
      '.' :: normalizeDomain parent <:+ normalizeDomain child := by
  simp [isSubdomainOrEqual]

/-- The domains are the same and the globs included, or the domain is below. -/
theorem DomainPattern.cases_of_allows {pat cand : DomainPattern} (allowed : pat.allows cand) :
    (cand.mapDomain normalizeDomain).globs ⊆ (pat.mapDomain normalizeDomain).globs ∨
    "?*." ++ normalizeDomain pat.domain ∈ (pat.mapDomain normalizeDomain).globs ∧
      '.' :: normalizeDomain pat.domain <:+ normalizeDomain cand.domain := by
  cases pat with
  | exact domain =>
    cases cand with
    | exact y =>
      have eq : normalizeDomain y = normalizeDomain domain := by
        simpa [allows, domainEq] using allowed
      simp [mapDomain, globs, eq]
    | subdomainsOnly | apexAndSubdomains => cases allowed
  | subdomainsOnly domain =>
    cases cand with
    | exact | apexAndSubdomains =>
      exact .inr ⟨mem_singleton.mpr rfl, below_of_isStrictSubdomain allowed⟩
    | subdomainsOnly y =>
      rcases isSubdomainOrEqual_iff.mp allowed with eq | below
      · exact .inl (by simp [mapDomain, globs, eq])
      · exact .inr ⟨mem_singleton.mpr rfl, below⟩
  | apexAndSubdomains domain =>
    rcases isSubdomainOrEqual_iff.mp allowed with eq | below
    · refine .inl ?_
      cases cand <;> simp_all [mapDomain, globs, DomainPattern.domain]
    · exact .inr ⟨by simp [mapDomain, globs, DomainPattern.domain], below⟩

theorem DomainPattern.mem_globs {pat : DomainPattern} {glob : Text} : glob ∈ pat.globs ↔
    pat.hasApex = true ∧ glob = pat.domain ∨
      pat.hasSubdomains = true ∧ glob = "?*." ++ pat.domain := by
  cases pat <;> simp [globs, domain, hasApex, hasSubdomains]

theorem DomainPattern.mapDomain_domain (change : Text → Text) (pat : DomainPattern) :
    (pat.mapDomain change).domain = change pat.domain := by
  cases pat <;> rfl

/-- The globs of a candidate match only what those of the pattern do. -/
theorem exists_glob_of_allows {pat cand : DomainPattern} (allowed : pat.allows cand)
    (plain : PlainGlob (cand.mapDomain normalizeDomain).domain)
    (headed : Headed (cand.mapDomain normalizeDomain).domain) {glob host : Text}
    (mem : glob ∈ (cand.mapDomain normalizeDomain).globs) (hit : engine.isMatch glob host) :
    ∃ y ∈ (pat.mapDomain normalizeDomain).globs, engine.isMatch y host := by
  rcases cases_of_allows allowed with subset | ⟨subdomains, below⟩
  · exact ⟨glob, subset mem, hit⟩
  refine ⟨_, subdomains, ?_⟩
  rw [← mapDomain_domain normalizeDomain cand] at below
  obtain ⟨apex, deeper⟩ := isMatch_of_below plain headed below
  rcases mem_globs.mp mem with ⟨-, rfl⟩ | ⟨-, rfl⟩
  · exact apex hit
  · exact deeper hit

theorem DomainPattern.domain_parse_subset (input : Text) : (parse input).domain ⊆ input := by
  have past : ∀ marker dom : Text, (trim input).dropPrefix? marker = some dom →
      trim dom ⊆ input := fun marker dom hit c mem => by
    refine trim_subset input ?_
    rw [eq_append_of_dropPrefix? hit]
    exact mem_append_right _ (trim_subset dom mem)
  have part : ∀ (dom : Text) (build : Text → DomainPattern),
      (∀ txt, (build txt).domain = txt) → trim dom ⊆ input →
      (parseDomain dom build).domain ⊆ input := by
    intro dom build builds subset
    simp only [parseDomain]
    split_ifs
    · exact nil_subset _
    · rwa [builds]
  simp only [parse]
  split_ifs
  · exact nil_subset _
  cases apex : (trim input).dropPrefix? "**." with
  | some dom => exact part _ _ (fun _ => rfl) (past _ _ apex)
  | none =>
    cases below : (trim input).dropPrefix? "*." with
    | some dom => exact part _ _ (fun _ => rfl) (past _ _ below)
    | none => exact trim_subset input

theorem plainGlob_enforcedPattern {pat : Text} (plain : PlainGlob pat) :
    PlainGlob (enforcedPattern pars pat).domain := by
  have lower : PlainGlob (toAsciiLowercase pat) := by
    intro c mem
    by_contra special
    have caseless : Caseless c := by
      apply caseless_of_toNat
      by_contra letter
      refine special ⟨?_, ?_, ?_, ?_, ?_⟩ <;> rintro rfl <;> exact letter (by decide)
    exact special (plain c ((mem_toAsciiLowercase caseless).mp mem))
  exact lower.subset
    (List.Subset.trans (domain_parse_subset _) (normalizePattern_subset pat))

theorem anyMatch_iff {globs : List Text} {host : Text} :
    engine.anyMatch globs host ↔ ∃ glob ∈ globs, engine.isMatch glob host := by
  simp [GlobEngine.anyMatch]

theorem ReadFaithfully.within {managed : List Text} {ent : Text} (plain : PlainGlob ent)
    (faithful : ReadFaithfully pars managed ent) {pat : Text} (mem : pat ∈ managed)
    (allowed : (parseForConstraints pars pat).allows
      (parseForConstraints pars ent)) {glob host : Text}
    (enforced : glob ∈ (enforcedPattern pars ent).globs) (hit : engine.isMatch glob host) :
    ∃ y ∈ (enforcedPattern pars pat).globs, engine.isMatch y host := by
  obtain ⟨alike, headed, others⟩ := faithful
  have plainDomain := @plainGlob_enforcedPattern pars ent plain
  rw [alike] at plainDomain headed enforced
  rw [others pat mem allowed]
  exact exists_glob_of_allows allowed plainDomain headed enforced hit

theorem exists_compileAllowlistGlobset {pats : List Text}
    (plain : ∀ pat ∈ pats, PlainGlob (enforcedPattern pars pat).domain) :
    ∃ globs, compileAllowlistGlobset pars engine pats = .ok globs := by
  refine exists_foldlM_ok (fun pat mem set => ?_) []
  rw [addPattern, if_neg (by simp)]
  refine exists_foldlM_ok (fun glob enforced set => ?_) set
  have builds : engine.builds glob := by
    rcases mem_globs.mp enforced with ⟨-, rfl⟩ | ⟨-, rfl⟩
    · exact engine.plain_builds _ (plain pat mem)
    · exact engine.plain_builds _ (plain pat mem).subdomains
  rw [addGlob]
  split_ifs
  all_goals exact ⟨_, rfl⟩

theorem allowlistWithin_of_globs {cand managed : List Text}
    (within : ∀ ent ∈ cand, ∀ glob ∈ (enforcedPattern pars ent).globs, ∀ host,
      engine.isMatch glob host → ∃ pat ∈ managed, ∃ other ∈ (enforcedPattern pars pat).globs,
        engine.isMatch other host) : AllowlistWithin pars engine cand managed := by
  intro globs managedGlobs compiled made host hit
  obtain ⟨glob, here, hit⟩ := anyMatch_iff.mp hit
  obtain ⟨ent, mem, enforced⟩ := (mem_compileGlobsetWithPolicy compiled glob).mp here
  obtain ⟨pat, known, other, kept, found⟩ := within ent mem glob enforced host hit
  exact anyMatch_iff.mpr ⟨other, (mem_compileGlobsetWithPolicy made other).mpr ⟨pat, known, kept⟩,
    found⟩

/-- Entries that are read faithfully are within the managed allowlist. -/
theorem allowlistWithin_of_faithful {debug : DebugFormat} {cand denied managed : List Text}
    (valid : validateAllowedDomains pars debug cand denied managed none = .ok ())
    (plain : ∀ ent ∈ cand, PlainGlob ent)
    (faithful : ∀ ent ∈ cand, ReadFaithfully pars managed ent) :
    AllowlistWithin pars engine cand managed := by
  refine allowlistWithin_of_globs fun ent mem glob enforced host hit => ?_
  obtain ⟨pat, known, allowed⟩ := exists_allows_of_validated valid mem
  exact ⟨pat, known, (faithful ent mem).within (plain ent mem) known allowed enforced hit⟩

section

variable {want text rest dom : Text} {pat : DomainPattern}

theorem Alike.refl (text : Text) : Alike engine text text :=
  forall₂_same.mpr fun c _ => engine.same_refl c

theorem Alike.trans {first : Text} (left : Alike engine first want)
    (right : Alike engine want text) : Alike engine first text := by
  induction left generalizing text with
  | nil => exact right
  | cons same _ ih =>
    obtain ⟨c, others, same', more, rfl⟩ := forall₂_cons_left_iff.mp right
    exact .cons (engine.same_trans _ _ _ same same') (ih more)

theorem Alike.suffix (alike : Alike engine want text) (suffix : rest <:+ want) :
    ∃ tail, tail <:+ text ∧ Alike engine rest tail := by
  obtain ⟨front, rfl⟩ := suffix
  refine ⟨text.drop front.length, drop_suffix _ _, ?_⟩
  simpa [Alike] using forall₂_drop front.length alike

theorem globTokens_literal (literal : LiteralText dom) :
    globTokens dom = dom.map fun c => .one (some c) := by
  refine map_congr_left fun c mem => ?_
  have plain := literal c mem
  simp only [mem_cons, not_or] at plain
  rw [if_neg plain.1, if_neg plain.2.1]

theorem plainGlob_of_literal (literal : LiteralText dom) : PlainGlob dom := by
  intro c mem
  have plain := literal c mem
  simp only [mem_cons, not_or] at plain
  tauto

variable (literal : LiteralText pat.domain)
include literal

theorem isMatch_apex {host : Text} :
    engine.isMatch pat.domain host ↔ Alike engine pat.domain host := by
  rw [engine.wildcards _ _ (plainGlob_of_literal literal), globTokens_literal literal]
  exact Glob.isMatch_literal

theorem isMatch_subdomain {host : Text} : engine.isMatch ("?*." ++ pat.domain) host ↔
    ∃ rest, rest <:+ host ∧ rest ≠ host ∧ Alike engine ('.' :: pat.domain) rest := by
  rw [engine.wildcards _ _ (plainGlob_of_literal literal).subdomains,
    show "?*." ++ pat.domain = "?*" ++ '.' :: pat.domain from rfl, globTokens_append]
  have dotted : LiteralText ('.' :: pat.domain) := forall_mem_cons.mpr ⟨by decide, literal⟩
  rw [globTokens_literal dotted]
  exact Glob.isMatch_below.trans (by simp only [Glob.isMatch_literal, Alike])

theorem coversApex_iff :
    CoversApex engine pat dom ↔ ∃ glob ∈ pat.globs, engine.isMatch glob dom := by
  simp only [mem_globs, or_and_right, exists_or, and_assoc, CoversApex]
  refine or_congr ?_ ?_ <;>
    simp only [exists_and_left, exists_eq_left, isMatch_apex literal, isMatch_subdomain literal]

theorem CoversApex.isMatch {host : Text} (covers : CoversApex engine pat dom)
    (alike : Alike engine dom host) : ∃ glob ∈ pat.globs, engine.isMatch glob host := by
  refine (coversApex_iff literal).mp ?_
  rcases covers with ⟨apex, same⟩ | ⟨below, rest, suffix, part, same⟩
  · exact .inl ⟨apex, same.trans alike⟩
  obtain ⟨tail, inside, more⟩ := alike.suffix suffix
  refine .inr ⟨below, tail, inside, ?_, same.trans more⟩
  rintro rfl
  exact part (suffix.eq_of_length (more.length_eq.trans alike.length_eq.symm))

theorem CoversSubdomains.isMatch {host : Text} (covers : CoversSubdomains engine pat dom)
    (suffix : rest <:+ host) (part : rest ≠ host) (alike : Alike engine ('.' :: dom) rest) :
    ∃ glob ∈ pat.globs, engine.isMatch glob host := by
  obtain ⟨below, inner, shorter, same⟩ := covers
  obtain ⟨tail, inside, more⟩ := alike.suffix shorter
  refine ⟨_, mem_globs.mpr (.inr ⟨below, rfl⟩), (isMatch_subdomain literal).mpr
    ⟨tail, inside.trans suffix, ?_, same.trans more⟩⟩
  rintro rfl
  exact part (suffix.eq_of_length_le inside.length_le)

/-- A long label before the domain is matched by nothing but a pattern for what is below. -/
theorem coversSubdomains_of_isMatch {count : Nat} (long : pat.domain.length < count) {glob : Text}
    (mem : glob ∈ pat.globs) (hit : engine.isMatch glob (replicate count 'x' ++ '.' :: dom)) :
    CoversSubdomains engine pat dom := by
  rcases mem_globs.mp mem with ⟨-, rfl⟩ | ⟨below, rfl⟩
  · have length := ((isMatch_apex literal).mp hit).length_eq
    simp only [length_append, length_replicate, length_cons] at length
    omega
  obtain ⟨rest, suffix, -, same⟩ := (isMatch_subdomain literal).mp hit
  refine ⟨below, rest, ?_, same⟩
  rcases suffix_or_suffix_of_suffix suffix (suffix_append _ _) with inside | ⟨front, rfl⟩
  · exact inside
  cases front with
  | nil => exact suffix_rfl
  | cons c front =>
    -- the rest would begin within the label, but it begins with a dot
    obtain ⟨d, others, dot, -, eq⟩ := forall₂_cons_left_iff.mp same
    obtain ⟨rfl, -⟩ := cons.inj eq
    have inLabel : c ∈ replicate count 'x' := by
      obtain ⟨before, joined⟩ := suffix
      rw [← append_assoc] at joined
      rw [← append_cancel_right joined]
      simp
    rw [engine.same_dot c dot] at inLabel
    exact absurd (mem_replicate.mp inLabel).2 (by decide)

end

/-- Literal entries are within literal managed patterns exactly if these cover them. -/
theorem allowlistWithin_iff {cand managed : List Text}
    (literal : ∀ pat ∈ cand ++ managed, Literal pars pat) :
    AllowlistWithin pars engine cand managed ↔
      ∀ ent ∈ cand, Covered pars engine managed ent := by
  have entries : ∀ ent ∈ cand, Literal pars ent :=
    fun ent mem => literal ent (mem_append_left _ mem)
  have patterns : ∀ pat ∈ managed, Literal pars pat :=
    fun pat mem => literal pat (mem_append_right _ mem)
  constructor
  · intro within ent mem
    obtain ⟨globs, compiled⟩ := @exists_compileAllowlistGlobset pars engine cand
      fun ent mem => plainGlob_of_literal (entries ent mem)
    obtain ⟨managedGlobs, made⟩ := @exists_compileAllowlistGlobset pars engine managed
      fun pat mem => plainGlob_of_literal (patterns pat mem)
    have covering : ∀ glob ∈ (enforcedPattern pars ent).globs, ∀ host, engine.isMatch glob host →
        ∃ pat ∈ managed, ∃ other ∈ (enforcedPattern pars pat).globs,
          engine.isMatch other host := by
      intro glob enforced host hit
      have known := (mem_compileGlobsetWithPolicy compiled glob).mpr ⟨ent, mem, enforced⟩
      obtain ⟨other, here, found⟩ := anyMatch_iff.mp
        (within globs managedGlobs compiled made host (anyMatch_iff.mpr ⟨glob, known, hit⟩))
      obtain ⟨pat, member, kept⟩ := (mem_compileGlobsetWithPolicy made other).mp here
      exact ⟨pat, member, other, kept, found⟩
    refine ⟨fun apex => ?_, fun below => ?_⟩
    · obtain ⟨pat, member, found⟩ := covering _ (mem_globs.mpr (.inl ⟨apex, rfl⟩))
        (enforcedPattern pars ent).domain ((isMatch_apex (entries ent mem)).mpr (.refl _))
      exact ⟨pat, member, (coversApex_iff (patterns pat member)).mpr found⟩
    -- the label is longer than every managed domain
    obtain ⟨count, long⟩ : ∃ count, ∀ pat ∈ managed,
        (enforcedPattern pars pat).domain.length ≤ count :=
      ⟨((managed.map (enforcedPattern pars)).map DomainPattern.domain).flatten.length,
        fun pat member =>
          (sublist_flatten_of_mem (mem_map_of_mem (mem_map_of_mem member))).length_le⟩
    obtain ⟨pat, member, glob, kept, found⟩ := covering _ (mem_globs.mpr (.inr ⟨below, rfl⟩))
      (replicate (count + 1) 'x' ++ '.' :: (enforcedPattern pars ent).domain)
      ((isMatch_subdomain (entries ent mem)).mpr ⟨_, suffix_append _ _, by simp, .refl _⟩)
    exact ⟨pat, member, coversSubdomains_of_isMatch (patterns pat member)
      (Nat.lt_succ_of_le (long pat member)) kept found⟩
  intro covered
  refine allowlistWithin_of_globs fun ent mem glob enforced host hit => ?_
  rcases mem_globs.mp enforced with ⟨apex, rfl⟩ | ⟨below, rfl⟩
  · obtain ⟨pat, member, covers⟩ := (covered ent mem).1 apex
    exact ⟨pat, member, covers.isMatch (patterns pat member)
      ((isMatch_apex (entries ent mem)).mp hit)⟩
  obtain ⟨pat, member, covers⟩ := (covered ent mem).2 below
  obtain ⟨rest, suffix, part, alike⟩ := (isMatch_subdomain (entries ent mem)).mp hit
  exact ⟨pat, member, covers.isMatch (patterns pat member) suffix part alike⟩

theorem denylistWithin {debug : DebugFormat} {candidate managed : List Text}
    (valid : validateDeniedDomains debug candidate managed none = .ok ()) :
    DenylistWithin pars engine managed candidate := by
  intro managedGlobs globs made compiled host hit
  obtain ⟨glob, here, hit⟩ := anyMatch_iff.mp hit
  obtain ⟨pat, mem, enforced⟩ := (mem_compileGlobsetWithPolicy made glob).mp here
  obtain ⟨ent, kept, eq⟩ := mem_of_validated valid mem
  refine anyMatch_iff.mpr ⟨glob, (mem_compileGlobsetWithPolicy compiled glob).mpr ?_, hit⟩
  -- normalisation sees no difference between the two spellings
  refine ⟨ent, kept, ?_⟩
  rwa [← normalizePattern_toAsciiLowercase, eq, normalizePattern_toAsciiLowercase]

end

section

variable {Hooks : Type} {pars : HostParsers} {engine : GlobEngine} {debug : DebugFormat}
  {validateMitmHookConfig : Hooks → Except Text Unit} {config : NetworkProxyConfig Hooks}
  {limits : NetworkProxyConstraints}

end

section

def asciiParsers : HostParsers where
  isIpAddr host := host.count '.' = 3 && host.all fun c => c.isDigit || c = '.'
  parseUrlHost host :=
    if host.any fun c => c ∈ " :/@[]<>^|#%?\\".toList then none else some (toAsciiLowercase host)

def asciiEngine : GlobEngine where
  builds _ := true
  isMatch glob host := Glob.isMatch (fun c d => c.toLower = d.toLower) (globTokens glob) host
  sameLetter c d := c.toLower = d.toLower
  plain_builds _ _ := rfl
  wildcards _ _ _ := rfl
  same_refl _ := by simp
  same_trans _ _ _ left right := by simp_all
  same_dot c same := by
    have dot : '.' = c.toLower := of_decide_eq_true same
    exact (caseless_of_toNat (.inl (by decide)) c).mp dot.symm

def plainFormat : DebugFormat where
  ofList entries := (entries.map fun entry => entry ++ [' ']).flatten
  ofSet entries := (entries.map fun entry => entry ++ [' ']).flatten

def domainConfig (allowed denied : List String) : NetworkProxyConfig Unit where
  domains := some (allowed.map (⟨·.toList, .allow⟩) ++ denied.map (⟨·.toList, .deny⟩))
  mitmHooks := ()

def domainConstraints (allowed denied : List String) : NetworkProxyConstraints where
  allowedDomains := some (allowed.map (·.toList))
  deniedDomains := some (denied.map (·.toList))

end

end Codex.NetworkProxy
