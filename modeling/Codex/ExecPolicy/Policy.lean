import Codex.Foundation.Map
import Codex.Foundation.Text

/-!
# Execution policies

A policy has prefix rules by program and a table of known paths.
-/

namespace Codex.ExecPolicy

inductive Decision
  | allow
  | prompt
  | forbidden
  deriving DecidableEq

namespace Decision

def rank : Decision → Nat
  | allow => 0
  | prompt => 1
  | forbidden => 2

theorem rank_injective : Function.Injective rank := by
  intro first snd same
  cases first <;> cases snd <;> first | rfl | cases same

instance : LinearOrder Decision := LinearOrder.lift' rank rank_injective

theorem allow_le (decision : Decision) : allow ≤ decision := Nat.zero_le _

end Decision

inductive PatternToken
  | single (want : Text)
  | alts (alternatives : List Text)
  deriving DecidableEq

def PatternToken.accepts : PatternToken → Text → Bool
  | single want, token => want = token
  | alts alternatives, token => token ∈ alternatives

structure PrefixPattern where
  first : Text
  rest : List PatternToken

def PrefixPattern.matchesPrefix (pattern : PrefixPattern) :
    (command : List Text) → Option (List Text)
  | [] => none
  | program :: args =>
    if args.length < pattern.rest.length ∨ program ≠ pattern.first then none
    else if (pattern.rest.zip args).all fun pair => pair.1.accepts pair.2 then
      some (program :: args.take pattern.rest.length)
    else none

structure PrefixRule where
  pattern : PrefixPattern
  decision : Decision
  justification : Option Text

def PrefixRule.ofTokens (decision : Decision) (first : Text) (rest : List Text) : PrefixRule where
  pattern := { first, rest := rest.map .single }
  decision
  justification := none

inductive NetworkRuleProtocol
  | http
  | https
  | socks5Tcp
  | socks5Udp
  deriving DecidableEq

structure NetworkRule where
  host : Text
  protocol : NetworkRuleProtocol
  decision : Decision
  justification : Option Text
  deriving DecidableEq

inductive RuleMatch (A : Type)
  | prefixRuleMatch (matchedPrefix : List Text) (decision : Decision) (resolvedProgram : Option A)
      (justification : Option Text)
  | heuristicsRuleMatch (command : List Text) (decision : Decision)
  deriving DecidableEq

namespace RuleMatch

variable {A : Type}

def decision : RuleMatch A → Decision
  | prefixRuleMatch _ decision _ _ => decision
  | heuristicsRuleMatch _ decision => decision

def withResolvedProgram (program : A) : RuleMatch A → RuleMatch A
  | prefixRuleMatch matchedPrefix decision _ justification =>
    prefixRuleMatch matchedPrefix decision (some program) justification
  | other => other

end RuleMatch

def PrefixRule.matches {A : Type} (rule : PrefixRule) (command : List Text) :
    Option (RuleMatch A) :=
  (rule.pattern.matchesPrefix command).map fun matchedPrefix =>
    .prefixRuleMatch matchedPrefix rule.decision none rule.justification

structure ProgramPaths (A : Type) where
  absolutePath : Text → Option A
  executablePathLookupKey : A → Option Text

structure MatchOptions where
  resolveHostExecutables : Bool := false

structure Policy (A : Type) where
  rulesByProgram : List (Text × PrefixRule)
  networkRules : List NetworkRule
  hostExecutablesByName : Map Text (List A)

structure Evaluation (A : Type) where
  decision : Decision
  matchedRules : List (RuleMatch A)

def Evaluation.fromMatches {A : Type} (matchedRules : List (RuleMatch A)) : Option (Evaluation A) :=
  (matchedRules.map RuleMatch.decision).max?.map fun decision => { decision, matchedRules }

namespace Policy

section

variable {A : Type} [DecidableEq A] (paths : ProgramPaths A) (pol : Policy A)

def rulesFor (program : Text) : List PrefixRule :=
  (pol.rulesByProgram.filter fun entry => entry.1 = program).map (·.2)

def mergeOverlay (overlay : Policy A) : Policy A where
  rulesByProgram := pol.rulesByProgram ++ overlay.rulesByProgram
  networkRules := pol.networkRules ++ overlay.networkRules
  -- the paths of the overlay replace those of the base
  hostExecutablesByName := overlay.hostExecutablesByName ∪ pol.hostExecutablesByName

def addPrefixRule (decision : Decision) : (tokens : List Text) → Option (Policy A)
  | [] => none
  | first :: rest => some { pol with
      rulesByProgram := pol.rulesByProgram ++ [(first, .ofTokens decision first rest)] }

def matchExactRules : (command : List Text) → Option (List (RuleMatch A))
  | [] => none
  | first :: rest => some ((pol.rulesFor first).filterMap (·.matches (first :: rest)))

variable (command : List Text)

def exactMatches : List (RuleMatch A) :=
  (pol.matchExactRules command).getD []

def hostExecutable (first : Text) : Option (A × Text) :=
  (paths.absolutePath first).bind fun program =>
    (paths.executablePathLookupKey program).map fun basename => (program, basename)

def permitsPath (program : A) (basename : Text) : Bool :=
  (Finmap.lookup basename pol.hostExecutablesByName).all (program ∈ ·)

def matchHostExecutableRules : (command : List Text) → List (RuleMatch A)
  | [] => []
  | first :: rest =>
    match hostExecutable paths first with
    | none => []
    | some (program, basename) =>
      if pol.permitsPath program basename then
        ((pol.rulesFor basename).filterMap (·.matches (basename :: rest))).map
          (·.withResolvedProgram program)
      else []

def policyMatches (opts : MatchOptions) : List (RuleMatch A) :=
  if pol.exactMatches command ≠ [] then pol.exactMatches command
  else if opts.resolveHostExecutables then pol.matchHostExecutableRules paths command
  else []

variable (heuristicsFallback : Option (List Text → Decision))

def orHeuristics : (matchedRules : List (RuleMatch A)) → List (RuleMatch A)
  | [] => heuristicsFallback.toList.map fun fallback =>
    .heuristicsRuleMatch command (fallback command)
  | matchedRules => matchedRules

def matchesForCommandWithOptions (opts : MatchOptions) : List (RuleMatch A) :=
  orHeuristics command heuristicsFallback (pol.policyMatches paths command opts)

variable (heuristicsFallback : List Text → Decision)

def checkWithOptions (opts : MatchOptions) : Option (Evaluation A) :=
  Evaluation.fromMatches
    (pol.matchesForCommandWithOptions paths command (some heuristicsFallback) opts)

def check : Option (Evaluation A) :=
  pol.checkWithOptions paths command heuristicsFallback {}

def checkMultipleWithOptions (commands : List (List Text))
    (heuristicsFallback : List Text → Decision) (opts : MatchOptions) : Option (Evaluation A) :=
  Evaluation.fromMatches (commands.flatMap fun command =>
    pol.matchesForCommandWithOptions paths command (some heuristicsFallback) opts)

end

section

variable {A : Type} [DecidableEq A] {paths : ProgramPaths A} {pol : Policy A}
  {command : List Text} {fallback : Option (List Text → Decision)} {opts : MatchOptions}

omit [DecidableEq A] in
theorem orHeuristics_of_ne_nil {matchedRules : List (RuleMatch A)} (hit : matchedRules ≠ []) :
    orHeuristics command fallback matchedRules = matchedRules := by
  cases matchedRules with
  | nil => exact absurd rfl hit
  | cons head tail => rfl

omit [DecidableEq A] in
theorem orHeuristics_none (matchedRules : List (RuleMatch A)) :
    orHeuristics command none matchedRules = matchedRules := by
  cases matchedRules <;> rfl

theorem matches_of_exact (exact : pol.exactMatches command ≠ []) :
    pol.matchesForCommandWithOptions paths command fallback opts = pol.exactMatches command := by
  rw [matchesForCommandWithOptions, policyMatches, if_pos exact, orHeuristics_of_ne_nil exact]

section

variable (inexact : pol.exactMatches command = [])
include inexact

theorem policyMatches_of_inexact : pol.policyMatches paths command opts =
      if opts.resolveHostExecutables then pol.matchHostExecutableRules paths command
      else [] := by
  rw [policyMatches, if_neg (not_not.mpr inexact)]

theorem matches_of_host (resolves : opts.resolveHostExecutables = true)
    (hit : pol.matchHostExecutableRules paths command ≠ []) :
    pol.matchesForCommandWithOptions paths command fallback opts =
      pol.matchHostExecutableRules paths command := by
  rw [matchesForCommandWithOptions, policyMatches_of_inexact inexact, if_pos resolves,
    orHeuristics_of_ne_nil hit]

theorem matches_of_none (nothing : opts.resolveHostExecutables = true →
      pol.matchHostExecutableRules paths command = []) (heuristics : List Text → Decision) :
    pol.matchesForCommandWithOptions paths command (some heuristics) opts =
      [.heuristicsRuleMatch command (heuristics command)] := by
  rw [matchesForCommandWithOptions, policyMatches_of_inexact inexact]
  split_ifs with resolves
  · rw [nothing resolves]
    rfl
  · rfl

end

theorem mem_matches {matched : RuleMatch A}
    (mem : matched ∈ pol.matchesForCommandWithOptions paths command none opts) :
    matched ∈ pol.exactMatches command ∨
      pol.exactMatches command = [] ∧ opts.resolveHostExecutables = true ∧
        matched ∈ pol.matchHostExecutableRules paths command := by
  by_cases inexact : pol.exactMatches command = []
  · right
    rw [matchesForCommandWithOptions, policyMatches_of_inexact inexact, orHeuristics_none] at mem
    split_ifs at mem with resolves
    · exact ⟨inexact, resolves, mem⟩
    · cases mem
  left
  rwa [matches_of_exact inexact] at mem

end

end Policy

open List

section

variable {A : Type} {matchedRules : List (RuleMatch A)} {eval : Evaluation A}

theorem exists_fromMatches_iff {dec : Decision} :
    (∃ eval, Evaluation.fromMatches matchedRules = some eval ∧
      dec ≤ eval.decision) ↔
    ∃ matched ∈ matchedRules, dec ≤ matched.decision := by
  constructor
  · rintro ⟨eval, evaluated, stricter⟩
    obtain ⟨greatest, hit, rfl⟩ := Option.map_eq_some_iff.mp evaluated
    obtain ⟨mem, -⟩ := max?_eq_some_iff.mp hit
    obtain ⟨matched, here, eq⟩ := mem_map.mp mem
    exact ⟨matched, here, stricter.trans_eq eq.symm⟩
  rintro ⟨matched, here, stricter⟩
  have mem : matched.decision ∈ matchedRules.map RuleMatch.decision :=
    mem_map_of_mem here
  cases hit : (matchedRules.map RuleMatch.decision).max? with
  | none =>
    rw [max?_eq_none_iff.mp hit] at mem
    cases mem
  | some greatest =>
    refine ⟨⟨greatest, matchedRules⟩, by rw [Evaluation.fromMatches, hit]; rfl, ?_⟩
    exact stricter.trans ((max?_eq_some_iff.mp hit).2 _ mem)

end

namespace Policy

section

variable {A : Type} [DecidableEq A] (paths : ProgramPaths A) (base overlay : Policy A)

/-- The merged policy is at least as strict as every rule that the overlay matches. -/
def Tightens (fallback : List Text → Decision) (options : MatchOptions)
    (commands : List (List Text)) : Prop :=
  ∀ command ∈ commands, ∀ matched ∈ overlay.matchesForCommandWithOptions paths command none options,
      ∃ evaluation,
        (base.mergeOverlay overlay).checkMultipleWithOptions paths commands fallback options =
          some evaluation ∧ matched.decision ≤ evaluation.decision

def Blocks : (command : List Text) → Prop
  | [] => False
  | first :: _ => ∃ program basename, hostExecutable paths first = some (program, basename) ∧
      base.permitsPath program basename = false

/-- The overlay matches by basename at most, and the base prevents that lookup. -/
def Hides (command : List Text) : Prop :=
  overlay.exactMatches command = [] ∧ (base.exactMatches command ≠ [] ∨ base.Blocks paths command)

end

section

variable {A : Type} [DecidableEq A] {paths : ProgramPaths A} {base overlay : Policy A}
  {fallback : List Text → Decision} {options : MatchOptions} {command : List Text}

omit [DecidableEq A] in
theorem rulesFor_mergeOverlay (program : Text) : (base.mergeOverlay overlay).rulesFor program =
      base.rulesFor program ++ overlay.rulesFor program := by
  simp [rulesFor, mergeOverlay]

omit [DecidableEq A] in
theorem exactMatches_mergeOverlay (command : List Text) :
    (base.mergeOverlay overlay).exactMatches command =
      base.exactMatches command ++ overlay.exactMatches command := by
  cases command with
  | nil => rfl
  | cons fst tl => simp [exactMatches, matchExactRules, rulesFor_mergeOverlay]

section

variable (untabled : overlay.hostExecutablesByName = ∅)
include untabled

theorem permitsPath_mergeOverlay (program : A)
    (basename : Text) : (base.mergeOverlay overlay).permitsPath program basename =
      base.permitsPath program basename := by
  rw [permitsPath, permitsPath, mergeOverlay, untabled, Finmap.empty_union]

theorem hostRules_mergeOverlay_of_blocks (blocks : base.Blocks paths command) :
    (base.mergeOverlay overlay).matchHostExecutableRules paths command = [] := by
  cases command with
  | nil => rfl
  | cons fst tl =>
    obtain ⟨program, basename, hit, blocked⟩ := blocks
    rw [← permitsPath_mergeOverlay untabled] at blocked
    simp [matchHostExecutableRules, hit, blocked]

theorem mem_hostRules_mergeOverlay (clear : ¬ base.Blocks paths command) {matched : RuleMatch A}
    (mem : matched ∈ overlay.matchHostExecutableRules paths command) :
    matched ∈ (base.mergeOverlay overlay).matchHostExecutableRules paths command := by
  cases command with
  | nil => cases mem
  | cons fst tl =>
    cases hit : hostExecutable paths fst with
    | none => simp [matchHostExecutableRules, hit] at mem
    | some pair =>
      obtain ⟨program, basename⟩ := pair
      have ok : base.permitsPath program basename = true := by
        by_contra blocked
        exact clear ⟨program, basename, hit, Bool.eq_false_iff.mpr blocked⟩
      simp only [matchHostExecutableRules, hit] at mem ⊢
      rw [permitsPath_mergeOverlay untabled, if_pos ok, rulesFor_mergeOverlay,
        filterMap_append, map_append]
      split_ifs at mem
      · exact mem_append_right _ mem
      · cases mem

theorem matches_mergeOverlay_of_hides (hides : base.Hides paths overlay command) :
    (base.mergeOverlay overlay).matchesForCommandWithOptions paths command (some fallback) options =
      base.matchesForCommandWithOptions paths command (some fallback) {} := by
  obtain ⟨plain, hidden⟩ := hides
  have exact : (base.mergeOverlay overlay).exactMatches command = base.exactMatches command := by
    rw [exactMatches_mergeOverlay, plain, append_nil]
  by_cases inexact : base.exactMatches command = []
  · have blocks := hidden.resolve_left (not_not.mpr inexact)
    rw [matches_of_none (exact.trans inexact)
        (fun _ => hostRules_mergeOverlay_of_blocks untabled blocks),
      matches_of_none inexact (by simp)]
  · rw [matches_of_exact (by rwa [exact]), matches_of_exact inexact, exact]

theorem mem_matches_mergeOverlay
    (visible : ¬ base.Hides paths overlay command) {matched : RuleMatch A}
    (mem : matched ∈ overlay.matchesForCommandWithOptions paths command none options) :
    matched ∈ (base.mergeOverlay overlay).matchesForCommandWithOptions paths command
      (some fallback) options := by
  rcases mem_matches mem with exact | ⟨plain, resolves, host⟩
  · have kept : matched ∈ (base.mergeOverlay overlay).exactMatches command := by
      rw [exactMatches_mergeOverlay]
      exact mem_append_right _ exact
    rwa [matches_of_exact (ne_nil_of_mem kept)]
  have shown : base.exactMatches command = [] ∧ ¬ base.Blocks paths command := by
    by_contra either
    refine visible ⟨plain, ?_⟩
    by_contra! neither
    exact either neither
  have kept := mem_hostRules_mergeOverlay untabled shown.2 host
  rwa [matches_of_host (by rw [exactMatches_mergeOverlay, plain, shown.1]; rfl) resolves
    (ne_nil_of_mem kept)]

/-- The overlay tightens exactly when the base is as strict on each command that it hides. -/
theorem mergeOverlay_tightens_iff :
    (∀ commands, base.Tightens paths overlay fallback options commands) ↔
      ∀ command, base.Hides paths overlay command →
        ∀ matched ∈ overlay.matchesForCommandWithOptions paths command none options,
          ∃ evaluation, base.check paths command fallback = some evaluation ∧
            matched.decision ≤ evaluation.decision := by
  constructor
  · intro tightens command hides matched mem
    have alone := tightens [command] command (by simp) matched mem
    rwa [checkMultipleWithOptions, flatMap_singleton,
      matches_mergeOverlay_of_hides untabled hides] at alone
  intro strict commands command listed matched mem
  apply exists_fromMatches_iff.mpr
  by_cases hides : base.Hides paths overlay command
  · obtain ⟨y, here, stricter⟩ :=
      exists_fromMatches_iff.mp (strict command hides matched mem)
    rw [← @matches_mergeOverlay_of_hides _ _ _ _ _ _ options _ untabled hides] at here
    exact ⟨y, mem_flatMap.mpr ⟨command, listed, here⟩, stricter⟩
  refine ⟨matched, mem_flatMap.mpr ⟨command, listed, ?_⟩, le_rfl⟩
  exact mem_matches_mergeOverlay untabled hides mem

end

end

end Policy

section

/-- Absolute paths begin with a slash; executables go by the part behind the last slash. -/
def posixPaths : ProgramPaths Text where
  absolutePath text := some (if text.head? = some '/' then text else "/work/" ++ text)
  executablePathLookupKey path := some (path.rtakeWhile (· ≠ '/'))

def prefixPolicy (rules : List (List String × Decision)) : Policy Text where
  rulesByProgram := rules.filterMap fun rule =>
    match rule.1.map String.toList with
    | [] => none
    | first :: rest => some (first, .ofTokens rule.2 first rest)
  networkRules := []
  hostExecutablesByName := ∅

def commandLine (tokens : List String) : List Text := tokens.map String.toList

theorem mergeOverlay_tightens_bareNames :
    (prefixPolicy [(["git"], .allow)]).Tightens posixPaths
      (prefixPolicy [(["git", "push"], .forbidden)]) (fun _ => .allow) ⟨true⟩
      [commandLine ["/usr/bin/git", "push"]] := by
  refine (Policy.mergeOverlay_tightens_iff rfl).mpr (fun command hides matched mem => ?_) _
  -- a rule for the bare name matches no other program, and without a table no path is blocked
  obtain ⟨unmatched, hidden⟩ := hides
  rcases Policy.mem_matches mem with exact | ⟨-, -, host⟩
  · rw [unmatched] at exact
    cases exact
  cases command with
  | nil => cases host
  | cons fst tl =>
    by_cases bare : fst = "git"
    · subst bare
      have resolved : Policy.hostExecutable posixPaths "git".toList =
        some ("/work/git".toList, "git".toList) := rfl
      simp only [Policy.exactMatches, Policy.matchExactRules, Option.getD_some] at unmatched
      simp only [Policy.matchHostExecutableRules, resolved, unmatched, map_nil, ite_self] at host
      cases host
    have inexact : (prefixPolicy [(["git"], .allow)]).exactMatches (fst :: tl) = [] := by
      simp only [Policy.exactMatches, Policy.matchExactRules, Policy.rulesFor, Option.getD_some]
      rw [show (prefixPolicy [(["git"], .allow)]).rulesByProgram =
        [("git".toList, .ofTokens .allow "git".toList [])] from rfl,
        filter_cons_of_neg (by simpa using Ne.symm bare)]
      rfl
    obtain ⟨program, basename, -, blocked⟩ := hidden.resolve_left (not_not.mpr inexact)
    cases blocked

/-- A rule of the user for the literal path hides the managed rule for the name. -/
theorem mergeOverlay_literalPath_loosens :
    ¬ (prefixPolicy [(["/usr/bin/git"], .allow)]).Tightens posixPaths
      (prefixPolicy [(["git", "push"], .forbidden)]) (fun _ => .forbidden) ⟨true⟩
      [commandLine ["/usr/bin/git", "push"]] := by
  intro tightens
  obtain ⟨evaluation, evaluated, stricter⟩ := tightens (commandLine ["/usr/bin/git", "push"])
    (by simp) (.prefixRuleMatch (commandLine ["git", "push"]) .forbidden
      (some "/usr/bin/git") none) (by decide)
  have decided : evaluation.decision = .allow := by
    have allowed := congrArg (Option.map Evaluation.decision) evaluated
    exact (Option.some.inj allowed).symm
  rw [decided] at stricter
  exact absurd stricter (by decide)

end

structure NetworkDomains where
  allowed : List Text := []
  denied : List Text := []

def retainOthers (entries : List Text) (host : Text) : List Text :=
  entries.filter fun entry => entry ≠ host

def upsertDomain (entries : List Text) (host : Text) : List Text :=
  retainOthers entries host ++ [host]

def NetworkDomains.compile (domains : NetworkDomains) (rule : NetworkRule) : NetworkDomains :=
  match rule.decision with
  | .allow => ⟨upsertDomain domains.allowed rule.host, retainOthers domains.denied rule.host⟩
  | .forbidden => ⟨retainOthers domains.allowed rule.host, upsertDomain domains.denied rule.host⟩
  | .prompt => domains

def Policy.compiledNetworkDomains {A : Type} (pol : Policy A) : NetworkDomains :=
  pol.networkRules.foldl NetworkDomains.compile {}

def lastRule (rules : List NetworkRule) (host : Text) : Option (NetworkRule × Nat) :=
  (rules.zipIdx.filter fun rule => rule.1.host = host ∧ rule.1.decision ≠ .prompt).getLast?

def SettledBefore (rules : List NetworkRule) (first snd : Text) : Prop :=
  ∃ old later, lastRule rules first = some old ∧ lastRule rules snd = some later ∧ old.2 < later.2

/-- The last rule of a host decides, in the order of those rules. -/
structure Resolves (rules : List NetworkRule) (decision : Decision) (entries : List Text) :
    Prop where
  mem_iff : ∀ host, host ∈ entries ↔
    ∃ last, lastRule rules host = some last ∧ last.1.decision = decision
  ordered : entries.Pairwise (SettledBefore rules)

theorem lastRule_concat (rules : List NetworkRule) (rule : NetworkRule) (host : Text) :
    lastRule (rules ++ [rule]) host =
      if rule.host = host ∧ rule.decision ≠ .prompt then some (rule, rules.length)
      else lastRule rules host := by
  simp only [lastRule, zipIdx_append, zipIdx_singleton, Nat.zero_add, filter_append]
  split_ifs with dec
  · rw [filter_cons_of_pos (by simpa using dec), filter_nil, getLast?_concat]
  · rw [filter_cons_of_neg (by simpa using dec), filter_nil, append_nil]

variable {rules : List NetworkRule}

theorem lastRule_position_lt {host : Text} {last : NetworkRule × Nat}
    (hit : lastRule rules host = some last) : last.2 < rules.length := by
  have mem := mem_of_mem_filter (mem_of_getLast? hit)
  simpa using (mem_zipIdx mem).2.1

section

variable {rule : NetworkRule} {decision : Decision} {entries : List Text}

theorem Resolves.prompt (resolves : Resolves rules decision entries)
    (prompts : rule.decision = .prompt) : Resolves (rules ++ [rule]) decision entries := by
  have eq : lastRule (rules ++ [rule]) = lastRule rules := by
    funext host
    rw [lastRule_concat, if_neg fun dec => dec.2 prompts]
  refine ⟨fun host => ?_, ?_⟩
  · rw [eq]
    exact resolves.mem_iff host
  refine resolves.ordered.imp fun pre => ?_
  rwa [SettledBefore, eq]

theorem lastRule_concat_of_ne {host : Text} (y : host ≠ rule.host) :
    lastRule (rules ++ [rule]) host = lastRule rules host := by
  rw [lastRule_concat, if_neg fun eq => y eq.1.symm]

theorem Resolves.retained_ordered (resolves : Resolves rules decision entries) :
    (retainOthers entries rule.host).Pairwise (SettledBefore (rules ++ [rule])) := by
  refine (resolves.ordered.filter _).imp_of_mem fun {fst snd} left right pre => ?_
  have kept : ∀ host ∈ retainOthers entries rule.host,
      lastRule (rules ++ [rule]) host = lastRule rules host := fun host mem =>
    lastRule_concat_of_ne (by simpa using (mem_filter.mp mem).2)
  rw [SettledBefore, kept fst left, kept snd right]
  exact pre

variable (dec : rule.decision ≠ .prompt)
include dec

theorem lastRule_concat_self :
    lastRule (rules ++ [rule]) rule.host = some (rule, rules.length) := by
  rw [lastRule_concat, if_pos ⟨rfl, dec⟩]

theorem Resolves.retain (resolves : Resolves rules decision entries)
    (differs : rule.decision ≠ decision) :
    Resolves (rules ++ [rule]) decision (retainOthers entries rule.host) := by
  refine ⟨fun host => ?_, resolves.retained_ordered⟩
  rw [retainOthers, mem_filter, decide_eq_true_eq]
  by_cases eq : host = rule.host
  · subst eq
    simp [lastRule_concat_self dec, differs]
  rw [lastRule_concat_of_ne eq, resolves.mem_iff host]
  exact and_iff_left eq

theorem Resolves.upsert (resolves : Resolves rules decision entries)
    (agrees : rule.decision = decision) :
    Resolves (rules ++ [rule]) decision (upsertDomain entries rule.host) := by
  constructor
  · intro host
    rw [upsertDomain, mem_append, mem_singleton, retainOthers, mem_filter, decide_eq_true_eq]
    by_cases eq : host = rule.host
    · subst eq
      simp [lastRule_concat_self dec, agrees]
    rw [lastRule_concat_of_ne eq, ← resolves.mem_iff host]
    simp [eq]
  refine pairwise_append.mpr ⟨resolves.retained_ordered, pairwise_singleton _ _, ?_⟩
  intro host mem new isNew
  obtain rfl := mem_singleton.mp isNew
  obtain ⟨here, y⟩ := mem_filter.mp mem
  obtain ⟨last, hit, -⟩ := (resolves.mem_iff host).mp here
  refine ⟨last, _, ?_, lastRule_concat_self dec, lastRule_position_lt hit⟩
  rw [lastRule_concat_of_ne (by simpa using y), hit]

end

open NetworkDomains

theorem resolves_compile {domains : NetworkDomains}
    (allowed : Resolves rules .allow domains.allowed)
    (denied : Resolves rules .forbidden domains.denied) (rule : NetworkRule) :
    Resolves (rules ++ [rule]) .allow (domains.compile rule).allowed ∧
      Resolves (rules ++ [rule]) .forbidden (domains.compile rule).denied := by
  rw [compile]
  cases decision : rule.decision with
  | allow =>
    exact ⟨allowed.upsert (by simp [decision]) decision,
      denied.retain (by simp [decision]) (by simp [decision])⟩
  | forbidden =>
    exact ⟨allowed.retain (by simp [decision]) (by simp [decision]),
      denied.upsert (by simp [decision]) decision⟩
  | prompt => exact ⟨allowed.prompt decision, denied.prompt decision⟩

theorem resolves_nil (decision : Decision) : Resolves [] decision [] :=
  ⟨fun host => by simp [lastRule], List.Pairwise.nil⟩

theorem resolves_foldl (rules : List NetworkRule) :
    Resolves rules .allow (rules.foldl compile {}).allowed ∧
      Resolves rules .forbidden (rules.foldl compile {}).denied := by
  induction rules using reverseRecOn with
  | nil => exact ⟨resolves_nil _, resolves_nil _⟩
  | append_singleton rules rule ih =>
    rw [foldl_concat]
    exact resolves_compile ih.1 ih.2 rule

theorem Resolves.nodup {decision : Decision} {entries : List Text}
    (resolves : Resolves rules decision entries) : entries.Nodup := by
  refine resolves.ordered.imp ?_
  rintro host y ⟨old, later, fst, snd, pre⟩ rfl
  rw [Option.some.inj (fst.symm.trans snd)] at pre
  exact lt_irrefl _ pre

/-- No host is twice in the lists; each is in the list of its last rule that does not prompt. -/
theorem compiledNetworkDomains_resolves {A : Type} (pol overlay : Policy A) :
    (pol.compiledNetworkDomains.allowed.Nodup ∧ pol.compiledNetworkDomains.denied.Nodup ∧
      pol.compiledNetworkDomains.allowed.Disjoint pol.compiledNetworkDomains.denied) ∧
    Resolves pol.networkRules .allow pol.compiledNetworkDomains.allowed ∧
    Resolves pol.networkRules .forbidden pol.compiledNetworkDomains.denied ∧
    (pol.mergeOverlay overlay).compiledNetworkDomains =
      overlay.networkRules.foldl NetworkDomains.compile pol.compiledNetworkDomains := by
  obtain ⟨allowed, denied⟩ := resolves_foldl pol.networkRules
  refine ⟨⟨allowed.nodup, denied.nodup, fun host isAllowed isDenied => ?_⟩, allowed, denied,
    foldl_append⟩
  obtain ⟨last, hit, allows⟩ := (allowed.mem_iff host).mp isAllowed
  obtain ⟨y, again, denies⟩ := (denied.mem_iff host).mp isDenied
  rw [Option.some.inj (again.symm.trans hit), allows] at denies
  cases denies

end Codex.ExecPolicy
