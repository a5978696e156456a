import Codex.ExecPolicy.Policy
import Codex.Foundation.Lists
import Codex.Foundation.Lowercase

/-!
# Amending an execution policy

An amendment goes to the rules file and, unless it is allowed already, to the policy.
-/

namespace Codex.ExecPolicy

open Policy List

inductive AmendError
  | emptyPrefix
  deriving DecidableEq

inductive ExecPolicyUpdateError
  | appendRule (source : AmendError)
  | addRule
  deriving DecidableEq

structure ExecPolicyManager (A : Type) where
  policy : Policy A
  rulesFile : Text

section

variable (jsonString : Text → Text)

def allowRuleLine (tokens : List Text) : Text :=
  "prefix_rule(pattern=[" ++ ", ".toList.intercalate (tokens.map jsonString) ++
    "], decision=\"allow\")"

def appendLockedLine (texts line : Text) : Text :=
  if line ∈ Text.lines texts then texts
  else texts ++ (if texts ≠ [] ∧ texts.getLast? ≠ some '\n' then ['\n'] else []) ++ line ++ ['\n']

def blockingAppendAllowPrefixRule (texts : Text) (tokens : List Text) : Except AmendError Text :=
  if tokens = [] then .error .emptyPrefix
  else .ok (appendLockedLine texts (allowRuleLine jsonString tokens))

variable {A : Type} [DecidableEq A] (paths : ProgramPaths A)

def RuleMatch.isPolicyMatch : RuleMatch A → Bool
  | .prefixRuleMatch _ _ _ _ => true
  | .heuristicsRuleMatch _ _ => false

def alreadyAllowed (policy : Policy A) (command : List Text) : Bool :=
  (policy.checkMultipleWithOptions paths [command] (fun _ => .forbidden) ⟨true⟩).any
    fun evaluation => evaluation.decision = .allow &&
      evaluation.matchedRules.any fun matched => matched.isPolicyMatch && matched.decision = .allow

def appendAmendmentAndUpdate (manager : ExecPolicyManager A) (amendment : List Text) :
    Except ExecPolicyUpdateError (ExecPolicyManager A) :=
  match blockingAppendAllowPrefixRule jsonString manager.rulesFile amendment with
  | .error source => .error (.appendRule source)
  | .ok rulesFile =>
    if alreadyAllowed paths manager.policy amendment then .ok { manager with rulesFile }
    else match manager.policy.addPrefixRule .allow amendment with
      | none => .error .addRule
      | some policy => .ok { policy, rulesFile }

end

theorem PrefixPattern.matchesPrefix_append {pat : PrefixPattern} {command found : List Text}
    (matched : pat.matchesPrefix command = some found) (more : List Text) :
    pat.matchesPrefix (command ++ more) = some found := by
  cases command with
  | nil => cases matched
  | cons program args =>
    simp only [matchesPrefix] at matched
    split_ifs at matched with mismatch accepted
    have long : pat.rest.length ≤ args.length := by
      by_contra short
      exact mismatch (.inl (by omega))
    have still : ¬((args ++ more).length < pat.rest.length ∨ program ≠ pat.first) := by
      rintro (short | other)
      · rw [length_append] at short
        omega
      · exact mismatch (.inr other)
    simp only [cons_append, matchesPrefix, if_neg still, zip_append_of_length_le long,
      if_pos accepted, take_append_of_le_length long]
    exact matched

open Decision PrefixPattern PrefixRule

theorem PrefixRule.matches_append {A : Type} {rule : PrefixRule} {command : List Text}
    {matched : RuleMatch A} (accepted : rule.matches command = some matched) (more : List Text) :
    rule.matches (command ++ more) = some matched := by
  obtain ⟨tokens, begins, rfl⟩ := Option.map_eq_some_iff.mp accepted
  rw [PrefixRule.matches, PrefixPattern.matchesPrefix_append begins more]
  rfl

theorem all_accepts_single_iff (tokens args : List Text) :
    ((tokens.map PatternToken.single).zip args).all (fun pair => pair.1.accepts pair.2) ↔
      tokens.take args.length = args.take tokens.length := by
  induction tokens generalizing args with
  | nil => simp
  | cons token tokens ih =>
    cases args with
    | nil => simp
    | cons arg args => simp [PatternToken.accepts, ← ih]

theorem PrefixPattern.matchesPrefix_single (first : Text) (rest command : List Text) :
    (PrefixPattern.mk first (rest.map .single)).matchesPrefix command =
      if first :: rest <+: command then some (first :: rest) else none := by
  cases command with
  | nil => rfl
  | cons program args =>
    simp only [matchesPrefix, length_map]
    split_ifs with mismatch begins accepted begins begins
    · obtain ⟨rfl, tail⟩ := cons_prefix_cons.mp begins
      rcases mismatch with short | other
      · exact absurd tail.length_le (by omega)
      · exact absurd rfl other
    · rfl
    · obtain ⟨rfl, tail⟩ := cons_prefix_cons.mp begins
      rw [← prefix_iff_eq_take.mp tail]
    · refine absurd ?_ begins
      push Not at mismatch
      have same := (all_accepts_single_iff rest args).mp accepted
      rw [take_of_length_le mismatch.1] at same
      rw [mismatch.2]
      exact cons_prefix_cons.mpr ⟨rfl, prefix_iff_eq_take.mpr same⟩
    · refine absurd ((all_accepts_single_iff rest args).mpr ?_) ‹_›
      obtain ⟨rfl, tail⟩ := cons_prefix_cons.mp begins
      rw [take_of_length_le tail.length_le]
      exact prefix_iff_eq_take.mp tail
    · rfl

theorem PrefixRule.matches_ofTokens {A : Type} (decision : Decision) (first : Text)
    (rest command : List Text) :
    ((PrefixRule.ofTokens decision first rest).matches command : Option (RuleMatch A)) =
      if first :: rest <+: command then
        some (.prefixRuleMatch (first :: rest) decision none none)
      else none := by
  rw [PrefixRule.matches, ofTokens, PrefixPattern.matchesPrefix_single]
  split_ifs <;> rfl

theorem max?_decision_append_allow {A : Type} {rules : List (RuleMatch A)}
    (ne : rules ≠ []) {matched : RuleMatch A} (allows : matched.decision = .allow) :
    ((rules ++ [matched]).map RuleMatch.decision).max? =
      (rules.map RuleMatch.decision).max? := by
  cases found : (rules.map RuleMatch.decision).max? with
  | none => exact absurd (map_eq_nil_iff.mp (max?_eq_none_iff.mp found)) ne
  | some greatest =>
    obtain ⟨mem, upper⟩ := max?_eq_some_iff.mp found
    refine max?_eq_some_iff.mpr ⟨?_, fun decision other => ?_⟩
    · rw [map_append]
      exact mem_append_left _ mem
    rw [map_append] at other
    rcases mem_append.mp other with known | added
    · exact upper decision known
    obtain rfl : decision = matched.decision := by simpa using added
    rw [allows]
    exact allow_le greatest

namespace Policy

section

variable {A : Type} [DecidableEq A] (paths : ProgramPaths A)

def DecideAlike (first second : Policy A) : Prop :=
  ∀ command fallback, (first.checkWithOptions paths command fallback ⟨true⟩).map (·.decision) =
      (second.checkWithOptions paths command fallback ⟨true⟩).map (·.decision)

def withAllowRule (policy : Policy A) (first : Text) (rest : List Text) : Policy A :=
  { policy with
    rulesByProgram := policy.rulesByProgram ++ [(first, .ofTokens .allow first rest)] }

/-- The command is looked up under the first token of the amendment, a prefix of it. -/
def MatchedByName (policy : Policy A) (first : Text) (rest : List Text) :
    (command : List Text) → Prop
  | [] => False
  | literal :: args => ∃ program, hostExecutable paths literal = some (program, first) ∧
      policy.permitsPath program first = true ∧ rest <+: args

variable {paths} {policy : Policy A} {first : Text} {rest command : List Text}

omit [DecidableEq A] in
theorem exactMatches_withAllowRule (command : List Text) :
    (policy.withAllowRule first rest).exactMatches command = policy.exactMatches command ++
      if first :: rest <+: command then [.prefixRuleMatch (first :: rest) .allow none none]
      else [] := by
  cases command with
  | nil => rfl
  | cons program args =>
    simp only [exactMatches, matchExactRules, rulesFor, withAllowRule, Option.getD_some,
      filter_append, map_append, filterMap_append]
    congr 1
    by_cases same : first = program
    · subst same
      simp only [decide_true, filter_cons_of_pos, filter_nil, map_cons,
        map_nil, filterMap_cons, filterMap_nil, matches_ofTokens]
      split_ifs <;> rfl
    rw [filter_cons_of_neg (by simpa using same), if_neg]
    · rfl
    · exact fun begins => same (cons_prefix_cons.mp begins).1

theorem hostMatches_eq {literal basename : Text} {args : List Text} {program : A}
    (hit : hostExecutable paths literal = some (program, basename)) :
    policy.matchHostExecutableRules paths (literal :: args) =
      if policy.permitsPath program basename then
        (policy.exactMatches (basename :: args)).map (·.withResolvedProgram program)
      else [] := by
  simp only [matchHostExecutableRules, hit]
  rfl

theorem hostMatches_withAllowRule (command : List Text) :
    (¬ policy.MatchedByName paths first rest command ∧
      (policy.withAllowRule first rest).matchHostExecutableRules paths command =
        policy.matchHostExecutableRules paths command) ∨
    policy.MatchedByName paths first rest command ∧ ∃ matched : RuleMatch A,
      matched.decision = .allow ∧
      (policy.withAllowRule first rest).matchHostExecutableRules paths command =
        policy.matchHostExecutableRules paths command ++ [matched] := by
  cases command with
  | nil => exact .inl ⟨id, rfl⟩
  | cons literal args =>
    cases found : hostExecutable paths literal with
    | none =>
      refine .inl ⟨?_, by simp [matchHostExecutableRules, found]⟩
      rintro ⟨program, got, -⟩
      cases found.symm.trans got
    | some pair =>
      obtain ⟨program, basename⟩ := pair
      have same : (policy.withAllowRule first rest).permitsPath program basename =
        policy.permitsPath program basename := rfl
      rw [hostMatches_eq found, hostMatches_eq found, same, exactMatches_withAllowRule]
      by_cases permitted : policy.permitsPath program basename = true
      · rw [if_pos permitted, if_pos permitted]
        by_cases begins : first :: rest <+: basename :: args
        · obtain ⟨rfl, prefixed⟩ := cons_prefix_cons.mp begins
          refine .inr ⟨⟨program, found, permitted, prefixed⟩,
            .prefixRuleMatch (first :: rest) .allow (some program) none, rfl, ?_⟩
          rw [if_pos begins, map_append]
          rfl
        refine .inl ⟨?_, by rw [if_neg begins, append_nil]⟩
        rintro ⟨other, got, -, prefixed⟩
        obtain ⟨rfl, rfl⟩ := Prod.mk.inj (Option.some.inj (found.symm.trans got))
        exact begins (cons_prefix_cons.mpr ⟨rfl, prefixed⟩)
      refine .inl ⟨?_, by rw [if_neg permitted, if_neg permitted]⟩
      rintro ⟨other, got, allowed, -⟩
      obtain ⟨rfl, rfl⟩ := Prod.mk.inj (Option.some.inj (found.symm.trans got))
      exact permitted allowed

theorem decision_check (command : List Text) (fallback : List Text → Decision) :
    (policy.checkWithOptions paths command fallback ⟨true⟩).map (·.decision) =
      ((policy.matchesForCommandWithOptions paths command (some fallback) ⟨true⟩).map
        RuleMatch.decision).max? := by
  rw [checkWithOptions, Evaluation.fromMatches, Option.map_map]
  exact Option.map_id'

/-- An allow rule that only joins rules found anyway changes no decision. -/
theorem decision_withAllowRule
    (literal : first :: rest <+: command → policy.exactMatches command ≠ [])
    (named : policy.exactMatches command = [] → policy.MatchedByName paths first rest command →
      policy.matchHostExecutableRules paths command ≠ []) (fallback : List Text → Decision) :
    (policy.checkWithOptions paths command fallback ⟨true⟩).map (·.decision) =
      ((policy.withAllowRule first rest).checkWithOptions paths command fallback ⟨true⟩).map
        (·.decision) := by
  rw [decision_check, decision_check]
  by_cases inexact : policy.exactMatches command = []
  · have apart : ¬ first :: rest <+: command := fun begins => literal begins inexact
    have still : (policy.withAllowRule first rest).exactMatches command = [] := by
      rw [exactMatches_withAllowRule, inexact, if_neg apart, append_nil]
    rcases @hostMatches_withAllowRule A _ paths policy first rest command with
      ⟨-, same⟩ | ⟨byName, matched, allows, added⟩
    · by_cases nothing : policy.matchHostExecutableRules paths command = []
      · rw [matches_of_none inexact (fun _ => nothing),
          matches_of_none still fun _ => same.trans nothing]
      · rw [matches_of_host inexact rfl nothing, matches_of_host still rfl (by rwa [same]), same]
    have found := named inexact byName
    rw [matches_of_host inexact rfl found, matches_of_host still rfl (by simp [added]), added,
      max?_decision_append_allow found allows]
  have more : (policy.withAllowRule first rest).exactMatches command ≠ [] := by
    rw [exactMatches_withAllowRule]
    exact fun none => inexact (append_eq_nil_iff.mp none).1
  rw [matches_of_exact inexact, matches_of_exact more, exactMatches_withAllowRule]
  split_ifs
  · exact (max?_decision_append_allow inexact rfl).symm
  · rw [append_nil]

theorem decideAlike_of_covered
    (covered : ∀ command, first :: rest <+: command → policy.exactMatches command ≠ []) :
    DecideAlike paths policy (policy.withAllowRule first rest) := by
  intro command fallback
  refine decision_withAllowRule (covered command) (fun _ byName => ?_) fallback
  cases command with
  | nil => cases byName
  | cons literal args =>
    obtain ⟨program, hit, ok, prefixed⟩ := byName
    rw [hostMatches_eq hit, if_pos ok]
    simpa using covered _ (cons_prefix_cons.mpr ⟨rfl, prefixed⟩)

omit [DecidableEq A] in
theorem exactMatches_subset_append (command more : List Text) :
    policy.exactMatches command ⊆ policy.exactMatches (command ++ more) := by
  intro matched mem
  cases command with
  | nil => cases mem
  | cons program args =>
    obtain ⟨rule, kept, accepted⟩ := mem_filterMap.mp mem
    exact mem_filterMap.mpr ⟨rule, kept, matches_append accepted more⟩

theorem hostMatches_subset_append (command more : List Text) :
    policy.matchHostExecutableRules paths command ⊆
      policy.matchHostExecutableRules paths (command ++ more) := by
  cases command with
  | nil => exact nil_subset _
  | cons literal args =>
    cases found : hostExecutable paths literal with
    | none =>
      rw [matchHostExecutableRules, found]
      exact nil_subset _
    | some pair =>
      rw [cons_append, hostMatches_eq found, hostMatches_eq found]
      split_ifs
      · exact map_subset _ (exactMatches_subset_append (_ :: args) more)
      · exact nil_subset _

omit [DecidableEq A] in
theorem max?_decision_eq_allow {rules : List (RuleMatch A)} (ne : rules ≠ []) :
    (rules.map RuleMatch.decision).max? = some .allow ↔
      ∀ matched ∈ rules, matched.decision = .allow := by
  rw [max?_eq_some_iff]
  constructor
  · rintro ⟨-, upper⟩ matched mem
    exact le_antisymm (upper _ (mem_map_of_mem mem)) (allow_le _)
  intro each
  obtain ⟨matched, mem⟩ := exists_mem_of_ne_nil _ ne
  refine ⟨each matched mem ▸ mem_map_of_mem mem, ?_⟩
  intro decision present
  obtain ⟨other, hit, rfl⟩ := List.mem_map.mp present
  exact (each other hit).le

/-- No other rule of the basename is stricter where it decides, and rules of the program match by
name. -/
structure NamedRulesAllow (paths : ProgramPaths A) (policy : Policy A) (first : Text)
    (rest : List Text) : Prop where
  continued : ∀ command, first :: rest <+: command → policy.exactMatches command = [] →
    ∀ matched ∈ policy.matchHostExecutableRules paths command, matched.decision = .allow
  named : ∀ command, policy.exactMatches command = [] →
    policy.MatchedByName paths first rest command →
    policy.matchHostExecutableRules paths command ≠ []

/-- A rule for the literal program changes nothing exactly when those of the basename allow as much.
-/
theorem decideAlike_iff_of_named
    (hit : policy.matchHostExecutableRules paths (first :: rest) ≠ []) :
    DecideAlike paths policy (policy.withAllowRule first rest) ↔
      policy.NamedRulesAllow paths first rest := by
  -- on a command that only the new rule matches literally, it decides alone
  have decides : ∀ command fallback, first :: rest <+: command → policy.exactMatches command = [] →
      ((policy.withAllowRule first rest).checkWithOptions paths command fallback ⟨true⟩).map
        (·.decision) = some .allow := by
    intro command fallback begins nothing
    have alone : (policy.withAllowRule first rest).exactMatches command =
        [.prefixRuleMatch (first :: rest) .allow none none] := by
      rw [exactMatches_withAllowRule, nothing, if_pos begins, nil_append]
    rw [decision_check, matches_of_exact (by simp [alone]), alone]
    rfl
  have continued : ∀ command, first :: rest <+: command →
      policy.matchHostExecutableRules paths command ≠ [] := by
    rintro command ⟨more, rfl⟩
    obtain ⟨matched, mem⟩ := exists_mem_of_ne_nil _ hit
    exact ne_nil_of_mem (hostMatches_subset_append _ more mem)
  constructor
  · intro alike
    constructor
    · intro command begins nothing
      have same := (alike command fun _ => .allow).trans (decides command _ begins nothing)
      rw [decision_check, matches_of_host nothing rfl (continued command begins)] at same
      exact (max?_decision_eq_allow (continued command begins)).mp same
    intro command nothing byName plain
    have apart : ¬ first :: rest <+: command := fun begins => continued command begins plain
    have still : (policy.withAllowRule first rest).exactMatches command = [] := by
      rw [exactMatches_withAllowRule, nothing, if_neg apart, append_nil]
    have same := alike command fun _ => .forbidden
    rcases @hostMatches_withAllowRule A _ paths policy first rest command with
      ⟨other, -⟩ | ⟨-, matched, allows, added⟩
    · exact other byName
    rw [decision_check, decision_check, matches_of_none nothing (fun _ => plain),
      matches_of_host still rfl (by simp [added]), added, plain, nil_append,
      map_singleton, map_singleton, allows] at same
    change some forbidden = some Decision.allow at same
    cases same
  intro named command fallback
  by_cases begins : first :: rest <+: command
  · by_cases nothing : policy.exactMatches command = []
    · rw [decides command fallback begins nothing, decision_check,
        matches_of_host nothing rfl (continued command begins)]
      exact (max?_decision_eq_allow (continued command begins)).mpr
        (named.continued command begins nothing)
    · exact decision_withAllowRule (fun _ => nothing) (fun none => absurd none nothing) fallback
  exact decision_withAllowRule (fun prefixed => absurd prefixed begins)
    (named.named command) fallback

omit [DecidableEq A] in
theorem isPolicyMatch_of_mem_exactMatches {matched : RuleMatch A}
    (mem : matched ∈ policy.exactMatches command) : matched.isPolicyMatch = true := by
  cases command with
  | nil => cases mem
  | cons program args =>
    obtain ⟨rule, -, accepted⟩ := mem_filterMap.mp mem
    obtain ⟨tokens, -, rfl⟩ := Option.map_eq_some_iff.mp accepted
    rfl

theorem isPolicyMatch_of_mem_hostMatches {matched : RuleMatch A}
    (mem : matched ∈ policy.matchHostExecutableRules paths command) :
    matched.isPolicyMatch = true := by
  cases command with
  | nil => cases mem
  | cons literal args =>
    cases found : hostExecutable paths literal with
    | none =>
      rw [matchHostExecutableRules, found] at mem
      cases mem
    | some pair =>
      rw [hostMatches_eq found] at mem
      split_ifs at mem
      · obtain ⟨other, exact, rfl⟩ := List.mem_map.mp mem
        have kept := isPolicyMatch_of_mem_exactMatches exact
        cases other with
        | prefixRuleMatch => rfl
        | heuristicsRuleMatch => cases kept
      · cases mem

end

end Policy

section

variable {A : Type} [DecidableEq A] {paths : ProgramPaths A} {policy : Policy A}
  {first : Text} {rest : List Text}

theorem alreadyAllowed_of_rules {command : List Text} {rules : List (RuleMatch A)}
    (matched : policy.matchesForCommandWithOptions paths command
      (some fun _ => .forbidden) ⟨true⟩ = rules) (ne : rules ≠ [])
    (policyMatches : ∀ rule ∈ rules, rule.isPolicyMatch = true) :
    alreadyAllowed paths policy command = true ↔ ∀ rule ∈ rules, rule.decision = .allow := by
  rw [alreadyAllowed, checkMultipleWithOptions, flatMap_singleton, matched,
    ← max?_decision_eq_allow ne]
  cases found : (rules.map RuleMatch.decision).max? with
  | none => exact absurd (map_eq_nil_iff.mp (max?_eq_none_iff.mp found)) ne
  | some greatest =>
    rw [Evaluation.fromMatches, found]
    simp only [Option.map_some, Option.any_some, Bool.and_eq_true, decide_eq_true_eq,
      Option.some.injEq, and_iff_left_iff_imp]
    rintro rfl
    obtain ⟨rule, mem⟩ := exists_mem_of_ne_nil _ ne
    have allows := (max?_decision_eq_allow ne).mp found rule mem
    exact List.any_eq_true.mpr ⟨rule, mem, by simp [policyMatches rule mem, allows]⟩

theorem alreadyAllowed_iff_of_inexact {command : List Text}
    (inexact : policy.exactMatches command = []) :
    alreadyAllowed paths policy command = true ↔
      policy.matchHostExecutableRules paths command ≠ [] ∧
        ∀ rule ∈ policy.matchHostExecutableRules paths command, rule.decision = .allow := by
  by_cases nothing : policy.matchHostExecutableRules paths command = []
  · simp only [nothing, ne_eq, not_true_eq_false, false_and, iff_false, Bool.not_eq_true]
    rw [alreadyAllowed, checkMultipleWithOptions, flatMap_singleton,
      matches_of_none inexact fun _ => nothing]
    rfl
  rw [alreadyAllowed_of_rules (matches_of_host inexact rfl nothing) nothing
    fun rule mem => isPolicyMatch_of_mem_hostMatches mem]
  exact (and_iff_right nothing).symm

/-- The evaluator reads the appended line as the new rule. -/
structure EvaluatesAmendment (jsonString : Text → Text) (evaluate : Text → Option (Policy A))
    (first : Text) (rest : List Text) : Prop where
  appended : ∀ texts policy, evaluate texts = some policy →
    allowRuleLine jsonString (first :: rest) ∉ Text.lines texts →
    evaluate (appendLockedLine texts (allowRuleLine jsonString (first :: rest))) =
      policy.addPrefixRule .allow (first :: rest)
  present : ∀ texts policy, evaluate texts = some policy →
    allowRuleLine jsonString (first :: rest) ∈ Text.lines texts →
    (first, .ofTokens .allow first rest) ∈ policy.rulesByProgram

theorem Policy.DecideAlike.trans {one two three : Policy A} (early : DecideAlike paths one two)
    (late : DecideAlike paths two three) : DecideAlike paths one three :=
  fun command fallback => (early command fallback).trans (late command fallback)

theorem Policy.DecideAlike.symm {one two : Policy A} (alike : DecideAlike paths one two) :
    DecideAlike paths two one :=
  fun command fallback => (alike command fallback).symm

theorem decideAlike_of_mem (mem : (first, .ofTokens .allow first rest) ∈ policy.rulesByProgram) :
    DecideAlike paths policy (policy.withAllowRule first rest) := by
  refine decideAlike_of_covered fun command begins => ?_
  have kept : ofTokens .allow first rest ∈ policy.rulesFor first :=
    List.mem_map.mpr ⟨_, mem_filter.mpr ⟨mem, by simp⟩, rfl⟩
  have accepted := @matches_ofTokens A .allow first rest command
  rw [if_pos begins] at accepted
  cases command with
  | nil => cases begins.length_le
  | cons program args =>
    obtain ⟨rfl, -⟩ := cons_prefix_cons.mp begins
    exact ne_nil_of_mem (mem_filterMap.mpr ⟨_, kept, accepted⟩)

/-- The file decides as the policy with the rule, and the memory does exactly when the amendment is
no exception. -/
theorem amendment_decideAlike_iff {jsonString : Text → Text} {evaluate : Text → Option (Policy A)}
    {manager next : ExecPolicyManager A}
    (evaluates : EvaluatesAmendment jsonString evaluate first rest)
    (held : evaluate manager.rulesFile = some manager.policy)
    (done : appendAmendmentAndUpdate jsonString paths manager (first :: rest) = .ok next) :
    ∃ reparsed, evaluate next.rulesFile = some reparsed ∧
      DecideAlike paths reparsed (manager.policy.withAllowRule first rest) ∧
      (DecideAlike paths next.policy reparsed ↔ (manager.policy.exactMatches (first :: rest) = [] →
          manager.policy.matchHostExecutableRules paths (first :: rest) ≠ [] →
          (∀ rule ∈ manager.policy.matchHostExecutableRules paths (first :: rest),
            rule.decision = .allow) →
          manager.policy.NamedRulesAllow paths first rest)) := by
  have written : ∃ reparsed, evaluate (appendLockedLine manager.rulesFile
      (allowRuleLine jsonString (first :: rest))) = some reparsed ∧
      DecideAlike paths reparsed (manager.policy.withAllowRule first rest) := by
    by_cases present : allowRuleLine jsonString (first :: rest) ∈ Text.lines manager.rulesFile
    · refine ⟨manager.policy, ?_, decideAlike_of_mem (evaluates.present _ _ held present)⟩
      rw [appendLockedLine, if_pos present, held]
    · exact ⟨_, evaluates.appended _ _ held present, fun _ _ => rfl⟩
  obtain ⟨reparsed, read, alike⟩ := written
  simp only [appendAmendmentAndUpdate, blockingAppendAllowPrefixRule, reduceCtorEq, if_false]
    at done
  by_cases allowed : alreadyAllowed paths manager.policy (first :: rest) = true
  · rw [if_pos allowed] at done
    obtain rfl := Except.ok.inj done
    refine ⟨reparsed, read, alike, ?_⟩
    have same : DecideAlike paths manager.policy reparsed ↔
        DecideAlike paths manager.policy (manager.policy.withAllowRule first rest) :=
      ⟨fun early => early.trans alike, fun early => early.trans alike.symm⟩
    rw [same]
    by_cases inexact : manager.policy.exactMatches (first :: rest) = []
    · obtain ⟨found, allows⟩ := (alreadyAllowed_iff_of_inexact inexact).mp allowed
      rw [decideAlike_iff_of_named found]
      exact ⟨fun named _ _ _ => named, fun named => named inexact found allows⟩
    refine ⟨fun _ none => absurd none inexact, fun _ => decideAlike_of_covered ?_⟩
    rintro command ⟨more, rfl⟩ none
    obtain ⟨rule, mem⟩ := exists_mem_of_ne_nil _ inexact
    exact ne_nil_of_mem (exactMatches_subset_append _ more mem) none
  rw [if_neg allowed] at done
  cases done
  refine ⟨reparsed, read, alike, fun _ inexact found allows => ?_, fun _ => alike.symm⟩
  exact absurd ((alreadyAllowed_iff_of_inexact inexact).mpr ⟨found, allows⟩) allowed

end

section

def quoted (token : Text) : Text := '"' :: token ++ ['"']

def gitPolicy : Policy Text :=
  prefixPolicy [(["git"], .allow), (["git", "push"], .forbidden)]

def gitRules : Text :=
  ("prefix_rule(pattern=[\"git\"], decision=\"allow\")\n" ++
    "prefix_rule(pattern=[\"git\", \"push\"], decision=\"forbidden\")\n").toList

def evaluateGitRules (first : Text) (rest : List Text) (texts : Text) : Option (Policy Text) :=
  if texts = gitRules then some gitPolicy
  else if texts = appendLockedLine gitRules (allowRuleLine quoted (first :: rest)) then
    some (gitPolicy.withAllowRule first rest)
  else none

theorem evaluatesAmendment_gitRules {first : Text} {rest : List Text}
    (fresh : allowRuleLine quoted (first :: rest) ∉ Text.lines gitRules)
    (written : allowRuleLine quoted (first :: rest) ∈
      Text.lines (appendLockedLine gitRules (allowRuleLine quoted (first :: rest)))) :
    EvaluatesAmendment quoted (evaluateGitRules first rest) first rest := by
  constructor
  · intro texts policy read absent
    rw [evaluateGitRules] at read
    split_ifs at read with pre after
    · subst pre
      obtain rfl := Option.some.inj read
      rw [evaluateGitRules, if_neg, if_pos rfl]
      · rfl
      intro same
      exact fresh (same ▸ written)
    · exact absurd (after ▸ written) absent
  intro texts policy read present
  rw [evaluateGitRules] at read
  split_ifs at read with pre after
  · exact absurd (pre ▸ present) fresh
  cases read
  exact mem_append_right _ (mem_singleton.mpr rfl)

/-- A subcommand of an allowed program is allowed in memory and in the file. -/
theorem amendment_subcommand_decideAlike :
    ∃ reparsed, evaluateGitRules "git" ["status"]
        (appendLockedLine gitRules (allowRuleLine quoted (commandLine ["git", "status"]))) =
          some reparsed ∧
      DecideAlike posixPaths gitPolicy reparsed := by
  have evaluates := @evaluatesAmendment_gitRules "git" ["status"] (by decide +kernel)
    (by decide +kernel)
  obtain ⟨reparsed, read, -, alike⟩ := @amendment_decideAlike_iff Text _ posixPaths "git"
    ["status"] quoted (evaluateGitRules "git" ["status"])
    ⟨gitPolicy, gitRules⟩ ⟨gitPolicy, _⟩ evaluates rfl rfl
  exact ⟨reparsed, read, alike.mpr fun inexact => absurd inexact (by decide +kernel)⟩

/-- A program allowed by its basename may push by the file only. -/
theorem amendment_literalPath_disagrees :
    appendAmendmentAndUpdate quoted posixPaths ⟨gitPolicy, gitRules⟩
      (commandLine ["/usr/bin/git"]) =
      .ok ⟨gitPolicy, appendLockedLine gitRules
        (allowRuleLine quoted (commandLine ["/usr/bin/git"]))⟩ ∧
    ¬ DecideAlike posixPaths gitPolicy (gitPolicy.withAllowRule "/usr/bin/git" []) := by
  constructor
  · rfl
  intro alike
  have same := alike (commandLine ["/usr/bin/git", "push"]) fun _ => .forbidden
  exact absurd same (by decide +kernel)

end

open Text (trim toAsciiLowercase)

def isPort (text : Text) : Bool := text ≠ [] && text.all Char.isDigit

def around (sep : Char) (text : Text) : Text × Text :=
  (text.takeWhile (· ≠ sep), (text.dropWhile (· ≠ sep)).drop 1)

variable (host : Text)

def hasPort : Bool :=
  host.count ':' = 1 && (around ':' host).1 ≠ [] && isPort (around ':' host).2

variable (raw : Text)

def unwrapHost : (host : Text) → Except Text Text
  | '[' :: stripped =>
    let (inside, rest) := around ']' stripped
    if ']' ∉ stripped then
      .error "network_rule host has an invalid bracketed IPv6 literal"
    else if rest ≠ [] ∧ ¬ (rest.head? = some ':' ∧ isPort rest.tail) then
      .error ("network_rule host contains an unsupported suffix: " ++ raw)
    else .ok inside
  | host => .ok (if hasPort host then (around ':' host).1 else host)

def cleanHost : Text := toAsciiLowercase (trim (host.rdropWhile (· = '.')))

def checkHost (normalized : Text) : Except Text Text :=
  if normalized = [] then .error "network_rule host cannot be empty"
  else if '*' ∈ normalized then
    .error "network_rule host must be a specific host; wildcards are not allowed"
  else if normalized.any Text.isWhitespace then
    .error "network_rule host cannot contain whitespace"
  else .ok normalized

def normalizeNetworkRuleHost : Except Text Text :=
  let host := trim raw
  if host = [] then .error "network_rule host cannot be empty"
  else if "://" <:+: host ∨ '/' ∈ host ∨ '?' ∈ host ∨ '#' ∈ host then
    .error ("network_rule host must be a hostname or IP literal " ++
      "(without scheme or path)").toList
  else (unwrapHost raw host).bind fun host => checkHost (cleanHost host)

def checkJustification (justification : Option Text) : Except Text (Option Text) :=
  if justification.any fun raw => trim raw = [] then .error "justification cannot be empty"
  else .ok justification

def networkRuleInMemory (protocol : NetworkRuleProtocol) (decision : Decision)
    (justification : Option Text) : Except Text NetworkRule :=
  (normalizeNetworkRuleHost host).bind fun host =>
    (checkJustification justification).map fun justification =>
      { host, protocol, decision, justification }

def NetworkRuleProtocol.asPolicyString : NetworkRuleProtocol → Text
  | http => "http"
  | https => "https"
  | socks5Tcp => "socks5_tcp"
  | socks5Udp => "socks5_udp"

def NetworkRuleProtocol.parse : Except Text NetworkRuleProtocol :=
  if raw = "http" then .ok http
  else if raw = "https" ∨ raw = "https_connect" ∨ raw = "http-connect" then
    .ok https
  else if raw = "socks5_tcp" then .ok socks5Tcp
  else if raw = "socks5_udp" then .ok socks5Udp
  else .error (("network_rule protocol must be one of http, https, socks5_tcp, socks5_udp " ++
    "(got ").toList ++ raw ++ ")")

def Decision.parse : Except Text Decision :=
  if raw = "allow" then .ok allow
  else if raw = "prompt" then .ok prompt
  else if raw = "forbidden" then .ok forbidden
  else .error raw

def parseNetworkRuleDecision : Except Text Decision :=
  if raw = "deny" then .ok .forbidden else Decision.parse raw

def networkRuleDecisionText : Decision → Text
  | .allow => "allow"
  | .prompt => "prompt"
  | .forbidden => "deny"

/-- The arguments of a call of `network_rule` in a rules file. -/
structure NetworkRuleCall where
  host : Text
  protocol : Text
  decision : Text
  justification : Option Text

def writtenCall (protocol : NetworkRuleProtocol) (decision : Decision)
    (justification : Option Text) : Except Text NetworkRuleCall :=
  (normalizeNetworkRuleHost host).bind fun host =>
    (checkJustification justification).map fun justification =>
      { host, protocol := protocol.asPolicyString, decision := networkRuleDecisionText decision,
        justification }

def NetworkRuleCall.networkRule (call : NetworkRuleCall) : Except Text NetworkRule :=
  (NetworkRuleProtocol.parse call.protocol).bind fun protocol =>
    (parseNetworkRuleDecision call.decision).bind fun decision =>
      (checkJustification call.justification).bind fun justification =>
        (normalizeNetworkRuleHost call.host).map fun host =>
          { host, protocol, decision, justification }

structure Settled (host : Text) : Prop where
  unbracketed : host.head? ≠ some '['
  portless : hasPort host = false
  undotted : host.getLast? ≠ some '.'

open Except NetworkRuleCall Text

section

variable {raw host inner : Text}

theorem length_cleanHost_le (host : Text) : (cleanHost host).length ≤ host.length := by
  rw [cleanHost, toAsciiLowercase, length_map]
  exact ((List.rdropWhile_prefix _ _).length_le.trans (dropWhile_suffix _).length_le).trans
    (List.rdropWhile_prefix _ _).length_le

theorem unwrapHost_cases (hit : unwrapHost raw host = .ok inner) :
    (host.head? = some '[' ∨ hasPort host = true) ∧ inner.length < host.length ∧ inner ⊆ host ∨
      (host.head? ≠ some '[' ∧ hasPort host = false) ∧ inner = host := by
  have front : ∀ (sep : Char) (text : Text), (around sep text).1 <+: text :=
    fun sep text => takeWhile_prefix _
  by_cases bracket : host.head? = some '['
  · obtain ⟨stripped, rfl⟩ := head?_eq_some_iff.mp bracket
    simp only [unwrapHost] at hit
    split_ifs at hit
    obtain rfl := ok.inj hit
    exact .inl ⟨.inl rfl, Nat.lt_succ_of_le (front ']' stripped).length_le,
      List.Subset.trans (front ']' stripped).subset (subset_cons_self _ _)⟩
  have plain : unwrapHost raw host = .ok (if hasPort host then (around ':' host).1 else host) := by
    rw [unwrapHost]
    rintro stripped rfl
    exact bracket rfl
  rw [plain] at hit
  cases hit
  by_cases port : hasPort host = true
  · refine .inl ⟨.inr port, ?_, ?_⟩ <;> rw [if_pos port]
    · have colon : ':' ∈ host := by
        simp only [hasPort, Bool.and_eq_true, decide_eq_true_eq] at port
        exact count_pos_iff.mp (by omega)
      refine lt_of_le_of_ne (front ':' host).length_le fun eq => ?_
      have whole := (front ':' host).eq_of_length eq
      have mem := whole ▸ colon
      simpa using mem_takeWhile_imp mem
    · exact (front ':' host).subset
  · exact .inr ⟨⟨bracket, by simpa using port⟩, if_neg port⟩

theorem checkHost_eq_ok (hit : checkHost host = .ok inner) :
    inner = host ∧ host ≠ [] ∧ '*' ∉ host ∧ ∀ c ∈ host, isWhitespace c = false := by
  rw [checkHost] at hit
  split_ifs at hit with empty wildcard space
  exact ⟨(ok.inj hit).symm, empty, wildcard, by simpa using space⟩

theorem normalizeNetworkRuleHost_eq_ok (hit : normalizeNetworkRuleHost raw = .ok host) :
    host ≠ [] ∧ '*' ∉ host ∧ (∀ c ∈ host, isWhitespace c = false) ∧
      toAsciiLowercase host = host ∧ '/' ∉ host ∧ '?' ∉ host ∧ '#' ∉ host := by
  simp only [normalizeNetworkRuleHost] at hit
  split_ifs at hit with empty out
  cases bare : unwrapHost raw (trim raw) with
  | error fault => rw [bare] at hit; cases hit
  | ok inner =>
    rw [bare] at hit
    obtain ⟨rfl, ne, specific, solid⟩ := checkHost_eq_ok hit
    have le : ∀ c : Char, Caseless c → c ∈ cleanHost inner → c ∈ trim raw := by
      intro c caseless mem
      rw [cleanHost, mem_toAsciiLowercase caseless] at mem
      have ins : c ∈ inner := (List.rdropWhile_prefix _ _).subset
        ((dropWhile_suffix _).subset ((List.rdropWhile_prefix _ _).subset mem))
      rcases unwrapHost_cases bare with ⟨-, -, subset⟩ | ⟨-, rfl⟩
      · exact subset ins
      · exact ins
    simp only [not_or] at out
    refine ⟨ne, specific, solid, by simp [cleanHost], ?_, ?_, ?_⟩
    · exact fun mem => out.2.1 (le _ (caseless_of_toNat (by decide)) mem)
    · exact fun mem => out.2.2.1 (le _ (caseless_of_toNat (by decide)) mem)
    · exact fun mem => out.2.2.2 (le _ (caseless_of_toNat (by decide)) mem)

theorem trim_of_solid (solid : ∀ c ∈ host, isWhitespace c = false) : trim host = host := by
  have start : trimStart host = host := by
    cases host with
    | nil => rfl
    | cons c tl => exact dropWhile_cons_of_neg (by simp [solid c mem_cons_self])
  rw [trim, start, trimEnd, rdropWhile_eq_self_iff]
  intro ne
  simp [solid _ (getLast_mem ne)]

theorem normalizeNetworkRuleHost_again_iff (hit : normalizeNetworkRuleHost raw = .ok host) :
    normalizeNetworkRuleHost host = .ok host ↔ Settled host := by
  obtain ⟨ne, specific, solid, lower, slash, question, hash⟩ :=
    normalizeNetworkRuleHost_eq_ok hit
  have ins : ¬ ("://" <:+: host ∨ '/' ∈ host ∨ '?' ∈ host ∨ '#' ∈ host) := by
    rintro (scheme | mem | mem | mem)
    · exact slash (scheme.subset (by decide))
    · exact slash mem
    · exact question mem
    · exact hash mem
  have again : normalizeNetworkRuleHost host =
      (unwrapHost host host).bind fun inner => checkHost (cleanHost inner) := by
    simp only [normalizeNetworkRuleHost, trim_of_solid solid, if_neg ne, if_neg ins]
  rw [again]
  constructor
  · intro eq
    cases bare : unwrapHost host host with
    | error fault => rw [bare] at eq; cases eq
    | ok inner =>
      rw [bare] at eq
      obtain ⟨clean, -, -, -⟩ := checkHost_eq_ok eq
      have long := length_cleanHost_le inner
      rw [← clean] at long
      rcases unwrapHost_cases bare with ⟨-, short, -⟩ | ⟨⟨bracket, port⟩, rfl⟩
      · omega
      refine ⟨bracket, port, fun dot => ?_⟩
      -- a trailing dot is dropped
      obtain ⟨front, rfl⟩ := getLast?_eq_some_iff.mp dot
      have lt : (cleanHost (front ++ ['.'])).length ≤ front.length := by
        have dropped : cleanHost (front ++ ['.']) = cleanHost front := by
          rw [cleanHost, rdropWhile_concat_pos _ _ _ (by decide), cleanHost]
        exact dropped ▸ length_cleanHost_le front
      rw [← clean, length_append] at lt
      simp at lt
  rintro ⟨bracket, port, dot⟩
  have kept : cleanHost host = host := by
    have undotted : host.rdropWhile (· = '.') = host :=
      rdropWhile_eq_self_iff.mpr fun ne last => dot (by
        rw [getLast?_eq_some_getLast ne, of_decide_eq_true last])
    rw [cleanHost, undotted, trim_of_solid solid, lower]
  have plain : unwrapHost host host = .ok host := by
    rw [unwrapHost, port]
    · rfl
    rintro stripped rfl
    exact bracket rfl
  rw [plain]
  change checkHost (cleanHost host) = _
  rw [kept, checkHost, if_neg ne, if_neg specific, if_neg (by simpa using solid)]

end

theorem parse_asPolicyString (protocol : NetworkRuleProtocol) :
    NetworkRuleProtocol.parse protocol.asPolicyString = .ok protocol := by
  cases protocol <;> rfl

theorem parse_networkRuleDecisionText (decision : Decision) :
    parseNetworkRuleDecision (networkRuleDecisionText decision) = .ok decision := by
  cases decision <;> rfl

/-- The rule read back is the one in memory exactly when its host is settled. -/
theorem networkRule_reloads_iff {host : Text} {protocol : NetworkRuleProtocol} {decision : Decision}
    {justification : Option Text} {rule : NetworkRule}
    (applied : networkRuleInMemory host protocol decision justification = .ok rule) :
    (writtenCall host protocol decision justification).bind NetworkRuleCall.networkRule = .ok rule ↔
      Settled rule.host := by
  rw [networkRuleInMemory] at applied
  rw [writtenCall]
  cases normalized : normalizeNetworkRuleHost host with
  | error fault => rw [normalized] at applied; cases applied
  | ok name =>
    cases checked : checkJustification justification with
    | error fault => rw [normalized, checked] at applied; cases applied
    | ok reason =>
      rw [normalized, checked] at applied
      obtain rfl := Except.ok.inj applied
      have eq : checkJustification reason = .ok reason := by
        have kept := checked
        rw [checkJustification] at kept
        split_ifs at kept
        rwa [Except.ok.inj kept] at checked
      rw [← normalizeNetworkRuleHost_again_iff normalized]
      change (networkRule _) = _ ↔ _
      rw [networkRule, parse_asPolicyString, Except.bind,
        parse_networkRuleDecisionText, Except.bind, eq, Except.bind]
      cases normalizeNetworkRuleHost name with
      | error | ok => simp [Except.map]

theorem networkRule_reloads_domain :
    (writtenCall "Example.com:443" .https .forbidden none).bind
      NetworkRuleCall.networkRule =
      .ok { host := "example.com", protocol := .https, decision := .forbidden,
            justification := none } :=
  (networkRule_reloads_iff (by decide +kernel)).mpr ⟨by decide, by decide, by decide⟩

/-- The port in brackets is kept in memory and lost when the file is read. -/
theorem networkRule_reloads_without_port :
    networkRuleInMemory "[a:80]" .http .allow none =
        .ok ⟨"a:80", .http, .allow, none⟩ ∧
      (writtenCall "[a:80]" .http .allow none).bind NetworkRuleCall.networkRule =
        .ok ⟨"a", .http, .allow, none⟩ := by
  decide +kernel

end Codex.ExecPolicy
