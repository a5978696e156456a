import Codex.Foundation.Text

/-!
# Dangerous commands

A forced `rm` is dangerous, and so is what runs a dangerous command.
-/

namespace Codex.ShellCommand

inductive DangerousCommandMatch
  | forcedRm
  | other
  deriving DecidableEq

def maxDangerousCommandWrapperDepth : Nat := 8

structure ShellHost where
  executableNameLookupKey : Text → Option Text
  parseShellLcLiteralCommands : List Text → Option (List (List Text))
  isDangerousCommandWindows : List Text → Bool
  lookupKey_sudo : executableNameLookupKey "sudo".toList = some "sudo".toList
  lookupKey_env : executableNameLookupKey "env".toList = some "env".toList

def rmArgsIncludeForceOption (args : List Text) : Bool :=
  (args.takeWhile (· ≠ "--".toList)).any fun arg =>
    arg = "--force".toList ||
      (arg.head? = some '-' && arg.tail.head? ≠ some '-' && 'f' ∈ arg.tail)

/-- An option or an assignment before the command that `env` runs. -/
def isEnvArgument (arg : Text) : Bool :=
  arg = "-i" || arg = "--ignore-environment" ||
    ('=' ∈ arg && arg.head? ≠ some '=' && arg.head? ≠ some '-')

def skipEnvArguments : List Text → List Text
  | [] => []
  | arg :: rest =>
    if arg = "--" then rest
    else if isEnvArgument arg then skipEnvArguments rest
    else arg :: rest

def trapCommand (args : List Text) : Option (List Text) :=
  let operands := if args.head? = some "--".toList then args.tail else args
  (operands.head?.filter fun act => act.head? ≠ some '-').map fun act =>
    ["sh".toList, "-c".toList, act]

section

variable (host : ShellHost)

/-- The program is `rm` and is given the force option. -/
def isForcedRm : List Text → Bool
  | [] => false
  | program :: args => host.executableNameLookupKey program = some "rm".toList &&
      rmArgsIncludeForceOption args

def dangerousCommandMatchForExec (below : List Text → Option DangerousCommandMatch) :
    List Text → Option DangerousCommandMatch
  | [] => none
  | program :: args =>
    let name := host.executableNameLookupKey program
    if isForcedRm host (program :: args) then some .forcedRm
    else if name = some "sudo".toList then below args
    else if name = some "env".toList then below (skipEnvArguments args)
    else if name = some "trap".toList then (trapCommand args).bind below
    else none

def dangerousCommandMatchWithin : Nat → List Text → Option DangerousCommandMatch
  | 0, _ => some .other
  | levels + 1, command =>
    (dangerousCommandMatchForExec host (dangerousCommandMatchWithin levels) command).or
      (((host.parseShellLcLiteralCommands command).bind
        (List.findSome? (dangerousCommandMatchWithin levels))).or
      (if host.isDangerousCommandWindows command then some .other else none))

def dangerousCommandMatch (command : List Text) : Option DangerousCommandMatch :=
  dangerousCommandMatchWithin host (maxDangerousCommandWrapperDepth + 1) command

end

abbrev EnvArgument := { arg : Text // isEnvArgument arg = true }

/-- A command that runs another: `sudo`, or `env` with its arguments and perhaps a separator. -/
inductive Wrapper
  | viaSudo
  | viaEnv (args : List EnvArgument) (separated : Bool)

namespace Wrapper

def wrap (command : List Text) : Wrapper → List Text
  | viaSudo => "sudo" :: command
  | viaEnv args separated => "env".toList :: (args.map Subtype.val ++
      ((if separated then ["--".toList] else []) ++ command))

/-- An `env` without a separator does not take the program of the command for an argument. -/
def Passes (command : List Text) : Wrapper → Prop
  | viaEnv _ false => ∀ program ∈ command.head?,
      program ≠ "--" ∧ isEnvArgument program = false
  | _ => True

end Wrapper

def wrapAll (wrappers : List Wrapper) (command : List Text) : List Text :=
  wrappers.foldr (fun wrapper inner => wrapper.wrap inner) command

/-- The innermost wrapper takes no word of the command for its own. -/
def Visible (wrappers : List Wrapper) (command : List Text) : Prop :=
  ∀ last ∈ wrappers.getLast?, last.Passes command

open List Option

section

variable {host : ShellHost} {levels : Nat} {command : List Text}

theorem isSome_matchForExec_of_imp {below y : List Text → Option DangerousCommandMatch}
    (weaker : ∀ command, (below command).isSome → (y command).isSome)
    (hit : (dangerousCommandMatchForExec host below command).isSome) :
    (dangerousCommandMatchForExec host y command).isSome := by
  cases command with
  | nil => cases hit
  | cons program args =>
    simp only [dangerousCommandMatchForExec] at hit ⊢
    split_ifs at hit ⊢
    · rfl
    · exact weaker _ hit
    · exact weaker _ hit
    · cases act : trapCommand args with
      | none => simp [act] at hit
      | some script =>
        rw [act] at hit
        exact weaker script hit
    · cases hit

theorem isSome_matchWithin_of_succ
    (hit : (dangerousCommandMatchWithin host (levels + 1) command).isSome) :
    (dangerousCommandMatchWithin host levels command).isSome := by
  induction levels generalizing command with
  | zero => rfl
  | succ levels ih =>
    rw [dangerousCommandMatchWithin, isSome_or, isSome_or] at hit ⊢
    simp only [Bool.or_eq_true] at hit ⊢
    rcases hit with exec | script | windows
    · exact .inl (isSome_matchForExec_of_imp (fun _ => ih) exec)
    · refine .inr (.inl ?_)
      obtain ⟨res, eq⟩ := isSome_iff_exists.mp script
      obtain ⟨commands, parsed, fst⟩ := bind_eq_some_iff.mp eq
      obtain ⟨inner, mem, matched⟩ := exists_of_findSome?_eq_some fst
      rw [parsed]
      exact findSome?_isSome_iff.mpr
        ⟨inner, mem, ih (isSome_of_mem matched)⟩
    · exact .inr (.inr windows)

theorem isSome_matchWithin_of_le {fewer : Nat} (le : fewer ≤ levels)
    (hit : (dangerousCommandMatchWithin host levels command).isSome) :
    (dangerousCommandMatchWithin host fewer command).isSome := by
  induction le with
  | refl => exact hit
  | step _ ih => exact ih (isSome_matchWithin_of_succ hit)

end

section

variable {host : ShellHost} {levels : Nat} {command : List Text} {wrapper : Wrapper}
  {wrappers : List Wrapper}

theorem skipEnvArguments_map (args : List EnvArgument) (rest : List Text) :
    skipEnvArguments (args.map Subtype.val ++ rest) = skipEnvArguments rest := by
  induction args with
  | nil => rfl
  | cons arg args ih =>
    have named : arg.val ≠ "--" := by
      intro sep
      have isArgument := arg.property
      rw [sep] at isArgument
      exact absurd isArgument (by decide)
    rw [map_cons, cons_append, skipEnvArguments, if_neg named, if_pos arg.property, ih]

theorem skipEnvArguments_of_passes {args : List EnvArgument} {apart : Bool}
    (passes : (Wrapper.viaEnv args apart).Passes command) :
    skipEnvArguments ((if apart then ["--".toList] else []) ++ command) = command := by
  cases apart with
  | true => rfl
  | false =>
    cases command with
    | nil => rfl
    | cons program tl =>
      obtain ⟨named, plain⟩ := passes program rfl
      rw [if_neg (by decide), nil_append, skipEnvArguments, if_neg named,
        if_neg (by simp [plain])]

theorem matchForExec_wrap (passes : wrapper.Passes command)
    (below : List Text → Option DangerousCommandMatch) :
    dangerousCommandMatchForExec host below (wrapper.wrap command) = below command := by
  cases wrapper with
  | viaSudo =>
    simp only [Wrapper.wrap, dangerousCommandMatchForExec, isForcedRm, host.lookupKey_sudo]
    rfl
  | viaEnv args apart =>
    simp only [Wrapper.wrap, dangerousCommandMatchForExec, isForcedRm, host.lookupKey_env]
    rw [skipEnvArguments_map, skipEnvArguments_of_passes passes]
    rfl

theorem matchWithin_wrap (passes : wrapper.Passes command) {result : DangerousCommandMatch}
    (hit : dangerousCommandMatchWithin host levels command = some result) :
    dangerousCommandMatchWithin host (levels + 1) (wrapper.wrap command) = some result := by
  rw [dangerousCommandMatchWithin, matchForExec_wrap passes, hit]
  rfl

/-- A wrapped command is no argument of `env`. -/
theorem passes_wrap (inner : Wrapper) (command : List Text) :
    wrapper.Passes (inner.wrap command) := by
  cases wrapper with
  | viaSudo => trivial
  | viaEnv args apart =>
    cases apart with
    | true => trivial
    | false =>
      intro program fst
      cases inner with
      | viaSudo | viaEnv => exact some.inj fst ▸ by decide

theorem passes_wrapAll (visible : Visible (wrapper :: wrappers) command) :
    wrapper.Passes (wrapAll wrappers command) := by
  cases wrappers with
  | nil => exact visible wrapper rfl
  | cons inner tl => exact passes_wrap inner _

theorem Visible.of_cons (visible : Visible (wrapper :: wrappers) command) :
    Visible wrappers command := by
  cases wrappers with
  | nil => simp [Visible]
  | cons next tl => simpa [Visible] using visible

theorem isSome_matchWithin_wrapAll (visible : Visible wrappers command)
    (hit : ∀ fewer ≤ levels, (dangerousCommandMatchWithin host fewer command).isSome) :
    ∀ fewer ≤ levels,
      (dangerousCommandMatchWithin host fewer (wrapAll wrappers command)).isSome := by
  induction wrappers with
  | nil => exact hit
  | cons wrapper wrappers ih =>
    intro fewer le
    cases fewer with
    | zero => rfl
    | succ fewer =>
      obtain ⟨res, matched⟩ :=
        isSome_iff_exists.mp (ih visible.of_cons fewer (Nat.le_of_succ_le le))
      exact isSome_of_mem (matchWithin_wrap (passes_wrapAll visible) matched)

/-- A forced `rm` is found behind the wrappers as long as a level is left for it. -/
theorem matchWithin_wrapAll_forcedRm (visible : Visible wrappers command)
    (forced : isForcedRm host command = true) (levels : Nat) :
    dangerousCommandMatchWithin host (levels + 1 + wrappers.length)
      (wrapAll wrappers command) = some .forcedRm := by
  induction wrappers with
  | nil =>
    cases command with
    | nil => cases forced
    | cons program args =>
      simp [wrapAll, dangerousCommandMatchWithin, dangerousCommandMatchForExec, forced]
  | cons wrapper wrappers ih =>
    exact matchWithin_wrap (passes_wrapAll visible) (ih visible.of_cons)

end

/-- Wrappers leave a command dangerous, and `rm` is found through all the depth admits. -/
theorem dangerousCommandMatch_wrapAll (host : ShellHost) (wrappers : List Wrapper)
    (command : List Text) (visible : Visible wrappers command) :
    ((dangerousCommandMatch host command).isSome →
      (dangerousCommandMatch host (wrapAll wrappers command)).isSome) ∧
    (isForcedRm host command = true → wrappers.length ≤ maxDangerousCommandWrapperDepth →
      dangerousCommandMatch host (wrapAll wrappers command) = some .forcedRm) := by
  constructor
  · intro hit
    exact isSome_matchWithin_wrapAll visible (fun _ le => isSome_matchWithin_of_le le hit) _ le_rfl
  intro forced few
  have levels : maxDangerousCommandWrapperDepth + 1 =
      maxDangerousCommandWrapperDepth - wrappers.length + 1 + wrappers.length := by omega
  rw [dangerousCommandMatch, levels]
  exact matchWithin_wrapAll_forcedRm visible forced _

def posixHost : ShellHost where
  executableNameLookupKey program :=
    ((program.splitOn '/').filter fun part => part ≠ [] ∧ part ≠ ".").getLast?.filter
      (· ≠ "..")
  parseShellLcLiteralCommands _ := none
  isDangerousCommandWindows _ := false
  lookupKey_sudo := by decide
  lookupKey_env := by decide

theorem dangerousCommandMatch_sudo_env :
    dangerousCommandMatch posixHost (wrapAll [.viaSudo, .viaEnv [⟨"A=b", by decide⟩] false]
      ["/bin/rm", "-rf"]) = some .forcedRm :=
  (dangerousCommandMatch_wrapAll posixHost _ _ (by simp [Visible, Wrapper.Passes]; decide)).2
    (by decide) (by decide)

/-- `env` takes a program whose path has an equals sign for an assignment. -/
theorem dangerousCommandMatch_env_assignment :
    dangerousCommandMatch posixHost ["a=b/rm", "-f"] = some .forcedRm ∧
    dangerousCommandMatch posixHost
      (wrapAll [.viaEnv [] false] ["a=b/rm".toList, "-f".toList]) = none := by
  decide

end Codex.ShellCommand
