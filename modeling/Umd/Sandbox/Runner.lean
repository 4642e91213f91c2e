import Umd.Lib.Json
import Umd.Lib.PosixPath
/-!
# The policy check of the sandbox runner

What `_check_policy` looks at before a parser runs: the executable, an `-m` in the
first place, and the last argument. What the interpreter makes of its arguments is
`invocation`; `admitted_safe_iff` says which admitted argument lists stay in the spool.
-/

namespace Umd.Sandbox

open Umd.Lib Umd.Lib.PosixPath

/-- The fields of `SandboxPolicy` that the check reads. -/
structure SandboxPolicy where
  allowedExecutables : List String := []
  allowedModules : List String := []
  allowedExtensions : List String := []

/-- A path without links and dots: the names on the way to it. -/
structure ResolvedPath where
  names : List (List Char)
  valid : ∀ n ∈ names, n ≠ [] ∧ '/' ∉ n
deriving DecidableEq

/-- `str(path)`. -/
def ResolvedPath.text (p : ResolvedPath) : List Char := absolute '/' p.names

/-- `path.suffix`. -/
def ResolvedPath.suffix (p : ResolvedPath) : List Char :=
  let name := p.names.getLast?.getD []
  let extension := (name.reverse.takeWhile (· ≠ '.')).reverse
  if extension ≠ [] ∧ extension.length + 1 < name.length then '.' :: extension else []

/-- How a path text resolves; the system call can fail, and a text may be none that the system takes. -/
inductive Resolution where
  | found (p : ResolvedPath)
  | osError
  | valueError
deriving DecidableEq

/-- What the check is told of the host. -/
structure Host where
  /-- `os.path.realpath`. -/
  resolve : String → Resolution
  /-- What a program name without a slash is looked up as. -/
  search : String → Option String
  /-- `sys.executable`. -/
  executable : String
  spoolRoot : ResolvedPath
  lower : List Char → List Char

variable (host : Host)

/-- `_same_interpreter`. -/
def sameInterpreter (exe : String) : Except PyError Bool :=
  match host.resolve exe, host.resolve host.executable with
  | .found p, .found q => .ok (p = q)
  | .valueError, _ => .error .valueError
  | .osError, _ => .ok false
  | .found _, .osError => .ok false
  | .found _, .valueError => .error .valueError

/-- The `-m` part of `_check_policy`. -/
def checkModule (policy : SandboxPolicy) (args : List String) : Option String :=
  if args.head? = some "-m" then
    if policy.allowedModules = [] then some "no -m modules allowlisted for this policy"
    else
      match args.tail with
      | [] => some "-m requires a module argument"
      | module :: _ => if module ∈ policy.allowedModules then none else some ("module " ++ Lib.reprStr module ++ " not allowlisted")
  else none

/-- The suffixes that a policy allows, with their dots. -/
def allowedSuffixes (policy : SandboxPolicy) : List (List Char) := policy.allowedExtensions.map fun e => '.' :: host.lower e.toList

/-- What `_check_policy` asks of its last argument. -/
def checkPath (policy : SandboxPolicy) (trailing : String) : Except PyError (Option String) :=
  match host.resolve trailing with
  | .valueError => .error .valueError
  | .osError => .ok (some ("cannot resolve path " ++ Lib.reprStr trailing))
  | .found resolved =>
    if !host.spoolRoot.text.isPrefixOf resolved.text then
      .ok (some ("input path " ++ Lib.reprStr trailing ++ " escapes the read-only spool"))
    else if policy.allowedExtensions ≠ [] ∧ host.lower resolved.suffix ∉ allowedSuffixes host policy then
      .ok (some ("input path " ++ Lib.reprStr trailing ++ " extension " ++ Lib.reprStr (String.ofList (host.lower resolved.suffix)) ++
        " is not allowlisted"))
    else .ok none

/-- Whether the check looks at an argument as a path. -/
def looksLikePath (arg : String) : Bool := arg ≠ "" && arg.toList.head? ≠ some '-'

/-- `_check_policy`: the reason of a denial. -/
def checkPolicy (policy : SandboxPolicy) (exe : String) (args : List String) : Except PyError (Option String) := do
  if policy.allowedExecutables ≠ [] then
    let name := ((components '/' exe.toList).filter fun c => c ≠ [] ∧ c ≠ ['.']).getLast?.getD []
    if String.ofList name ∉ policy.allowedExecutables then
      return some ("executable " ++ Lib.reprStr exe ++ " not allowlisted")
  else if !(← sameInterpreter host exe) then
    return some ("executable " ++ Lib.reprStr exe ++ " is not the allowlisted interpreter")
  if let some reason := checkModule policy args then return some reason
  if policy.allowedExtensions ≠ [] ∨ policy.allowedModules ≠ [] then
    let trailing := args.getLast?.getD exe
    if looksLikePath trailing then checkPath host policy trailing else return none
  else return none

/-! ## The interpreter's command line -/

/-- What the interpreter runs, and the arguments it leaves for it. -/
inductive Invocation where
  | module (name : String) (operands : List String)
  | command (code : String) (operands : List String)
  | script (operands : List String)
  | exits
deriving DecidableEq

/-- An option that takes a value. -/
inductive Valued where
  | module
  | command
  | ignored
  | hashBasedPycs
deriving DecidableEq

/-- What the letters of one argument leave open. -/
inductive Scanned where
  | done
  | awaits (option : Valued)
  | given (option : Valued) (value : String)
  | exits
deriving DecidableEq

def flagLetters : List Char := "bBdEiIOPqRsStuvx".toList

/-- The letters after the dash of an argument; after another dash comes the name of a long option. -/
def scanLetters : List Char → Scanned
  | [] => .done
  | c :: cs =>
    let value (option : Valued) : Scanned := if cs = [] then .awaits option else .given option (String.ofList cs)
    if c = 'm' then value .module
    else if c = 'c' then value .command
    else if c = 'W' ∨ c = 'X' then value .ignored
    else if c = '-' then (if String.ofList cs = "check-hash-based-pycs" then .awaits .hashBasedPycs else .exits)
    else if c ∈ flagLetters then scanLetters cs
    else .exits

/-- An argument where options are read: none, or the end of them. -/
def isOperand (arg : String) : Bool := arg.toList.head? ≠ some '-' || arg = "-"

/-- The options of the interpreter, which end at the first argument that is none, at `-m` and at `-c`. -/
def scanArguments : Option Valued → List String → Invocation
  | none, [] => .script []
  | some _, [] => .exits
  | some .module, name :: operands => .module name operands
  | some .command, code :: operands => .command code operands
  | some .ignored, _ :: args => scanArguments none args
  | some .hashBasedPycs, value :: args =>
    if value ∈ ["always", "default", "never"] then scanArguments none args else .exits
  | none, arg :: args =>
    if isOperand arg then .script (arg :: args)
    else if arg = "--" then .script args
    else
      match scanLetters (arg.toList.drop 1) with
      | .done => scanArguments none args
      | .awaits option => scanArguments (some option) args
      | .given .module name => .module name args
      | .given .command code => .command code args
      | .given _ _ => scanArguments none args
      | .exits => .exits

/-- What the interpreter makes of its arguments. -/
def invocation (args : List String) : Invocation := scanArguments none args

/-- The module that is executed through `-m`. -/
def Invocation.module? : Invocation → Option String
  | .module name _ => some name
  | _ => none

def Invocation.operands : Invocation → List String
  | .module _ operands => operands
  | .command _ operands => operands
  | .script operands => operands
  | .exits => []

/-- The program that the system runs for a name. -/
def Host.program (exe : String) : Option String := if '/' ∈ exe.toList then some exe else host.search exe

/-! ## What is admitted -/

/-- A path that resolves to a place below the spool root, with an extension that the policy allows. -/
def Contained (policy : SandboxPolicy) (arg : String) : Prop :=
  ∃ p, host.resolve arg = .found p ∧ Below host.spoolRoot.names p.names ∧
    (policy.allowedExtensions ≠ [] → host.lower p.suffix ∈ allowedSuffixes host policy)

/-- What is run is the interpreter, with a declared module, over paths in the spool. `isPath` says which arguments the
program that is run takes as paths. -/
structure Safe (policy : SandboxPolicy) (isPath : String → Prop) (exe : String) (args : List String) : Prop where
  program : ∃ name p, host.program exe = some name ∧ host.resolve name = .found p ∧ host.resolve host.executable = .found p
  module : ∀ m, (invocation args).module? = some m → m ∈ policy.allowedModules
  paths : policy.allowedModules ≠ [] ∨ policy.allowedExtensions ≠ [] →
    ∀ arg ∈ (invocation args).operands, isPath arg → Contained host policy arg

/-- The check sees an argument as a path if it is the last one, is not empty and does not begin with a dash. -/
def Inspected (args : List String) (arg : String) : Prop := args.getLast? = some arg ∧ looksLikePath arg = true

/-- What the check does not see is in order: the name without a slash is found where it resolves, an `-m` that does not
stand first names a declared module, a path in another place is in the spool, and the last one is not the spool root and
not beside it. -/
structure Careful (policy : SandboxPolicy) (isPath : String → Prop) (exe : String) (args : List String) : Prop where
  program : '/' ∉ exe.toList → ∃ name, host.search exe = some name ∧ host.resolve name = host.resolve exe
  module : args.head? ≠ some "-m" → ∀ m, (invocation args).module? = some m → m ∈ policy.allowedModules
  others : policy.allowedModules ≠ [] ∨ policy.allowedExtensions ≠ [] →
    ∀ arg ∈ (invocation args).operands, isPath arg → ¬ Inspected args arg → Contained host policy arg
  last : policy.allowedModules ≠ [] ∨ policy.allowedExtensions ≠ [] →
    ∀ arg ∈ (invocation args).operands, isPath arg → Inspected args arg →
      ∀ p, host.resolve arg = .found p → p ≠ host.spoolRoot ∧ ¬ Beside host.spoolRoot.names p.names

variable {host}

theorem ResolvedPath.text_prefix_iff (dir place : ResolvedPath) :
    dir.text <+: place.text ↔ Below dir.names place.names ∨ place.names = dir.names ∨ Beside dir.names place.names :=
  absolute_prefix_iff dir.valid fun n hn => (place.valid n hn).2

theorem sameInterpreter_ok {exe : String} (h : sameInterpreter host exe = .ok true) :
    ∃ p, host.resolve exe = .found p ∧ host.resolve host.executable = .found p := by
  unfold sameInterpreter at h
  split at h
  · rename_i p q hp hq
    obtain rfl : p = q := by simpa using h
    exact ⟨p, hp, hq⟩
  all_goals cases h

/-- A path that the check admits. -/
theorem checkPath_ok {policy : SandboxPolicy} {arg : String} (h : checkPath host policy arg = .ok none) :
    ∃ p, host.resolve arg = .found p ∧ host.spoolRoot.text <+: p.text ∧
      (policy.allowedExtensions ≠ [] → host.lower p.suffix ∈ allowedSuffixes host policy) := by
  unfold checkPath at h
  split at h
  · cases h
  · cases h
  · rename_i p hp
    split at h
    · cases h
    · rename_i hpre
      split at h
      · cases h
      · rename_i hsuffix
        refine ⟨p, hp, by simpa using hpre, fun hne => ?_⟩
        by_contra hnot
        exact hsuffix ⟨hne, hnot⟩

theorem checkModule_ok {policy : SandboxPolicy} {args : List String} (h : checkModule policy args = none)
    (hfirst : args.head? = some "-m") : ∃ m rest, args = "-m" :: m :: rest ∧ m ∈ policy.allowedModules := by
  obtain ⟨rest, rfl⟩ := List.head?_eq_some_iff.1 hfirst
  unfold checkModule at h
  rw [if_pos List.head?_cons] at h
  split at h
  · cases h
  · cases rest with
    | nil => cases h
    | cons m rest =>
      rw [List.tail_cons] at h
      dsimp only at h
      split at h
      · rename_i hm
        exact ⟨m, rest, rfl, hm⟩
      · cases h

/-- What the check finds in order in an argument list that it admits. -/
structure Admits (host : Host) (policy : SandboxPolicy) (exe : String) (args : List String) : Prop where
  interpreter : sameInterpreter host exe = .ok true
  module : checkModule policy args = none
  last : policy.allowedModules ≠ [] ∨ policy.allowedExtensions ≠ [] →
    ∀ arg, Inspected args arg → checkPath host policy arg = .ok none

theorem checkPolicy_ok {policy : SandboxPolicy} {exe : String} {args : List String} (hexec : policy.allowedExecutables = [])
    (h : checkPolicy host policy exe args = .ok none) : Admits host policy exe args := by
  unfold checkPolicy at h
  rw [hexec] at h
  cases hsame : sameInterpreter host exe with
  | error e => simp [hsame, bind, Except.bind] at h
  | ok same =>
    cases same with
    | false => simp [hsame, bind, Except.bind, pure, Except.pure] at h
    | true =>
      cases hmodule : checkModule policy args with
      | some reason => simp [hsame, hmodule, bind, Except.bind, pure, Except.pure] at h
      | none =>
        refine ⟨hsame, hmodule, fun hdeclared arg harg => ?_⟩
        have hlast : args.getLast?.getD exe = arg := by rw [harg.1]; rfl
        simp only [hsame, hmodule, hlast, harg.2, hdeclared.symm, bind, Except.bind, pure, Except.pure] at h
        simpa using h

theorem invocation_module (m : String) (operands : List String) : invocation ("-m" :: m :: operands) = .module m operands := rfl

/-- An admitted argument list of the interpreter is safe if and only if what the check does not see is in order. -/
theorem admitted_safe_iff {policy : SandboxPolicy} {exe : String} {args : List String} (isPath : String → Prop)
    (hexec : policy.allowedExecutables = []) (h : checkPolicy host policy exe args = .ok none) :
    Safe host policy isPath exe args ↔ Careful host policy isPath exe args := by
  obtain ⟨hinterpreter, hmodule, hlast⟩ := checkPolicy_ok hexec h
  obtain ⟨p, hexe, hself⟩ := sameInterpreter_ok hinterpreter
  constructor
  · intro hs
    refine ⟨fun hslash => ?_, fun _ => hs.module, fun hd arg ha hp _ => hs.paths hd arg ha hp, fun hd arg ha hp _ q hq => ?_⟩
    · obtain ⟨name, p', hname, hp', hself'⟩ := hs.program
      rw [Host.program, if_neg hslash] at hname
      rw [hself] at hself'
      cases hself'
      exact ⟨name, hname, by rw [hp', hexe]⟩
    · obtain ⟨q', hq', hbelow, -⟩ := hs.paths hd arg ha hp
      rw [hq] at hq'
      cases hq'
      exact ⟨fun he => hbelow.2 (by rw [he]), hbelow.not_beside⟩
  · intro hc
    refine ⟨?_, fun m hm => ?_, fun hd arg ha hp => ?_⟩
    · by_cases hslash : '/' ∈ exe.toList
      · exact ⟨exe, p, if_pos hslash, hexe, hself⟩
      · obtain ⟨name, hname, hresolve⟩ := hc.program hslash
        exact ⟨name, p, by rw [Host.program, if_neg hslash, hname], by rw [hresolve, hexe], hself⟩
    · by_cases hfirst : args.head? = some "-m"
      · obtain ⟨m', rest, rfl, hm'⟩ := checkModule_ok hmodule hfirst
        cases hm
        exact hm'
      · exact hc.module hfirst m hm
    · by_cases hseen : Inspected args arg
      · obtain ⟨q, hq, hpre, hsuffix⟩ := checkPath_ok (hlast hd arg hseen)
        obtain ⟨hroot, hbeside⟩ := hc.last hd arg ha hp hseen q hq
        rcases (ResolvedPath.text_prefix_iff _ _).1 hpre with hbelow | heq | hb
        · exact ⟨q, hq, hbelow, hsuffix⟩
        · refine absurd ?_ hroot
          cases q
          cases hs : host.spoolRoot
          simp_all
        · exact absurd hb hbeside
      · exact hc.others hd arg ha hp hseen

/-- A host without links, whose only program is the interpreter. -/
def plainHost : Host where
  resolve := fun s =>
    let names := locate '/' '.' ["work".toList] s.toList
    if h : ∀ n ∈ names, n ≠ [] ∧ '/' ∉ n then .found ⟨names, h⟩ else .osError
  search := fun _ => none
  executable := "/usr/bin/python3"
  spoolRoot := ⟨["tmp".toList, "spool".toList], by decide⟩
  lower := List.map Char.toLower

def textPolicy : SandboxPolicy where
  allowedModules := ["umd.extractors.dispatch"]
  allowedExtensions := ["txt"]

theorem admitted_safe_text : Safe plainHost textPolicy (· = "/tmp/spool/input.txt") "/usr/bin/python3"
    ["-m", "umd.extractors.dispatch", "txt", "/tmp/spool/input.txt"] := by
  refine (admitted_safe_iff _ rfl (by decide +kernel)).2 ⟨fun h => absurd (by decide) h, fun h => absurd rfl h, ?_, ?_⟩
  · rintro - arg - rfl hseen
    exact absurd ⟨rfl, by decide⟩ hseen
  · rintro - arg - rfl - p hp
    have hnames : p.names = ["tmp".toList, "spool".toList, "input.txt".toList] := by
      have hresolve : plainHost.resolve "/tmp/spool/input.txt" =
          .found ⟨["tmp".toList, "spool".toList, "input.txt".toList], by decide⟩ := by
        decide +kernel
      rw [hresolve] at hp
      cases hp
      rfl
    have hbelow : Below plainHost.spoolRoot.names p.names := by
      rw [hnames]
      exact ⟨⟨["input.txt".toList], rfl⟩, by decide⟩
    exact ⟨fun he => hbelow.2 (by rw [he]), hbelow.not_beside⟩

/-- After another option, `-m` runs any module. -/
theorem isolated_module_admitted : ¬ ∀ (host : Host) (policy : SandboxPolicy) (isPath : String → Prop) (exe : String) (args : List String),
    policy.allowedExecutables = [] → checkPolicy host policy exe args = .ok none → Safe host policy isPath exe args := by
  intro hall
  have hsafe := hall plainHost textPolicy (fun _ => False) "/usr/bin/python3" ["-I", "-m", "pip", "/tmp/spool/input.txt"] rfl
    (by decide +kernel)
  exact absurd (hsafe.module "pip" (by decide +kernel)) (by decide)

end Umd.Sandbox
