import StagedInstall.Settings

/-! # Command line arguments

A command line is a subcommand with options on either side of it. Arguments are taken from left to
right: a request for help ends the reading at once, and so does the first mistake. An option whose
value is an argument of its own is only checked when something else is taken in after it.
-/

namespace StagedInstall.CommandLine

inductive Command
  | plan
  | install (dryRun : Bool)
  | uninstall (dryRun : Bool)
  | config (parameter value : String)
  deriving DecidableEq, Repr

structure Invocation where
  manifest : String
  settings : Settings
  command : Command
  deriving DecidableEq, Repr

/-- Why there is nothing to carry out: help was asked for, or the arguments are wrong. -/
inductive Stop
  | help
  | usage
  deriving DecidableEq, Repr

/-- The options that take a value and are allowed on both sides. -/
inductive OptionName
  | manifest
  | prefixDir
  | execPrefixDir
  | binDir
  | libDir
  | includeDir
  | shareDir
  deriving DecidableEq, Repr

def OptionName.ofLong? : String → Option OptionName
  | "manifest" => some manifest
  | "prefix" => some prefixDir
  | "eprefix" => some execPrefixDir
  | "bindir" => some binDir
  | "libdir" => some libDir
  | "includedir" => some includeDir
  | "sharedir" => some shareDir
  | _ => none

inductive Subcommand
  | plan
  | install
  | uninstall
  | config
  | help
  deriving DecidableEq, Repr

def Subcommand.ofName? : String → Option Subcommand
  | "plan" => some plan
  | "install" => some install
  | "uninstall" => some uninstall
  | "config" => some config
  | "help" => some help
  | _ => none

def Subcommand.allowsDryRun (c : Subcommand) : Bool := c = install || c = uninstall

def Subcommand.positionals (c : Subcommand) : Nat := if c = config then 2 else 0

/-- What was given on one side of the subcommand. An option is pending until it is checked; its
value may still be to come. -/
structure Side where
  values : List (OptionName × String) := []
  dryRun : Bool := false
  pending : Option (OptionName × Option String) := none
  positionals : List String := []
  deriving Repr

namespace Side

/-- Checks the pending option: it has a value, a manifest has a name, and no option is given
twice. -/
def settle (s : Side) : Except Stop Side :=
  match s.pending with
  | none => .ok s
  | some (_, none) => .error .usage
  | some (o, some v) =>
    if (s.values.lookup o).isSome ∨ (o = .manifest ∧ v = "") then .error .usage
    else .ok { s with values := s.values ++ [(o, v)], pending := none }

/-- An option whose value is the next argument. -/
def await (s : Side) (o : OptionName) : Except Stop Side := do
  return { ← s.settle with pending := some (o, none) }

/-- An option with its value in the same argument. -/
def give (s : Side) (o : OptionName) (v : String) : Except Stop Side := do
  settle { ← s.settle with pending := some (o, some v) }

def setDryRun (s : Side) : Except Stop Side := do
  let s ← s.settle
  if s.dryRun then throw .usage
  return { s with dryRun := true }

def askHelp (s : Side) : Except Stop Side := do
  let _ ← s.settle
  throw .help

def addPositional (s : Side) (limit : Nat) (a : String) : Except Stop Side := do
  let s ← s.settle
  if s.positionals.length < limit then return { s with positionals := s.positionals ++ [a] }
  throw .usage

end Side

/-- Where arguments are read: before the subcommand, or after it. -/
abbrev Position := Option Subcommand

namespace Position

def allowsDryRun (p : Position) : Bool := p.any Subcommand.allowsDryRun

def positionals (p : Position) : Nat := p.elim 0 Subcommand.positionals

end Position

/-- An argument `--name` or `--name=value`, without its dashes. -/
def takeLong (p : Position) (s : Side) (text : List Char) : Except Stop Side :=
  let name := String.ofList (text.takeWhile (· ≠ '='))
  let value := match text.dropWhile (· ≠ '=') with
    | [] => none
    | _ :: v => some (String.ofList v)
  match OptionName.ofLong? name, value with
  | some o, some v => s.give o v
  | some o, none => s.await o
  | none, some _ => .error .usage
  | none, none =>
    if name = "help" ∨ (name = "version" ∧ p = none) then s.askHelp
    else if name = "dry-run" ∧ Position.allowsDryRun p then s.setDryRun
    else .error .usage

/-- An argument of one-letter options, without its dash. -/
def takeShort (p : Position) (s : Side) : List Char → Except Stop Side
  | [] => .ok s
  | c :: r =>
    if c = 'm' then
      match r with
      | [] => s.await .manifest
      | d :: v => s.give .manifest (.ofList (if d = '=' then v else d :: v))
    else if c = 'h' ∨ (c = 'V' ∧ p = none) then s.askHelp
    else if c = 'n' ∧ Position.allowsDryRun p then do takeShort p (← s.setDryRun) r
    else .error .usage

/-- Reads the arguments of one side. Before the subcommand the reading ends at its name; the
arguments after that are given back with it. After `--` everything is positional. -/
def takeSide (p : Position) : (trailing : Bool) → Side → List String →
    Except Stop (Side × Option (Subcommand × List String))
  | _, s, [] => .ok (s, none)
  | true, s, a :: r => do takeSide p true (← s.addPositional (Position.positionals p) a) r
  | false, s, a :: r =>
    let dashed := a.toList.head? = some '-' ∧ a ≠ "-"
    match s.pending with
    | some (o, none) =>
      if dashed then .error .usage else takeSide p false { s with pending := some (o, some a) } r
    | _ =>
      match if p = none then Subcommand.ofName? a else none with
      | some c => .ok (s, some (c, r))
      | none =>
        if a = "--" then takeSide p true s r
        else if dashed then
          match a.toList with
          | '-' :: '-' :: text => do takeSide p false (← takeLong p s text) r
          | _ :: text => do takeSide p false (← takeShort p s text) r
          | [] => .error .usage
        else do takeSide p false (← s.addPositional (Position.positionals p) a) r

/-- The values of both sides together; those after the subcommand win. -/
def value? (before after : Side) (o : OptionName) : Option String :=
  (after.values.lookup o).or (before.values.lookup o)

def settings (before after : Side) : Settings where
  prefixDir := value? before after .prefixDir
  execPrefixDir := value? before after .execPrefixDir
  binDir := value? before after .binDir
  libDir := value? before after .libDir
  includeDir := value? before after .includeDir
  shareDir := value? before after .shareDir

def defaultManifest : String := "install.toml"

def command (after : Side) : Subcommand → Except Stop Command
  | .plan => .ok .plan
  | .install => .ok (.install after.dryRun)
  | .uninstall => .ok (.uninstall after.dryRun)
  | .config =>
    match after.positionals with
    | [parameter, value] => .ok (.config parameter value)
    | _ => .error .usage
  | .help => .error .help

/-- The subcommand `help` takes at most the name of one subcommand. -/
def help : List String → Stop
  | [] => .help
  | [name] => if (Subcommand.ofName? name).isSome then .help else .usage
  | _ => .usage

/-- How the program is called. -/
def usage : String :=
  "Usage: installer_cpp [OPTIONS] <COMMAND>\n\n" ++
  "Commands:\n  plan\n  install [-n|--dry-run]\n  uninstall [-n|--dry-run]\n" ++
  "  config <PARAMETER> <VALUE>\n  help\n\n" ++
  "Options:\n  -m, --manifest <FILE>\n  --prefix, --eprefix, --bindir, --libdir, --includedir," ++
  " --sharedir <DIR>\n\n" ++
  "Environment variables:\n  INSTALLER_CPP_LOG_LEVEL  Debug, Info, Log, Warn or Error\n"

def parse (args : List String) : Except Stop Invocation := do
  let (before, found) ← takeSide none false {} args
  match found with
  | none => throw .usage
  | some (.help, rest) => throw (help rest)
  | some (c, rest) =>
    let (after, _) ← takeSide (some c) false {} rest
    let after ← after.settle
    let command ← command after c
    let before ← before.settle
    return ⟨(value? before after .manifest).getD defaultManifest, settings before after, command⟩

end StagedInstall.CommandLine
