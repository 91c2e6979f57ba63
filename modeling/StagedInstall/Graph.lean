import StagedInstall.FileSystem.Entry
import StagedInstall.Log

/-! # Action graphs

Staging registers actions and touches nothing. A graph keeps them in the order of their
registration, duplicates included, with the directories registered under the name of an aggregate
target. Which copies are distinct is decided by their targets: the first source wins.
-/

namespace StagedInstall

/-- A copy of `source` to `target`. -/
structure Copy where
  source : Path
  target : Path
  deriving DecidableEq, Repr

/-- A permission change of `target`. -/
structure Chmod where
  target : Path
  mode : Mode
  deriving DecidableEq, Repr

inductive Action
  | copy (c : Copy)
  | chmod (c : Chmod)
  deriving DecidableEq, Repr

section Unique

variable {α κ : Type} [DecidableEq κ] (key : α → κ)

def uniqueAfter (seen : List κ) : List α → List α
  | [] => []
  | a :: r => if key a ∈ seen then uniqueAfter seen r else a :: uniqueAfter (key a :: seen) r

/-- The elements whose key no earlier element has. -/
def uniqueBy (l : List α) : List α := uniqueAfter key [] l

end Unique

structure ActionGraph where
  actions : List Action
  aliases : List (String × List Path)
  deriving DecidableEq, Repr

namespace ActionGraph

variable (g : ActionGraph)

def empty : ActionGraph := ⟨[], []⟩

/-- The directories registered under an aggregate target. -/
def aliasDirs (name : String) : List Path := (g.aliases.lookup name).getD []

/-- Registers a directory under an aggregate target, unless the same one is there already. -/
def addAlias (name : String) (dir : Path) : ActionGraph :=
  if (g.aliasDirs name).any (fun d => d.Same dir) then g
  else if (g.aliases.lookup name).isSome then
    { g with aliases := g.aliases.map fun (n, ds) => (n, if n = name then ds ++ [dir] else ds) }
  else { g with aliases := g.aliases ++ [(name, [dir])] }

def append (actions : List Action) : ActionGraph := { g with actions := g.actions ++ actions }

/-- Where a file is installed in a directory: under its own name, or onto the directory itself
when it has none. -/
def targetIn (dir source : Path) : Path :=
  match source.fileName? with
  | some name => dir / name
  | none => dir

def addCopy (dir source : Path) : ActionGraph := g.append [.copy ⟨source, targetIn dir source⟩]

def addChmod (target : Path) (mode : Mode) : ActionGraph := g.append [.chmod ⟨target, mode⟩]

def copies : List Copy := g.actions.filterMap fun
  | .copy c => some c
  | .chmod _ => none

def chmods : List Chmod := g.actions.filterMap fun
  | .chmod c => some c
  | .copy _ => none

/-- The permission changes without repetitions, each where it was first registered. -/
def distinctChmods : List Chmod := uniqueBy (fun c => (c.target.components, c.mode)) g.chmods

/-- One copy for each target, the one registered first. -/
def distinctCopies : List Copy := uniqueBy (fun c => c.target.components) g.copies

/-- The copy that was registered first for a target. -/
def first? (target : Path) : Option Copy :=
  g.copies.find? fun c => decide (c.target.Same target)

def conflictWarning (first second : Copy) : Message :=
  ⟨.warn, second.target.display ++ " is staged from both " ++ first.source.display ++ " and " ++
    second.source.display ++ ", skipping the second"⟩

/-- A warning for each copy whose source is not the first one of its target. -/
def conflicts : List Message :=
  g.copies.filterMap fun c =>
    match g.first? c.target with
    | some first => if first.source.Same c.source then none else some (conflictWarning first c)
    | none => none

end ActionGraph

end StagedInstall
