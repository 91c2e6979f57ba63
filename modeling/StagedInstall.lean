import StagedInstall.CommandLine.Arguments
import StagedInstall.CommandLine.Run
import StagedInstall.Decimal.Binary64
import StagedInstall.Defaults
import StagedInstall.Digest.Sha1
import StagedInstall.Directories
import StagedInstall.Error
import StagedInstall.FileSystem.Basic
import StagedInstall.FileSystem.Cause
import StagedInstall.FileSystem.Entry
import StagedInstall.FileSystem.Lookup
import StagedInstall.FileSystem.Operations
import StagedInstall.FileSystem.Permissions
import StagedInstall.FileSystem.System
import StagedInstall.Graph
import StagedInstall.Install.Basic
import StagedInstall.Install.Content
import StagedInstall.Install.Removal
import StagedInstall.Install.Schedule
import StagedInstall.Log
import StagedInstall.Main
import StagedInstall.Manifest.Basic
import StagedInstall.Manifest.Schema
import StagedInstall.Outcome
import StagedInstall.Path
import StagedInstall.Pattern.Fnmatch
import StagedInstall.Pattern.Glob
import StagedInstall.Proofs.CommandLine.Frame
import StagedInstall.Proofs.Defaults.Store
import StagedInstall.Proofs.Defaults.Update
import StagedInstall.Proofs.Digest.Hasher
import StagedInstall.Proofs.Digest.Standard
import StagedInstall.Proofs.Directories.Layers
import StagedInstall.Proofs.Directories.Resolution
import StagedInstall.Proofs.FileSystem.Access
import StagedInstall.Proofs.FileSystem.Directories
import StagedInstall.Proofs.FileSystem.Frame
import StagedInstall.Proofs.FileSystem.LinkFree
import StagedInstall.Proofs.FileSystem.Listing
import StagedInstall.Proofs.FileSystem.Persistence
import StagedInstall.Proofs.FileSystem.Removal
import StagedInstall.Proofs.FileSystem.Respelling
import StagedInstall.Proofs.FileSystem.Spelling
import StagedInstall.Proofs.FileSystem.Unlink
import StagedInstall.Proofs.Graph
import StagedInstall.Proofs.Install.Again
import StagedInstall.Proofs.Install.Aliases
import StagedInstall.Proofs.Install.Chmods
import StagedInstall.Proofs.Install.Collapse
import StagedInstall.Proofs.Install.Comparison
import StagedInstall.Proofs.Install.Content
import StagedInstall.Proofs.Install.Copies
import StagedInstall.Proofs.Install.Distinct
import StagedInstall.Proofs.Install.Failure
import StagedInstall.Proofs.Install.Frame
import StagedInstall.Proofs.Install.Order
import StagedInstall.Proofs.Install.Parents
import StagedInstall.Proofs.Install.Phase
import StagedInstall.Proofs.Install.Removal
import StagedInstall.Proofs.Install.Repair
import StagedInstall.Proofs.Install.Resume
import StagedInstall.Proofs.Install.Schedules
import StagedInstall.Proofs.Install.Settled
import StagedInstall.Proofs.Install.StagedChmods
import StagedInstall.Proofs.Install.Success
import StagedInstall.Proofs.Install.Uninstall
import StagedInstall.Proofs.Install.Unlink
import StagedInstall.Proofs.Manifest.Records
import StagedInstall.Proofs.Manifest.Schema
import StagedInstall.Proofs.Pattern.Language
import StagedInstall.Proofs.Pattern.Matcher
import StagedInstall.Proofs.Pattern.Normal
import StagedInstall.Proofs.Staging.Containment
import StagedInstall.Proofs.Staging.Cycles
import StagedInstall.Proofs.Staging.Footprint
import StagedInstall.Proofs.Staging.Invariant
import StagedInstall.Proofs.Staging.Obstacles
import StagedInstall.Proofs.Staging.Reachable
import StagedInstall.Proofs.Staging.Relocation
import StagedInstall.Proofs.Staging.Selection
import StagedInstall.Proofs.Staging.Tasks
import StagedInstall.Proofs.Staging.Traversal
import StagedInstall.Proofs.Staging.Walk
import StagedInstall.Proofs.Text.RoundTrip
import StagedInstall.Proofs.Text.Utf8
import StagedInstall.Proofs.Toml.Keys
import StagedInstall.Proofs.Toml.Strings
import StagedInstall.Settings
import StagedInstall.SortedMap
import StagedInstall.Staging.Basic
import StagedInstall.Staging.Task
import StagedInstall.Staging.Walk
import StagedInstall.Text.Blank
import StagedInstall.Text.Quoted
import StagedInstall.Text.Utf8
import StagedInstall.Text.Visible
import StagedInstall.Toml.Document
import StagedInstall.Toml.Misfit
import StagedInstall.Toml.Number
import StagedInstall.Toml.Statement
import StagedInstall.Toml.Text
import StagedInstall.Toml.Value
import StagedInstall.Toml.Writer
