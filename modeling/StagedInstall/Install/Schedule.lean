import StagedInstall.Install.Basic

/-! # Parallel copies

The copies of an install phase may be shared out among threads, which makes their order any order.
Once one of them has failed, some of the others are still made and some are not; the permission
changes then are not made, and the error is that of a copy that failed. `ActionGraph.execute` is the
phase on a single thread.
-/

namespace StagedInstall

/-- Attempts the copies one after the other, also after one that fails, and collects the errors. -/
def Copy.attempt (fs : FileSystem) : List Copy → FileSystem × List InstallError
  | [] => (fs, [])
  | c :: cs =>
    match c.perform fs with
    | (fs, .ok _) => attempt fs cs
    | (fs, .error e) =>
      let (fs, es) := attempt fs cs
      (fs, e :: es)

/-- How an install phase can end. -/
inductive ActionGraph.Executes (g : ActionGraph) (fs : FileSystem) :
    Except InstallError Report → FileSystem → Prop
  | copied {order : List Copy} (h : order.Perm g.distinctCopies)
      (hc : (InstallRun.runCopies fs [] order).failure = none) :
      Executes g fs (InstallRun.runCopies fs g.distinctChmods order).result
        (InstallRun.runCopies fs g.distinctChmods order).fs
  | failed {order rest : List Copy} {e : InstallError}
      (h : (order ++ rest).Perm g.distinctCopies) (he : e ∈ (Copy.attempt fs order).2) :
      Executes g fs (.error e) (Copy.attempt fs order).1

end StagedInstall
