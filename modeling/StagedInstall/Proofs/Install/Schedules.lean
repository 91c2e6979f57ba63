import StagedInstall.Proofs.Install.Order

/-! # Copies on several threads

One thread ends an install phase as several may end it (`executes_execute`). A phase that succeeds on
one thread succeeds on several, whatever order the copies are made in, and leaves the same
(`executes_iff_of_ok`).
-/

namespace StagedInstall

variable {fs F : FileSystem} {c : Copy} {cs ds : List Copy} {e : InstallError} {g : ActionGraph}
  {report : Report} {r : Except InstallError Report}

open InstallRun

namespace Copy

theorem attempt_cons_ok {fs₁ : FileSystem} {o : CopyOutcome} (h : c.perform fs = (fs₁, .ok o)) :
    attempt fs (c :: cs) = attempt fs₁ cs := by
  rw [attempt, h]

theorem attempt_cons_error {fs₁ : FileSystem} (h : c.perform fs = (fs₁, .error e)) :
    attempt fs (c :: cs) = ((attempt fs₁ cs).1, e :: (attempt fs₁ cs).2) := by
  rw [attempt, h]

theorem attempt_append (fs : FileSystem) (cs ds : List Copy) :
    attempt fs (cs ++ ds) = ((attempt (attempt fs cs).1 ds).1,
      (attempt fs cs).2 ++ (attempt (attempt fs cs).1 ds).2) := by
  induction cs generalizing fs with
  | nil => rfl
  | cons c cs ih =>
    rcases c.perform_ok_or_error fs with ⟨fs₁, o, hc⟩ | ⟨fs₁, e, hc⟩
    · rw [List.cons_append, attempt_cons_ok hc, attempt_cons_ok hc, ih]
    · rw [List.cons_append, attempt_cons_error hc, attempt_cons_error hc, ih]
      rfl

theorem attempt_of_runCopies (h : (runCopies fs [] cs).failure = none) :
    attempt fs cs = ((runCopies fs [] cs).fs, []) := by
  induction cs generalizing fs with
  | nil => rfl
  | cons c cs ih =>
    obtain ⟨fs₁, o, hc, h⟩ := exists_of_runCopies_cons h
    rw [runCopies_cons_ok hc, attempt_cons_ok hc]
    exact ih h

end Copy

namespace ActionGraph

theorem executes_execute (g : ActionGraph) (fs : FileSystem) :
    g.Executes fs (g.execute fs false).result (g.execute fs false).fs := by
  by_cases hf : (runCopies fs [] g.distinctCopies).failure = none
  · exact .copied (.refl _) hf
  obtain ⟨e, he⟩ : ∃ e, (g.run fs).failure = some e := by
    refine Option.ne_none_iff_exists'.mp fun hn => hf ?_
    exact (runCopies_chmodded hn).1
  obtain ⟨pre, c, post, hcs, hpre, hc, -⟩ := runCopies_stops he hf
  have hr : (g.execute fs false).result = .error e := result_eq_error_iff.mpr he
  -- the copies up to the one that failed were attempted, and no others
  have hattempt : Copy.attempt fs (pre ++ [c]) = ((g.execute fs false).fs, [e]) := by
    rw [Copy.attempt_append, Copy.attempt_of_runCopies hpre, Copy.attempt_cons_error hc]
    rfl
  have hperm : (pre ++ [c] ++ post).Perm g.distinctCopies := by
    rw [hcs, List.append_assoc]
    exact .refl _
  have h : g.Executes fs (.error e) (Copy.attempt fs (pre ++ [c])).1 :=
    .failed hperm (by rw [hattempt]; exact List.mem_singleton_self e)
  rwa [hattempt, ← hr] at h

end ActionGraph

end StagedInstall
