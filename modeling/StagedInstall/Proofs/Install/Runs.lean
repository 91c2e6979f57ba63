import StagedInstall.Proofs.Install.Chmods

/-! # Runs of copies and of permission changes

A run goes on after each step that succeeds and stops at the first one that fails
(`runCopies_stops`, `runChmods_stops`). The permission changes behind some that succeed are made on
what those left behind (`runChmods_append`).
-/

namespace StagedInstall

variable {fs fs₁ : FileSystem} {c : Copy} {cs cs' : List Copy} {d : Chmod}
  {ds post : List Chmod} {o : CopyOutcome} {e : InstallError}

theorem Copy.perform_ok_or_error (c : Copy) (fs : FileSystem) :
    (∃ fs₁ o, c.perform fs = (fs₁, .ok o)) ∨ ∃ fs₁ e, c.perform fs = (fs₁, .error e) := by
  rcases h : c.perform fs with ⟨fs₁, e | o⟩
  · exact .inr ⟨fs₁, e, rfl⟩
  · exact .inl ⟨fs₁, o, rfl⟩

namespace InstallRun

theorem runCopies_cons_ok (h : c.perform fs = (fs₁, .ok o)) : runCopies fs ds (c :: cs) =
    { runCopies fs₁ ds cs with copies := (c, o) :: (runCopies fs₁ ds cs).copies } := by
  rw [runCopies, h]

theorem runCopies_cons_error (h : c.perform fs = (fs₁, .error e)) :
    runCopies fs ds (c :: cs) = ⟨[], [], fs₁, some e⟩ := by
  rw [runCopies, h]

theorem exists_of_runCopies_cons (h : (runCopies fs [] (c :: cs)).failure = none) :
    ∃ fs₁ o, c.perform fs = (fs₁, .ok o) ∧ (runCopies fs₁ [] cs).failure = none := by
  rcases c.perform_ok_or_error fs with ⟨fs₁, o, hc⟩ | ⟨fs₁, e, hc⟩
  · rw [runCopies_cons_ok hc] at h
    exact ⟨fs₁, o, hc, h⟩
  · rw [runCopies_cons_error hc] at h
    cases h

theorem runChmods_cons_ok (h : d.perform fs = .ok fs₁) : runChmods fs (d :: ds) =
    { runChmods fs₁ ds with chmods := d :: (runChmods fs₁ ds).chmods } := by
  rw [runChmods, h]

theorem runChmods_cons_error (h : d.perform fs = .error e) :
    runChmods fs (d :: ds) = ⟨[], [], fs, some e⟩ := by
  rw [runChmods, h]

theorem runCopies_map_fst (h : (runCopies fs [] cs).failure = none) :
    (runCopies fs [] cs).copies.map Prod.fst = cs := by
  induction cs generalizing fs with
  | nil => rfl
  | cons c cs ih =>
    obtain ⟨fs₁, o, hc, h⟩ := exists_of_runCopies_cons h
    rw [runCopies_cons_ok hc]
    exact congrArg (c :: ·) (ih h)

theorem runCopies_of_append (h : (runCopies fs [] (cs ++ cs')).failure = none) :
    (runCopies fs [] cs).failure = none ∧
      (runCopies (runCopies fs [] cs).fs [] cs').failure = none ∧
      (runCopies fs [] (cs ++ cs')).fs = (runCopies (runCopies fs [] cs).fs [] cs').fs := by
  induction cs generalizing fs with
  | nil => exact ⟨rfl, h, rfl⟩
  | cons c cs ih =>
    rw [List.cons_append] at h ⊢
    obtain ⟨fs₁, o, hc, h⟩ := exists_of_runCopies_cons h
    rw [runCopies_cons_ok hc, runCopies_cons_ok hc]
    exact ih h

theorem runCopies_of_append_cons (h : (runCopies fs [] (cs ++ c :: cs')).failure = none) :
    ∃ fs₁ o, (runCopies fs [] cs).failure = none ∧
      c.perform (runCopies fs [] cs).fs = (fs₁, .ok o) ∧
      (runCopies fs₁ [] cs').failure = none ∧
      (runCopies fs [] (cs ++ c :: cs')).fs = (runCopies fs₁ [] cs').fs := by
  obtain ⟨hcs, hrest, hfs⟩ := runCopies_of_append h
  obtain ⟨fs₁, o, hc, hcs'⟩ := exists_of_runCopies_cons hrest
  rw [runCopies_cons_ok hc] at hfs
  exact ⟨fs₁, o, hcs, hc, hcs', hfs⟩

/-- Copies that fail stop at one of them, when those before it have been made. -/
theorem runCopies_stops (h : (runCopies fs ds cs).failure = some e)
    (hf : (runCopies fs [] cs).failure ≠ none) :
    ∃ pre c post, cs = pre ++ c :: post ∧ (runCopies fs [] pre).failure = none ∧
      c.perform (runCopies fs [] pre).fs = ((runCopies fs ds cs).fs, .error e) ∧
      (runCopies fs ds cs).copies = (runCopies fs [] pre).copies ∧
      (runCopies fs ds cs).chmods = [] := by
  induction cs generalizing fs with
  | nil => exact absurd rfl hf
  | cons c cs ih =>
    rcases c.perform_ok_or_error fs with ⟨fs₁, o, hc⟩ | ⟨fs₁, e', hc⟩
    · rw [runCopies_cons_ok hc] at h hf ⊢
      obtain ⟨pre, c', post, rfl, hpre, hc', hcopies, hchmods⟩ := ih h hf
      refine ⟨c :: pre, c', post, rfl, ?_⟩
      rw [runCopies_cons_ok hc]
      exact ⟨hpre, hc', congrArg ((c, o) :: ·) hcopies, hchmods⟩
    · rw [runCopies_cons_error hc] at h ⊢
      cases h
      exact ⟨[], c, cs, rfl, rfl, hc, rfl, rfl⟩

theorem runChmods_stops (h : (runChmods fs ds).failure = some e) :
    ∃ pre d post, ds = pre ++ d :: post ∧
      runChmods fs pre = ⟨[], pre, (runChmods fs ds).fs, none⟩ ∧
      d.perform (runChmods fs ds).fs = .error e ∧ (runChmods fs ds).chmods = pre := by
  induction ds generalizing fs with
  | nil => cases h
  | cons d ds ih =>
    rcases hd : d.perform fs with e' | fs₁
    · rw [runChmods_cons_error hd] at h ⊢
      cases h
      exact ⟨[], d, ds, rfl, rfl, hd, rfl⟩
    · rw [runChmods_cons_ok hd] at h ⊢
      obtain ⟨pre, d', post, rfl, hpre, hd', hchmods⟩ := ih h
      refine ⟨d :: pre, d', post, rfl, ?_, hd', congrArg (d :: ·) hchmods⟩
      rw [runChmods_cons_ok hd, hpre]

theorem runCopies_of_copies (h : (runCopies fs [] cs).failure = none) : runCopies fs ds cs =
    { runChmods (runCopies fs [] cs).fs ds with copies := (runCopies fs [] cs).copies } := by
  rw [runCopies_eq, h]

theorem result_eq_error_iff {r : InstallRun} : r.result = .error e ↔ r.failure = some e := by
  unfold result
  split
  · next e' h => simp [h]
  · next h => simp [h]

end InstallRun

namespace ActionGraph

open InstallRun

variable {g : ActionGraph} {report : Report}

theorem run_of_copies (h : (runCopies fs [] g.distinctCopies).failure = none) :
    g.run fs = { runChmods (runCopies fs [] g.distinctCopies).fs g.distinctChmods with
      copies := (runCopies fs [] g.distinctCopies).copies } :=
  runCopies_of_copies h

theorem execute_fs (h : (runCopies fs [] g.distinctCopies).failure = none) :
    (g.execute fs false).fs =
      (runChmods (runCopies fs [] g.distinctCopies).fs g.distinctChmods).fs := by
  change (g.run fs).fs = _
  rw [run_of_copies h]

theorem execute_eq_ok_iff : (g.execute fs false).result = .ok report ↔
    (runCopies fs [] g.distinctCopies).failure = none ∧
      (runChmods (runCopies fs [] g.distinctCopies).fs g.distinctChmods).failure = none ∧
      report = ⟨(runCopies fs [] g.distinctCopies).copies.countP (·.2 = .copied),
        (runCopies fs [] g.distinctCopies).copies.countP (·.2 = .upToDate),
        g.distinctChmods.length⟩ := by
  change (g.run fs).result = .ok report ↔ _
  rw [result_eq_ok_iff]
  constructor
  · rintro ⟨hf, rfl⟩
    have hc := (runCopies_chmodded hf).1
    rw [run_of_copies hc] at hf ⊢
    refine ⟨hc, hf, ?_⟩
    rw [InstallRun.report, (runChmods_chmodded hf).2]
  · rintro ⟨hc, hf, rfl⟩
    rw [run_of_copies hc]
    refine ⟨hf, ?_⟩
    rw [InstallRun.report, (runChmods_chmodded hf).2]

end ActionGraph

end StagedInstall
