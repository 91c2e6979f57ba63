import StagedInstall.Proofs.Install.Uninstall

/-! # Which registrations count

Of the copies to one target the first one counts, in whatever spelling the target is registered
again: the distinct copies are the copies before which none has the same target, in their order
(`ActionGraph.distinctCopies_eq`). A later one is passed over, with a warning if its source is
another (`ActionGraph.conflicts_eq`). Uninstalling goes through the same targets
(`RemovalRun.ofTargets_visits`).
-/

namespace StagedInstall

section Unique

variable {α κ : Type} [DecidableEq κ] {key : α → κ}

/-- What is kept are the elements with a key that none before them has. -/
theorem uniqueBy_eq_filter (l : List α) : uniqueBy key l =
    (l.zipIdx.filter fun p : α × Nat => ∀ b ∈ l.take p.2, key b ≠ key p.1).map Prod.fst := by
  induction l using List.reverseRecOn with
  | nil => rfl
  | append_singleton l a ih =>
    have hfront :
        (l.zipIdx.filter fun p : α × Nat => ∀ b ∈ (l ++ [a]).take p.2, key b ≠ key p.1) =
          l.zipIdx.filter fun p : α × Nat => ∀ b ∈ l.take p.2, key b ≠ key p.1 := by
      refine List.filter_congr fun p hp => ?_
      rw [List.take_append_of_le_length (List.snd_lt_of_mem_zipIdx hp).le]
    have hlast : (∀ b ∈ l, key b ≠ key a) ↔ key a ∉ l.map key := by
      rw [List.mem_map, not_exists]
      exact forall_congr' fun b => not_and.symm
    rw [uniqueBy_concat, List.zipIdx_append, List.filter_append, List.map_append, hfront, ← ih,
      List.zipIdx_singleton, List.filter_singleton]
    simp only [Nat.zero_add, List.take_left, hlast]
    by_cases ha : key a ∈ l.map key
    · simp [ha]
    · simp [ha]

end Unique

/-- The copies before which none has the same target. -/
def Copy.firsts (cs : List Copy) : List Copy :=
  (cs.zipIdx.filter fun p : Copy × Nat =>
    ∀ b ∈ cs.take p.2, ¬ b.target.Same p.1.target).map Prod.fst

/-- The copies whose source is not that of the first copy before them to the same target, each
behind that copy. -/
def Copy.contested (cs : List Copy) : List (Copy × Copy) :=
  cs.zipIdx.filterMap fun p =>
    ((cs.take p.2).find? fun b => b.target.Same p.1.target).bind fun first =>
      if first.source.Same p.1.source then none else some (first, p.1)

namespace ActionGraph

variable (g : ActionGraph)

theorem distinctCopies_eq : g.distinctCopies = Copy.firsts g.copies :=
  uniqueBy_eq_filter g.copies

theorem first?_eq {i : Nat} {c : Copy} (h : g.copies[i]? = some c) :
    g.first? c.target =
      ((g.copies.take i).find? fun b => b.target.Same c.target).or (some c) := by
  have hsplit : g.copies = g.copies.take i ++ c :: g.copies.drop (i + 1) := by
    obtain ⟨hi, hc⟩ := List.getElem?_eq_some_iff.mp h
    rw [← hc, ← List.drop_eq_getElem_cons hi, List.take_append_drop]
  rw [first?]
  nth_rewrite 1 [hsplit]
  rw [List.find?_append, List.find?_cons_of_pos (by simpa using Path.Same.refl c.target)]

theorem conflicts_eq :
    g.conflicts = (Copy.contested g.copies).map fun p => conflictWarning p.1 p.2 := by
  have hcopies : g.copies = g.copies.zipIdx.map Prod.fst := (List.zipIdx_map_fst 0 _).symm
  rw [conflicts, Copy.contested, List.map_filterMap]
  nth_rewrite 1 [hcopies]
  rw [List.filterMap_map]
  refine List.filterMap_congr fun p hp => ?_
  obtain ⟨c, i⟩ := p
  have hfirst := g.first?_eq (List.mk_mem_zipIdx_iff_getElem?.mp hp)
  dsimp only [Function.comp_apply]
  rw [hfirst]
  cases (g.copies.take i).find? fun b => b.target.Same c.target with
  | none => simp [Path.Same.refl]
  | some first =>
    by_cases hs : first.source.Same c.source
    · simp [hs]
    · simp [hs]

theorem level_of_mem_conflicts {m : Message} (h : m ∈ g.conflicts) : m.level = .warn := by
  rw [conflicts_eq] at h
  obtain ⟨p, -, rfl⟩ := List.mem_map.mp h
  rfl

/-- An install phase warns of the contested copies and of nothing else, in a dry run as well. -/
theorem warnings_execute (fs : FileSystem) (dryRun : Bool) :
    (g.execute fs dryRun).messages.filter (fun m => m.level = .warn) = g.conflicts := by
  have hconflicts : g.conflicts.filter (fun m => m.level = .warn) = g.conflicts :=
    List.filter_eq_self.mpr fun m hm => decide_eq_true (g.level_of_mem_conflicts hm)
  have houtcome (o : Copy × CopyOutcome) : (o.2.message o.1).level = .info := by
    cases o.2 <;> rfl
  cases dryRun with
  | true =>
    have hrest : g.intentions.filter (fun m => m.level = .warn) = [] := by
      simp [intentions]
    change (g.conflicts ++ g.intentions).filter _ = _
    rw [List.filter_append, hconflicts, hrest, List.append_nil]
  | false =>
    change (g.conflicts ++ (g.run fs).copies.map (fun o => o.2.message o.1) ++
      (g.run fs).chmods.map Chmod.message).filter _ = _
    have hcopies : ((g.run fs).copies.map fun o => o.2.message o.1).filter
        (fun m => m.level = .warn) = [] := by
      rw [List.filter_eq_nil_iff]
      intro m hm
      obtain ⟨o, -, rfl⟩ := List.mem_map.mp hm
      simp [houtcome o]
    have hchmods : ((g.run fs).chmods.map Chmod.message).filter (fun m => m.level = .warn) = [] := by
      simp [Chmod.message]
    rw [List.filter_append, List.filter_append, hconflicts, hcopies, hchmods, List.append_nil,
      List.append_nil]

end ActionGraph

namespace RemovalRun

/-- The run went through the targets in their order: through all of them, or through those before
one that could not be removed. -/
def Visits (r : RemovalRun) (ts : List Path) : Prop :=
  match r.failure with
  | none => r.targets.map Prod.fst = ts
  | some e => ∃ t rest cause, e = .file .remove t cause ∧
      ts = r.targets.map Prod.fst ++ t :: rest

theorem Visits.cons {r : RemovalRun} {ts : List Path} (h : r.Visits ts) (t : Path)
    (o : RemovalOutcome) : Visits { r with targets := (t, o) :: r.targets } (t :: ts) := by
  unfold Visits at h ⊢
  dsimp only
  split at h
  · exact congrArg (t :: ·) h
  · obtain ⟨u, rest, cause, he, rfl⟩ := h
    exact ⟨u, rest, cause, he, rfl⟩

theorem ofTargets_visits (dryRun : Bool) (fs : FileSystem) (ts : List Path) :
    (ofTargets dryRun fs ts).Visits ts := by
  induction ts generalizing fs with
  | nil => rfl
  | cons t ts ih =>
    unfold ofTargets
    split
    · split
      · exact ⟨t, ts, _, rfl, rfl⟩
      · exact (ih _).cons t .removed
    · exact (ih fs).cons t .missing

end RemovalRun

namespace ActionGraph

/-- The distinct copies are the first registrations of the targets, in their order: no two of them
have the same target, and every target is among them with the source that was registered first. A
warning is given for every later registration with another source than the first, in their order,
and for nothing else. Uninstalling goes through the same targets. -/
theorem distinctCopies_firsts (g : ActionGraph) :
    g.distinctCopies = Copy.firsts g.copies ∧
    (g.distinctCopies.Pairwise fun c d => ¬ c.target.Same d.target) ∧
    (∀ c ∈ g.copies, ∃ d ∈ g.distinctCopies, d.target.Same c.target ∧
      ∃ before after, g.copies = before ++ d :: after ∧
        ∀ b ∈ before, ¬ b.target.Same c.target) ∧
    (∀ fs dryRun, (g.execute fs dryRun).messages.filter (fun m => m.level = .warn) =
      (Copy.contested g.copies).map fun p => conflictWarning p.1 p.2) ∧
    g.targets = g.distinctCopies.map Copy.target ∧
    ∀ fs dryRun, (RemovalRun.ofTargets dryRun fs g.targets).Visits
      (g.distinctCopies.map Copy.target) := by
  refine ⟨g.distinctCopies_eq, List.pairwise_map.mp nodup_uniqueBy, ?_, ?_, g.targets_eq, ?_⟩
  · intro c hc
    obtain ⟨d, hd, hs⟩ := exists_distinctCopy_same hc
    obtain ⟨-, before, after, hsplit, hbefore⟩ :=
      List.find?_eq_some_iff_append.mp (mem_distinctCopies_iff.mp hd)
    refine ⟨d, hd, hs, before, after, hsplit, fun b hb hbc => ?_⟩
    have hbd : ¬ b.target.Same d.target := by simpa using hbefore b hb
    exact hbd (hbc.trans hs.symm)
  · intro fs dryRun
    rw [warnings_execute, conflicts_eq]
  · intro fs dryRun
    exact g.targets_eq ▸ RemovalRun.ofTargets_visits dryRun fs g.targets

namespace Sample

def reregistered : ActionGraph where
  actions := [.copy ⟨.ofString "a", .ofString "/t"⟩, .copy ⟨.ofString "b", .ofString "/u"⟩,
    .copy ⟨.ofString "a", .ofString "//t/"⟩, .copy ⟨.ofString "c", .ofString "/t"⟩]
  aliases := []

end Sample

open Sample in
theorem distinctCopies_firsts_sample :
    reregistered.distinctCopies =
      [⟨.ofString "a", .ofString "/t"⟩, ⟨.ofString "b", .ofString "/u"⟩] ∧
    ((reregistered.execute .empty true).messages.filter fun m => m.level = .warn) =
      [conflictWarning ⟨.ofString "a", .ofString "/t"⟩ ⟨.ofString "c", .ofString "/t"⟩] ∧
    ∃ d ∈ reregistered.distinctCopies, d.target.Same (.ofString "//t/") ∧
      ∃ before after, reregistered.copies = before ++ d :: after ∧
        ∀ b ∈ before, ¬ b.target.Same (.ofString "//t/") := by
  obtain ⟨hfirsts, -, hkept, hwarnings, -, -⟩ := distinctCopies_firsts reregistered
  have hcontested : Copy.contested reregistered.copies =
      [(⟨.ofString "a", .ofString "/t"⟩, ⟨.ofString "c", .ofString "/t"⟩)] := by decide +kernel
  have hmem : ⟨.ofString "a", .ofString "//t/"⟩ ∈ reregistered.copies := by decide +kernel
  refine ⟨hfirsts.trans (by decide +kernel), ?_, hkept _ hmem⟩
  rw [hwarnings, hcontested]
  rfl

end ActionGraph

end StagedInstall
