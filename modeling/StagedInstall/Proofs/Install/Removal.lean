import StagedInstall.Install.Removal
import StagedInstall.Proofs.FileSystem.Removal

/-! # Runs of removals

Files at different places are removed one after the other exactly when the user may remove each of
them; otherwise not all of them are counted (`ofTargets_result_iff`). Nothing else is taken away
(`ofTargets_cleared`), and nothing is done where nothing is left (`ofTargets_of_missing`).
-/

namespace StagedInstall

variable {fs fs' : FileSystem} {l : Location} {t : Path} {ts : List Path}

namespace RemovalRun

variable {dryRun : Bool} {r : RemovalRun} {k : Nat}

theorem result_eq_ok_iff : r.result = .ok k ↔ r.failure = none ∧ r.count = k := by
  unfold result
  split
  · next e h => simp [h]
  · next h => simp [h]

theorem ofTargets_cons_missing (h : fs.exists? t = false) : ofTargets dryRun fs (t :: ts) =
    { ofTargets dryRun fs ts with targets := (t, .missing) :: (ofTargets dryRun fs ts).targets } := by
  rw [ofTargets, h]
  rfl

theorem ofTargets_cons_removed (h : fs.exists? t = true) (hr : fs.removeFile t = .ok fs') :
    ofTargets false fs (t :: ts) =
      { ofTargets false fs' ts with targets := (t, .removed) :: (ofTargets false fs' ts).targets } := by
  rw [ofTargets, h, hr]
  rfl

theorem ofTargets_cons_error {cause : Cause} (h : fs.exists? t = true)
    (hr : fs.removeFile t = .error cause) :
    ofTargets false fs (t :: ts) = ⟨[], fs, some (.file .remove t cause)⟩ := by
  rw [ofTargets, h, hr]
  rfl

theorem ofTargets_of_missing (h : ∀ t ∈ ts, fs.exists? t = false) :
    ofTargets dryRun fs ts = ⟨ts.map fun t => (t, .missing), fs, none⟩ := by
  induction ts with
  | nil => rfl
  | cons t ts ih =>
    rw [ofTargets_cons_missing (h t List.mem_cons_self),
      ih fun t ht => h t (List.mem_cons_of_mem _ ht)]
    rfl

theorem count_le (dryRun : Bool) (fs : FileSystem) (ts : List Path) :
    (ofTargets dryRun fs ts).count ≤ ts.length := by
  refine List.countP_le_length.trans ?_
  induction ts generalizing fs with
  | nil => exact le_rfl
  | cons t ts ih =>
    unfold ofTargets
    split
    · split
      · exact Nat.zero_le _
      · exact Nat.succ_le_succ (ih _)
    · exact Nat.succ_le_succ (ih _)

end RemovalRun

/-- Nothing stands at the targets any more, and nothing else differs. -/
structure Cleared (ts : List Path) (fs fs' : FileSystem) : Prop where
  cwd : fs'.cwd = fs.cwd
  user : fs'.user = fs.user
  gone : ∀ t ∈ ts, ∀ l, t.location? fs.cwd = some l → fs'.get? l = none
  others : ∀ x, (∀ t ∈ ts, t.location? fs.cwd ≠ some x) → fs'.get? x = fs.get? x

theorem Cleared.cons (h : Cleared ts (fs.erase l) fs') (hd : ¬ fs.IsDirectory l)
    (ht : t.location? fs.cwd = some l) : Cleared (t :: ts) fs fs' := by
  have hcwd := fs.erase_cwd l
  refine ⟨h.cwd.trans hcwd, h.user.trans (FileSystem.user_eq (fs.erase_system l)), ?_, ?_⟩
  · intro u hu k hk
    by_cases hs : ∃ v ∈ ts, v.location? fs.cwd = some k
    · obtain ⟨v, hv, hvk⟩ := hs
      exact h.gone v hv k (hcwd ▸ hvk)
    · obtain rfl : u = t := by
        rcases List.mem_cons.mp hu with rfl | hu
        · rfl
        · exact absurd ⟨u, hu, hk⟩ hs
      cases ht.symm.trans hk
      rw [h.others l fun v hv hvl => hs ⟨v, hv, hcwd ▸ hvl⟩, FileSystem.get?_erase _ hd, if_pos rfl]
  · intro y hy
    have hyl : y ≠ l := by
      rintro rfl
      exact hy t List.mem_cons_self ht
    rw [h.others y fun v hv => hcwd ▸ hy v (List.mem_cons_of_mem t hv),
      FileSystem.get?_erase _ hd, if_neg hyl]

/-- Each of the targets is the name of a file, and no two are names of the same one. -/
structure Removable (ts : List Path) (fs : FileSystem) : Prop where
  linkFree : fs.LinkFree
  holds : ∀ t ∈ ts, ∃ l, fs.Holds t l
  distinct : ts.Pairwise fun t u =>
    ∀ l, t.location? fs.cwd = some l → u.location? fs.cwd ≠ some l

theorem Removable.erase (h : Removable (t :: ts) fs) (ht : fs.Holds t l) :
    Removable ts (fs.erase l) ∧ ∀ u ∈ ts, ∀ k, u.location? fs.cwd = some k →
      ((fs.erase l).PermitsRemoval k ↔ fs.PermitsRemoval k) := by
  obtain ⟨hd, hds⟩ := List.pairwise_cons.mp h.distinct
  have other {u : Path} (hu : u ∈ ts) {k : Location} (hk : fs.Holds u k) : k ≠ l := by
    rintro rfl
    exact hd u hu k (ht.spells.location? _) (hk.spells.location? _)
  constructor
  · refine ⟨h.linkFree.erase ht.not_isDirectory, ?_, fs.erase_cwd l ▸ hds⟩
    intro u hu
    obtain ⟨k, hk⟩ := h.holds u (List.mem_cons_of_mem t hu)
    exact ⟨k, hk.erase ht (other hu hk)⟩
  · intro u hu k hk
    obtain ⟨k', hk'⟩ := h.holds u (List.mem_cons_of_mem t hu)
    cases hk.symm.trans (hk'.spells.location? fs.cwd)
    exact hk'.permitsRemoval_erase_iff ht (other hu hk')

namespace RemovalRun

/-- All files are removed exactly when the user may remove each of them. -/
theorem ofTargets_result_iff (h : Removable ts fs) :
    (ofTargets false fs ts).result = .ok ts.length ↔
      ∀ t ∈ ts, ∀ l, t.location? fs.cwd = some l → fs.PermitsRemoval l := by
  induction ts generalizing fs with
  | nil => simp [ofTargets, result, count]
  | cons t ts ih =>
    obtain ⟨l, ht⟩ := h.holds t List.mem_cons_self
    have htl := ht.spells.location? fs.cwd
    obtain ⟨hts, hiff⟩ := h.erase ht
    cases he : fs.exists? t with
    | false =>
      rw [ofTargets_cons_missing he]
      refine iff_of_false ?_ fun hp => ?_
      · intro hr
        have hc := (result_eq_ok_iff.mp hr).2
        have hle := count_le false fs ts
        simp only [count, List.countP_cons, List.length_cons] at hc hle
        simp at hc
        omega
      · have hs := (hp t List.mem_cons_self l htl).search
        exact absurd ((ht.exists?_iff h.linkFree).mpr hs) (by simp [he])
    | true =>
      have hr := ht.removeFile_eq h.linkFree he
      by_cases hw : fs.permits .write l.tail = true
      · rw [if_pos hw] at hr
        have hl : ∀ k, t.location? fs.cwd = some k → fs.PermitsRemoval k := by
          intro k hk
          cases htl.symm.trans hk
          exact ⟨(ht.exists?_iff h.linkFree).mp he, hw⟩
        have hcons : (ofTargets false fs (t :: ts)).result = .ok (t :: ts).length ↔
            (ofTargets false (fs.erase l) ts).result = .ok ts.length := by
          rw [ofTargets_cons_removed he hr]
          simp [result_eq_ok_iff, count]
        rw [hcons, ih hts, List.forall_mem_cons, and_iff_right hl, fs.erase_cwd l]
        exact forall₂_congr fun u hu => forall₂_congr fun k hk => hiff u hu k hk
      · rw [if_neg hw] at hr
        rw [ofTargets_cons_error he hr]
        exact iff_of_false (by simp [result]) fun hp => hw (hp t List.mem_cons_self l htl).write

theorem ofTargets_cleared (h : Removable ts fs)
    (hp : ∀ t ∈ ts, ∀ l, t.location? fs.cwd = some l → fs.PermitsRemoval l) :
    Cleared ts fs (ofTargets false fs ts).fs := by
  induction ts generalizing fs with
  | nil => exact ⟨rfl, rfl, fun _ ht => absurd ht List.not_mem_nil, fun _ _ => rfl⟩
  | cons t ts ih =>
    obtain ⟨l, ht⟩ := h.holds t List.mem_cons_self
    have htl := ht.spells.location? fs.cwd
    obtain ⟨hts, hiff⟩ := h.erase ht
    obtain ⟨hs, hw⟩ := hp t List.mem_cons_self l htl
    have he := (ht.exists?_iff h.linkFree).mpr hs
    have hr := ht.removeFile_eq h.linkFree he
    rw [if_pos hw] at hr
    rw [ofTargets_cons_removed he hr]
    refine (ih hts ?_).cons ht.not_isDirectory htl
    intro u hu k hk
    rw [fs.erase_cwd] at hk
    exact (hiff u hu k hk).mpr (hp u (List.mem_cons_of_mem t hu) k hk)

end RemovalRun

end StagedInstall
