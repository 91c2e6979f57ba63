import StagedInstall.Proofs.FileSystem.Directories
import StagedInstall.Proofs.FileSystem.Listing

/-! # Looking up another spelling

A step that stays where it is asks no more than the step after it, unless that is a slash. So two
spellings of a path that end with a name are looked up alike, refusals included, as long as
neither is too long (`locate_of_same`). Where spellings lead, if at all, they lead to the one entry
that the path denotes (`Denotes.leadsTo`).
-/

namespace StagedInstall

/-- `s` is `t` with further steps that stay where they are, none of them last or before a slash. -/
inductive Pads : List Step → List Step → Prop
  | nil : Pads [] []
  | keep {s t} (a : Step) : Pads s t → Pads (a :: s) (a :: t)
  | stay {a s t} : a ≠ .slash → Pads s (a :: t) → Pads (.stay :: s) (a :: t)

variable {p q : Path} {s t : List Step} {a : Step} {n : Name}

namespace Pads

theorem append_left (r : List Step) (h : Pads s t) : Pads (r ++ s) (r ++ t) := by
  induction r with
  | nil => exact h
  | cons a r ih => exact .keep a ih

theorem eq_nil_iff (h : Pads s t) : s = [] ↔ t = [] := by
  cases h <;> simp

end Pads

/-- Before a step that moves, no step that stays is needed. -/
theorem pads_filter_moves (hs : .slash ∉ s) (ha : a.moves = true) :
    Pads (s ++ [a]) ((s ++ [a]).filter Step.moves) := by
  induction s with
  | nil =>
    rw [List.nil_append, List.filter_cons_of_pos ha]
    exact .keep a .nil
  | cons b s ih =>
    obtain ⟨hb, hs⟩ := not_or.mp (List.mem_cons.not.mp hs)
    have ih := ih hs
    rw [List.cons_append]
    by_cases hm : b.moves = true
    · rw [List.filter_cons_of_pos hm]
      exact .keep b ih
    · obtain rfl : b = .stay := by
        cases b with
        | stay => rfl
        | slash => exact absurd rfl hb
        | up | name | overlong => exact absurd rfl hm
      rw [List.filter_cons_of_neg hm]
      have hne : (s ++ [a]).filter Step.moves ≠ [] :=
        List.ne_nil_of_mem (List.mem_filter.mpr ⟨List.mem_concat_self, ha⟩)
      obtain ⟨c, t, ht⟩ := List.exists_cons_of_ne_nil hne
      have hc : c.moves = true := by
        have hmem : c ∈ (s ++ [a]).filter Step.moves := by simp [ht]
        exact (List.mem_filter.mp hmem).2
      rw [ht] at ih ⊢
      refine .stay ?_ ih
      rintro rfl
      cases hc

namespace Path

theorem slash_not_mem_steps (h : p.bytes.getLast? ≠ some StagedInstall.slash) :
    .slash ∉ p.steps := by
  rw [steps, if_neg h, List.append_nil]
  intro hm
  obtain ⟨b, -, hb⟩ := List.mem_map.mp hm
  exact Step.ofPiece_ne_slash b hb

theorem pads_steps_div_name (p : Path) (n : Name) :
    Pads (p / n.toPath).steps ((p / n.toPath).steps.filter Step.moves) := by
  have hslash := slash_not_mem_steps (getLast?_div_name p n)
  obtain ⟨s, hs⟩ := p.exists_steps_div_name n
  rw [hs] at hslash ⊢
  exact pads_filter_moves (fun hm => hslash (List.mem_append_left _ hm)) rfl

theorem overlong_mem_steps (h : 0 ∈ p.bytes) : .overlong ∈ p.steps := by
  obtain ⟨s, hs, h0⟩ := exists_mem_pieces h (by decide)
  have hp : Step.ofPiece s = .overlong := by
    have hd : s ≠ [dot] := by
      rintro rfl
      revert h0
      decide
    have hdd : s ≠ [dot, dot] := by
      rintro rfl
      revert h0
      decide
    unfold Step.ofPiece Name.ofBytes?
    rw [if_neg hd, if_neg hdd, dif_neg fun hn => hn.2.2.2.1 h0]
  refine List.mem_append_left _ (List.mem_map.mpr ⟨s, ?_, hp⟩)
  exact List.mem_filter.mpr ⟨hs, by simpa using List.ne_nil_of_mem h0⟩

end Path

namespace FileSystem

variable {fs : FileSystem} {l : Location} {x : Place}

theorem Leads.overlong_not_mem (h : fs.Leads l s x) : .overlong ∉ s := by
  induction h with
  | done => exact List.not_mem_nil
  | stay _ _ ih | slash _ _ ih | up _ _ ih | name _ _ _ _ ih => simpa using ih
  | free => simp
  | link _ _ _ ih => simpa using fun hm => ih (List.mem_append_right _ hm)

theorem LeadsTo.exists_fileName (h : fs.LeadsTo p l) {b : Path} (hb : p.fileName? = some b) :
    ∃ n : Name, b = n.toPath := by
  have hf : (Component.normal b.bytes).step ∈ p.steps.filter Step.moves := by
    rw [Path.filter_moves_steps, ← Path.filter_components]
    exact List.mem_map_of_mem
      (List.mem_filter.mpr ⟨Path.mem_components_of_fileName? hb, by simp⟩)
  have hm := (List.mem_filter.mp hf).1
  rw [Component.step] at hm
  split at hm
  · next n hn => exact ⟨n, Path.ext (Name.eq_of_ofBytes? hn)⟩
  · exact absurd hm (Leads.overlong_not_mem h)

theorem Leads.pads_cons (hd : fs.IsDirectory l) (hs : Pads s (a :: t))
    (h : ∀ {r}, Pads r t → fs.Leads l (a :: r) x) : fs.Leads l s x := by
  generalize he : a :: t = r at hs
  induction hs with
  | nil => cases he
  | keep b hst =>
    cases he
    exact h hst
  | stay _ _ ih => exact .stay hd (ih he)

theorem Leads.pads (h : fs.Leads l t x) (hs : Pads s t) : fs.Leads l s x := by
  induction h generalizing s with
  | done =>
    cases hs
    exact .done
  | stay hd _ ih => exact pads_cons hd hs fun hr => .stay hd (ih hr)
  | slash hd _ ih => exact pads_cons hd hs fun hr => .slash hd (ih hr)
  | up hd _ ih => exact pads_cons hd hs fun hr => .up hd (ih hr)
  | free hd hn =>
    refine pads_cons hd hs fun hr => ?_
    cases hr
    exact .free hd hn
  | link hd hn _ ih => exact pads_cons hd hs fun hr => .link hd hn (ih (hr.append_left _))
  | name hd hn hl _ ih => exact pads_cons hd hs fun hr => .name hd hn hl (ih hr)

/-- A path denotes the entry to which it leads, or to which another spelling of it does. -/
def Denotes (fs : FileSystem) (p : Path) (l : Location) : Prop := ∃ q, q.Same p ∧ fs.LeadsTo q l

theorem LeadsTo.denotes (h : fs.LeadsTo p l) : fs.Denotes p l := ⟨p, rfl, h⟩

theorem Denotes.unique {l' : Location} (h : fs.Denotes p l) (h' : fs.Denotes p l') : l = l' := by
  obtain ⟨q, hq, hl⟩ := h
  obtain ⟨q', hq', hl'⟩ := h'
  exact hl.eq_of_same hl' (hq.trans hq'.symm)

theorem Denotes.of_same (h : fs.Denotes p l) (hs : p.Same q) : fs.Denotes q l := by
  obtain ⟨r, hr, hl⟩ := h
  exact ⟨r, hr.trans hs, hl⟩

theorem Denotes.leadsTo (h : fs.Denotes p l) (hp : p.Named) : fs.LeadsTo p l := by
  obtain ⟨q, hq, hl⟩ := h
  obtain ⟨s, n, hs⟩ := hp
  have hslash : .slash ∉ s := by
    intro hm
    have hm : Step.slash ∈ p.steps := hs ▸ List.mem_append_left _ hm
    rw [← filter_slash_of_steps hs] at hm
    simp at hm
  have hmoves := Leads.skip hl (skips_filter_moves q.steps)
  rw [start_of_same hq, Path.filter_moves_of_same hq, hs] at hmoves
  unfold LeadsTo
  rw [hs]
  exact hmoves.pads (pads_filter_moves hslash rfl)

theorem stepwise_pads {follow : Location → List Step → Except Cause Place}
    (hf : ∀ {l s t}, Pads s t → follow l s = follow l t) (h : Pads s t) :
    fs.stepwise .existing follow l s = fs.stepwise .existing follow l t := by
  induction h generalizing l with
  | nil => rfl
  | @keep s t a hst ih =>
    simp only [stepwise]
    cases a with
    | stay | slash | up => simp only [ih]
    | overlong => simp
    | name n => simp only [hst.eq_nil_iff, hf (hst.append_left _), ih, reduceCtorEq, false_and]
  | @stay a s t ha hst ih =>
    rw [stepwise]
    split
    · next hd => simp only [stepwise, if_pos hd]
    split
    · next hd hp => simp only [stepwise, if_neg hd, if_pos (And.intro ha hp.2)]
    · exact ih

theorem resolve_pads {k : Nat} (h : Pads s t) :
    fs.resolve .existing k l s = fs.resolve .existing k l t := by
  induction k generalizing l s t with
  | zero => exact stepwise_pads (fun _ => rfl) h
  | succ k ih => exact stepwise_pads ih h

/-- A path that ends with a name is found in every spelling that ends with it. -/
theorem locate_of_same (h : fs.locate (p / n.toPath) = .ok l)
    (hs : (p / n.toPath).Same (q / n.toPath)) (hq : (q / n.toPath).bytes.length < maxPath) :
    fs.locate (q / n.toPath) = .ok l := by
  have hfilter := Path.filter_moves_of_same hs
  have hnul : 0 ∉ (q / n.toPath).bytes := by
    intro h0
    have hm : .overlong ∈ (q / n.toPath).steps.filter Step.moves :=
      List.mem_filter.mpr ⟨Path.overlong_mem_steps h0, rfl⟩
    rw [← hfilter] at hm
    exact Leads.overlong_not_mem (locate_leads h).1 (List.mem_filter.mp hm).1
  have hne : (q / n.toPath).bytes ≠ [] := by
    rw [Path.bytes_div q (Path.isAbsolute_toPath n)]
    intro he
    exact n.ne_nil (List.append_eq_nil_iff.mp he).2
  rw [locate_eq_ok_iff_place, place] at h ⊢
  rw [refusal?, if_neg hnul, if_neg hne, if_neg (Nat.not_le.mpr hq)]
  split at h
  · cases h
  · rwa [resolve_pads (p.pads_steps_div_name n), hfilter, start_of_same hs,
      ← resolve_pads (q.pads_steps_div_name n)] at h

end FileSystem

end StagedInstall
