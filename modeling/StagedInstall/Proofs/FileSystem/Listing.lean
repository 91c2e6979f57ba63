import StagedInstall.Proofs.FileSystem.Effects
import StagedInstall.Proofs.FileSystem.Spelling

/-! # Listing a directory

Each name in a directory is listed once (`nodup_of_list`), and whatever a path leads to through a
directory has its name in the listing (`mem_of_list`).
-/

namespace StagedInstall

theorem Name.ofPiece_bytes (n : Name) : Step.ofPiece n.bytes = .name n := by
  unfold Step.ofPiece
  rw [if_neg n.ne_dot, if_neg n.ne_dots, Name.ofBytes?_bytes]

theorem Skips.append_slash (s : List Step) : Skips (s ++ [.slash]) s := by
  induction s with
  | nil => exact .slash .nil
  | cons a s ih => exact .keep a ih

theorem Path.getLast?_div_name (p : Path) (n : Name) :
    (p / n.toPath).bytes.getLast? ≠ some slash := by
  rw [bytes_div p (isAbsolute_toPath n), List.getLast?_append]
  intro hs
  rw [Name.toPath, List.getLast?_eq_some_getLast n.ne_nil, Option.some_or,
    Option.some.injEq] at hs
  exact n.slash_not_mem (hs ▸ List.getLast_mem n.ne_nil)

theorem Path.steps_div_name {p : Path} (h : p.bytes ≠ []) (n : Name) :
    ∃ s, (p.steps = s ∨ p.steps = s ++ [.slash]) ∧ (p / n.toPath).steps = s ++ [.name n] := by
  obtain ⟨x, hpx, hx⟩ := pieces_div (isAbsolute_toPath n) h
  rw [pieces_toPath] at hx
  refine ⟨((List.splitOn slash x).filter (· ≠ [])).map Step.ofPiece, ?_, ?_⟩
  · have hp : p.pieces.filter (· ≠ []) = (List.splitOn slash x).filter (· ≠ []) := by
      unfold pieces
      rcases hpx with hpx | hpx
      · rw [hpx]
      · rw [hpx, List.splitOn_append_cons_self, List.splitOn_nil, List.filter_append]
        simp
    unfold steps
    rw [hp]
    split
    · exact .inr rfl
    · exact .inl (List.append_nil _)
  · unfold steps
    rw [hx, if_neg (getLast?_div_name p n), List.append_nil, List.filter_append, List.map_append,
      List.filter_cons_of_pos (by simpa using n.ne_nil), List.filter_nil, List.map_singleton,
      Name.ofPiece_bytes]

theorem Path.steps_toPath (n : Name) : n.toPath.steps = [.name n] := by
  have hlast : n.toPath.bytes.getLast? ≠ some slash := by
    intro hs
    exact n.slash_not_mem (List.mem_of_getLast? hs)
  rw [steps, pieces_toPath, if_neg hlast, List.filter_cons_of_pos (by simpa using n.ne_nil),
    List.filter_nil, List.map_singleton, Name.ofPiece_bytes]
  rfl

theorem Path.exists_steps_div_name (p : Path) (n : Name) :
    ∃ s, (p / n.toPath).steps = s ++ [.name n] := by
  by_cases hp : p.bytes = []
  · refine ⟨[], ?_⟩
    rw [div_of_bytes_eq_nil hp (isAbsolute_toPath n), steps_toPath]
    rfl
  · obtain ⟨s, -, hs⟩ := steps_div_name hp n
    exact ⟨s, hs⟩

namespace FileSystem

variable {fs : FileSystem} {p : Path} {l k : Location} {n : Name} {ns : List Name} {e : Entry}

theorem start_div_name (cwd : Location) (p : Path) (n : Name) :
    start cwd (p / n.toPath) = start cwd p := by
  rw [start, start, Path.isAbsolute_div p (Path.isAbsolute_toPath n)]

theorem LeadsTo.before_name (h : fs.LeadsTo p l) (hp : p.bytes ≠ []) (n : Name) :
    ∃ s, (p / n.toPath).steps = s ++ [.name n] ∧ fs.Leads (start fs.cwd p) s (.taken l) := by
  obtain ⟨s, hs, hn⟩ := Path.steps_div_name hp n
  refine ⟨s, hn, ?_⟩
  unfold LeadsTo at h
  rcases hs with hs | hs
  · rwa [hs] at h
  · rw [hs] at h
    exact h.skip (Skips.append_slash s)

theorem LeadsTo.div_name (h : fs.LeadsTo p l) (hp : p.bytes ≠ [])
    (hn : fs.Leads l [.name n] (.taken k)) : fs.LeadsTo (p / n.toPath) k := by
  obtain ⟨s, hs, hl⟩ := h.before_name hp n
  unfold LeadsTo
  rw [start_div_name, hs]
  exact hl.append hn

theorem get?_ne_none_of_leadsTo (h : fs.LeadsTo p l) (hp : p.bytes ≠ [])
    (h' : fs.LeadsTo (p / n.toPath) k) : fs.get? (n :: l) ≠ none := by
  obtain ⟨s, hs, hl⟩ := h.before_name hp n
  unfold LeadsTo at h'
  rw [start_div_name, hs] at h'
  exact (hl.of_append h').get?_ne_none

theorem Leads.exists_get?_of_concat {s : List Step} {x : Place}
    (h : fs.Leads l (s ++ [.name n]) x) (hx : x = .taken k) : ∃ d, fs.get? (n :: d) ≠ none := by
  generalize ht : s ++ [.name n] = t at h
  induction h generalizing s with
  | done => exact absurd ht (by simp)
  | free => cases hx
  | stay _ _ ih | slash _ _ ih | up _ _ ih =>
    cases s with
    | nil => cases ht
    | cons a s => exact ih hx (List.cons.inj ht).2
  | @link d m target _ _ _ hm _ ih =>
    cases s with
    | nil =>
      cases ht
      exact ⟨d, by simp [hm]⟩
    | cons a s =>
      obtain ⟨-, rfl⟩ := List.cons.inj ht
      exact ih (s := target.steps ++ s) hx (List.append_assoc ..)
  | @name d m _ _ _ _ hm _ _ ih =>
    cases s with
    | nil =>
      cases ht
      exact ⟨d, by simp [hm]⟩
    | cons a s => exact ih hx (List.cons.inj ht).2

theorem LeadsTo.exists_get? (h : fs.LeadsTo (p / n.toPath) k) :
    ∃ d, fs.get? (n :: d) ≠ none := by
  obtain ⟨s, hs⟩ := p.exists_steps_div_name n
  unfold LeadsTo at h
  rw [hs] at h
  exact h.exists_get?_of_concat rfl

theorem refusal?_of_locate (h : fs.locate p = .ok l) : refusal? p = none := by
  obtain ⟨x, hx, -⟩ := bind_eq_ok_iff.mp h
  cases hr : refusal? p with
  | none => rfl
  | some cause =>
    rw [place, hr] at hx
    cases hx

theorem bytes_ne_nil_of_locate (h : fs.locate p = .ok l) : p.bytes ≠ [] := by
  intro hb
  have hr := refusal?_of_locate h
  rw [refusal?, if_neg (by simp [hb]), if_pos hb] at hr
  cases hr

theorem list_leads (h : fs.list p = .ok ns) :
    ∃ l, fs.LeadsTo p l ∧ p.bytes ≠ [] ∧ ns = fs.names l ∧ fs.isDirectory p = true := by
  obtain ⟨l, hl, h⟩ := bind_eq_ok_iff.mp h
  split at h
  · cases h
  next hd =>
  split at h
  · cases h
    refine ⟨l, (locate_leads hl).1, bytes_ne_nil_of_locate hl, rfl, ?_⟩
    obtain ⟨m, hm⟩ := Decidable.not_not.mp hd
    refine isDirectory_eq_true_iff.mpr ⟨m, bind_eq_ok_iff.mpr ⟨l, hl, ?_⟩⟩
    rw [hm]
  · cases h

/-- What can be looked at through a directory is listed there. -/
theorem mem_of_list (h : fs.list p = .ok ns) (hs : fs.stat (p / n.toPath) = .ok e) : n ∈ ns := by
  obtain ⟨l, hl, hp, rfl, -⟩ := list_leads h
  obtain ⟨k, hk, -⟩ := stat_leads hs
  exact (fs.mem_names).mpr (get?_ne_none_of_leadsTo hl hp hk)

theorem sortedNames_sorted (fs : FileSystem) (d : Location) :
    (fs.sortedNames d).Pairwise (· < ·) := by
  unfold sortedNames
  rw [List.pairwise_filterMap]
  refine fs.entries.sorted.imp ?_
  rintro ⟨k, e⟩ ⟨k', e'⟩ hlt n hn n' hn'
  cases k with
  | nil => cases hn
  | cons m l =>
    cases k' with
    | nil => cases hn'
    | cons m' l' =>
      simp only [Option.ite_none_right_eq_some, Option.some.injEq] at hn hn'
      obtain ⟨rfl, rfl⟩ := hn
      obtain ⟨rfl, rfl⟩ := hn'
      rcases List.cons_lt_cons_iff.mp hlt with h | ⟨-, h⟩
      · exact h
      · exact absurd h (List.lt_irrefl _)

theorem nodup_of_list (h : fs.list p = .ok ns) : ns.Nodup := by
  obtain ⟨l, -, -, rfl, -⟩ := list_leads h
  refine (fs.names_perm l).nodup_iff.mpr ((fs.sortedNames_sorted l).imp ?_)
  rintro n m hlt rfl
  exact List.lt_irrefl n.bytes hlt

end FileSystem

end StagedInstall
