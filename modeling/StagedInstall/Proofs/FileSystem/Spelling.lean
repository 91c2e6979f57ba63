import StagedInstall.Proofs.FileSystem.Resolution
import StagedInstall.Proofs.Path.Components

/-! # The spelling of a path

Repeated slashes, inner `.` and a slash at the end only ask that what stands before them is a
directory. So two spellings of one path that both lead somewhere lead to the same entry, links
included (`LeadsTo.eq_of_same`).
-/

namespace StagedInstall

/-- `t` is `s` without some of the steps that stay where they are. -/
inductive Skips : List Step → List Step → Prop
  | nil : Skips [] []
  | keep {s t} (a : Step) : Skips s t → Skips (a :: s) (a :: t)
  | stay {s t} : Skips s t → Skips (.stay :: s) t
  | slash {s t} : Skips s t → Skips (.slash :: s) t

namespace Skips

variable {s t : List Step}

theorem append_left (r : List Step) (h : Skips s t) : Skips (r ++ s) (r ++ t) := by
  induction r with
  | nil => exact h
  | cons a r ih => exact .keep a ih

end Skips

def Step.moves : Step → Bool
  | stay | slash => false
  | _ => true

theorem skips_filter_moves (s : List Step) : Skips s (s.filter Step.moves) := by
  induction s with
  | nil => exact .nil
  | cons a s ih =>
    cases a with
    | stay => exact .stay ih
    | slash => exact .slash ih
    | up | name | overlong => exact .keep _ ih

theorem FileSystem.Leads.skip {fs : FileSystem} {l : Location} {s t : List Step} {x : Place}
    (h : fs.Leads l s x) (hs : Skips s t) : fs.Leads l t x := by
  induction h generalizing t with
  | done =>
    cases hs
    exact .done
  | stay hd _ ih =>
    cases hs with
    | keep _ hs => exact .stay hd (ih hs)
    | stay hs => exact ih hs
  | slash hd _ ih =>
    cases hs with
    | keep _ hs => exact .slash hd (ih hs)
    | slash hs => exact ih hs
  | up hd _ ih =>
    cases hs with
    | keep _ hs => exact .up hd (ih hs)
  | free hd hn =>
    cases hs with
    | keep _ hs =>
      cases hs
      exact .free hd hn
  | @link l n target _ _ hd hn _ ih =>
    cases hs with
    | keep _ hs => exact .link hd hn (ih (hs.append_left target.steps))
  | name hd hn hl _ ih =>
    cases hs with
    | keep _ hs => exact .name hd hn hl (ih hs)

theorem Step.ofPiece_ne_slash (s : Bytes) : ofPiece s ≠ slash := by
  unfold ofPiece
  split
  · simp
  · split
    · simp
    · split <;> simp

def Component.step : Component → Step
  | .root | .current => .stay
  | .parent => .up
  | .normal b => match Name.ofBytes? b with
    | some n => .name n
    | none => .overlong

namespace Path

variable {p q : Path}

theorem ofPiece_of_not_skipped {s : Bytes} (h : ¬ Skipped s) :
    Step.ofPiece s = (Component.ofPiece s).step := by
  unfold Step.ofPiece Component.ofPiece
  rw [if_neg (not_or.mp h).2]
  split <;> rfl

theorem moves_step {c : Component} (hr : c ≠ .root) (hc : c ≠ .current) :
    c.step.moves = true := by
  cases c with
  | root => exact absurd rfl hr
  | current => exact absurd rfl hc
  | parent => rfl
  | normal b =>
    rw [Component.step]
    cases Name.ofBytes? b <;> rfl

theorem filter_moves_pieces (pieces : List Bytes) :
    ((pieces.filter (· ≠ [])).map Step.ofPiece).filter Step.moves =
      (spelled pieces).map Component.step := by
  induction pieces with
  | nil => rfl
  | cons s r ih =>
    by_cases hs : Skipped s
    · rw [spelled_cons_of_skipped hs, ← ih]
      rcases hs with rfl | rfl <;> rfl
    · have hm : (Step.ofPiece s).moves = true := by
        rw [ofPiece_of_not_skipped hs]
        unfold Component.ofPiece
        split <;> exact moves_step (by simp) (by simp)
      rw [List.filter_cons_of_pos (by simpa using (not_or.mp hs).1), List.map_cons,
        List.filter_cons_of_pos hm, ih, spelled_cons hs, List.map_cons,
        ofPiece_of_not_skipped hs]

theorem filter_moves_steps (p : Path) :
    p.steps.filter Step.moves = (spelled p.pieces).map Component.step := by
  unfold steps
  rw [List.filter_append, filter_moves_pieces]
  split <;> simp [Step.moves]

theorem filter_components (p : Path) :
    p.components.filter (fun c => c ≠ .root ∧ c ≠ .current) = spelled p.pieces := by
  rw [components_eq, List.filter_append]
  have hl : (leading p.pieces).filter (fun c => c ≠ .root ∧ c ≠ .current) = [] := by
    rcases leading_cases p.pieces with h | h | h <;> rw [h] <;> rfl
  rw [hl, List.nil_append, List.filter_eq_self]
  intro c hc
  rcases spelled_cases hc with rfl | ⟨b, rfl⟩ <;> simp

theorem isAbsolute_iff_root_mem : p.isAbsolute = true ↔ .root ∈ p.components := by
  rw [components_eq, List.mem_append]
  constructor
  · intro h
    obtain ⟨s, l, hl⟩ := isAbsolute_iff.mp h
    rw [hl]
    exact .inl List.mem_cons_self
  · rintro (h | h)
    · unfold leading at h
      split at h
      · next s l hl => exact isAbsolute_iff.mpr ⟨s, l, hl⟩
      · split at h <;> simp at h
      · cases h
    · rcases spelled_cases h with h | ⟨b, h⟩ <;> cases h

end Path

theorem Path.filter_moves_of_same {p q : Path} (h : p.Same q) :
    p.steps.filter Step.moves = q.steps.filter Step.moves := by
  rw [filter_moves_steps, filter_moves_steps, ← filter_components, ← filter_components, h]

namespace FileSystem

theorem start_of_same {p q : Path} (h : p.Same q) (cwd : Location) : start cwd p = start cwd q := by
  have ha : p.isAbsolute = q.isAbsolute := by
    rw [Bool.eq_iff_iff, Path.isAbsolute_iff_root_mem, Path.isAbsolute_iff_root_mem, h]
  rw [start, start, ha]

/-- Two spellings of one path do not lead to different entries. -/
theorem LeadsTo.eq_of_same {fs : FileSystem} {p q : Path} {l l' : Location}
    (h : fs.LeadsTo p l) (h' : fs.LeadsTo q l') (hs : p.Same q) : l = l' := by
  have hp := Leads.skip h (skips_filter_moves p.steps)
  have hq := Leads.skip h' (skips_filter_moves q.steps)
  rw [start_of_same hs, Path.filter_moves_of_same hs] at hp
  exact hp.taken_unique hq

end FileSystem

end StagedInstall
