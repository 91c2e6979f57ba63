import StagedInstall.Proofs.FileSystem.Growth

/-! # Look-ups without links

In a tree without links a path is looked up by going through the directories it names, each of
which the user has to be allowed to search (`place_eq_ok_iff`). What is found depends on nothing
but the entries on the way (`Agree.place_eq`).
-/

namespace StagedInstall

namespace FileSystem

/-- Every step is taken from a directory, and but for a slash at the end from one that the user may
search. -/
def Passable (fs : FileSystem) : Location → List Step → Prop
  | _, [] => True
  | l, a :: s => fs.IsDirectory l ∧ (a ≠ .slash → fs.permits .search l = true) ∧
      ∀ k, a.move l = some k → fs.Passable k s

def placeAt (fs : FileSystem) : Location → Place
  | [] => .taken []
  | n :: d => if fs.get? (n :: d) = none then .free d n else .taken (n :: d)

variable {fs fs' : FileSystem} {purpose : Purpose} {p : Path} {l k : Location}
  {s : List Step} {x : Place} {e : Entry} {n : Name}

theorem placeAt_location (l : Location) : (fs.placeAt l).location = l := by
  cases l with
  | nil => rfl
  | cons n d =>
    rw [placeAt]
    split <;> rfl

theorem placeAt_of_ne_none (h : fs.get? l ≠ none) : fs.placeAt l = .taken l := by
  cases l with
  | nil => rfl
  | cons n d => exact if_neg h

theorem placeAt_of_isDirectory (h : fs.IsDirectory l) : fs.placeAt l = .taken l := by
  obtain ⟨m, hm⟩ := h
  exact placeAt_of_ne_none (by simp [hm])

theorem get?_root_ne_none : fs.get? [] ≠ none := by
  obtain ⟨m, hm⟩ := fs.isDirectory_root
  simp [hm]

theorem placeAt_eq_taken_iff : fs.placeAt k = .taken l ↔ k = l ∧ fs.get? l ≠ none := by
  constructor
  · intro h
    obtain rfl : k = l := (placeAt_location k).symm.trans (congrArg Place.location h)
    refine ⟨rfl, ?_⟩
    cases k with
    | nil => exact get?_root_ne_none
    | cons n d =>
      intro hn
      rw [placeAt, if_pos hn] at h
      cases h
  · rintro ⟨rfl, h⟩
    exact placeAt_of_ne_none h

theorem isDirectory_up (h : fs.IsDirectory l) : fs.IsDirectory l.tail := by
  by_cases hl : l = []
  · subst hl
    exact h
  · obtain ⟨m, hm⟩ := h
    exact isDirectory_tail (by simp [hm]) hl

/-- Without links, a walk that succeeds goes through directories that may be searched to the
location where its steps point. -/
theorem stepwise_eq_ok_iff {follow : Location → List Step → Except Cause Place} (hl : fs.LinkFree)
    (hp : purpose = .existing ∨ s.getLast? ≠ some .slash) (hs : s ≠ [] ∨ fs.get? l ≠ none) :
    fs.stepwise purpose follow l s = .ok x ↔
      fs.Passable l s ∧ (s.foldlM Step.move l).map fs.placeAt = some x := by
  induction s generalizing l with
  | nil =>
    have h := hs.resolve_left (fun h => h rfl)
    simp [stepwise, Passable, placeAt_of_ne_none h]
  | cons a s ih =>
    have hnext : purpose = .existing ∨ s.getLast? ≠ some .slash := by
      refine hp.imp_right fun h hs => h ?_
      rw [List.getLast?_cons, hs]
      rfl
    have hfile : ¬ (purpose = .creating ∧ s = [.slash]) := by
      rintro ⟨rfl, rfl⟩
      exact hp.elim (by simp) fun h => h rfl
    simp only [stepwise, Passable, List.foldlM_cons]
    by_cases hd : fs.IsDirectory l
    case neg => simp [hd]
    by_cases ha : a ≠ .slash ∧ ¬ fs.permits .search l
    case pos => simp [hd, ha]
    have ha' : a ≠ .slash → fs.permits .search l = true := by simpa using ha
    rw [if_neg (not_not.mpr hd), if_neg ha]
    have found {k : Location} (h : fs.IsDirectory k) : fs.get? k ≠ none := by
      obtain ⟨m, hm⟩ := h
      simp [hm]
    cases a with
    | stay | slash =>
      simpa [Step.move, hd, ha'] using ih hnext (.inr (found hd))
    | up =>
      simpa [Step.move, hd, ha'] using ih hnext (.inr (found (isDirectory_up hd)))
    | overlong => simp [Step.move, hfile]
    | name n =>
      simp only [if_neg hfile, Step.move]
      split
      · next hn =>
        cases s with
        | nil => simp [Passable, hd, ha', placeAt, hn, List.foldlM]
        | cons b s => simp [Passable, not_isDirectory_of_none hn]
      · next target ht => exact absurd ht (hl _ _)
      · next e _ he =>
        simpa [hd, ha'] using ih hnext (.inr (by simp [he]))

theorem place_eq_ok_iff (hl : fs.LinkFree)
    (hp : purpose = .existing ∨ p.steps.getLast? ≠ some .slash) :
    fs.place purpose p = .ok x ↔ refusal? p = none ∧
      fs.Passable (start fs.cwd p) p.steps ∧ (p.location? fs.cwd).map fs.placeAt = some x := by
  unfold place
  cases hr : refusal? p with
  | some cause => simp
  | none =>
    have hs : p.steps ≠ [] := by
      apply Path.steps_ne_nil
      intro hb
      simp [refusal?, hb] at hr
    rw [← Path.foldlM_steps]
    simpa [resolve, maxLinks] using stepwise_eq_ok_iff hl hp (.inl hs)

theorem locate_eq_ok_iff (hl : fs.LinkFree) : fs.locate p = .ok l ↔ refusal? p = none ∧
    fs.Passable (start fs.cwd p) p.steps ∧ p.location? fs.cwd = some l ∧ fs.get? l ≠ none := by
  rw [locate_eq_ok_iff_place, place_eq_ok_iff hl (.inl rfl), Option.map_eq_some_iff]
  simp only [placeAt_eq_taken_iff]
  constructor
  · rintro ⟨hr, hp, k, hk, rfl, hn⟩
    exact ⟨hr, hp, hk, hn⟩
  · rintro ⟨hr, hp, hk, hn⟩
    exact ⟨hr, hp, l, hk, rfl, hn⟩

theorem stat_eq_ok_iff (hl : fs.LinkFree) : fs.stat p = .ok e ↔ refusal? p = none ∧
    fs.Passable (start fs.cwd p) p.steps ∧
    ∃ l, p.location? fs.cwd = some l ∧ fs.get? l = some e := by
  rw [stat, bind_eq_ok_iff]
  simp only [locate_eq_ok_iff hl]
  constructor
  · rintro ⟨l, ⟨hr, hp, hk, -⟩, h⟩
    refine ⟨hr, hp, l, hk, ?_⟩
    split at h
    · next he => cases h; exact he
    · cases h
  · rintro ⟨hr, hp, l, hk, he⟩
    exact ⟨l, ⟨hr, hp, hk, by simp [he]⟩, by rw [he]⟩

def Searchable (fs : FileSystem) (l : Location) : Prop :=
  fs.IsDirectory l ∧ fs.permits .search l = true

theorem suffix_of_move {a : Step} (ha : a ≠ .up) (h : a.move l = some k) : l <:+ k := by
  cases a with
  | stay | slash => cases h; exact List.suffix_rfl
  | up => exact absurd rfl ha
  | overlong => cases h
  | name n => cases h; exact List.suffix_cons n l

theorem suffix_of_foldlM (hup : .up ∉ s) (h : s.foldlM Step.move l = some k) : l <:+ k := by
  induction s generalizing l with
  | nil =>
    cases h
    exact List.suffix_rfl
  | cons a s ih =>
    rw [List.foldlM_cons, Option.bind_eq_bind, Option.bind_eq_some_iff] at h
    obtain ⟨l', hl', h⟩ := h
    obtain ⟨ha, hs⟩ := not_or.mp (List.mem_cons.not.mp hup)
    exact (suffix_of_move (Ne.symm ha) hl').trans (ih hs h)

/-- Steps that end with a name can be taken when all directories before it may be searched. -/
theorem passable_concat_iff (hup : .up ∉ s) (h : s.foldlM Step.move l = some k) (n : Name) :
    fs.Passable l (s ++ [Step.name n]) ↔ ∀ y, l <:+ y → y <:+ k → fs.Searchable y := by
  induction s generalizing l with
  | nil =>
    cases h
    rw [List.nil_append, Passable]
    constructor
    · rintro ⟨hd, hs, -⟩ y hy hy'
      obtain rfl := hy'.eq_of_length (le_antisymm hy'.length_le hy.length_le)
      exact ⟨hd, hs (by simp)⟩
    · intro hy
      obtain ⟨hd, hs⟩ := hy _ List.suffix_rfl List.suffix_rfl
      exact ⟨hd, fun _ => hs, fun _ _ => trivial⟩
  | cons a s ih =>
    rw [List.foldlM_cons, Option.bind_eq_bind, Option.bind_eq_some_iff] at h
    obtain ⟨l', hl', h⟩ := h
    have hup' : .up ∉ s := fun hm => hup (List.mem_cons_of_mem a hm)
    have hs := suffix_of_foldlM hup' h
    rw [List.cons_append, Passable]
    simp only [hl', Option.some.injEq, forall_eq']
    rw [ih hup' h]
    cases a with
    | stay | slash =>
      cases hl'
      constructor
      · exact fun h => h.2.2
      · intro hy
        obtain ⟨hd, hs'⟩ := hy l List.suffix_rfl hs
        exact ⟨hd, fun _ => hs', hy⟩
    | up => exact absurd List.mem_cons_self hup
    | overlong => cases hl'
    | name m =>
      cases hl'
      constructor
      · rintro ⟨hd, hs', hy⟩ y hly hyk
        by_cases hlen : y.length ≤ l.length
        · obtain rfl : y = l := (hly.eq_of_length (le_antisymm hly.length_le hlen)).symm
          exact ⟨hd, hs' (by simp)⟩
        · exact hy y (List.suffix_of_suffix_length_le hs hyk (by rw [List.length_cons]; omega)) hyk
      · intro hy
        obtain ⟨hd, hs'⟩ := hy l List.suffix_rfl ((List.suffix_cons m l).trans hs)
        exact ⟨hd, fun _ => hs', fun y hmy => hy y ((List.suffix_cons m l).trans hmy)⟩

theorem Passable.isDirectory_of_concat {a : Step} (h : fs.Passable l (s ++ [a]))
    (hs : s.foldlM Step.move l = some k) : fs.IsDirectory k := by
  induction s generalizing l with
  | nil =>
    cases hs
    exact h.1
  | cons b s ih =>
    rw [List.foldlM_cons, Option.bind_eq_bind, Option.bind_eq_some_iff] at hs
    obtain ⟨l', hl', hs⟩ := hs
    exact ih (h.2.2 l' hl') hs

theorem isDirectory_congr (h : fs'.get? l = fs.get? l) : fs'.IsDirectory l ↔ fs.IsDirectory l := by
  rw [IsDirectory, IsDirectory, h]

/-- Without links and `..`, a walk sees nothing but the entries on its way. -/
theorem stepwise_congr {follow follow' : Location → List Step → Except Cause Place}
    (hl : fs.LinkFree) (hu : fs'.user = fs.user) (hup : .up ∉ s)
    (hs : s.foldlM Step.move l = some k) (h : ∀ y, l <:+ y → y <:+ k → fs'.get? y = fs.get? y) :
    fs'.stepwise purpose follow' l s = fs.stepwise purpose follow l s := by
  induction s generalizing l with
  | nil => rfl
  | cons a s ih =>
    rw [List.foldlM_cons, Option.bind_eq_bind, Option.bind_eq_some_iff] at hs
    obtain ⟨l', hl', hs⟩ := hs
    obtain ⟨ha, hup'⟩ := not_or.mp (List.mem_cons.not.mp hup)
    have hsuffix := suffix_of_foldlM hup' hs
    have hll' := suffix_of_move (Ne.symm ha) hl'
    have hget := h l List.suffix_rfl (hll'.trans hsuffix)
    have ih := ih hup' hs fun y hy => h y (hll'.trans hy)
    simp only [stepwise, isDirectory_congr hget, permits_congr hu hget]
    cases a with
    | stay | slash => cases hl'; simp only [ih]
    | up => exact absurd List.mem_cons_self hup
    | overlong => cases hl'
    | name m =>
      cases hl'
      simp only [h (m :: l) (List.suffix_cons m l) hsuffix]
      split
      · rfl
      split
      · rfl
      split
      · rfl
      split
      · rfl
      · next ht => exact absurd ht (hl _ _)
      · exact ih

end FileSystem

theorem Path.up_not_mem_steps {p : Path} (h : .parent ∉ p.components) : .up ∉ p.steps := by
  intro hm
  have hf : Step.up ∈ p.steps.filter Step.moves := List.mem_filter.mpr ⟨hm, rfl⟩
  rw [filter_moves_steps, ← filter_components] at hf
  obtain ⟨c, hc, hs⟩ := List.mem_map.mp hf
  have hcp := (List.mem_filter.mp hc).1
  cases c with
  | root | current => cases hs
  | parent => exact h hcp
  | normal b =>
    rw [Component.step] at hs
    split at hs <;> cases hs

namespace FileSystem

/-- Two trees without links that have the same entries on the way to the location that `p` spells
out, and the same one there. -/
structure Agree (fs fs' : FileSystem) (p : Path) : Prop where
  linkFree : fs.LinkFree
  linkFree' : fs'.LinkFree
  cwd : fs'.cwd = fs.cwd
  user : fs'.user = fs.user
  noParent : .parent ∉ p.components
  entries : ∃ l, p.location? fs.cwd = some l ∧ ∀ y, y <:+ l → fs'.get? y = fs.get? y

namespace Agree

variable {fs fs' : FileSystem} {purpose : Purpose} {p : Path} {l : Location}

theorem get?_eq (h : fs.Agree fs' p) (hl : p.location? fs.cwd = some l) :
    fs'.get? l = fs.get? l := by
  obtain ⟨k, hk, hget⟩ := h.entries
  cases hk.symm.trans hl
  exact hget l List.suffix_rfl

theorem place_eq (h : fs.Agree fs' p) : fs'.place purpose p = fs.place purpose p := by
  obtain ⟨l, hl, hget⟩ := h.entries
  unfold place
  split
  · rfl
  · rw [h.cwd]
    exact stepwise_congr h.linkFree h.user (Path.up_not_mem_steps h.noParent)
      ((Path.foldlM_steps p fs.cwd).trans hl) fun y _ => hget y

theorem locate_eq (h : fs.Agree fs' p) : fs'.locate p = fs.locate p := by
  rw [locate, locate, h.place_eq]

theorem stat_eq (h : fs.Agree fs' p) : fs'.stat p = fs.stat p := by
  rw [stat, stat, h.locate_eq]
  cases hl : fs.locate p with
  | error => rfl
  | ok l =>
    have hget := h.get?_eq ((locate_leads hl).1.location? h.linkFree)
    simp only [bind, Except.bind, hget]

theorem isFile_eq (h : fs.Agree fs' p) : fs'.isFile p = fs.isFile p := by
  rw [isFile, isFile, h.stat_eq]

theorem openForReading_eq (h : fs.Agree fs' p) :
    fs'.openForReading p = fs.openForReading p := by
  rw [openForReading, openForReading, h.locate_eq]
  cases hl : fs.locate p with
  | error => rfl
  | ok l =>
    have hget := h.get?_eq ((locate_leads hl).1.location? h.linkFree)
    simp only [bind, Except.bind, permits_congr h.user hget]

theorem readFile_eq (h : fs.Agree fs' p) : fs'.readFile p = fs.readFile p := by
  rw [readFile, readFile, h.openForReading_eq]
  cases hl : fs.openForReading p with
  | error => rfl
  | ok l =>
    have hget := h.get?_eq ((openForReading_leads hl).location? h.linkFree)
    simp only [bind, Except.bind, hget]

theorem openForWriting_eq (h : fs.Agree fs' p) :
    fs'.openForWriting p = fs.openForWriting p := by
  rw [openForWriting, openForWriting, h.place_eq]
  cases hx : fs.place .creating p with
  | error => rfl
  | ok x =>
    obtain ⟨l, hl, hget⟩ := h.entries
    cases hl.symm.trans ((place_leads hx).1.location? h.linkFree)
    cases x with
    | taken l =>
      have he := hget l List.suffix_rfl
      simp only [bind, Except.bind, isDirectory_congr he, permits_congr h.user he]
    | free d n =>
      simp only [bind, Except.bind, permitsChange_congr h.user (hget d (List.suffix_cons n d))]

theorem symm (h : fs.Agree fs' p) : fs'.Agree fs p := by
  obtain ⟨l, hl, hget⟩ := h.entries
  exact ⟨h.linkFree', h.linkFree, h.cwd.symm, h.user.symm, h.noParent, l, h.cwd ▸ hl,
    fun y hy => (hget y hy).symm⟩

end Agree

end FileSystem

end StagedInstall
