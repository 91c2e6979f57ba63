/-! # Sorted maps

A finite map kept as a list with strictly ascending keys. Since the list is determined by the
map, two maps that answer every look-up alike are equal (`SortedMap.ext`).
-/

namespace StagedInstall

structure SortedMap (κ α : Type) [LT κ] where
  toList : List (κ × α)
  sorted : toList.Pairwise (·.1 < ·.1)

namespace SortedMap

variable {κ α : Type}

section Lists

variable [DecidableEq κ]

def find (k : κ) : List (κ × α) → Option α
  | [] => none
  | (k', v) :: r => if k = k' then some v else find k r

def place [LT κ] [DecidableLT κ] (k : κ) (v : α) : List (κ × α) → List (κ × α)
  | [] => [(k, v)]
  | (k', v') :: r =>
    if k < k' then (k, v) :: (k', v') :: r
    else if k = k' then (k, v) :: r
    else (k', v') :: place k v r

theorem mem_of_find {k : κ} {v : α} {l : List (κ × α)} (h : find k l = some v) : (k, v) ∈ l := by
  induction l with
  | nil => cases h
  | cons e r ih =>
    simp only [find] at h
    split at h
    · next hk => cases h; subst hk; exact List.mem_cons_self
    · exact List.mem_cons_of_mem _ (ih h)

variable [LT κ]

theorem find_of_mem [Std.Irrefl (α := κ) (· < ·)] {k : κ} {v : α} {l : List (κ × α)}
    (hs : l.Pairwise (·.1 < ·.1)) (h : (k, v) ∈ l) : find k l = some v := by
  induction l with
  | nil => cases h
  | cons e r ih =>
    obtain ⟨he, hr⟩ := List.pairwise_cons.mp hs
    simp only [find]
    split
    · next hk =>
      rcases List.mem_cons.mp h with h | h
      · rw [← h]
      · exact absurd (hk ▸ he _ h) (Std.Irrefl.irrefl _)
    · next hk =>
      rcases List.mem_cons.mp h with h | h
      · exact absurd (congrArg Prod.fst h) hk
      · exact ih hr h

variable [DecidableLT κ]

theorem mem_place {k : κ} {v : α} {l : List (κ × α)} {e : κ × α} (h : e ∈ place k v l) :
    e = (k, v) ∨ e ∈ l := by
  induction l with
  | nil => exact .inl (List.mem_singleton.mp h)
  | cons a r ih =>
    simp only [place] at h
    split at h
    · simpa using h
    split at h
    · rcases List.mem_cons.mp h with h | h
      · exact .inl h
      · exact .inr (List.mem_cons_of_mem _ h)
    · rcases List.mem_cons.mp h with h | h
      · exact .inr (h ▸ List.mem_cons_self)
      · exact (ih h).imp_right (List.mem_cons_of_mem _)

theorem sorted_place [Trans (α := κ) (· < ·) (· < ·) (· < ·)]
    [Std.Trichotomous (α := κ) (· < ·)] {k : κ} {v : α} {l : List (κ × α)}
    (hs : l.Pairwise (·.1 < ·.1)) : (place k v l).Pairwise (·.1 < ·.1) := by
  induction l with
  | nil => exact List.pairwise_singleton _ _
  | cons a r ih =>
    obtain ⟨ha, hr⟩ := List.pairwise_cons.mp hs
    simp only [place]
    split
    · next hk =>
      refine List.pairwise_cons.mpr ⟨fun e he => ?_, hs⟩
      rcases List.mem_cons.mp he with rfl | he
      · exact hk
      · exact Trans.trans hk (ha e he)
    split
    · next hk => exact List.pairwise_cons.mpr ⟨fun e he => hk ▸ ha e he, hr⟩
    · next hlt hne =>
      refine List.pairwise_cons.mpr ⟨fun e he => ?_, ih hr⟩
      rcases mem_place he with rfl | he
      · exact Classical.byContradiction fun hn =>
          hne (Std.Trichotomous.trichotomous (r := (· < ·)) _ _ hlt hn)
      · exact ha e he

theorem find_place [Std.Irrefl (α := κ) (· < ·)] (k k' : κ) (v : α) (l : List (κ × α)) :
    find k' (place k v l) = if k' = k then some v else find k' l := by
  induction l with
  | nil => simp [place, find]
  | cons a r ih =>
    simp only [place]
    split
    · simp [find]
    split
    · next hk => subst hk; simp only [find]; split <;> rfl
    · next hne =>
      simp only [find, ih]
      split
      · next h => subst h; simp [Ne.symm hne]
      · rfl

end Lists

variable [LT κ] [DecidableEq κ] (m : SortedMap κ α)

instance : EmptyCollection (SortedMap κ α) := ⟨⟨[], .nil⟩⟩

def get? (k : κ) : Option α := find k m.toList

def erase (k : κ) : SortedMap κ α :=
  ⟨m.toList.filter (fun e => !decide (e.1 = k)), m.sorted.sublist List.filter_sublist⟩

/-- The entries whose key satisfies `p`. -/
def restrict (p : κ → Bool) : SortedMap κ α :=
  ⟨m.toList.filter (fun e => p e.1), m.sorted.sublist List.filter_sublist⟩

theorem get?_restrict (p : κ → Bool) (k : κ) :
    (m.restrict p).get? k = if p k then m.get? k else none := by
  simp only [get?, restrict]
  induction m.toList with
  | nil => simp [find]
  | cons e r ih =>
    by_cases hk : k = e.1
    · subst hk; by_cases hp : p e.1 <;> simp_all [find]
    · by_cases hp : p e.1 <;> simp [find, hp, hk, ih]

theorem get?_erase (k k' : κ) : (m.erase k).get? k' = if k' = k then none else m.get? k' := by
  have := m.get?_restrict (fun x => !decide (x = k)) k'
  simp only [erase, restrict] at this ⊢
  rw [this]
  by_cases h : k' = k <;> simp [h]

section Order

variable [Std.Irrefl (α := κ) (· < ·)]

theorem mem_toList_iff {k : κ} {v : α} : (k, v) ∈ m.toList ↔ m.get? k = some v :=
  ⟨find_of_mem m.sorted, mem_of_find⟩

theorem ext [Trans (α := κ) (· < ·) (· < ·) (· < ·)] {m m' : SortedMap κ α}
    (h : ∀ k, m.get? k = m'.get? k) : m = m' := by
  obtain ⟨l, hl⟩ := m
  obtain ⟨l', hl'⟩ := m'
  have key : ∀ e, e ∈ l ↔ e ∈ l' := fun ⟨k, v⟩ => by
    rw [show (k, v) ∈ l ↔ find k l = some v from ⟨find_of_mem hl, mem_of_find⟩,
      show (k, v) ∈ l' ↔ find k l' = some v from ⟨find_of_mem hl', mem_of_find⟩]
    exact iff_of_eq (congrArg (· = some v) (h k))
  clear h
  suffices l = l' by subst this; rfl
  induction l generalizing l' with
  | nil =>
    cases l' with
    | nil => rfl
    | cons e r => exact absurd ((key e).mpr List.mem_cons_self) List.not_mem_nil
  | cons a r ih =>
    obtain ⟨ha, hr⟩ := List.pairwise_cons.mp hl
    cases l' with
    | nil => exact absurd ((key a).mp List.mem_cons_self) List.not_mem_nil
    | cons b s =>
      obtain ⟨hb, hs⟩ := List.pairwise_cons.mp hl'
      have hab : a = b := by
        rcases List.mem_cons.mp ((key a).mp List.mem_cons_self) with h | h
        · exact h
        rcases List.mem_cons.mp ((key b).mpr List.mem_cons_self) with h' | h'
        · exact h'.symm
        exact absurd (Trans.trans (hb _ h) (ha _ h') : b.1 < b.1) (Std.Irrefl.irrefl _)
      subst hab
      refine congrArg (a :: ·) (ih hr s hs fun e => ⟨fun he => ?_, fun he => ?_⟩)
      · rcases List.mem_cons.mp ((key e).mp (List.mem_cons_of_mem _ he)) with h | h
        · exact absurd (h ▸ ha e he) (Std.Irrefl.irrefl _)
        · exact h
      · rcases List.mem_cons.mp ((key e).mpr (List.mem_cons_of_mem _ he)) with h | h
        · exact absurd (h ▸ hb e he) (Std.Irrefl.irrefl _)
        · exact h

end Order

section Insert

variable [DecidableLT κ] [Trans (α := κ) (· < ·) (· < ·) (· < ·)]
  [Std.Trichotomous (α := κ) (· < ·)]

def insert (k : κ) (v : α) : SortedMap κ α := ⟨place k v m.toList, sorted_place m.sorted⟩

theorem get?_insert [Std.Irrefl (α := κ) (· < ·)] (k k' : κ) (v : α) :
    (m.insert k v).get? k' = if k' = k then some v else m.get? k' :=
  find_place k k' v m.toList

end Insert

end SortedMap

end StagedInstall
