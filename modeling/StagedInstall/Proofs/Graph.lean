import StagedInstall.Graph
import Mathlib.Data.Finset.Card
import Mathlib.Data.Finset.Dedup

/-! # First registrations

Of all elements with the same key the first one is kept: the element that a search for the key
finds (`mem_uniqueBy_iff`). So keys are kept once (`nodup_uniqueBy`), none is lost
(`exists_mem_uniqueBy`), and their number is that of the different keys (`length_uniqueBy`).
-/

namespace StagedInstall

section Unique

variable {α κ : Type} [DecidableEq κ] {key : α → κ} {l : List α} {seen : List κ} {a : α}

theorem mem_uniqueAfter_iff :
    a ∈ uniqueAfter key seen l ↔ key a ∉ seen ∧ l.find? (fun b => key b = key a) = some a := by
  induction l generalizing seen with
  | nil => simp [uniqueAfter]
  | cons b r ih =>
    unfold uniqueAfter
    split
    · next hb =>
      rw [ih]
      constructor
      · rintro ⟨ha, hf⟩
        refine ⟨ha, ?_⟩
        rw [List.find?_cons_of_neg (by simpa using fun he : key b = key a => ha (he ▸ hb)), hf]
      · rintro ⟨ha, hf⟩
        rw [List.find?_cons_of_neg (by simpa using fun he : key b = key a => ha (he ▸ hb))] at hf
        exact ⟨ha, hf⟩
    · next hb =>
      by_cases he : key b = key a
      · rw [List.find?_cons_of_pos (by simpa using he), List.mem_cons, ih, he]
        constructor
        · rintro (rfl | ⟨hn, -⟩)
          · exact ⟨hb, rfl⟩
          · exact absurd List.mem_cons_self hn
        · rintro ⟨-, h⟩
          exact .inl (Option.some.inj h).symm
      · rw [List.find?_cons_of_neg (by simpa using he), List.mem_cons, ih, List.mem_cons, not_or]
        constructor
        · rintro (rfl | ⟨⟨-, hn⟩, hf⟩)
          · exact absurd rfl he
          · exact ⟨hn, hf⟩
        · rintro ⟨hn, hf⟩
          exact .inr ⟨⟨Ne.symm he, hn⟩, hf⟩

theorem mem_uniqueBy_iff :
    a ∈ uniqueBy key l ↔ l.find? (fun b => key b = key a) = some a := by
  rw [uniqueBy, mem_uniqueAfter_iff]
  exact and_iff_right List.not_mem_nil

theorem mem_of_mem_uniqueBy (h : a ∈ uniqueBy key l) : a ∈ l :=
  List.mem_of_find?_eq_some (mem_uniqueBy_iff.mp h)

theorem nodup_uniqueAfter : ((uniqueAfter key seen l).map key).Nodup := by
  induction l generalizing seen with
  | nil => exact .nil
  | cons b r ih =>
    unfold uniqueAfter
    split
    · exact ih
    · refine List.nodup_cons.mpr ⟨?_, ih⟩
      intro h
      obtain ⟨c, hc, he⟩ := List.mem_map.mp h
      exact (mem_uniqueAfter_iff.mp hc).1 (he ▸ List.mem_cons_self)

theorem nodup_uniqueBy : ((uniqueBy key l).map key).Nodup := nodup_uniqueAfter

theorem exists_mem_uniqueBy (h : a ∈ l) : ∃ b ∈ uniqueBy key l, key b = key a := by
  have hs : (l.find? fun b => key b = key a).isSome :=
    List.find?_isSome.mpr ⟨a, h, by simp⟩
  obtain ⟨b, hb⟩ := Option.isSome_iff_exists.mp hs
  have he : key b = key a := by simpa using List.find?_some hb
  exact ⟨b, mem_uniqueBy_iff.mpr (he ▸ hb), he⟩

theorem length_uniqueBy : (uniqueBy key l).length = (l.map key).toFinset.card := by
  rw [← List.length_map key, ← List.toFinset_card_of_nodup nodup_uniqueBy]
  congr 1
  ext k
  simp only [List.mem_toFinset, List.mem_map]
  constructor
  · rintro ⟨a, ha, rfl⟩
    exact ⟨a, mem_of_mem_uniqueBy ha, rfl⟩
  · rintro ⟨a, ha, rfl⟩
    exact exists_mem_uniqueBy ha

theorem uniqueBy_concat (l : List α) (a : α) : uniqueBy key (l ++ [a]) =
    if key a ∈ l.map key then uniqueBy key l else uniqueBy key l ++ [a] := by
  have h (seen : List κ) : uniqueAfter key seen (l ++ [a]) =
      if key a ∈ seen ∨ key a ∈ l.map key then uniqueAfter key seen l
      else uniqueAfter key seen l ++ [a] := by
    induction l generalizing seen with
    | nil => simp [uniqueAfter]
    | cons b r ih =>
      simp only [List.cons_append, uniqueAfter, ih, List.map_cons, List.mem_cons, or_assoc,
        or_left_comm (a := key a = key b)]
      by_cases hb : key b ∈ seen
      · have he : key a ∈ seen ∨ key a = key b ∨ key a ∈ r.map key ↔
            key a ∈ seen ∨ key a ∈ r.map key := by
          rw [← or_assoc, or_iff_left_of_imp fun h : key a = key b => h ▸ hb]
        simp only [if_pos hb, he]
      · simp only [if_neg hb]
        split <;> rfl
  simpa only [uniqueBy, List.not_mem_nil, false_or] using h []

theorem uniqueBy_map {β : Type} (f : β → α) (l : List β) :
    uniqueBy key (l.map f) = (uniqueBy (fun b => key (f b)) l).map f := by
  have h (seen : List κ) :
      uniqueAfter key seen (l.map f) = (uniqueAfter (fun b => key (f b)) seen l).map f := by
    induction l generalizing seen with
    | nil => rfl
    | cons b r ih =>
      rw [List.map_cons, uniqueAfter, uniqueAfter]
      split
      · exact ih seen
      · rw [ih, List.map_cons]
  exact h []

/-- Counted among what is kept, every key counts once. -/
theorem countP_uniqueBy [DecidableEq α] (p : α → Bool) :
    (uniqueBy key l).countP p = ((l.filter fun a =>
      l.find? (fun b => key b = key a) = some a ∧ p a).map key).toFinset.card := by
  have hn : (((uniqueBy key l).filter p).map key).Nodup :=
    nodup_uniqueBy.sublist (List.filter_sublist.map key)
  rw [List.countP_eq_length_filter, ← List.length_map key, ← List.toFinset_card_of_nodup hn]
  congr 1
  ext k
  simp only [List.mem_toFinset, List.mem_map, List.mem_filter, mem_uniqueBy_iff,
    decide_eq_true_eq]
  constructor
  · rintro ⟨a, ⟨ha, hp⟩, rfl⟩
    exact ⟨a, ⟨List.mem_of_find?_eq_some ha, ha, hp⟩, rfl⟩
  · rintro ⟨a, ⟨-, ha, hp⟩, rfl⟩
    exact ⟨a, ⟨ha, hp⟩, rfl⟩

end Unique

namespace ActionGraph

variable {g : ActionGraph} {c : Copy}

theorem nodup_distinctCopies (g : ActionGraph) : g.distinctCopies.Nodup :=
  .of_map _ nodup_uniqueBy

theorem mem_distinctCopies_iff : c ∈ g.distinctCopies ↔ g.first? c.target = some c :=
  mem_uniqueBy_iff

theorem exists_distinctCopy_same (h : c ∈ g.copies) :
    ∃ d ∈ g.distinctCopies, d.target.Same c.target :=
  exists_mem_uniqueBy h

end ActionGraph

end StagedInstall
