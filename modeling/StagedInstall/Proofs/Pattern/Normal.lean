import StagedInstall.Proofs.Pattern.Language

/-! # Patterns that need no rewriting

The glob patterns that compile are those in which every set is closed and no two `*` stand in a row
(`compile_isSome_iff`). Rewriting a file name pattern gives such a pattern and leaves it alone
(`toGlob_eq_self`), so a second rewriting changes nothing. What a pattern says in a closed set stays
as it is between what becomes of its two sides (`Reading.split_set`).
-/

namespace StagedInstall.Fnmatch

open Glob

/-- Outside of sets no two `*` stand in a row, and every `[` opens a set that has a member and is
closed. -/
inductive WellFormed : List Char → Prop
  | nil : WellFormed []
  | sequence {p} : p.head? ≠ some '*' → WellFormed p → WellFormed ('*' :: p)
  | memberOf {m p} : IsSet m → m.head? ≠ some '!' → WellFormed p →
      WellFormed ('[' :: (m ++ ']' :: p))
  | notMemberOf {m p} : IsSet m → WellFormed p → WellFormed ('[' :: '!' :: (m ++ ']' :: p))
  | character {c p} : c ≠ '*' → c ≠ '[' → WellFormed p → WellFormed (c :: p)

variable {p : List Char}

theorem toGlob_eq_self (h : WellFormed p) : toGlob p = p := by
  induction h with
  | nil => rfl
  | sequence hs _ ih => rw [toGlob_sequence hs, ih]
  | memberOf hm hh _ ih => rw [toGlob_memberOf hm hh, ih]
  | notMemberOf hm _ ih => rw [toGlob_notMemberOf hm, ih]
  | character hs hb _ ih => rw [toGlob_character hs hb, ih]

theorem compile_isSome_iff (p : List Char) : (compile p).isSome = true ↔ WellFormed p := by
  constructor
  · intro h
    induction hn : p.length using Nat.strongRecOn generalizing p with
    | ind n ih =>
      subst hn
      cases p with
      | nil => exact .nil
      | cons c r =>
        by_cases hs : c = '*'
        · subst hs
          by_cases hr : r.head? = some '*'
          · simp [compile, compileAfter, hr] at h
          · exact .sequence hr (ih r.length (by simp) r (by
              simpa [compile, compileAfter, hr] using h) rfl)
        by_cases hb : c = '['
        · subst hb
          by_cases hc : Closed r
          · rcases hc with ⟨m, p, hm, hh, rfl⟩ | ⟨m, p, hm, rfl⟩
            · rw [compile_memberOf hm hh, Option.isSome_map] at h
              exact .memberOf hm hh (ih p.length (by simp; omega) p h rfl)
            · rw [compile_notMemberOf hm, Option.isSome_map] at h
              exact .notMemberOf hm (ih p.length (by simp; omega) p h rfl)
          · simp [compile, compileAfter, set?_eq_none hc] at h
        · exact .character hs hb (ih r.length (by simp) r (by
            simpa [compile, compileAfter, hs, hb] using h) rfl)
  · intro h
    induction h with
    | nil => rfl
    | sequence hs _ ih => simpa [compile, compileAfter, hs] using ih
    | memberOf hm hh _ ih => rwa [compile_memberOf hm hh, Option.isSome_map]
    | notMemberOf hm _ ih => rwa [compile_notMemberOf hm, Option.isSome_map]
    | character hs hb _ ih => simpa [compile, compileAfter, hs, hb] using ih

theorem wellFormed_toGlob (p : List Char) : WellFormed (toGlob p) :=
  (compile_isSome_iff _).mp (compile_toGlob p)

namespace Item

def text : Item → List Char
  | sequence => ['*']
  | character => ['?']
  | memberOf m => '[' :: (m ++ [']'])
  | notMemberOf m => '[' :: '!' :: (m ++ [']'])
  | literal c => [c]

def isClosedSet : Item → Bool
  | memberOf _ | notMemberOf _ => true
  | _ => false

end Item

theorem closed_of_close {c d : Char} {s r : List Char} : Closed (c :: d :: (s ++ ']' :: r)) := by
  by_cases hc : c = '!'
  · subst hc
    obtain ⟨m, t, hs, hm⟩ := List.eq_append_cons_of_mem
      (List.mem_append_right s (List.mem_cons_self (a := ']') (l := r)))
    exact .inr ⟨d :: m, t, ⟨d, m, rfl, hm⟩, by rw [hs, List.cons_append]⟩
  · obtain ⟨m, t, hs, hm⟩ := List.eq_append_cons_of_mem
      (List.mem_append_right (d :: s) (List.mem_cons_self (a := ']') (l := r)))
    refine .inl ⟨c :: m, t, ⟨c, m, rfl, hm⟩, by simpa using hc, ?_⟩
    rw [List.cons_append, ← hs, List.cons_append]

theorem closed_append_set (a : List Char) {c : Char} {s b : List Char} :
    Closed (a ++ '[' :: c :: (s ++ [']']) ++ b) := by
  match a with
  | [] => simpa using closed_of_close (c := '[') (d := c) (s := s) (r := b)
  | [x] => simpa using closed_of_close (c := x) (d := '[') (s := c :: s) (r := b)
  | x :: y :: a =>
    simpa using closed_of_close (c := x) (d := y) (s := a ++ '[' :: c :: s) (r := b)

theorem Reading.text_of_mem {i : Item} {is : List Item} (h : Reading p is) (hi : i ∈ is)
    (hc : i.isClosedSet = true) : ∃ c s, i.text = '[' :: c :: (s ++ [']']) := by
  induction h with
  | nil => cases hi
  | sequence _ ih | character _ ih | unclosed _ _ ih | literal _ _ _ _ ih =>
    rcases List.mem_cons.mp hi with rfl | hi
    · cases hc
    · exact ih hi
  | memberOf hm _ _ ih =>
    rcases List.mem_cons.mp hi with rfl | hi
    · obtain ⟨c, r, rfl, -⟩ := hm
      exact ⟨c, r, rfl⟩
    · exact ih hi
  | @notMemberOf m _ _ _ _ ih =>
    rcases List.mem_cons.mp hi with rfl | hi
    · exact ⟨'!', m, rfl⟩
    · exact ih hi

/-- A closed set stays as it is, between what becomes of the pattern before it and behind it. -/
theorem Reading.split_set {before after : List Item} {i : Item}
    (h : Reading p (before ++ i :: after)) (hi : i.isClosedSet = true) :
    ∃ a b, Reading a before ∧ Reading b after ∧ p = a ++ i.text ++ b ∧
      toGlob p = toGlob a ++ i.text ++ toGlob b := by
  obtain ⟨c, s, htext⟩ := h.text_of_mem (by simp) hi
  induction before generalizing p with
  | nil =>
    cases h with
    | memberOf hm hh hp =>
      refine ⟨[], _, .nil, hp, by simp [Item.text], ?_⟩
      rw [toGlob_memberOf hm hh]
      simp [Item.text, toGlob, toGlobAfter]
    | notMemberOf hm hp =>
      refine ⟨[], _, .nil, hp, by simp [Item.text], ?_⟩
      rw [toGlob_notMemberOf hm]
      simp [Item.text, toGlob, toGlobAfter]
    | _ => cases hi
  | cons j before ih =>
    cases h with
    | sequence h =>
      obtain ⟨a, b, ha, hb, rfl, hg⟩ := ih h
      have hhead : (a ++ i.text ++ b).head? = some '*' ↔ a.head? = some '*' := by
        rw [htext]
        cases a <;> simp
      refine ⟨'*' :: a, b, .sequence ha, hb, rfl, ?_⟩
      by_cases hs : a.head? = some '*'
      · rw [toGlob_sequence_sequence hs, toGlob_sequence_sequence (hhead.mpr hs), hg]
      · rw [toGlob_sequence hs, toGlob_sequence (mt hhead.mp hs), hg]
        rfl
    | character h =>
      obtain ⟨a, b, ha, hb, rfl, hg⟩ := ih h
      refine ⟨'?' :: a, b, .character ha, hb, rfl, ?_⟩
      rw [toGlob_character (by decide) (by decide), toGlob_character (by decide) (by decide), hg]
      rfl
    | @memberOf m _ _ hm hh h =>
      obtain ⟨a, b, ha, hb, rfl, hg⟩ := ih h
      refine ⟨'[' :: (m ++ ']' :: a), b, .memberOf hm hh ha, hb, by simp, ?_⟩
      rw [toGlob_memberOf hm hh, toGlob_memberOf hm hh, hg]
      simp
    | @notMemberOf m _ _ hm h =>
      obtain ⟨a, b, ha, hb, rfl, hg⟩ := ih h
      refine ⟨'[' :: '!' :: (m ++ ']' :: a), b, .notMemberOf hm ha, hb, by simp, ?_⟩
      rw [toGlob_notMemberOf hm, toGlob_notMemberOf hm, hg]
      simp
    | unclosed hn h =>
      obtain ⟨a, b, -, -, rfl, -⟩ := ih h
      rw [htext] at hn
      exact absurd (closed_append_set a) hn
    | literal hs hq hb h =>
      obtain ⟨a, b, ha, hb', rfl, hg⟩ := ih h
      refine ⟨_ :: a, b, .literal hs hq hb ha, hb', rfl, ?_⟩
      rw [toGlob_character hs hb, toGlob_character hs hb, hg]
      rfl

/-- Every pattern is rewritten to one that compiles, in which no two `*` stand in a row and every
set is closed. Its closed sets stay as they are, and a second rewriting changes nothing. -/
theorem toGlob_normal (p : List Char) :
    WellFormed (toGlob p) ∧ (compile (toGlob p)).isSome = true ∧
    (∃ is, Reading p is ∧ ∀ before i after, is = before ++ i :: after → i.isClosedSet = true →
      ∃ a b, Reading a before ∧ Reading b after ∧ p = a ++ i.text ++ b ∧
        toGlob p = toGlob a ++ i.text ++ toGlob b) ∧
    toGlob (toGlob p) = toGlob p := by
  obtain ⟨is, h⟩ := exists_reading p
  refine ⟨wellFormed_toGlob p, compile_toGlob p, ⟨is, h, ?_⟩, toGlob_eq_self (wellFormed_toGlob p)⟩
  rintro before i after rfl hi
  exact h.split_set hi

namespace Sample

def pattern : List Char := "**[]*]x[".toList

theorem reading_pattern : Reading pattern
    ([.sequence, .sequence] ++ .memberOf [']', '*'] :: [.literal 'x', .literal '[']) := by
  have hset : IsSet [']', '*'] := ⟨']', ['*'], rfl, by decide⟩
  have hopen : ¬ Closed [] := by
    rintro (⟨m, r, -, -, h⟩ | ⟨m, r, -, h⟩)
    · simp at h
    · simp at h
  refine .sequence (.sequence (.memberOf (m := [']', '*']) (p := ['x', '[']) hset (by decide) ?_))
  exact .literal (by decide) (by decide) (by decide) (.unclosed hopen .nil)

end Sample

open Sample in
theorem toGlob_normal_sample :
    toGlob pattern = "*[]*]x[[]".toList ∧ WellFormed (toGlob pattern) ∧
    (∃ a b, pattern = a ++ "[]*]".toList ++ b ∧
      toGlob pattern = toGlob a ++ "[]*]".toList ++ toGlob b) ∧
    toGlob (toGlob pattern) = toGlob pattern := by
  obtain ⟨hwell, -, ⟨is, hr, hset⟩, hagain⟩ := toGlob_normal pattern
  obtain ⟨a, b, -, -, hp, hg⟩ := hset _ _ _ (hr.unique reading_pattern) rfl
  exact ⟨by decide, hwell, ⟨a, b, hp, hg⟩, hagain⟩

end StagedInstall.Fnmatch
