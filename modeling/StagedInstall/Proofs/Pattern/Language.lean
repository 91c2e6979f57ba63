import StagedInstall.Pattern.Fnmatch
import StagedInstall.Proofs.Pattern.Matcher
import Mathlib.Data.List.Forall2

/-! # The language of a file name pattern

A file name pattern is read from left to right into items, and matches the names that can be cut
into consecutive pieces, one for each item. Every pattern has a reading, and the glob pattern it
is rewritten to describes the same names (`Reading.isMatch_iff`).
-/

namespace StagedInstall.Fnmatch

/-- What a pattern asks of one piece of a name. -/
inductive Item
  | sequence
  | character
  | memberOf (set : List Char)
  | notMemberOf (set : List Char)
  | literal (c : Char)

/-- The characters that a set stands for. It is read from the left: `x-y` is the range of code
points from `x` to `y`, any other character stands for itself. -/
def Denotes : List Char → Char → Prop
  | x :: '-' :: y :: r, c => (x ≤ c ∧ c ≤ y) ∨ Denotes r c
  | x :: r, c => c = x ∨ Denotes r c
  | [], _ => False

namespace Item

/-- The pieces that an item allows. -/
def Admits : Item → List Char → Prop
  | sequence, _ => True
  | character, s => ∃ c, s = [c]
  | memberOf set, s => ∃ c, s = [c] ∧ Denotes set c
  | notMemberOf set, s => ∃ c, s = [c] ∧ ¬ Denotes set c
  | literal c, s => s = [c]

end Item

/-- A set has a first member, which may be any character, and ends before the next `]`. -/
def IsSet (m : List Char) : Prop := ∃ c r, m = c :: r ∧ ']' ∉ r

/-- Whether the `[` before these characters opens a set that is closed again. -/
def Closed (p : List Char) : Prop :=
  (∃ m r, IsSet m ∧ m.head? ≠ some '!' ∧ p = m ++ ']' :: r) ∨
    ∃ m r, IsSet m ∧ p = '!' :: (m ++ ']' :: r)

/-- The items of a pattern, read from left to right. -/
inductive Reading : List Char → List Item → Prop
  | nil : Reading [] []
  | sequence {p is} : Reading p is → Reading ('*' :: p) (.sequence :: is)
  | character {p is} : Reading p is → Reading ('?' :: p) (.character :: is)
  | memberOf {m p is} : IsSet m → m.head? ≠ some '!' → Reading p is →
      Reading ('[' :: (m ++ ']' :: p)) (.memberOf m :: is)
  | notMemberOf {m p is} : IsSet m → Reading p is →
      Reading ('[' :: '!' :: (m ++ ']' :: p)) (.notMemberOf m :: is)
  | unclosed {p is} : ¬ Closed p → Reading p is → Reading ('[' :: p) (.literal '[' :: is)
  | literal {c p is} : c ≠ '*' → c ≠ '?' → c ≠ '[' → Reading p is →
      Reading (c :: p) (.literal c :: is)

/-- Whether a name can be cut into consecutive pieces, one that each item allows. -/
def Splits (is : List Item) (s : List Char) : Prop :=
  ∃ pieces : List (List Char), s = pieces.flatten ∧ List.Forall₂ Item.Admits is pieces

theorem splits_nil {s : List Char} : Splits [] s ↔ s = [] := by
  constructor
  · rintro ⟨pieces, rfl, h⟩
    cases h
    rfl
  · rintro rfl
    exact ⟨[], rfl, .nil⟩

theorem splits_cons {i : Item} {is : List Item} {s : List Char} :
    Splits (i :: is) s ↔ ∃ a b, s = a ++ b ∧ i.Admits a ∧ Splits is b := by
  constructor
  · rintro ⟨pieces, rfl, h⟩
    cases h with
    | @cons _ a _ rest ha hr => exact ⟨a, rest.flatten, rfl, ha, rest, rfl, hr⟩
  · rintro ⟨a, _, rfl, ha, rest, rfl, hr⟩
    exact ⟨a :: rest, rfl, .cons ha hr⟩

theorem splits_sequence_sequence {is : List Item} {s : List Char} :
    Splits (.sequence :: .sequence :: is) s ↔ Splits (.sequence :: is) s := by
  constructor
  · intro h
    obtain ⟨a, _, rfl, -, h⟩ := splits_cons.mp h
    obtain ⟨b, c, rfl, -, h⟩ := splits_cons.mp h
    exact splits_cons.mpr ⟨a ++ b, c, (List.append_assoc a b c).symm, trivial, h⟩
  · intro h
    exact splits_cons.mpr ⟨[], s, rfl, trivial, h⟩

theorem exists_reading (p : List Char) : ∃ is, Reading p is := by
  induction hn : p.length using Nat.strongRecOn generalizing p with
  | ind n ih =>
    subst hn
    cases p with
    | nil => exact ⟨[], .nil⟩
    | cons c r =>
      obtain ⟨is, hr⟩ := ih r.length (by simp) r rfl
      by_cases hs : c = '*'
      · exact ⟨.sequence :: is, hs ▸ .sequence hr⟩
      by_cases hq : c = '?'
      · exact ⟨.character :: is, hq ▸ .character hr⟩
      by_cases hb : c = '['
      · subst hb
        by_cases hc : Closed r
        · -- what follows the set is shorter than the pattern
          rcases hc with ⟨m, p, hm, hh, rfl⟩ | ⟨m, p, hm, rfl⟩
          · obtain ⟨is, hp⟩ := ih p.length (by simp; omega) p rfl
            exact ⟨_, .memberOf hm hh hp⟩
          · obtain ⟨is, hp⟩ := ih p.length (by simp; omega) p rfl
            exact ⟨_, .notMemberOf hm hp⟩
        · exact ⟨_, .unclosed hc hr⟩
      · exact ⟨_, .literal hs hq hb hr⟩

open Glob

theorem append_close_inj {m m' p p' : List Char} (hm : IsSet m) (hm' : IsSet m')
    (h : m ++ ']' :: p = m' ++ ']' :: p') : m = m' ∧ p = p' := by
  obtain ⟨c, r, rfl, hr⟩ := hm
  obtain ⟨c', r', rfl, hr'⟩ := hm'
  simp only [List.cons_append, List.cons.injEq] at h
  obtain ⟨rfl, h⟩ := h
  have hu : untilClose (r ++ ']' :: p) = some r := untilClose_eq_some_iff.mpr ⟨hr, p, rfl⟩
  have hu' : untilClose (r ++ ']' :: p) = some r' := untilClose_eq_some_iff.mpr ⟨hr', p', h⟩
  obtain rfl : r = r' := Option.some.inj (hu.symm.trans hu')
  exact ⟨rfl, (List.cons.inj (List.append_cancel_left h)).2⟩

theorem Reading.unique {p : List Char} {is is' : List Item} (h : Reading p is)
    (h' : Reading p is') : is = is' := by
  induction h generalizing is' with
  | nil =>
    cases h'
    rfl
  | sequence _ ih =>
    cases h' with
    | sequence h' => rw [ih h']
    | literal hs => exact absurd rfl hs
  | character _ ih =>
    cases h' with
    | character h' => rw [ih h']
    | literal _ hq => exact absurd rfl hq
  | @memberOf m p _ hm hh _ ih =>
    generalize hq : '[' :: (m ++ ']' :: p) = q at h'
    cases h' with
    | memberOf hm' _ h' =>
      obtain ⟨rfl, rfl⟩ := append_close_inj hm hm' (List.cons.inj hq).2
      rw [ih h']
    | notMemberOf hm' =>
      obtain ⟨c, r, rfl, -⟩ := hm
      exact absurd (congrArg some (List.cons.inj (List.cons.inj hq).2).1) hh
    | unclosed hn => exact absurd (.inl ⟨m, p, hm, hh, (List.cons.inj hq).2.symm⟩) hn
    | literal _ _ hb => exact absurd (List.cons.inj hq).1.symm hb
    | _ => simp at hq
  | @notMemberOf m p _ hm _ ih =>
    generalize hq : '[' :: '!' :: (m ++ ']' :: p) = q at h'
    cases h' with
    | memberOf hm' hh' =>
      obtain ⟨c, r, rfl, -⟩ := hm'
      exact absurd (congrArg some (List.cons.inj (List.cons.inj hq).2).1.symm) hh'
    | notMemberOf hm' h' =>
      obtain ⟨rfl, rfl⟩ := append_close_inj hm hm' (List.cons.inj (List.cons.inj hq).2).2
      rw [ih h']
    | unclosed hn => exact absurd (.inr ⟨m, p, hm, (List.cons.inj hq).2.symm⟩) hn
    | literal _ _ hb => exact absurd (List.cons.inj hq).1.symm hb
    | _ => simp at hq
  | @unclosed p _ hn _ ih =>
    generalize hq : '[' :: p = q at h'
    cases h' with
    | memberOf hm hh => exact absurd (.inl ⟨_, _, hm, hh, (List.cons.inj hq).2⟩) hn
    | notMemberOf hm => exact absurd (.inr ⟨_, _, hm, (List.cons.inj hq).2⟩) hn
    | unclosed _ h' =>
      obtain ⟨-, rfl⟩ := List.cons.inj hq
      rw [ih h']
    | literal _ _ hb => exact absurd (List.cons.inj hq).1.symm hb
    | _ => simp at hq
  | literal hs hq hb _ ih =>
    cases h' with
    | literal _ _ _ h' => rw [ih h']
    | sequence => exact absurd rfl hs
    | character => exact absurd rfl hq
    | _ => exact absurd rfl hb

theorem Range.contains_iff {a b c : Char} :
    (⟨a, b⟩ : Range).contains c = true ↔ a ≤ c ∧ c ≤ b := by
  simp [Range.contains]

theorem any_ranges_contains (m : List Char) (c : Char) :
    (ranges m).any (·.contains c) = true ↔ Denotes m c := by
  fun_induction ranges m with
  | case1 a b r ih => simp [Denotes, Range.contains_iff, ih]
  | case2 a r h ih =>
    have hd : Denotes (a :: r) c ↔ c = a ∨ Denotes r c := by
      match r, h with
      | [], _ => rfl
      | [_], _ => rw [Denotes]; simp
      | d :: e :: r, h => rw [Denotes]; simpa using h
    rw [hd, ← ih, List.any_cons, Bool.or_eq_true, Range.contains_iff]
    exact or_congr_left ⟨fun h => Char.le_antisymm h.2 h.1, fun h => h ▸ ⟨c.le_refl, c.le_refl⟩⟩
  | case3 => simp [Denotes]

theorem set?_memberOf {m p : List Char} (hm : IsSet m) (hh : m.head? ≠ some '!') :
    set? (m ++ ']' :: p) = some (.within (ranges m), m.length + 1) := by
  obtain ⟨c, r, rfl, hr⟩ := hm
  have hc : c ≠ '!' := by
    rintro rfl
    exact hh rfl
  have hu : untilClose (r ++ ']' :: p) = some r := untilClose_eq_some_iff.mpr ⟨hr, p, rfl⟩
  simp [set?, hc, hu]

theorem set?_notMemberOf {m p : List Char} (hm : IsSet m) :
    set? ('!' :: (m ++ ']' :: p)) = some (.except (ranges m), m.length + 2) := by
  obtain ⟨c, r, rfl, hr⟩ := hm
  have hu : untilClose (r ++ ']' :: p) = some r := untilClose_eq_some_iff.mpr ⟨hr, p, rfl⟩
  simp [set?, hu]

theorem set?_memberOf_append {m p : List Char} (hm : IsSet m) (hh : m.head? ≠ some '!') :
    set? ((m ++ [']']) ++ p) = some (.within (ranges m), (m ++ [']']).length) := by
  simpa using set?_memberOf (p := p) hm hh

theorem set?_notMemberOf_append {m p : List Char} (hm : IsSet m) :
    set? (('!' :: (m ++ [']'])) ++ p) =
      some (.except (ranges m), ('!' :: (m ++ [']'])).length) := by
  simpa using set?_notMemberOf (p := p) hm

theorem set?_eq_none {r : List Char} (h : ¬ Closed r) : set? r = none := by
  cases r with
  | nil => rfl
  | cons c s =>
    by_cases hc : c = '!'
    · subst hc
      cases s with
      | nil => rfl
      | cons d s =>
        cases hu : untilClose s with
        | none => simp [set?, hu]
        | some m =>
          obtain ⟨hm, r, rfl⟩ := untilClose_eq_some_iff.mp hu
          exact absurd (.inr ⟨d :: m, r, ⟨d, m, rfl, hm⟩, rfl⟩) h
    · cases hu : untilClose s with
      | none => simp [set?, hc, hu]
      | some m =>
        obtain ⟨hm, r, rfl⟩ := untilClose_eq_some_iff.mp hu
        exact absurd (.inl ⟨c :: m, r, ⟨c, m, rfl, hm⟩, by simpa using hc, rfl⟩) h

theorem toGlob_sequence {p : List Char} (h : p.head? ≠ some '*') :
    toGlob ('*' :: p) = '*' :: toGlob p := by
  simp [toGlob, toGlobAfter, h]

theorem toGlob_character {c : Char} (hs : c ≠ '*') (hb : c ≠ '[') (p : List Char) :
    toGlob (c :: p) = c :: toGlob p := by
  simp [toGlob, toGlobAfter, hs, hb]

theorem toGlob_sequence_sequence {p : List Char} (h : p.head? = some '*') :
    toGlob ('*' :: p) = toGlob p := by
  simp [toGlob, toGlobAfter, h]

theorem compile_toGlob_sequence {p : List Char} (h : p.head? ≠ some '*') :
    compile (toGlob ('*' :: p)) = (compile (toGlob p)).map (.anySequence :: ·) := by
  have hp : (toGlobAfter 0 p).head? ≠ some '*' := mt (head?_toGlobAfter p).mp h
  simp [compile, toGlob, toGlobAfter, h, compileAfter, hp]

theorem compile_toGlob_character (p : List Char) :
    compile (toGlob ('?' :: p)) = (compile (toGlob p)).map (.anyChar :: ·) := by
  simp [compile, toGlob, toGlobAfter, compileAfter]

theorem compile_toGlob_literal {c : Char} (hs : c ≠ '*') (hq : c ≠ '?') (hb : c ≠ '[')
    (p : List Char) : compile (toGlob (c :: p)) = (compile (toGlob p)).map (.char c :: ·) := by
  simp [compile, toGlob, toGlobAfter, compileAfter, hs, hq, hb]

/-- A `[` that is not closed compiles to the set of itself. -/
theorem compile_toGlob_unclosed {p : List Char} (h : ¬ Closed p) :
    compile (toGlob ('[' :: p)) =
      (compile (toGlob p)).map (.within [⟨'[', '['⟩] :: ·) := by
  have hs : setLength? p = none := by
    rw [setLength?_eq, set?_eq_none h]
    rfl
  simp [compile, toGlob, toGlobAfter, hs, compileAfter, set?, untilClose, ranges]

theorem toGlob_set {r p : List Char} {t : Token} (h : set? (r ++ p) = some (t, r.length)) :
    toGlob ('[' :: (r ++ p)) = '[' :: (r ++ toGlob p) := by
  have hs : setLength? (r ++ p) = some r.length := by
    rw [setLength?_eq, h]
    rfl
  have he : toGlobAfter r.length (r ++ p) = r ++ toGlobAfter 0 p := by
    rw [toGlobAfter_eq (set?_append h []).1, List.take_left, List.drop_left]
  simp [toGlob, toGlobAfter, hs, he]

theorem compile_set {r p : List Char} {t : Token} (h : set? (r ++ p) = some (t, r.length)) :
    compile ('[' :: (r ++ p)) = (compile p).map (t :: ·) := by
  simp [compile, compileAfter, h, compileAfter_append]

theorem toGlob_memberOf {m p : List Char} (hm : IsSet m) (hh : m.head? ≠ some '!') :
    toGlob ('[' :: (m ++ ']' :: p)) = '[' :: (m ++ ']' :: toGlob p) := by
  simpa using toGlob_set (set?_memberOf_append (p := p) hm hh)

theorem toGlob_notMemberOf {m p : List Char} (hm : IsSet m) :
    toGlob ('[' :: '!' :: (m ++ ']' :: p)) = '[' :: '!' :: (m ++ ']' :: toGlob p) := by
  simpa using toGlob_set (set?_notMemberOf_append (p := p) hm)

theorem compile_memberOf {m p : List Char} (hm : IsSet m) (hh : m.head? ≠ some '!') :
    compile ('[' :: (m ++ ']' :: p)) = (compile p).map (.within (ranges m) :: ·) := by
  simpa using compile_set (set?_memberOf_append (p := p) hm hh)

theorem compile_notMemberOf {m p : List Char} (hm : IsSet m) :
    compile ('[' :: '!' :: (m ++ ']' :: p)) = (compile p).map (.except (ranges m) :: ·) := by
  simpa using compile_set (set?_notMemberOf_append (p := p) hm)

theorem compile_toGlob_memberOf {m p : List Char} (hm : IsSet m) (hh : m.head? ≠ some '!') :
    compile (toGlob ('[' :: (m ++ ']' :: p))) =
      (compile (toGlob p)).map (.within (ranges m) :: ·) := by
  rw [toGlob_memberOf hm hh, compile_memberOf hm hh]

theorem compile_toGlob_notMemberOf {m p : List Char} (hm : IsSet m) :
    compile (toGlob ('[' :: '!' :: (m ++ ']' :: p))) =
      (compile (toGlob p)).map (.except (ranges m) :: ·) := by
  rw [toGlob_notMemberOf hm, compile_notMemberOf hm]

/-- A token and an item that take the same single characters, in front of the same names. -/
theorem accepts_cons_iff_splits {t : Token} {i : Item} {ts : List Token} {is : List Item}
    (ht : t ≠ .anySequence) (hi : ∀ a, i.Admits a ↔ ∃ c, a = [c] ∧ t.accepts c = true)
    (hts : ∀ s, Accepts ts s ↔ Splits is s) (s : List Char) :
    Accepts (t :: ts) s ↔ Splits (i :: is) s := by
  rw [accepts_cons ht, splits_cons]
  constructor
  · rintro ⟨c, r, rfl, hc, hr⟩
    exact ⟨[c], r, rfl, (hi _).mpr ⟨c, rfl, hc⟩, (hts r).mp hr⟩
  · rintro ⟨a, r, rfl, ha, hr⟩
    obtain ⟨c, rfl, hc⟩ := (hi a).mp ha
    exact ⟨c, r, rfl, hc, (hts r).mpr hr⟩

theorem Reading.exists_compile {p : List Char} {is : List Item} (h : Reading p is) :
    ∃ ts, compile (toGlob p) = some ts ∧ ∀ s, Accepts ts s ↔ Splits is s := by
  induction h with
  | nil => exact ⟨[], rfl, fun s => splits_nil.symm⟩
  | @sequence p is hp ih =>
    obtain ⟨ts, hts, hL⟩ := ih
    by_cases hs : p.head? = some '*'
    · refine ⟨ts, by rw [toGlob_sequence_sequence hs, hts], ?_⟩
      intro s
      cases hp with
      | sequence hp => rw [hL, splits_sequence_sequence]
      | literal hc => exact absurd (Option.some.inj hs) hc
      | _ => simp at hs
    · refine ⟨.anySequence :: ts, by rw [compile_toGlob_sequence hs, hts, Option.map_some], ?_⟩
      intro s
      rw [splits_cons, Accepts]
      simp only [hL, Item.Admits, true_and]
  | @character p is _ ih =>
    obtain ⟨ts, hts, hL⟩ := ih
    refine ⟨.anyChar :: ts, by rw [compile_toGlob_character, hts, Option.map_some], ?_⟩
    apply accepts_cons_iff_splits (by simp) _ hL
    simp [Item.Admits, Token.accepts]
  | @memberOf m p is hm hh _ ih =>
    obtain ⟨ts, hts, hL⟩ := ih
    refine ⟨.within (ranges m) :: ts, by rw [compile_toGlob_memberOf hm hh, hts, Option.map_some],
      ?_⟩
    apply accepts_cons_iff_splits (by simp) _ hL
    simp [Item.Admits, Token.accepts, ← any_ranges_contains]
  | @notMemberOf m p is hm _ ih =>
    obtain ⟨ts, hts, hL⟩ := ih
    refine ⟨.except (ranges m) :: ts, by rw [compile_toGlob_notMemberOf hm, hts, Option.map_some],
      ?_⟩
    apply accepts_cons_iff_splits (by simp) _ hL
    simp [Item.Admits, Token.accepts, ← any_ranges_contains]
  | @unclosed p is hn _ ih =>
    obtain ⟨ts, hts, hL⟩ := ih
    refine ⟨.within [⟨'[', '['⟩] :: ts, by rw [compile_toGlob_unclosed hn, hts, Option.map_some],
      ?_⟩
    apply accepts_cons_iff_splits (by simp) _ hL
    intro a
    simp only [Item.Admits, Token.accepts, List.any_cons, List.any_nil, Bool.or_false,
      Range.contains_iff]
    constructor
    · rintro rfl
      exact ⟨'[', rfl, Char.le_refl _, Char.le_refl _⟩
    · rintro ⟨c, rfl, h⟩
      rw [Char.le_antisymm h.2 h.1]
  | @literal c p is hs hq hb _ ih =>
    obtain ⟨ts, hts, hL⟩ := ih
    refine ⟨.char c :: ts, by rw [compile_toGlob_literal hs hq hb, hts, Option.map_some], ?_⟩
    apply accepts_cons_iff_splits (by simp) _ hL
    simp [Item.Admits, Token.accepts]

/-- A pattern matches exactly the names that its items split. -/
theorem Reading.isMatch_iff {p name : String} {is : List Item} (h : Reading p.toList is) :
    isMatch p name = true ↔ Splits is name.toList := by
  obtain ⟨ts, hts, hL⟩ := h.exists_compile
  have ht : tokens p = ts := by simp [tokens, hts]
  rw [isMatch, decide_eq_true_eq, run_eq_matched_iff, ht, hL]

end StagedInstall.Fnmatch
