import StagedInstall.Pattern.Glob
import Mathlib.Data.List.Basic

/-! # What the glob matcher accepts

The tokens of a glob pattern describe a language: a sequence token takes any stretch, every other
token one character. The matcher gives up for good when a name runs out of characters; that is
sound because then no end of the name is in the language either. So it decides the language
(`run_eq_matched_iff`).
-/

namespace StagedInstall.Glob

/-- The names that a list of tokens describes. -/
def Accepts : List Token → List Char → Prop
  | [], s => s = []
  | .anySequence :: ts, s => ∃ a b, s = a ++ b ∧ Accepts ts b
  | t :: ts, s => ∃ c r, s = c :: r ∧ t.accepts c = true ∧ Accepts ts r

theorem accepts_cons {t : Token} (h : t ≠ .anySequence) (ts : List Token) (s : List Char) :
    Accepts (t :: ts) s ↔ ∃ c r, s = c :: r ∧ t.accepts c = true ∧ Accepts ts r := by
  cases t with
  | anySequence => exact absurd rfl h
  | char | anyChar | within | except => rfl

/-- Some end of the name is in the language `L`. -/
def EndIn (L : List Char → Prop) (s : List Char) : Prop := ∃ u, u <:+ s ∧ L u

theorem accepts_anySequence (ts : List Token) :
    Accepts (.anySequence :: ts) = EndIn (Accepts ts) := by
  ext s
  constructor
  · rintro ⟨a, b, rfl, h⟩
    exact ⟨b, List.suffix_append a b, h⟩
  · rintro ⟨b, ⟨a, rfl⟩, h⟩
    exact ⟨a, b, rfl, h⟩

/-- What a verdict on the name `s` says about the language `L`. -/
def Verdict.Holds (L : List Char → Prop) (s : List Char) : Verdict → Prop
  | matched => L s
  | mismatch => ¬ L s
  | exhausted => ∀ u, u <:+ s → ¬ L u

variable {L : List Char → Prop} {c : Char} {s : List Char} {v : Verdict}

theorem Verdict.Holds.endIn (h : v.Holds L s) (hv : v ≠ .mismatch) : v.Holds (EndIn L) s := by
  cases v with
  | matched => exact ⟨s, List.suffix_rfl, h⟩
  | mismatch => exact absurd rfl hv
  | exhausted =>
    rintro u hu ⟨w, hw, hL⟩
    exact h w (hw.trans hu) hL

/-- When the whole name is not in the language, its ends are those of the rest. -/
theorem Verdict.Holds.endIn_cons (h : v.Holds (EndIn L) s) (hc : ¬ L (c :: s)) :
    v.Holds (EndIn L) (c :: s) := by
  have ends {u : List Char} (hu : u <:+ c :: s) (hL : L u) : u <:+ s := by
    rcases List.suffix_cons_iff.mp hu with rfl | hu
    · exact absurd hL hc
    · exact hu
  cases v with
  | matched =>
    obtain ⟨u, hu, hL⟩ := h
    exact ⟨u, hu.trans (List.suffix_cons c s), hL⟩
  | mismatch =>
    rintro ⟨u, hu, hL⟩
    exact h ⟨u, ends hu hL, hL⟩
  | exhausted =>
    rintro u hu ⟨w, hw, hL⟩
    exact h w (ends (hw.trans hu) hL) ⟨w, List.suffix_rfl, hL⟩

theorem tryEnds_holds {attempt : List Char → Verdict} (h : ∀ s, (attempt s).Holds L s)
    (s : List Char) : (tryEnds attempt s).Holds (EndIn L) s := by
  induction s with
  | nil =>
    have h := h []
    rw [tryEnds]
    cases hv : attempt [] with
    | mismatch =>
      rw [hv] at h
      rintro ⟨u, hu, hL⟩
      exact h (List.suffix_nil.mp hu ▸ hL)
    | matched | exhausted => exact (hv ▸ h).endIn (by simp)
  | cons c s ih =>
    have h := h (c :: s)
    simp only [tryEnds]
    cases hv : attempt (c :: s) with
    | mismatch =>
      rw [hv] at h
      exact ih.endIn_cons h
    | matched | exhausted => exact (hv ▸ h).endIn (by simp)

theorem run_cons {t : Token} (h : t ≠ .anySequence) (ts : List Token) (c : Char)
    (s : List Char) :
    run (t :: ts) (c :: s) = if t.accepts c then run ts s else .mismatch := by
  cases t with
  | anySequence => exact absurd rfl h
  | char | anyChar | within | except => rfl

theorem run_cons_nil {t : Token} (h : t ≠ .anySequence) (ts : List Token) :
    run (t :: ts) [] = .exhausted := by
  cases t with
  | anySequence => exact absurd rfl h
  | char | anyChar | within | except => rfl

theorem Verdict.Holds.cons {t : Token} {ts : List Token} (ht : t ≠ .anySequence)
    (hc : t.accepts c = true) (h : v.Holds (Accepts ts) s) :
    v.Holds (Accepts (t :: ts)) (c :: s) := by
  cases v with
  | matched => exact (accepts_cons ht ts _).mpr ⟨c, s, rfl, hc, h⟩
  | mismatch =>
    intro ha
    obtain ⟨_, _, he, -, ha⟩ := (accepts_cons ht ts _).mp ha
    obtain ⟨rfl, rfl⟩ := List.cons.inj he
    exact h ha
  | exhausted =>
    intro u hu ha
    obtain ⟨d, r, rfl, -, ha⟩ := (accepts_cons ht ts _).mp ha
    have hr : r <:+ s := by
      rcases List.suffix_cons_iff.mp hu with he | hu
      · exact (List.cons.inj he).2 ▸ List.suffix_rfl
      · exact (List.suffix_cons d r).trans hu
    exact h r hr ha

theorem run_holds (ts : List Token) (s : List Char) : (run ts s).Holds (Accepts ts) s := by
  induction ts generalizing s with
  | nil =>
    simp only [run]
    split
    · next h => exact h
    · next h => exact h
  | cons t ts ih =>
    by_cases ht : t = .anySequence
    · subst ht
      rw [accepts_anySequence]
      exact tryEnds_holds ih s
    · cases s with
      | nil =>
        rw [run_cons_nil ht]
        intro u hu ha
        obtain ⟨c, r, rfl, -, -⟩ := (accepts_cons ht ts u).mp ha
        exact absurd (List.suffix_nil.mp hu) (List.cons_ne_nil c r)
      | cons c s =>
        rw [run_cons ht]
        split
        · next hc => exact (ih s).cons ht hc
        · next hc =>
          intro ha
          obtain ⟨_, _, he, hd, -⟩ := (accepts_cons ht ts _).mp ha
          obtain ⟨rfl, rfl⟩ := List.cons.inj he
          exact hc hd

/-- The matcher accepts exactly the names that the tokens describe. -/
theorem run_eq_matched_iff (ts : List Token) (s : List Char) :
    run ts s = .matched ↔ Accepts ts s := by
  have h := run_holds ts s
  cases hv : run ts s with
  | matched =>
    rw [hv] at h
    exact iff_of_true rfl h
  | mismatch =>
    rw [hv] at h
    exact iff_of_false (by simp) h
  | exhausted =>
    rw [hv] at h
    exact iff_of_false (by simp) (h s List.suffix_rfl)

end StagedInstall.Glob
