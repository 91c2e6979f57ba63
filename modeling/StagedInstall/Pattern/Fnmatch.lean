import StagedInstall.Pattern.Glob

/-! # File name patterns

A file name pattern is any text. It stands for a glob pattern in which every set is closed and no
two `*` stand in a row; such a pattern always compiles (`compile_toGlob`).
-/

namespace StagedInstall.Fnmatch

/-- How many characters after a `[` belong to its set, the closing `]` included. -/
def setLength? (r : List Char) : Option Nat :=
  let negation := if r.head? = some '!' then 1 else 0
  let member := if (r.drop negation).head? = some ']' then 1 else 0
  ((r.drop (negation + member)).idxOf? ']').map (negation + member + · + 1)

/-- The glob pattern for the characters after the first `copied`, which stay as they are. -/
def toGlobAfter : (copied : Nat) → List Char → List Char
  | _, [] => []
  | copied + 1, c :: r => c :: toGlobAfter copied r
  | 0, c :: r =>
    if c = '*' then
      if r.head? = some '*' then toGlobAfter 0 r else '*' :: toGlobAfter 0 r
    else if c = '[' then
      match setLength? r with
      | some n => '[' :: toGlobAfter n r
      | none => '[' :: '[' :: ']' :: toGlobAfter 0 r
    else c :: toGlobAfter 0 r

/-- A `[` that is never closed stands for itself, and a run of `*` for one. -/
def toGlob (p : List Char) : List Char := toGlobAfter 0 p

open Glob

theorem idxOf?_close (s : List Char) : s.idxOf? ']' = (untilClose s).map List.length := by
  induction s with
  | nil => rfl
  | cons c s ih =>
    by_cases hc : c = ']' <;> simp [List.idxOf?_cons, untilClose, hc, ih, Function.comp_def]

/-- Both readings of a set agree on where it ends. -/
theorem setLength?_eq (r : List Char) : setLength? r = (set? r).map (·.2) := by
  cases r with
  | nil => rfl
  | cons c s =>
    by_cases hc : c = '!'
    · subst hc
      cases s with
      | nil => rfl
      | cons d s =>
        by_cases hd : d = ']'
        · simp [setLength?, set?, idxOf?_close, hd, Function.comp_def]
          grind
        · simp [setLength?, set?, idxOf?_close, untilClose, hd, Function.comp_def]
          grind
    · by_cases hd : c = ']'
      · simp [setLength?, set?, idxOf?_close, hd, Function.comp_def]
        grind
      · simp [setLength?, set?, idxOf?_close, untilClose, hc, hd, Function.comp_def]

theorem toGlobAfter_eq {n : Nat} {r : List Char} (h : n ≤ r.length) :
    toGlobAfter n r = r.take n ++ toGlobAfter 0 (r.drop n) := by
  induction n generalizing r with
  | zero => rfl
  | succ n ih =>
    cases r with
    | nil => simp at h
    | cons c r => simp [toGlobAfter, ih (by simpa using h)]

theorem compileAfter_append {n : Nat} {a r : List Char} (h : a.length = n) :
    compileAfter n (a ++ r) = compileAfter 0 r := by
  induction a generalizing n with
  | nil => subst h; rfl
  | cons c a ih => subst h; exact ih rfl

theorem head?_toGlobAfter (r : List Char) :
    (toGlobAfter 0 r).head? = some '*' ↔ r.head? = some '*' := by
  induction r with
  | nil => simp [toGlobAfter]
  | cons c r ih =>
    by_cases hc : c = '*'
    · by_cases hr : r.head? = some '*' <;> simp [toGlobAfter, hc, hr, ih]
    · by_cases hb : c = '['
      · cases hs : setLength? r <;> simp [toGlobAfter, hb, hs]
      · simp [toGlobAfter, hc, hb]

/-- What a pattern stands for always compiles. -/
theorem compile_toGlob (p : List Char) : (compile (toGlob p)).isSome = true := by
  unfold compile toGlob
  induction hn : p.length using Nat.strongRecOn generalizing p with
  | ind n ih =>
    subst hn
    cases p with
    | nil => rfl
    | cons c r =>
      have hr := ih r.length (by simp) r rfl
      by_cases hc : c = '*'
      · by_cases hs : r.head? = some '*'
        · simpa [toGlobAfter, hc, hs] using hr
        · have := mt (head?_toGlobAfter r).mp hs
          simpa [toGlobAfter, hc, hs, compileAfter, this] using hr
      by_cases hb : c = '['
      · cases hs : setLength? r with
        | none => simpa [toGlobAfter, hb, hs, compileAfter, set?, untilClose] using hr
        | some k =>
          have hset := hs
          rw [setLength?_eq, Option.map_eq_some_iff] at hset
          obtain ⟨⟨t, k'⟩, ht, rfl⟩ := hset
          obtain ⟨hk, hcopy⟩ := set?_append ht (toGlobAfter 0 (r.drop k'))
          have hlt : (r.drop k').length < (c :: r).length := by
            rw [List.length_drop, List.length_cons]
            omega
          have := ih _ hlt _ rfl
          simpa [toGlobAfter, hb, hs, compileAfter, toGlobAfter_eq hk, hcopy,
            compileAfter_append (List.length_take_of_le hk)] using this
      · simpa [toGlobAfter, hc, hb, compileAfter] using hr

/-- The tokens of a file name pattern. -/
def tokens (p : String) : List Token := (compile (toGlob p.toList)).get (compile_toGlob _)

/-- Whether a pattern matches a whole file name. -/
def isMatch (p : String) (name : String) : Bool := run (tokens p) name.toList = .matched

end StagedInstall.Fnmatch
