/-! # Glob patterns

A glob pattern is compiled to tokens and matched against a whole file name. The matcher tries the
shortest stretch for every `*` first and gives up for good as soon as a name runs out of
characters, since a longer stretch would only leave fewer.
-/

namespace StagedInstall.Glob

/-- The characters from `first` to `last`; none when they are in the wrong order. -/
structure Range where
  first : Char
  last : Char
  deriving DecidableEq, Repr

def Range.contains (r : Range) (c : Char) : Bool := r.first ≤ c ∧ c ≤ r.last

inductive Token
  | char (c : Char)
  | anyChar
  | anySequence
  | within (set : List Range)
  | except (set : List Range)
  deriving DecidableEq, Repr

/-- The members of a set, read from the left: `a-b` is a range, any other character itself. -/
def ranges : List Char → List Range
  | a :: '-' :: b :: r => ⟨a, b⟩ :: ranges r
  | a :: r => ⟨a, a⟩ :: ranges r
  | [] => []

/-- What stands before the first `]`. -/
def untilClose : List Char → Option (List Char)
  | [] => none
  | c :: s => if c = ']' then some [] else (untilClose s).map (c :: ·)

/-- The set that begins after a `[`, and how many characters it takes with its `]`. Whatever
comes first is a member, so that may be a `]` as well. -/
def set? : List Char → Option (Token × Nat)
  | [] => none
  | c :: s =>
    if c = '!' then
      match s with
      | [] => none
      | d :: s => (untilClose s).map fun m => (.except (ranges (d :: m)), m.length + 3)
    else (untilClose s).map fun m => (.within (ranges (c :: m)), m.length + 2)

/-- Compiles a pattern after leaving out its first `skip` characters. A set that is not closed
and two `*` in a row are refused. -/
def compileAfter : (skip : Nat) → List Char → Option (List Token)
  | _, [] => some []
  | skip + 1, _ :: r => compileAfter skip r
  | 0, c :: r =>
    if c = '*' then
      if r.head? = some '*' then none else (compileAfter 0 r).map (.anySequence :: ·)
    else if c = '[' then
      match set? r with
      | some (t, n) => (compileAfter n r).map (t :: ·)
      | none => none
    else (compileAfter 0 r).map ((if c = '?' then .anyChar else .char c) :: ·)

def compile (p : List Char) : Option (List Token) := compileAfter 0 p

/-- What became of an attempt: the name matches, it does not match from here, or it ran out of
characters. -/
inductive Verdict
  | matched
  | mismatch
  | exhausted
  deriving DecidableEq, Repr

def Token.accepts (c : Char) : Token → Bool
  | char d => c = d
  | anyChar => true
  | anySequence => false
  | within set => set.any (·.contains c)
  | except set => !set.any (·.contains c)

/-- Tries the attempt on the name and then on its ever shorter ends, while it only fails here. -/
def tryEnds (attempt : List Char → Verdict) : List Char → Verdict
  | [] => attempt []
  | c :: s =>
    match attempt (c :: s) with
    | .mismatch => tryEnds attempt s
    | v => v

def run : List Token → List Char → Verdict
  | [], s => if s = [] then .matched else .mismatch
  | .anySequence :: ts, s => tryEnds (run ts) s
  | _ :: _, [] => .exhausted
  | t :: ts, c :: s => if t.accepts c then run ts s else .mismatch

theorem untilClose_eq_some_iff {s m : List Char} :
    untilClose s = some m ↔ ']' ∉ m ∧ ∃ r, s = m ++ ']' :: r := by
  induction s generalizing m with
  | nil => simp [untilClose]
  | cons c s ih =>
    by_cases hc : c = ']'
    · subst hc
      cases m with
      | nil => simp [untilClose]
      | cons d m => simp only [untilClose]; grind
    · simp only [untilClose, if_neg hc, Option.map_eq_some_iff, ih]
      cases m with
      | nil => simp [hc]
      | cons d m => grind

/-- A set is read from its own characters alone. -/
theorem set?_append {r : List Char} {t : Token} {n : Nat} (h : set? r = some (t, n))
    (x : List Char) : n ≤ r.length ∧ set? (r.take n ++ x) = some (t, n) := by
  have close {s m : List Char} (h : untilClose s = some m) :
      m.length + 1 ≤ s.length ∧ untilClose (s.take (m.length + 1) ++ x) = some m := by
    obtain ⟨hm, r, rfl⟩ := untilClose_eq_some_iff.mp h
    refine ⟨by simp, untilClose_eq_some_iff.mpr ⟨hm, x, ?_⟩⟩
    simp [List.take_append, List.take_of_length_le]
  cases r with
  | nil => simp [set?] at h
  | cons c s =>
    by_cases hc : c = '!'
    · subst hc
      cases s with
      | nil => simp [set?] at h
      | cons d s =>
        simp only [set?, if_true, Option.map_eq_some_iff, Prod.mk.injEq] at h
        obtain ⟨m, hm, rfl, rfl⟩ := h
        refine ⟨by have := (close hm).1; simp; omega, ?_⟩
        simp [set?, (close hm).2]
    · simp only [set?, if_neg hc, Option.map_eq_some_iff, Prod.mk.injEq] at h
      obtain ⟨m, hm, rfl, rfl⟩ := h
      refine ⟨by have := (close hm).1; simp; omega, ?_⟩
      simp [set?, hc, (close hm).2]

end StagedInstall.Glob
