import StagedInstall.Toml.Writer
import Mathlib.Data.List.Basic

/-! # Reading back what was written

A string reads back from each of the four forms that it can be written in (`text_write`). In the
basic forms every character is written so that the reader gives it back and goes on behind it
(`escaped_escapeChar`); in the literal forms nothing stops the reader before the end, since three
quotes in a row and a quote at the end are not written that way.
-/

namespace StagedInstall.Toml

variable {c : Char} {s rest : List Char} {multiline : Bool}

theorem hexValue?_hexUpper {n : Nat} (h : n < 16) : hexValue? (hexUpper n) = some n := by
  have hall : ∀ n < 16, hexValue? (hexUpper n) = some n := by decide
  exact hall n h

theorem isPlain_of_not_isControl (h : isControl c = false) : isPlain c = true := by
  simp [isControl, isPlain] at h ⊢
  omega

/-- How a character is written in a basic string. -/
inductive Escaped (multiline : Bool) (c : Char) : List Char → Prop
  | plain : c ≠ '"' → c ≠ '\\' → isPlain c = true → Escaped multiline c [c]
  | newline : multiline = true → c = '\n' → Escaped multiline c ['\n']
  | escape (e : List Char) : (∀ rest, escape? (e ++ rest) = some (c, e.length)) →
      (∀ rest, newlineLength (skipBlank (e ++ rest)) = 0) → Escaped multiline c ('\\' :: e)

theorem escape?_code (h : isControl c = true) (rest : List Char) :
    escape? ('u' :: '0' :: '0' :: hexUpper (c.toNat / 16) :: hexUpper (c.toNat % 16) :: rest) =
      some (c, 5) := by
  have hc : c.toNat < 0x20 ∨ c.toNat = 0x7F := by simpa [isControl] using h
  have hhigh : hexValue? (hexUpper (c.toNat / 16)) = some (c.toNat / 16) :=
    hexValue?_hexUpper (by omega)
  have hlow : hexValue? (hexUpper (c.toNat % 16)) = some (c.toNat % 16) :=
    hexValue?_hexUpper (by omega)
  have hcode : codePoint? 4
      ('0' :: '0' :: hexUpper (c.toNat / 16) :: hexUpper (c.toNat % 16) :: rest) = some c := by
    have hnumber : hexNumber? ['0', '0', hexUpper (c.toNat / 16), hexUpper (c.toNat % 16)] =
        some c.toNat := by
      have hzero : hexValue? '0' = some 0 := rfl
      simp only [hexNumber?, List.foldlM_cons, List.foldlM_nil, hzero, hhigh, hlow,
        Option.map_some, Option.bind_eq_bind, Option.bind_some, Option.pure_def, Option.some.injEq]
      omega
    unfold codePoint?
    rw [if_neg (by simp)]
    simp only [List.take_succ_cons, List.take_zero, hnumber, Option.bind_eq_bind, Option.bind_some]
    have hv : c.toNat.isValidChar := c.valid
    rw [if_pos hv, Char.ofNat_toNat]
  rw [escape?, hcode]
  rfl

theorem escaped_escapeChar (multiline : Bool) (c : Char) :
    Escaped multiline c (escapeChar multiline c) := by
  unfold escapeChar
  split_ifs with h₁ h₂ h₃ h₄ h₅ h₆ h₇ h₈ h₉
  · subst h₁
    exact .escape ['b'] (fun _ => rfl) (fun _ => rfl)
  · subst h₂
    exact .escape ['t'] (fun _ => rfl) (fun _ => rfl)
  · exact .newline h₄ h₃
  · subst h₃
    exact .escape ['n'] (fun _ => rfl) (fun _ => rfl)
  · subst h₅
    exact .escape ['f'] (fun _ => rfl) (fun _ => rfl)
  · subst h₆
    exact .escape ['r'] (fun _ => rfl) (fun _ => rfl)
  · subst h₇
    exact .escape ['"'] (fun _ => rfl) (fun _ => rfl)
  · subst h₈
    exact .escape ['\\'] (fun _ => rfl) (fun _ => rfl)
  · exact .escape _ (escape?_code h₉) (fun _ => rfl)
  · exact .plain h₇ h₈ (isPlain_of_not_isControl (by simpa using h₉))

section Basic

/-- What a reader has used up is passed over. -/
theorem basicAfter_append (e t : List Char) : basicAfter e.length (e ++ t) = basicAfter 0 t := by
  induction e with
  | nil => rfl
  | cons c e ih => rw [List.length_cons, List.cons_append, basicAfter, ih]

theorem multilineBasicAfter_append (e t : List Char) :
    multilineBasicAfter e.length (e ++ t) = multilineBasicAfter 0 t := by
  induction e with
  | nil => rfl
  | cons c e ih => rw [List.length_cons, List.cons_append, multilineBasicAfter, ih]

theorem basicAfter_escaped {w : List Char} (h : Escaped false c w) (t : List Char) :
    basicAfter 0 (w ++ t) = .cons c (basicAfter 0 t) := by
  cases h with
  | plain hq hb hp => rw [List.singleton_append, basicAfter, if_neg hq, if_neg hb, if_pos hp]
  | newline h => cases h
  | escape e he =>
    rw [List.cons_append, basicAfter, if_neg (by decide), if_pos rfl, he]
    dsimp only
    rw [basicAfter_append]

theorem multilineBasicAfter_escaped {w : List Char} (h : Escaped multiline c w) (t : List Char) :
    multilineBasicAfter 0 (w ++ t) = .cons c (multilineBasicAfter 0 t) := by
  cases h with
  | plain hq hb hp =>
    rw [List.singleton_append, multilineBasicAfter, if_neg hq, if_neg hb, if_pos hp]
  | newline _ hc =>
    subst hc
    rfl
  | escape e he hn =>
    have hf : foldedLength (e ++ t) = 0 := if_pos (hn t)
    rw [List.cons_append, multilineBasicAfter, if_neg (by decide), if_pos rfl, if_pos hf, he]
    dsimp only
    rw [multilineBasicAfter_append]

theorem basicAfter_flatMap (s rest : List Char) :
    basicAfter 0 (s.flatMap (escapeChar false) ++ '"' :: rest) = some (s, rest) := by
  induction s with
  | nil => rfl
  | cons c s ih =>
    rw [List.flatMap_cons, List.append_assoc, basicAfter_escaped (escaped_escapeChar false c), ih]
    rfl

theorem quoteRun_cons (quote c : Char) (s : List Char) :
    quoteRun quote (c :: s) = if c = quote then quoteRun quote s + 1 else 0 := by
  unfold quoteRun
  rw [List.takeWhile_cons]
  by_cases h : c = quote <;> simp [h]

theorem quoteRun_eq_zero {quote : Char} (h : s.head? ≠ some quote) : quoteRun quote s = 0 := by
  cases s with
  | nil => rfl
  | cons c s =>
    rw [quoteRun_cons, if_neg]
    rintro rfl
    exact h rfl

theorem quoteRun_triple {quote : Char} (h : rest.head? ≠ some quote) :
    quoteRun quote (quote :: quote :: quote :: rest) = 3 := by
  simp [quoteRun_cons, quoteRun_eq_zero h]

theorem closeRun_triple {quote : Char} (h : rest.head? ≠ some quote) :
    closeRun quote (quote :: quote :: quote :: rest) = ([], rest) := by
  rw [closeRun, quoteRun_triple h]
  rfl

theorem multilineBasicAfter_flatMap (s : List Char) (h : rest.head? ≠ some '"') :
    multilineBasicAfter 0 (s.flatMap (escapeChar multiline) ++ '"' :: '"' :: '"' :: rest) =
      some (s, rest) := by
  induction s with
  | nil =>
    rw [List.flatMap_nil, List.nil_append, multilineBasicAfter, if_pos rfl,
      if_pos (Nat.le_of_eq (quoteRun_triple h).symm), closeRun_triple h]
  | cons c s ih =>
    rw [List.flatMap_cons, List.append_assoc,
      multilineBasicAfter_escaped (escaped_escapeChar multiline c), ih]
    rfl

end Basic

section Literal

theorem literal_append (hs : ∀ c ∈ s, c ≠ '\'' ∧ isPlain c = true) (rest : List Char) :
    literal (s ++ '\'' :: rest) = some (s, rest) := by
  induction s with
  | nil => rfl
  | cons c s ih =>
    obtain ⟨⟨hq, hp⟩, hs⟩ := List.forall_mem_cons.mp hs
    rw [List.cons_append, literal, if_neg hq, if_pos hp, ih hs]
    rfl

/-- What can stand between three quotes: no three quotes, and none at the end. -/
structure Quotable (s : List Char) : Prop where
  chars : ∀ c ∈ s, isPlain c = true ∨ c = '\n'
  triple : hasTripleQuote s = false
  last : s.getLast? ≠ some '\''

theorem Quotable.tail (h : Quotable (c :: s)) : Quotable s := by
  refine ⟨(List.forall_mem_cons.mp h.chars).2, ?_, ?_⟩
  · have ht := h.triple
    rw [hasTripleQuote.eq_def] at ht
    split at ht
    · cases ht
    · next he => rwa [← (List.cons.inj he).2] at ht
    · next he => cases he
  · cases s with
    | nil => simp
    | cons d s => exact (List.getLast?_cons_cons ▸ h.last)

theorem Quotable.quoteRun_lt (h : Quotable ('\'' :: s)) (t : List Char) :
    quoteRun '\'' ('\'' :: s ++ t) < 3 := by
  have hlast := h.last
  have htriple := h.triple
  match s with
  | [] => exact absurd rfl hlast
  | [d] =>
    have hd : d ≠ '\'' := fun hd => hlast (by rw [hd]; rfl)
    simp [quoteRun_cons, hd]
  | d :: e :: s =>
    have hde : d ≠ '\'' ∨ e ≠ '\'' := by
      by_contra hde
      simp only [not_or, not_not] at hde
      rw [hde.1, hde.2] at htriple
      cases htriple
    simp only [List.cons_append, quoteRun_cons]
    split_ifs <;> simp_all

theorem multilineLiteralAfter_append (hs : Quotable s) (h : rest.head? ≠ some '\'') :
    multilineLiteralAfter 0 (s ++ '\'' :: '\'' :: '\'' :: rest) = some (s, rest) := by
  induction s with
  | nil =>
    have hrun := Nat.le_of_eq (quoteRun_triple h).symm
    rw [List.nil_append, multilineLiteralAfter, if_pos rfl, if_pos hrun, closeRun_triple h]
  | cons c s ih =>
    have ih := ih hs.tail
    by_cases hq : c = '\''
    · subst hq
      have hrun := hs.quoteRun_lt ('\'' :: '\'' :: '\'' :: rest)
      rw [List.cons_append] at hrun
      rw [List.cons_append, multilineLiteralAfter, if_pos rfl, if_neg (Nat.not_le.mpr hrun), ih]
      rfl
    rw [List.cons_append, multilineLiteralAfter, if_neg hq]
    rcases hs.chars c List.mem_cons_self with hp | rfl
    · rw [if_pos hp, ih]
      rfl
    · rw [if_neg (by decide)]
      exact congrArg (Read.cons '\n') ih

end Literal

/-- What a literal form is used for. -/
theorem prefersLiteral_cases (h : prefersLiteral s = true) : '\\' ∈ s ∧ Quotable s := by
  unfold prefersLiteral at h
  simp only [Bool.and_eq_true, List.all_eq_true, decide_eq_true_eq, Bool.not_eq_true',
    Bool.or_eq_true, List.contains_iff_mem] at h
  obtain ⟨⟨⟨hb, hc⟩, ht⟩, hl⟩ := h
  refine ⟨hb, ?_, ht, hl⟩
  intro c hm
  rcases hc c hm with (h | rfl) | rfl
  · exact .inl (isPlain_of_not_isControl h)
  · exact .inl rfl
  · exact .inr rfl

theorem text_basic (t : List Char) :
    text ('"' :: '"' :: '"' :: t) = multilineBasicAfter 0 (dropNewline t) := by
  have h : 3 ≤ quoteRun '"' ('"' :: '"' :: '"' :: t) := by simp [quoteRun_cons]
  rw [text, if_pos h]
  rfl

theorem text_literal (t : List Char) :
    text ('\'' :: '\'' :: '\'' :: t) = multilineLiteralAfter 0 (dropNewline t) := by
  have h : 3 ≤ quoteRun '\'' ('\'' :: '\'' :: '\'' :: t) := by simp [quoteRun_cons]
  rw [text, if_neg (by simp [quoteRun_cons]), if_pos h]
  rfl

theorem text_line {quote : Char} {t : List Char} (hq : quote = '"' ∨ quote = '\'')
    (h : quoteRun quote t < 2) : text (quote :: t) = lineString (quote :: t) := by
  rw [text]
  rcases hq with rfl | rfl
  · rw [if_neg, if_neg]
    · simp [quoteRun_cons]
    · rw [quoteRun_cons, if_pos rfl]
      omega
  · rw [if_neg, if_neg]
    · rw [quoteRun_cons, if_pos rfl]
      omega
    · simp [quoteRun_cons]

theorem dropNewline_append (hs : Quotable s) (hn : '\n' ∉ s) (hne : s ≠ []) (t : List Char) :
    dropNewline (s ++ t) = s ++ t := by
  obtain ⟨c, r, rfl⟩ := List.exists_cons_of_ne_nil hne
  have hc : c ≠ '\n' := fun h => hn (h ▸ List.mem_cons_self)
  have hr : c ≠ '\r' := by
    rintro rfl
    rcases hs.chars _ List.mem_cons_self with h | h <;> cases h
  rw [dropNewline, List.cons_append, newlineLength, if_neg hc, if_neg fun h => hr h.1]
  rfl

theorem quoteRun_flatMap_lt (s : List Char) (h : rest.head? ≠ some '"') :
    quoteRun '"' (s.flatMap (escapeChar false) ++ '"' :: rest) < 2 := by
  cases s with
  | nil =>
    rw [List.flatMap_nil, List.nil_append, quoteRun_cons, if_pos rfl, quoteRun_eq_zero h]
    decide
  | cons c s =>
    rw [List.flatMap_cons, List.append_assoc]
    generalize s.flatMap (escapeChar false) ++ '"' :: rest = t
    have hw := escaped_escapeChar false c
    generalize escapeChar false c = w at hw
    cases hw with
    | plain hq => simp [quoteRun_cons, hq]
    | newline hm => cases hm
    | escape e => simp [quoteRun_cons]

/-- A string reads back from what is written for it, unless a quote follows. -/
theorem text_write (s : List Char) (hb : rest.head? ≠ some '"') (hl : rest.head? ≠ some '\'') :
    text (write s ++ rest) = some (s, rest) := by
  have hopen : "\"".toList = ['"'] ∧ "'".toList = ['\''] := ⟨rfl, rfl⟩
  have hopen₃ : "\"\"\"".toList = ['"', '"', '"'] ∧ "'''".toList = ['\'', '\'', '\''] :=
    ⟨rfl, rfl⟩
  have hopen₄ : "\"\"\"\n".toList = ['"', '"', '"', '\n'] ∧
      "'''\n".toList = ['\'', '\'', '\'', '\n'] := ⟨rfl, rfl⟩
  unfold write
  by_cases hp : prefersLiteral s = true
  · obtain ⟨hmem, hs⟩ := prefersLiteral_cases hp
    simp only [if_pos hp]
    by_cases hn : s.contains '\n' = true
    · simp only [if_pos hn, hopen₃, hopen₄, List.append_assoc, List.cons_append, List.nil_append]
      rw [text_literal]
      exact multilineLiteralAfter_append hs hl
    simp only [if_neg hn]
    by_cases hq : s.contains '\'' = true
    · simp only [if_pos hq, hopen₃, List.append_assoc, List.cons_append, List.nil_append]
      rw [text_literal, dropNewline_append hs (by simpa using hn) (List.ne_nil_of_mem hmem)]
      exact multilineLiteralAfter_append hs hl
    · simp only [if_neg hq, hopen, List.append_assoc, List.cons_append, List.nil_append]
      have hchars : ∀ c ∈ s, c ≠ '\'' ∧ isPlain c = true := by
        intro c hc
        refine ⟨fun h => hq (by simpa using h ▸ hc), (hs.chars c hc).resolve_right fun h => ?_⟩
        exact hn (by simpa using h ▸ hc)
      have hrun : quoteRun '\'' (s ++ '\'' :: rest) < 2 := by
        obtain ⟨c, r, rfl⟩ := List.exists_cons_of_ne_nil (List.ne_nil_of_mem hmem)
        rw [List.cons_append, quoteRun_cons, if_neg (hchars c List.mem_cons_self).1]
        decide
      rw [text_line (.inr rfl) hrun]
      exact literal_append hchars rest
  · simp only [if_neg hp]
    by_cases hn : s.contains '\n' = true
    · simp only [if_pos hn, hopen₃, hopen₄, List.append_assoc, List.cons_append, List.nil_append]
      rw [text_basic]
      exact multilineBasicAfter_flatMap s hb
    · rw [Bool.not_eq_true] at hn
      simp only [hn, Bool.false_eq_true, if_false, hopen, List.append_assoc, List.cons_append,
        List.nil_append]
      rw [text_line (.inl rfl) (quoteRun_flatMap_lt s hb)]
      exact basicAfter_flatMap s rest

theorem exists_write (s : List Char) : ∃ q r, write s = q :: r ∧ (q = '"' ∨ q = '\'') := by
  unfold write
  dsimp only
  split_ifs
  · exact ⟨_, _, rfl, .inr rfl⟩
  · exact ⟨_, _, rfl, .inr rfl⟩
  · exact ⟨_, _, rfl, .inr rfl⟩
  · exact ⟨_, _, rfl, .inl rfl⟩
  · exact ⟨_, _, rfl, .inl rfl⟩

end StagedInstall.Toml
