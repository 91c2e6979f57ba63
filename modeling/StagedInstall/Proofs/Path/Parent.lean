import StagedInstall.Proofs.Path.Components

/-! # The parent of a path

The parent is written anew, from the anchor of the path and its pieces before the last one that
names something. Read back, it has the components of the path without the last one
(`components_parent?`). The parent of an absolute path is a beginning of it
(`parent?_of_isAbsolute`).
-/

namespace StagedInstall.Path

variable {p q : Path}

theorem pieces_of_root {l : List Bytes} (hl : ∀ s ∈ l, slash ∉ s)
    (hp : p.bytes = slash :: [slash].intercalate l) :
    p.pieces = [] :: if l = [] then [[]] else l := by
  rw [← pieces_intercalate hl, pieces, hp]
  simp [List.splitOn_cons_eq_if_modifyHead]

theorem components_of_root {l : List Bytes} (hl : ∀ s ∈ l, slash ∉ s)
    (hp : p.bytes = slash :: [slash].intercalate l) : p.components = .root :: spelled l := by
  rw [components_eq, pieces_of_root hl hp, spelled_cons_of_skipped (.inl rfl)]
  split
  · next hl => simp [hl, leading, spelled, Skipped]
  · next hl =>
    obtain ⟨s, r, hr⟩ := List.exists_cons_of_ne_nil hl
    simp [hr, leading]

theorem components_of_dot {l : List Bytes} (hl : ∀ s ∈ l, slash ∉ s)
    (hp : p.bytes = if l = [] then [dot] else dot :: slash :: [slash].intercalate l) :
    p.components = .current :: spelled l := by
  have hpieces : p.pieces = [dot] :: l := by
    rw [pieces, hp]
    split
    · next hl => simp [hl, List.splitOn_cons_eq_if_modifyHead, dot, slash]
    · next hn =>
      have hs := pieces_intercalate hl
      rw [if_neg hn] at hs
      have hd : (dot == slash) = false := by decide
      simp [List.splitOn_cons_eq_if_modifyHead, hs, hd]
  rw [components_eq, hpieces, spelled_cons_of_skipped (.inr rfl)]
  simp [leading]

theorem components_of_pieces {l : List Bytes} (hl : ∀ s ∈ l, slash ∉ s) (hn : leading l = [])
    (hp : p.bytes = [slash].intercalate l) : p.components = spelled l := by
  have hpieces : p.pieces = if l = [] then [[]] else l := by
    rw [← pieces_intercalate hl, pieces, hp]
  rw [components_eq, hpieces]
  split
  · next hl => simp [hl, leading, spelled, Skipped]
  · rw [hn, List.nil_append]

theorem leading_of_isPrefix {l : List Bytes} (h : l <+: p.pieces) (hp : leading p.pieces = []) :
    leading l = [] := by
  obtain ⟨r, hr⟩ := h
  by_cases hn : l = []
  · rw [hn]
    rfl
  by_cases he : l = [[]]
  · rw [he]
    rfl
  · rw [← leading_append hn he r, hr, hp]

theorem components_of_body_concat {r : List Bytes} {s : Bytes} (hr : p.body = r ++ [s])
    (h : p.parent? = some q) : q.components = leading p.pieces ++ spelled (trim r) := by
  have hpre : trim r <+: p.body := by
    rw [hr]
    exact (trim_isPrefix r).trans (List.prefix_append r [s])
  have hs : ∀ t ∈ trim r, slash ∉ t := by
    intro t ht
    exact slash_not_mem_of_mem_body (hpre.subset ht)
  rw [parent?, if_pos (by simp [hr]), hr, List.dropLast_concat, Option.some.injEq] at h
  have hb := congrArg bytes h
  dsimp only at hb
  rcases anchor_cases p with ⟨ha, t, l, hl⟩ | ⟨ha, l, hl⟩ | ⟨ha, hl, -⟩
  · have hd : ¬ ([slash] = [dot] ∧ trim r ≠ []) := by
      rintro ⟨hd, -⟩
      exact absurd hd (by decide)
    rw [ha, if_neg hd] at hb
    rw [components_of_root hs hb.symm, hl]
    rfl
  · have hb : q.bytes = if trim r = [] then [dot]
        else dot :: slash :: [slash].intercalate (trim r) := by
      rw [← hb, ha]
      by_cases ht : trim r = [] <;> simp [ht]
    rw [components_of_dot hs hb, hl]
    simp [leading]
  · rw [ha, if_neg (by simp), List.nil_append] at hb
    have hbody := p.body_isPrefix
    rw [if_pos ha] at hbody
    rw [components_of_pieces hs (leading_of_isPrefix (hpre.trans hbody) hl) hb.symm, hl,
      List.nil_append]

theorem components_parent? (h : p.parent? = some q) :
    ∃ c, c ≠ .root ∧ p.components = q.components ++ [c] := by
  by_cases hb : p.body = []
  · rw [parent?, if_neg (not_not.mpr hb)] at h
    split at h
    · next ha =>
      obtain rfl := Option.some.inj h
      refine ⟨.current, by simp, ?_⟩
      rcases anchor_cases p with ⟨ha', -⟩ | ⟨-, l, hl⟩ | ⟨ha', -⟩
      · exact absurd (ha'.symm.trans ha) (by decide)
      · rw [components_eq p, ← spelled_body p, hb, hl]
        simp only [leading, if_true]
        rfl
      · exact absurd (ha'.symm.trans ha) (by decide)
    · cases h
  · obtain ⟨r, s, hr, hs⟩ := trim_eq_concat hb
    refine ⟨Component.ofPiece s, ?_, ?_⟩
    · unfold Component.ofPiece
      split <;> simp
    · rw [components_of_body_concat hr h, components_eq, ← spelled_body, body, hr, spelled_append,
        spelled_trim, spelled_singleton hs, List.append_assoc]

theorem intercalate_isPrefix {l l' : List Bytes} (h : l <+: l') :
    [slash].intercalate l <+: [slash].intercalate l' := by
  obtain ⟨r, rfl⟩ := h
  induction l with
  | nil => exact List.nil_prefix
  | cons s l ih =>
    cases l with
    | nil =>
      cases r with
      | nil => exact List.prefix_rfl
      | cons t r =>
        rw [List.singleton_append, List.intercalate_cons_cons, List.intercalate_singleton,
          List.append_assoc]
        exact List.prefix_append s _
    | cons t l =>
      rw [List.cons_append, List.cons_append, List.intercalate_cons_cons,
        List.intercalate_cons_cons]
      exact (List.prefix_append_right_inj _).mpr ih

/-- The parent of an absolute path is a beginning of it. It ends with a piece that names something,
or is the root. -/
theorem parent?_of_isAbsolute (ha : p.isAbsolute = true) (hb : p.body ≠ []) :
    ∃ l, p.parent? = some ⟨slash :: [slash].intercalate l⟩ ∧
      slash :: [slash].intercalate l <+: p.bytes ∧ (∀ s ∈ l, slash ∉ s) ∧
      (l = [] ∨ ∃ r s, l = r ++ [s] ∧ ¬ Skipped s) := by
  obtain ⟨t, r, hp⟩ := isAbsolute_iff.mp ha
  have hanchor : p.anchor = [slash] := by rw [anchor, hp]
  have hbody : p.body <+: t :: r := by
    have h := p.body_isPrefix
    rwa [if_neg (by simp [hanchor]), hp, List.tail_cons] at h
  have hpre : trim p.body.dropLast <+: p.body :=
    (trim_isPrefix _).trans (List.dropLast_prefix _)
  have hbytes : p.bytes = slash :: [slash].intercalate (t :: r) := by
    have h : [slash].intercalate p.pieces = p.bytes := List.intercalate_splitOn slash
    rw [← h, hp, List.intercalate_cons_cons]
    rfl
  refine ⟨trim p.body.dropLast, ?_, ?_, ?_, ?_⟩
  · have hd : ¬ ([slash] = [dot] ∧ trim p.body.dropLast ≠ []) := by
      rintro ⟨hd, -⟩
      exact absurd hd (by decide)
    rw [parent?, if_pos hb, hanchor]
    simp only [if_neg hd, List.singleton_append]
  · rw [hbytes, List.prefix_cons_inj]
    exact intercalate_isPrefix (hpre.trans hbody)
  · intro s hs
    exact slash_not_mem_of_mem_body (hpre.subset hs)
  · by_cases hn : trim p.body.dropLast = []
    · exact .inl hn
    · exact .inr (trim_eq_concat hn)

end StagedInstall.Path
