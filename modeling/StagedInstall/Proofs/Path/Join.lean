import StagedInstall.FileSystem.Entry

/-! # Joining paths

A relative path is joined by writing it behind the other one, with a slash between them where
none stands. Joining is associative byte by byte (`div_assoc`), so a directory that is descended
into step by step and one that is named at once are the same path.
-/

namespace StagedInstall.Path

variable {a b p : Path}

theorem ext (h : a.bytes = b.bytes) : a = b := by
  cases a
  cases b
  exact congrArg mk h

/-- The path as the beginning of a longer one: with a slash at its end, unless it is empty. -/
def opened (p : Path) : Bytes :=
  if p.bytes = [] ∨ p.bytes.getLast? = some slash then p.bytes else p.bytes ++ [slash]

theorem div_of_isAbsolute (a : Path) (h : b.isAbsolute = true) : a / b = b := if_pos h

theorem bytes_div (a : Path) (h : b.isAbsolute = false) :
    (a / b).bytes = a.opened ++ b.bytes := by
  change (join a b).bytes = _
  unfold join opened
  rw [if_neg (by simp [h])]
  split
  · rfl
  · simp

theorem opened_of_bytes_eq_nil (h : p.bytes = []) : p.opened = [] := by
  simp [opened, h]

theorem div_of_bytes_eq_nil (ha : a.bytes = []) (h : b.isAbsolute = false) : a / b = b := by
  apply ext
  rw [bytes_div a h, opened_of_bytes_eq_nil ha, List.nil_append]

theorem empty_div (p : Path) : ∅ / p = p := by
  by_cases h : p.isAbsolute = true
  · exact div_of_isAbsolute ∅ h
  · exact div_of_bytes_eq_nil rfl (by simpa using h)

theorem opened_of_slash (h : p.bytes.getLast? = some slash) : p.opened = p.bytes :=
  if_pos (.inr h)

theorem opened_of_not_slash (h : p.bytes ≠ []) (hs : p.bytes.getLast? ≠ some slash) :
    p.opened = p.bytes ++ [slash] :=
  if_neg (not_or.mpr ⟨h, hs⟩)

theorem exists_opened (h : p.bytes ≠ []) :
    ∃ x, p.opened = x ++ [slash] ∧ (p.bytes = x ∨ p.bytes = x ++ [slash]) := by
  by_cases hs : p.bytes.getLast? = some slash
  · obtain ⟨x, hx⟩ := List.getLast?_eq_some_iff.mp hs
    exact ⟨x, (opened_of_slash hs).trans hx, .inr hx⟩
  · exact ⟨p.bytes, opened_of_not_slash h hs, .inl rfl⟩

theorem opened_div (a : Path) (h : b.isAbsolute = false) :
    (a / b).opened = a.opened ++ b.opened := by
  by_cases hb : b.bytes = []
  · have hd : (a / b).bytes = a.opened := by rw [bytes_div a h, hb, List.append_nil]
    rw [opened_of_bytes_eq_nil hb, List.append_nil]
    by_cases ha : a.bytes = []
    · rw [opened_of_bytes_eq_nil ha] at hd ⊢
      exact opened_of_bytes_eq_nil hd
    · obtain ⟨x, hx, -⟩ := exists_opened ha
      have hs : (a / b).bytes.getLast? = some slash := by rw [hd, hx, List.getLast?_concat]
      rw [opened_of_slash hs, hd]
  · have hl : (a / b).bytes.getLast? = b.bytes.getLast? := by
      rw [bytes_div a h, List.getLast?_append, List.getLast?_eq_some_getLast hb, Option.some_or]
    have hn : (a / b).bytes ≠ [] := by
      rw [bytes_div a h]
      intro he
      exact hb (List.append_eq_nil_iff.mp he).2
    by_cases hs : b.bytes.getLast? = some slash
    · rw [opened_of_slash (hl.trans hs), opened_of_slash hs, bytes_div a h]
    · rw [opened_of_not_slash hn (hl ▸ hs), opened_of_not_slash hb hs, bytes_div a h,
        List.append_assoc]

theorem isAbsolute_div (a : Path) (h : b.isAbsolute = false) :
    (a / b).isAbsolute = a.isAbsolute := by
  unfold isAbsolute at *
  rw [bytes_div a (by simpa [isAbsolute] using h)]
  by_cases ha : a.bytes = []
  · simpa [opened_of_bytes_eq_nil ha, ha] using h
  · obtain ⟨c, r, hc⟩ := List.exists_cons_of_ne_nil ha
    unfold opened
    split <;> simp [hc]

theorem isAbsolute_div_eq (a b : Path) :
    (a / b).isAbsolute = (a.isAbsolute || b.isAbsolute) := by
  cases hb : b.isAbsolute with
  | false => rw [isAbsolute_div a hb, Bool.or_false]
  | true => rw [div_of_isAbsolute a hb, hb, Bool.or_true]

theorem div_assoc (a b c : Path) : a / b / c = a / (b / c) := by
  by_cases hc : c.isAbsolute = true
  · rw [div_of_isAbsolute _ hc, div_of_isAbsolute b hc, div_of_isAbsolute a hc]
  rw [Bool.not_eq_true] at hc
  by_cases hb : b.isAbsolute = true
  · have hbc : (b / c).isAbsolute = true := by rw [isAbsolute_div b hc, hb]
    rw [div_of_isAbsolute a hb, div_of_isAbsolute a hbc]
  rw [Bool.not_eq_true] at hb
  have hbc : (b / c).isAbsolute = false := by rw [isAbsolute_div b hc, hb]
  apply ext
  rw [bytes_div _ hc, opened_div a hb, bytes_div a hbc, bytes_div b hc, List.append_assoc]

theorem isAbsolute_toPath (n : Name) : n.toPath.isAbsolute = false := by
  unfold isAbsolute Name.toPath
  rw [decide_eq_false_iff_not]
  intro h
  exact n.slash_not_mem (List.mem_of_head? h)

theorem div_name_inj {m n : Name} (h : a / m.toPath = a / n.toPath) : m = n := by
  have hb := congrArg bytes h
  rw [bytes_div a (isAbsolute_toPath m), bytes_div a (isAbsolute_toPath n)] at hb
  exact Name.ext (List.append_cancel_left hb)

theorem div_div_name_ne {r : Path} {m n : Name} (hr : r.isAbsolute = false) (hn : r.bytes ≠ []) :
    a / r / m.toPath ≠ a / n.toPath := by
  intro h
  have hb := congrArg bytes h
  rw [bytes_div _ (isAbsolute_toPath m), bytes_div a (isAbsolute_toPath n), opened_div a hr,
    List.append_assoc] at hb
  have hb : r.opened ++ m.bytes = n.bytes := List.append_cancel_left hb
  obtain ⟨x, hx, -⟩ := exists_opened hn
  refine n.slash_not_mem ?_
  rw [← hb, hx]
  simp

/-- The path below `p` that the names lead to, one after the other. -/
def below (p : Path) (ns : List Name) : Path := ns.foldl (fun q n => q / n.toPath) p

theorem below_nil (p : Path) : p.below [] = p := rfl

theorem below_cons (p : Path) (n : Name) (ns : List Name) :
    p.below (n :: ns) = (p / n.toPath).below ns := rfl

theorem below_concat (p : Path) (ns : List Name) (n : Name) :
    p.below (ns ++ [n]) = p.below ns / n.toPath :=
  List.foldl_append ..

theorem div_below (a p : Path) (ns : List Name) : a / p.below ns = (a / p).below ns := by
  induction ns generalizing p with
  | nil => rfl
  | cons n ns ih => rw [below_cons, ih, below_cons, div_assoc]

theorem bytes_prefix_below (p : Path) (ns : List Name) : p.bytes <+: (p.below ns).bytes := by
  induction ns generalizing p with
  | nil => exact List.prefix_rfl
  | cons n ns ih =>
    refine List.IsPrefix.trans ?_ (ih (p / n.toPath))
    rw [bytes_div p (isAbsolute_toPath n), opened]
    split
    · exact List.prefix_append p.bytes _
    · rw [List.append_assoc]
      exact List.prefix_append p.bytes _

end StagedInstall.Path
