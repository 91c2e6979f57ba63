import StagedInstall.Proofs.Path.Join
import Mathlib.Data.List.DropRight

/-! # The components of a path

A path's components are its leading component, if it has one, and then its pieces without those
that are skipped (`components_eq`). Joining a name adds one component at the end
(`components_div_name`).
-/

namespace StagedInstall

theorem Name.ofBytes?_bytes (n : Name) : Name.ofBytes? n.bytes = some n :=
  dif_pos ⟨n.ne_nil, n.length_le, n.slash_not_mem, n.nul_not_mem, n.ne_dot, n.ne_dots⟩

theorem Name.eq_of_ofBytes? {b : Bytes} {n : Name} (h : Name.ofBytes? b = some n) :
    b = n.bytes := by
  unfold ofBytes? at h
  split at h
  · cases h; rfl
  · cases h

namespace Path

variable {a b p q : Path}

def spelled (pieces : List Bytes) : List Component :=
  (pieces.filter fun s => !decide (Skipped s)).map Component.ofPiece

/-- The component that is no piece of its own: the root, or a leading `.`. -/
def leading : List Bytes → List Component
  | [] :: _ :: _ => [.root]
  | [b] :: _ => if b = dot then [.current] else []
  | _ => []

theorem leading_cons {s : Bytes} {l l' : List Bytes} (h : l = [] ↔ l' = []) :
    leading (s :: l) = leading (s :: l') := by
  match s, l, l' with
  | [], [], [] | [], _ :: _, _ :: _ | [_], _, _ => rfl
  | [], [], _ :: _ => exact absurd (h.mp rfl) (List.cons_ne_nil _ _)
  | [], _ :: _, [] => exact absurd (h.mpr rfl) (List.cons_ne_nil _ _)
  | _ :: _ :: _, [], [] | _ :: _ :: _, [], _ :: _ => rfl
  | _ :: _ :: _, _ :: _, [] | _ :: _ :: _, _ :: _, _ :: _ => rfl

theorem leading_append {l : List Bytes} (h : l ≠ []) (hl : l ≠ [[]]) (r : List Bytes) :
    leading (l ++ r) = leading l := by
  match l with
  | [] => exact absurd rfl h
  | [[]] => exact absurd rfl hl
  | [[_]] => rfl
  | [_ :: _ :: _] => cases r <;> rfl
  | s :: t :: l => exact leading_cons (by simp)

theorem leading_cases (pieces : List Bytes) :
    leading pieces = [] ∨ leading pieces = [.root] ∨ leading pieces = [.current] := by
  unfold leading
  split
  · exact .inr (.inl rfl)
  · split
    · exact .inr (.inr rfl)
    · exact .inl rfl
  · exact .inl rfl

theorem spelled_append (l r : List Bytes) : spelled (l ++ r) = spelled l ++ spelled r := by
  simp [spelled]

theorem spelled_cons_of_skipped {s : Bytes} (h : Skipped s) (l : List Bytes) :
    spelled (s :: l) = spelled l := by
  simp [spelled, h]

theorem spelled_cons {s : Bytes} (h : ¬ Skipped s) (l : List Bytes) :
    spelled (s :: l) = Component.ofPiece s :: spelled l := by
  simp [spelled, h]

theorem spelled_singleton {s : Bytes} (h : ¬ Skipped s) :
    spelled [s] = [Component.ofPiece s] :=
  spelled_cons h []

theorem trim_concat_of_skipped {s : Bytes} (h : Skipped s) (l : List Bytes) :
    trim (l ++ [s]) = trim l :=
  List.rdropWhile_concat_pos _ _ _ (decide_eq_true h)

theorem trim_concat {s : Bytes} (h : ¬ Skipped s) (l : List Bytes) : trim (l ++ [s]) = l ++ [s] :=
  List.rdropWhile_concat_neg _ _ _ (by simpa using h)

theorem trim_isPrefix (l : List Bytes) : trim l <+: l := List.rdropWhile_prefix _ _

theorem spelled_trim (l : List Bytes) : spelled (trim l) = spelled l := by
  induction l using List.reverseRecOn with
  | nil => rfl
  | append_singleton l s ih =>
    by_cases hs : Skipped s
    · rw [trim_concat_of_skipped hs, ih, spelled_append, spelled_cons_of_skipped hs]
      simp [spelled]
    · rw [trim_concat hs]

theorem trim_eq_concat {l : List Bytes} (h : trim l ≠ []) :
    ∃ r s, trim l = r ++ [s] ∧ ¬ Skipped s := by
  induction l using List.reverseRecOn with
  | nil => exact absurd rfl h
  | append_singleton l s ih =>
    by_cases hs : Skipped s
    · rw [trim_concat_of_skipped hs] at h ⊢
      exact ih h
    · exact ⟨l, s, trim_concat hs l, hs⟩

theorem pieces_ne_nil (p : Path) : p.pieces ≠ [] := List.splitOn_ne_nil slash p.bytes

theorem slash_not_mem_of_mem_pieces {s : Bytes} (h : s ∈ p.pieces) : slash ∉ s := by
  unfold pieces at h
  generalize p.bytes = b at h
  induction b generalizing s with
  | nil =>
    rw [List.splitOn_nil, List.mem_singleton] at h
    exact h ▸ List.not_mem_nil
  | cons c r ih =>
    rw [List.splitOn_cons_eq_if_modifyHead] at h
    split at h
    · next hc =>
      rcases List.mem_cons.mp h with rfl | h
      · exact List.not_mem_nil
      · exact ih h
    · next hc =>
      obtain ⟨t, l, hl⟩ := List.exists_cons_of_ne_nil (List.splitOn_ne_nil slash r)
      rw [hl, List.modifyHead_cons] at h
      rcases List.mem_cons.mp h with rfl | h
      · rw [List.mem_cons, not_or]
        exact ⟨fun he => hc (by simp [he]), ih (hl ▸ List.mem_cons_self)⟩
      · exact ih (hl ▸ List.mem_cons_of_mem t h)

/-- The anchor takes the first piece, which is skipped, or nothing. -/
theorem anchor_cases (p : Path) :
    (p.anchor = [slash] ∧ ∃ s l, p.pieces = [] :: s :: l) ∨
    (p.anchor = [dot] ∧ ∃ l, p.pieces = [dot] :: l) ∨
    (p.anchor = [] ∧ leading p.pieces = [] ∧ (p.pieces.head? = some [] → p.pieces = [[]])) := by
  unfold anchor leading
  rcases hp : p.pieces with _ | ⟨_ | ⟨b, _ | ⟨c, t⟩⟩, _ | ⟨s, l⟩⟩ <;> simp
  all_goals by_cases hb : b = dot <;> simp [hb]

theorem spelled_body (p : Path) : spelled p.body = spelled p.pieces := by
  unfold body
  rw [spelled_trim]
  rcases anchor_cases p with ⟨ha, s, l, hp⟩ | ⟨ha, l, hp⟩ | ⟨ha, -⟩
  · rw [if_neg (by simp [ha]), hp, List.tail_cons, spelled_cons_of_skipped (.inl rfl)]
  · rw [if_neg (by simp [ha]), hp, List.tail_cons, spelled_cons_of_skipped (.inr rfl)]
  · rw [if_pos ha]

theorem components_eq (p : Path) : p.components = leading p.pieces ++ spelled p.pieces := by
  change _ ++ spelled p.body = _
  rw [spelled_body]
  congr 1
  rcases anchor_cases p with ⟨ha, s, l, hp⟩ | ⟨ha, l, hp⟩ | ⟨ha, hl, -⟩
  · rw [if_pos ha, hp]
    rfl
  · rw [if_neg (by rw [ha]; decide), if_pos ha, hp]
    simp [leading]
  · rw [if_neg (by simp [ha]), if_neg (by simp [ha]), hl]

theorem isAbsolute_iff : p.isAbsolute = true ↔ ∃ s l, p.pieces = [] :: s :: l := by
  unfold isAbsolute pieces
  rcases p.bytes with _ | ⟨c, r⟩
  · simp
  · rw [List.splitOn_cons_eq_if_modifyHead]
    obtain ⟨t, l, hl⟩ := List.exists_cons_of_ne_nil (List.splitOn_ne_nil slash r)
    rw [hl]
    by_cases hc : c = slash <;> simp [hc]

theorem spelled_cases {c : Component} {pieces : List Bytes} (h : c ∈ spelled pieces) :
    c = .parent ∨ ∃ b, c = .normal b := by
  obtain ⟨s, -, rfl⟩ := List.mem_map.mp h
  unfold Component.ofPiece
  split
  · exact .inl rfl
  · exact .inr ⟨s, rfl⟩

theorem body_isPrefix (p : Path) :
    p.body <+: if p.anchor = [] then p.pieces else p.pieces.tail := trim_isPrefix _

theorem slash_not_mem_of_mem_body {s : Bytes} (h : s ∈ p.body) : slash ∉ s := by
  have h := p.body_isPrefix.subset h
  split at h
  · exact slash_not_mem_of_mem_pieces h
  · exact slash_not_mem_of_mem_pieces (List.mem_of_mem_tail h)

theorem pieces_intercalate {l : List Bytes} (h : ∀ s ∈ l, slash ∉ s) :
    List.splitOn slash ([slash].intercalate l) = if l = [] then [[]] else l := by
  split
  · next hl => subst hl; rfl
  · next hl => exact List.splitOn_intercalate slash h hl

/-- The pieces of a joined path: those before the slash that joins them, and then those of the
second path. -/
theorem pieces_div (h : b.isAbsolute = false) (ha : a.bytes ≠ []) :
    ∃ x, (a.bytes = x ∨ a.bytes = x ++ [slash]) ∧
      (a / b).pieces = List.splitOn slash x ++ b.pieces := by
  obtain ⟨x, hx, hax⟩ := exists_opened ha
  refine ⟨x, hax, ?_⟩
  unfold pieces
  rw [bytes_div a h, hx, List.append_assoc, List.singleton_append, List.splitOn_append_cons_self]

theorem components_div (h : b.isAbsolute = false) (ha : a.bytes ≠ []) :
    (a / b).components = a.components ++ spelled b.pieces := by
  obtain ⟨x, hax, hp⟩ := pieces_div h ha
  have hne : List.splitOn slash x ≠ [] := List.splitOn_ne_nil slash x
  rw [components_eq, components_eq, hp, spelled_append, ← List.append_assoc]
  congr 1
  rcases hax with hax | hax
  · -- the path stands before the slash as it is
    have hpa : a.pieces = List.splitOn slash x := congrArg (List.splitOn slash) hax
    have hx : List.splitOn slash x ≠ [[]] := by
      intro hs
      have hx : [slash].intercalate (List.splitOn slash x) = x := List.intercalate_splitOn slash
      rw [hs, List.intercalate_singleton] at hx
      exact ha (hax.trans hx.symm)
    rw [hpa, leading_append hne hx]
  · -- the path ends with the slash, so its last piece is empty
    have hpa : a.pieces = List.splitOn slash x ++ [[]] := by
      unfold pieces
      rw [hax, List.splitOn_append_cons_self, List.splitOn_nil]
    rw [hpa, spelled_append, spelled_cons_of_skipped (.inl rfl)]
    obtain ⟨s, l, hl⟩ := List.exists_cons_of_ne_nil hne
    have hlead : leading (s :: (l ++ b.pieces)) = leading (s :: (l ++ [[]])) :=
      leading_cons (by simp [pieces_ne_nil b])
    rw [hl, List.cons_append, List.cons_append, hlead]
    simp [spelled]

/-- The path is a name: it has one piece, which stands for neither of the directories `.` and
`..`. -/
structure IsName (p : Path) : Prop where
  slash_not_mem : slash ∉ p.bytes
  not_skipped : ¬ Skipped p.bytes
  ne_dots : p.bytes ≠ [dot, dot]

namespace IsName

variable (h : p.IsName)
include h

theorem isAbsolute_eq : p.isAbsolute = false := by
  rw [isAbsolute, decide_eq_false_iff_not]
  exact fun hs => h.slash_not_mem (List.mem_of_head? hs)

theorem pieces_eq : p.pieces = [p.bytes] := List.splitOn_eq_singleton h.slash_not_mem

theorem spelled_pieces : spelled p.pieces = [.normal p.bytes] := by
  rw [h.pieces_eq, spelled_singleton h.not_skipped, Component.ofPiece, if_neg h.ne_dots]

theorem components_div (a : Path) : (a / p).components = a.components ++ [.normal p.bytes] := by
  by_cases ha : a.bytes = []
  · obtain rfl : a = ∅ := ext ha
    rw [empty_div, components_eq, h.spelled_pieces, h.pieces_eq]
    have hd : leading [p.bytes] = [] := by
      rcases hb : p.bytes with _ | ⟨b, _ | ⟨c, t⟩⟩ <;> simp [leading]
      rintro rfl
      exact h.not_skipped (.inr hb)
    rw [hd]
    rfl
  · rw [Path.components_div h.isAbsolute_eq ha, h.spelled_pieces]

end IsName

theorem isName_toPath (n : Name) : n.toPath.IsName :=
  ⟨n.slash_not_mem, not_or.mpr ⟨n.ne_nil, n.ne_dot⟩, n.ne_dots⟩

theorem pieces_toPath (n : Name) : n.toPath.pieces = [n.bytes] := (isName_toPath n).pieces_eq

theorem components_div_name (a : Path) (n : Name) :
    (a / n.toPath).components = a.components ++ [.normal n.bytes] :=
  (isName_toPath n).components_div a

theorem components_below (p : Path) (ns : List Name) :
    (p.below ns).components = p.components ++ ns.map fun n => .normal n.bytes := by
  induction ns generalizing p with
  | nil => rw [below_nil, List.map_nil, List.append_nil]
  | cons n ns ih => rw [below_cons, ih, components_div_name, List.append_assoc]; rfl

theorem map_normal_injective :
    Function.Injective (List.map fun n : Name => Component.normal n.bytes) :=
  List.map_injective_iff.mpr fun _ _ h => Name.ext (Component.normal.inj h)

/-- Different names below a path never spell the same path. -/
theorem below_injective {ns ms : List Name} (h : (p.below ns).Same (p.below ms)) : ns = ms := by
  unfold Same at h
  rw [components_below, components_below] at h
  exact map_normal_injective (List.append_cancel_left h)

theorem fileName?_eq (p : Path) : p.fileName? = match p.components.getLast? with
    | some (.normal b) => some ⟨b⟩
    | _ => none := by
  by_cases hb : p.body = []
  · have hc : p.components =
        if p.anchor = [slash] then [.root] else if p.anchor = [dot] then [.current] else [] := by
      rw [components, hb]
      exact List.append_nil _
    rw [fileName?, hb, hc]
    split_ifs <;> rfl
  · obtain ⟨r, s, hr, hs⟩ := trim_eq_concat hb
    have hc : p.components = (if p.anchor = [slash] then [.root]
        else if p.anchor = [dot] then [.current] else []) ++ spelled r ++ [Component.ofPiece s] := by
      change _ ++ spelled p.body = _
      rw [body, hr, spelled_append, spelled_singleton hs, List.append_assoc]
    rw [fileName?, body, hr, hc, List.getLast?_concat, List.getLast?_concat]
    unfold Component.ofPiece
    dsimp only
    split_ifs <;> rfl

theorem mem_components_of_fileName? (h : p.fileName? = some b) :
    .normal b.bytes ∈ p.components := by
  rw [fileName?_eq] at h
  split at h
  · next hl =>
    cases h
    exact List.mem_of_getLast? hl
  · cases h

theorem mem_pieces_of_normal {s : Bytes} (h : .normal s ∈ p.components) :
    s ∈ p.pieces ∧ ¬ Skipped s ∧ s ≠ [dot, dot] := by
  rw [components_eq, List.mem_append] at h
  rcases h with h | h
  · rcases leading_cases p.pieces with hl | hl | hl <;> rw [hl] at h <;> simp at h
  · obtain ⟨t, ht, he⟩ := List.mem_map.mp h
    obtain ⟨hm, hs⟩ := List.mem_filter.mp ht
    unfold Component.ofPiece at he
    split at he
    · cases he
    next hd =>
    cases he
    exact ⟨hm, by simpa using hs, hd⟩

theorem IsName.fileName?_div (h : p.IsName) (a : Path) : (a / p).fileName? = some p := by
  rw [fileName?_eq, h.components_div, List.getLast?_concat]

theorem fileName?_div_name (a : Path) (n : Name) : (a / n.toPath).fileName? = some n.toPath :=
  (isName_toPath n).fileName?_div a

theorem isName_of_fileName? (h : p.fileName? = some b) : b.IsName := by
  obtain ⟨hm, hs, hd⟩ := mem_pieces_of_normal (mem_components_of_fileName? h)
  exact ⟨slash_not_mem_of_mem_pieces hm, hs, hd⟩

theorem fileName?_fileName? (h : p.fileName? = some b) :
    b.fileName? = some b ∧ b.isAbsolute = false := by
  have hb := isName_of_fileName? h
  refine ⟨?_, hb.isAbsolute_eq⟩
  have hf := hb.fileName?_div ∅
  rwa [empty_div] at hf

theorem fileName?_div (a : Path) (h : b.isAbsolute = false) (hn : b.fileName? ≠ none) :
    (a / b).fileName? = b.fileName? := by
  by_cases ha : a.bytes = []
  · rw [div_of_bytes_eq_nil ha h]
  · have hs : spelled b.pieces ≠ [] := by
      intro hs
      rw [fileName?_eq, components_eq, hs, List.append_nil] at hn
      rcases leading_cases b.pieces with hl | hl | hl <;> rw [hl] at hn <;> exact hn rfl
    rw [fileName?_eq, fileName?_eq, components_div h ha, components_eq b, List.getLast?_append,
      List.getLast?_append, List.getLast?_eq_some_getLast hs, Option.some_or, Option.some_or]

theorem fileName?_of_same (h : p.Same q) : p.fileName? = q.fileName? := by
  rw [fileName?_eq, fileName?_eq, h]

end Path

end StagedInstall
