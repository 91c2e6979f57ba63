import StagedInstall.Outcome
import StagedInstall.Proofs.FileSystem.Access

/-! # Making directories

In a tree without links the directories above a file can be made when those that exist may be
searched, and names may be added to the last of them (`makeParents_filled`). It is then filled with
new directories down to the one that the file stands in.
-/

namespace StagedInstall

namespace Path

variable {p q : Path} {cwd d l : Location} {n : Name}

/-- An absolute path without `..` that spells out `l`, and that the system takes. -/
structure Spells (p : Path) (l : Location) : Prop where
  absolute : p.isAbsolute = true
  noParent : .parent ∉ p.components
  components : p.components = .root :: l.reverse.map fun n => .normal n.bytes
  accepted : FileSystem.refusal? p = none

def Named (p : Path) : Prop := ∃ s n, p.steps = s ++ [Step.name n]

theorem foldlM_names (ns : List Name) (l : Location) :
    (ns.map fun n => Component.normal n.bytes).foldlM Component.move l =
      some (ns.reverse ++ l) := by
  induction ns generalizing l with
  | nil => rfl
  | cons n ns ih =>
    rw [List.map_cons, List.foldlM_cons, Component.move, Name.ofBytes?_bytes, List.reverse_cons,
      List.append_assoc]
    exact ih (n :: l)

theorem Spells.location? (h : p.Spells l) (cwd : Location) : p.location? cwd = some l := by
  rw [Path.location?, h.components, List.foldlM_cons, Component.move]
  exact (foldlM_names l.reverse []).trans (by simp)

theorem spells_of_location? (ha : p.isAbsolute = true) (hp : .parent ∉ p.components)
    (hr : FileSystem.refusal? p = none) (hl : p.location? cwd = some l) : p.Spells l :=
  ⟨ha, hp, components_of_location? ha hp hl, hr⟩

theorem refusal?_eq_none_iff : FileSystem.refusal? p = none ↔
    0 ∉ p.bytes ∧ p.bytes ≠ [] ∧ p.bytes.length < FileSystem.maxPath := by
  unfold FileSystem.refusal?
  split
  · next h => simp [h]
  · split
    · next h => simp [h]
    · split
      · next h => simp [Nat.not_lt.mpr h]
      · next h h' h'' => simp [h, h', Nat.lt_of_not_le h'']

theorem length_le_intercalate (l : List Bytes) :
    l.length ≤ ([slash].intercalate l).length + 1 := by
  induction l with
  | nil => simp
  | cons s l ih =>
    cases l with
    | nil => simp
    | cons t l =>
      rw [List.intercalate_cons_cons, List.length_append, List.length_append, List.length_cons]
      simp only [List.length_singleton]
      omega

theorem Spells.length_le (h : p.Spells l) : l.length ≤ p.bytes.length := by
  obtain ⟨s, r, hp⟩ := isAbsolute_iff.mp h.absolute
  have hc := h.components
  rw [components_eq, hp, spelled_cons_of_skipped (.inl rfl)] at hc
  have hnames : spelled (s :: r) = l.reverse.map fun n => .normal n.bytes := (List.cons.inj hc).2
  have hlen := congrArg List.length hnames
  have hs : (spelled (s :: r)).length ≤ (s :: r).length := by
    rw [spelled, List.length_map]
    exact List.length_filter_le ..
  have hb : [slash].intercalate p.pieces = p.bytes := List.intercalate_splitOn slash
  have hle := length_le_intercalate p.pieces
  rw [hb, hp, List.length_cons] at hle
  simp only [List.length_map, List.length_reverse] at hlen
  omega

theorem Spells.overlong_not_mem (h : p.Spells l) : .overlong ∉ p.steps := by
  intro hm
  obtain ⟨s, t, ht⟩ := List.append_of_mem hm
  have hl := (foldlM_steps p []).trans (h.location? [])
  rw [ht, List.foldlM_append, Option.bind_eq_bind, Option.bind_eq_some_iff] at hl
  obtain ⟨k, -, hk⟩ := hl
  cases hk

theorem Spells.ne_empty (h : p.Spells l) : p ≠ ∅ := by
  rintro rfl
  cases h.absolute

theorem spells_root : root.Spells [] := ⟨rfl, by decide, rfl, rfl⟩

theorem Spells.named (h : p.Spells l) {r : List Bytes} {s : Bytes} (hs : ∀ t ∈ r ++ [s], slash ∉ t)
    (hsk : ¬ Skipped s) (hb : p.bytes = slash :: [slash].intercalate (r ++ [s])) : p.Named := by
  have hpieces : p.pieces = [] :: (r ++ [s]) := by
    rw [pieces_of_root hs hb, if_neg (by simp)]
  have hslash : p.bytes.getLast? ≠ some slash := by
    intro hl
    obtain ⟨b, hb⟩ := List.getLast?_eq_some_iff.mp hl
    have hp : p.pieces = List.splitOn slash b ++ [[]] := by
      rw [pieces, hb, List.splitOn_append_cons_self, List.splitOn_nil]
    rw [hpieces, ← List.cons_append] at hp
    exact hsk (.inl (List.singleton_inj.mp (List.append_inj_right' hp rfl)))
  have hsteps : p.steps = (r.filter (· ≠ [])).map Step.ofPiece ++ [Step.ofPiece s] := by
    have hn : s ≠ [] := fun hn => hsk (.inl hn)
    rw [steps, if_neg hslash, hpieces]
    simp [hn]
  have hmem : Step.ofPiece s ∈ p.steps := by simp [hsteps]
  have hup := up_not_mem_steps h.noParent
  have hlong := h.overlong_not_mem
  cases ha : Step.ofPiece s with
  | name n => exact ⟨_, n, by rw [hsteps, ha]⟩
  | up => exact absurd (ha ▸ hmem) hup
  | overlong => exact absurd (ha ▸ hmem) hlong
  | stay | slash =>
    rw [ofPiece_of_not_skipped hsk] at ha
    have hm : (Component.ofPiece s).step.moves = true := by
      apply moves_step <;> unfold Component.ofPiece <;> split <;> simp
    rw [ha] at hm
    cases hm

/-- The parent of a path to `n` in `d` is a path to `d`, and but for the root it ends with a
name. -/
theorem Spells.parent? (h : p.Spells (n :: d)) :
    ∃ q, p.parent? = some q ∧ q.Spells d ∧ (q = root ∧ d = [] ∨ q.Named) := by
  have hb : p.body ≠ [] := by
    intro hb
    have hc := h.components
    rw [components_eq, ← spelled_body, hb] at hc
    have hlen := congrArg List.length hc
    rcases leading_cases p.pieces with hl | hl | hl <;> simp [hl, spelled] at hlen
  obtain ⟨ps, hq, hpre, hs, hend⟩ := parent?_of_isAbsolute h.absolute hb
  obtain ⟨q, hqd⟩ : ∃ q : Path, q = ⟨slash :: [slash].intercalate ps⟩ := ⟨_, rfl⟩
  have hqb : q.bytes = slash :: [slash].intercalate ps := by rw [hqd]
  rw [← hqd] at hq
  rw [← hqb] at hpre
  have hcomp : q.components = .root :: d.reverse.map fun n => .normal n.bytes := by
    obtain ⟨c, -, hpc⟩ := components_parent? hq
    rw [h.components, List.reverse_cons, List.map_append, List.map_singleton,
      ← List.cons_append] at hpc
    exact (List.append_inj_left' hpc rfl).symm
  have haccept : FileSystem.refusal? q = none := by
    obtain ⟨h0, -, hlen⟩ := refusal?_eq_none_iff.mp h.accepted
    refine refusal?_eq_none_iff.mpr ⟨fun hm => h0 (hpre.subset hm), by simp [hqb], ?_⟩
    exact hpre.length_le.trans_lt hlen
  have hspells : q.Spells d := by
    refine ⟨?_, by simp [hcomp], hcomp, haccept⟩
    rw [isAbsolute, hqb]
    simp
  refine ⟨q, hq, hspells, ?_⟩
  rcases hend with rfl | ⟨r, s, rfl, hsk⟩
  · have hroot : q = root := ext hqb
    rw [hroot, spells_root.components] at hcomp
    have hd := (List.cons.inj hcomp).2
    exact .inl ⟨hroot, by simpa using hd.symm⟩
  · exact .inr (hspells.named hs hsk hqb)

theorem Spells.exists_steps (h : p.Spells l) (hn : p.Named) :
    ∃ s n d, p.steps = s ++ [.name n] ∧ .up ∉ s ∧ s.foldlM Step.move [] = some d ∧ l = n :: d := by
  obtain ⟨s, n, hs⟩ := hn
  have hup := up_not_mem_steps h.noParent
  have hl := (foldlM_steps p []).trans (h.location? [])
  rw [FileSystem.start, if_pos h.absolute, hs, List.foldlM_append, Option.bind_eq_bind,
    Option.bind_eq_some_iff] at hl
  obtain ⟨d, hd, hl⟩ := hl
  cases hl
  rw [hs] at hup
  exact ⟨s, n, d, hs, fun hm => hup (List.mem_append_left _ hm), hd, rfl⟩

end Path

namespace FileSystem

variable {fs fs' fs₁ : FileSystem} {p q : Path} {d l x : Location} {m n : Name} {s : List Step}

theorem Passable.of_append {t : List Step} (h : fs.Passable l (s ++ t)) : fs.Passable l s := by
  induction s generalizing l with
  | nil => trivial
  | cons a s ih => exact ⟨h.1, h.2.1, fun k hk => ih (h.2.2 k hk)⟩

theorem named_of_passable (hp : p.Spells l) (h : fs.Passable [] p.steps)
    (hd : ¬ fs.IsDirectory l) : p.Named ∧ ∀ n y, n :: y <:+ l → fs.Searchable y := by
  have hl := (Path.foldlM_steps p []).trans (hp.location? [])
  rw [start, if_pos hp.absolute] at hl
  have hup := Path.up_not_mem_steps hp.noParent
  rcases p.steps.eq_nil_or_concat with hs | ⟨s, a, hs⟩
  · rw [hs] at hl
    cases hl
    exact absurd fs.isDirectory_root hd
  rw [List.concat_eq_append] at hs
  rw [hs] at h hup hl
  rw [List.foldlM_append, Option.bind_eq_bind, Option.bind_eq_some_iff] at hl
  obtain ⟨d, hsd, had⟩ := hl
  have hdir := h.isDirectory_of_concat hsd
  cases a with
  | stay | slash =>
    cases had
    exact absurd hdir hd
  | up => simp at hup
  | overlong => cases had
  | name n =>
    cases had
    refine ⟨⟨s, n, hs⟩, ?_⟩
    intro m y hy
    have hup' : .up ∉ s := fun hm => hup (List.mem_append_left _ hm)
    refine (passable_concat_iff hup' hsd n).mp h y (List.nil_suffix) ?_
    exact List.suffix_of_suffix_length_le ((List.suffix_cons m y).trans hy) (List.suffix_cons n d)
      (Nat.le_of_succ_le_succ hy.length_le)

theorem exists_cons_suffix (h : x <:+ l) (hx : x ≠ l) : ∃ m, m :: x <:+ l := by
  obtain ⟨t, rfl⟩ := h
  rcases t.eq_nil_or_concat with rfl | ⟨t, m, rfl⟩
  · exact absurd rfl hx
  · exact ⟨m, t, by simp⟩

theorem exists_cons_suffix_cons (h : x <:+ d) (n : Name) : ∃ m, m :: x <:+ n :: d := by
  apply exists_cons_suffix (h.trans (List.suffix_cons n d))
  rintro rfl
  exact absurd h.length_le (by simp)

theorem passable_of_searchable (hp : p.Spells l) (hn : p.Named)
    (h : ∀ n y, n :: y <:+ l → fs.Searchable y) : fs.Passable [] p.steps := by
  obtain ⟨s, n, d, hs, hup, hsd, rfl⟩ := hp.exists_steps hn
  rw [hs]
  refine (passable_concat_iff hup hsd n).mpr fun y _ hy => ?_
  obtain ⟨m, hm⟩ := exists_cons_suffix_cons hy n
  exact h m y hm

theorem filter_slash_of_steps (hs : p.steps = s ++ [.name n]) :
    p.steps.filter (· ≠ .slash) = p.steps := by
  rcases p.steps_eq with h | h
  · exact h.symm
  · rw [hs] at h
    cases List.append_inj_right' h rfl

theorem splitLast_of_steps (hs : p.steps = s ++ [.name n]) :
    splitLast p = (s, .name n false) := by
  have hf := filter_slash_of_steps hs
  have hslash : p.bytes.getLast? ≠ some slash := by
    intro h
    rw [Path.steps, if_pos h] at hs
    cases List.append_inj_right' hs rfl
  unfold splitLast
  rw [hf, hs]
  simp [hslash]

theorem locateEntry_of_searchable (hl : fs.LinkFree) (hp : p.Spells (n :: d)) (hn : p.Named)
    (h : ∀ y, y <:+ d → fs.Searchable y) :
    fs.locateEntry p = .ok (d, .name n false) := by
  obtain ⟨s, n', d', hs, hup, hd, hnd⟩ := hp.exists_steps hn
  obtain ⟨rfl, rfl⟩ := List.cons.inj hnd
  have hpass : fs.Passable [] s :=
    ((passable_concat_iff hup hd n).mpr fun y _ hy => h y hy).of_append
  obtain ⟨hdir, hsearch⟩ := h d List.suffix_rfl
  have hresolve : fs.resolve .existing maxLinks [] s = .ok (.taken d) := by
    refine (stepwise_eq_ok_iff hl (.inl rfl) (.inr get?_root_ne_none)).mpr ⟨hpass, ?_⟩
    rw [hd, Option.map_some, placeAt_of_isDirectory hdir]
  simp only [locateEntry, hp.accepted, splitLast_of_steps hs, start, if_pos hp.absolute,
    hresolve, bind, Except.bind]
  rw [if_neg (not_not.mpr hdir), if_neg (by simp [hsearch])]
  rfl

theorem stepwise_missing (follow : Location → List Step → Except Cause Place) (hl : fs.LinkFree)
    (hup : .up ∉ s) (hs : s.foldlM Step.move l = some d) (hd : fs.get? d = none)
    (hget : fs.get? l ≠ none)
    (h : ∀ y, l <:+ y → y <:+ d → fs.get? y ≠ none → fs.Searchable y) :
    fs.stepwise .existing follow l s = .error .notFound ∨
      ∃ k n, fs.stepwise .existing follow l s = .ok (.free k n) := by
  induction s generalizing l with
  | nil =>
    cases hs
    exact absurd hd hget
  | cons a s ih =>
    have hld := suffix_of_foldlM hup hs
    obtain ⟨hdir, hsearch⟩ := h l List.suffix_rfl hld hget
    rw [List.foldlM_cons, Option.bind_eq_bind, Option.bind_eq_some_iff] at hs
    obtain ⟨l', hl', hs⟩ := hs
    have hup' : .up ∉ s := fun hm => hup (List.mem_cons_of_mem a hm)
    simp only [stepwise, hdir, hsearch]
    cases a with
    | stay | slash =>
      cases hl'
      simpa using ih hup' hs hget h
    | up => exact absurd List.mem_cons_self hup
    | overlong => cases hl'
    | name m =>
      cases hl'
      cases hm : fs.get? (m :: l) with
      | none => by_cases hr : s = [] <;> simp [hr, hm]
      | some e =>
        have hstep := ih hup' hs (by simp [hm]) fun y hy => h y ((List.suffix_cons m l).trans hy)
        cases e with
        | link target => exact absurd hm (hl _ _)
        | file | directory | device => simpa [hm] using hstep

theorem locateEntry_of_missing (hl : fs.LinkFree) (hp : p.Spells (n :: d)) (hn : p.Named)
    (hd : fs.get? d = none) (h : ∀ y, y <:+ d → fs.get? y ≠ none → fs.Searchable y) :
    fs.locateEntry p = .error .notFound := by
  obtain ⟨s, n', d', hs, hup, hsd, hnd⟩ := hp.exists_steps hn
  obtain ⟨rfl, rfl⟩ := List.cons.inj hnd
  simp only [locateEntry, hp.accepted, splitLast_of_steps hs, start, if_pos hp.absolute]
  rcases stepwise_missing (fs.resolve .existing 39) hl hup hsd hd get?_root_ne_none
    fun y _ => h y with h | ⟨k, m, h⟩
  · have hr : fs.resolve .existing maxLinks [] s = .error .notFound := h
    simp only [hr]
    rfl
  · have hr : fs.resolve .existing maxLinks [] s = .ok (.free k m) := h
    simp only [hr]
    rfl

theorem permits_of_newDirectory (h : fs.get? x = some (.directory .newDirectory)) (a : Access) :
    fs.permits a x = true := by
  cases hu : fs.user with
  | superuser => exact permits_superuser hu a x
  | owner => rw [permits_owner hu, h, Option.all_some, Entry.grants, Permissions.grants_newDirectory]

theorem searchable_of_newDirectory (h : fs.get? x = some (.directory .newDirectory)) :
    fs.Searchable x :=
  ⟨⟨_, h⟩, permits_of_newDirectory h .search⟩

theorem permitsChange_of_newDirectory (h : fs.get? x = some (.directory .newDirectory)) :
    fs.permitsChange x = true := by
  rw [permitsChange, permits_of_newDirectory h, permits_of_newDirectory h]
  rfl

/-- What exists above `l` are directories that may be searched, and names may be added to the last
of them. -/
structure Approachable (fs : FileSystem) (l : Location) : Prop where
  search : ∀ n y, n :: y <:+ l → fs.get? y ≠ none → fs.Searchable y
  change : ∀ n y, n :: y <:+ l → fs.get? y ≠ none → fs.get? (n :: y) = none →
    fs.permitsChange y = true

theorem Approachable.of_suffix (h : fs.Approachable l) (hx : x <:+ l) : fs.Approachable x :=
  ⟨fun n y hy => h.search n y (hy.trans hx), fun n y hy => h.change n y (hy.trans hx)⟩

theorem isDirectory_of_suffix (hl : fs.get? l ≠ none) (hx : x <:+ l) (hne : x ≠ l) :
    fs.IsDirectory x := by
  obtain ⟨m, hm⟩ := exists_cons_suffix hx hne
  exact fs.isDirectory_of_get? (get?_suffix_ne_none hl hm)

/-- What exists down to the directory of a location that can be approached may be searched. -/
theorem Approachable.searchable (h : fs.Approachable (n :: d)) {y : Location} (hy : y <:+ d)
    (hget : fs.get? y ≠ none) : fs.Searchable y := by
  obtain ⟨m, hm⟩ := exists_cons_suffix_cons hy n
  exact h.search m y hm hget

/-- Nothing differs but that all that was missing down to `l` is a new directory now. -/
structure Filled (fs : FileSystem) (l : Location) (fs' : FileSystem) : Prop where
  cwd : fs'.cwd = fs.cwd
  system : fs'.system = fs.system
  get? : ∀ x, fs'.get? x =
    if x <:+ l ∧ fs.get? x = none then some (.directory .newDirectory) else fs.get? x

namespace Filled

theorem of_get? (h : fs.get? l ≠ none) : fs.Filled l fs := by
  refine ⟨rfl, rfl, ?_⟩
  intro x
  rw [if_neg]
  rintro ⟨hx, hn⟩
  exact get?_suffix_ne_none h hx hn

theorem get?_of_ne_none (h : fs.Filled l fs') (hx : fs.get? x ≠ none) :
    fs'.get? x = fs.get? x := by
  rw [h.get?, if_neg fun h => hx h.2]

theorem get?_of_not_suffix (h : fs.Filled l fs') (hx : ¬ x <:+ l) : fs'.get? x = fs.get? x := by
  rw [h.get?, if_neg fun h => hx h.1]

theorem eq_self (h : fs.Filled l fs') (hl : fs.get? l ≠ none) : fs' = fs :=
  FileSystem.ext (fun x => (h.get? x).trans ((of_get? hl).get? x).symm) h.cwd h.system

theorem cons (h : fs.Filled d fs₁) (hn : fs.get? (n :: d) = none)
    (hd : fs₁.IsDirectory d) : fs.Filled (n :: d) (fs₁.put (n :: d) (.directory .newDirectory)) := by
  refine ⟨(put_cwd ..).trans h.cwd, (put_system ..).trans h.system, ?_⟩
  intro x
  rw [get?_put _ ⟨fun _ => hd, fun _ => rfl⟩]
  split
  · next hx => rw [if_pos ⟨hx ▸ List.suffix_rfl, hx ▸ hn⟩]
  · next hx =>
    rw [h.get?]
    simp only [List.suffix_cons_iff, hx, false_or]

theorem linkFree (h : fs.Filled l fs') (hl : fs.LinkFree) : fs'.LinkFree := by
  intro x target hx
  rw [h.get?] at hx
  split at hx
  · cases hx
  · exact hl x target hx

theorem get?_of_none (h : fs.Filled l fs') (hx : x <:+ l) (hn : fs.get? x = none) :
    fs'.get? x = some (.directory .newDirectory) := by
  rw [h.get?, if_pos ⟨hx, hn⟩]

theorem searchable (h : fs.Filled d fs') (ha : fs.Approachable (n :: d)) {y : Location}
    (hy : y <:+ d) : fs'.Searchable y := by
  by_cases hn : fs.get? y = none
  · exact searchable_of_newDirectory (h.get?_of_none hy hn)
  · obtain ⟨hd, hs⟩ := ha.searchable hy hn
    have he := h.get?_of_ne_none hn
    exact ⟨(isDirectory_congr he).mpr hd, (permits_congr (user_eq h.system) he _).trans hs⟩

theorem permitsChange (h : fs.Filled d fs') (ha : fs.Approachable (n :: d))
    (hn : fs.get? (n :: d) = none) : fs'.permitsChange d = true := by
  by_cases hd : fs.get? d = none
  · exact permitsChange_of_newDirectory (h.get?_of_none List.suffix_rfl hd)
  · rw [permitsChange_congr (user_eq h.system) (h.get?_of_ne_none hd)]
    exact ha.change n d List.suffix_rfl hd hn

end Filled

section MakeDirectory

variable (hl : fs.LinkFree) (hp : p.Spells (n :: d)) (hn : p.Named)

include hl hp hn

theorem makeDirectory_of_missing (hd : fs.get? d = none)
    (h : ∀ y, y <:+ d → fs.get? y ≠ none → fs.Searchable y) :
    fs.makeDirectory p = .error .notFound := by
  rw [makeDirectory, locateEntry_of_missing hl hp hn hd h]
  rfl

theorem makeDirectory_of_exists (h : ∀ y, y <:+ d → fs.Searchable y)
    (hx : fs.get? (n :: d) ≠ none) : fs.makeDirectory p = .error .alreadyExists := by
  rw [makeDirectory, locateEntry_of_searchable hl hp hn h]
  exact if_pos hx

theorem makeDirectory_of_free (h : ∀ y, y <:+ d → fs.Searchable y)
    (hx : fs.get? (n :: d) = none) (hc : fs.permitsChange d = true) :
    fs.makeDirectory p = .ok (fs.put (n :: d) (.directory .newDirectory)) := by
  rw [makeDirectory, locateEntry_of_searchable hl hp hn h]
  exact (if_neg (not_not.mpr hx)).trans (if_pos hc)

end MakeDirectory

theorem isDirectory_of_spells (hl : fs.LinkFree) (hp : p.Spells l)
    (hend : p = Path.root ∧ l = [] ∨ p.Named) (h : ∀ n y, n :: y <:+ l → fs.Searchable y)
    (hd : fs.IsDirectory l) : fs.isDirectory p = true := by
  obtain ⟨m, hm⟩ := hd
  refine isDirectory_eq_true_iff.mpr ⟨m, (stat_eq_ok_iff hl).mpr ⟨hp.accepted, ?_, l, ?_, hm⟩⟩
  · rw [start, if_pos hp.absolute]
    rcases hend with ⟨rfl, rfl⟩ | hn
    · exact ⟨fs.isDirectory_root, fun h => absurd rfl h, fun _ _ => trivial⟩
    · exact passable_of_searchable hp hn h
  · exact hp.location? fs.cwd

theorem openForWriting_of_free (hl : fs.LinkFree) (hp : p.Spells (n :: d)) (hn : p.Named)
    (h : ∀ y, y <:+ d → fs.Searchable y) (hx : fs.get? (n :: d) = none)
    (hc : fs.permitsChange d = true) : fs.openForWriting p = .ok (n :: d) := by
  have hplace : fs.place .creating p = .ok (.free d n) := by
    obtain ⟨s, n', d', hs, hup, hsd, hnd⟩ := hp.exists_steps hn
    obtain ⟨rfl, rfl⟩ := List.cons.inj hnd
    refine (place_eq_ok_iff hl (.inr (by simp [hs]))).mpr ⟨hp.accepted, ?_, ?_⟩
    · rw [start, if_pos hp.absolute, hs]
      exact (passable_concat_iff hup hsd n).mpr fun y _ hy => h y hy
    · rw [hp.location? fs.cwd, Option.map_some, placeAt, if_pos hx]
  exact openForWriting_eq_ok_iff.mpr (.inr ⟨d, n, rfl, hplace, hc⟩)

theorem makeDirectory_root (h : fs.Searchable []) :
    fs.makeDirectory .root = .error .alreadyExists := by
  have he : fs.locateEntry .root = .ok ([], .unnamed) := by
    obtain ⟨hd, hs⟩ := h
    change (if ¬ fs.IsDirectory [] then _ else if ¬ fs.permits .search [] then _ else _) = _
    rw [if_neg (not_not.mpr hd), if_neg (by simp [hs])]
    rfl
  rw [makeDirectory, he]
  rfl

section MakeAlong

variable {ps : List Path} (hp : p ≠ ∅)

include hp

theorem makeAlong_of_ok (h : fs.makeDirectory p = .ok fs') :
    fs.makeAlong (p :: ps) = (fs', none) := by
  rw [makeAlong, if_neg hp, h]

theorem makeAlong_of_exists (h : fs.makeDirectory p = .error .alreadyExists)
    (hd : fs.isDirectory p = true) : fs.makeAlong (p :: ps) = (fs, none) := by
  rw [makeAlong, if_neg hp, h]
  exact congrArg (Prod.mk fs) (if_pos hd)

theorem makeAlong_of_missing (h : fs.makeDirectory p = .error .notFound)
    (hps : fs.makeAlong ps = (fs₁, none)) (hm : fs₁.makeDirectory p = .ok fs') :
    fs.makeAlong (p :: ps) = (fs', none) := by
  rw [makeAlong, if_neg hp, h]
  simp only [hps, hm]

end MakeAlong

section Along

variable {ps : List Path} (hl : fs.LinkFree)

include hl

theorem makeAlong_root (ha : fs.Approachable [m]) :
    fs.makeAlong (.root :: ps) = (fs, none) := by
  have hs := ha.searchable List.suffix_rfl get?_root_ne_none
  refine makeAlong_of_exists Path.spells_root.ne_empty (makeDirectory_root hs) ?_
  refine isDirectory_of_spells hl Path.spells_root (.inl ⟨rfl, rfl⟩) ?_ hs.1
  intro n y hy
  cases List.suffix_nil.mp hy

variable (hp : p.Spells (n :: d)) (hn : p.Named)

include hp hn

theorem makeAlong_of_taken (ha : fs.Approachable (m :: n :: d)) (hx : fs.get? (n :: d) ≠ none) :
    fs.makeAlong (p :: ps) = (fs, none) := by
  have ha' := ha.of_suffix (List.suffix_cons m _)
  have hsearch (y : Location) (hy : y <:+ d) : fs.Searchable y :=
    ha'.searchable hy (get?_suffix_ne_none hx (hy.trans (List.suffix_cons n d)))
  refine makeAlong_of_exists hp.ne_empty (makeDirectory_of_exists hl hp hn hsearch hx) ?_
  refine isDirectory_of_spells hl hp (.inr hn) ?_ (ha.searchable List.suffix_rfl hx).1
  intro n' y hy
  exact ha'.search n' y hy (get?_suffix_ne_none hx ((List.suffix_cons n' y).trans hy))

theorem makeAlong_of_filled (ha : fs.Approachable (n :: d)) (hx : fs.get? (n :: d) = none)
    (hps : fs.makeAlong ps = (fs₁, none)) (hf : fs.Filled d fs₁) :
    fs.makeAlong (p :: ps) = (fs₁.put (n :: d) (.directory .newDirectory), none) := by
  have hx₁ : fs₁.get? (n :: d) = none := by
    rw [hf.get?_of_not_suffix, hx]
    intro hs
    exact absurd hs.length_le (by simp)
  have hmake := makeDirectory_of_free (hf.linkFree hl) hp hn (fun y hy => hf.searchable ha hy)
    hx₁ (hf.permitsChange ha hx)
  by_cases hd : fs.get? d = none
  · have hmiss := makeDirectory_of_missing hl hp hn hd fun y hy => ha.searchable hy
    exact makeAlong_of_missing hp.ne_empty hmiss hps hmake
  · obtain rfl := hf.eq_self hd
    exact makeAlong_of_ok hp.ne_empty hmake

end Along

/-- The directories of a lineage can be made down to one that can be approached. -/
theorem makeAlong_filled {k : Nat} (hl : fs.LinkFree) (hp : p.Spells l)
    (hend : p = Path.root ∧ l = [] ∨ p.Named) (ha : fs.Approachable (m :: l)) (hk : l.length < k) :
    ∃ fs', fs.makeAlong (lineage k p) = (fs', none) ∧ fs.Filled l fs' := by
  obtain ⟨k, rfl⟩ : ∃ j, k = j + 1 := ⟨k - 1, by omega⟩
  induction l generalizing p k m with
  | nil =>
    rcases hend with ⟨rfl, -⟩ | hn
    · exact ⟨fs, makeAlong_root hl ha, .of_get? get?_root_ne_none⟩
    · obtain ⟨s, n, d, -, -, -, h⟩ := hp.exists_steps hn
      cases h
  | cons n d ih =>
    have hn : p.Named := hend.resolve_left fun h => List.cons_ne_nil n d h.2
    have ha' : fs.Approachable (n :: d) := ha.of_suffix (List.suffix_cons m _)
    by_cases hx : fs.get? (n :: d) = none
    · obtain ⟨q, hq, hqd, hqend⟩ := hp.parent?
      rw [List.length_cons] at hk
      obtain ⟨j, rfl⟩ : ∃ j, k = j + 1 := ⟨k - 1, by omega⟩
      obtain ⟨fs₁, hmade, hf⟩ := ih hqd hqend ha' j (by omega)
      rw [lineage, hq]
      exact ⟨_, makeAlong_of_filled hl hp hn ha' hx hmade hf,
        hf.cons hx (hf.searchable ha' List.suffix_rfl).1⟩
    · exact ⟨fs, makeAlong_of_taken hl hp hn ha hx, .of_get? hx⟩

theorem makeParents_filled (hl : fs.LinkFree) (hp : p.Spells (n :: d))
    (ha : fs.Approachable (n :: d)) :
    ∃ fs', fs.makeParents p = (fs', none) ∧ fs.Filled d fs' := by
  obtain ⟨q, hq, hqd, hend⟩ := hp.parent?
  obtain ⟨fs', hm, hf⟩ := makeAlong_filled hl hqd hend ha (Nat.lt_succ_of_le hqd.length_le)
  refine ⟨fs', ?_, hf⟩
  rw [makeParents, hq]
  simp only [makeDirectories, hm]

end FileSystem

end StagedInstall
