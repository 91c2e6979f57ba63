import StagedInstall.Proofs.FileSystem.Effects
import StagedInstall.Proofs.Path.Parent

/-! # Trees without links

In a tree without symbolic links a path leads to the location that it spells out, whatever else
the tree holds (`LeadsTo.location?`). Absolute paths without `..` that spell out the same
location are the same up to spelling (`same_of_location?`).
-/

namespace StagedInstall

/-- Where a component leads when no link is followed. -/
def Component.move (l : Location) : Component → Option Location
  | .root => some []
  | .current => some l
  | .parent => some l.tail
  | .normal b => (Name.ofBytes? b).map (· :: l)

/-- The location that a path spells out, seen from `cwd`; none when a component is no name that
could stand in a directory. -/
def Path.location? (p : Path) (cwd : Location) : Option Location :=
  p.components.foldlM Component.move cwd

def Step.move (l : Location) : Step → Option Location
  | .stay | .slash => some l
  | .up => some l.tail
  | .name n => some (n :: l)
  | .overlong => none

def Place.location : Place → Location
  | .taken l => l
  | .free d n => n :: d

namespace Path

variable {p q : Path} {cwd l : Location}

theorem location?_of_same (h : p.Same q) (cwd : Location) : p.location? cwd = q.location? cwd :=
  congrArg (List.foldlM Component.move cwd) h

theorem foldlM_leading (p : Path) (cwd : Location) :
    (leading p.pieces).foldlM Component.move cwd = some (FileSystem.start cwd p) := by
  unfold FileSystem.start
  split
  · next h =>
    obtain ⟨s, l, hl⟩ := isAbsolute_iff.mp h
    rw [hl]
    rfl
  · next h =>
    have hn : ∀ s l, p.pieces ≠ [] :: s :: l := by
      intro s l hl
      exact h (isAbsolute_iff.mpr ⟨s, l, hl⟩)
    unfold leading
    split
    · next hl => exact absurd hl (hn _ _)
    · split <;> rfl
    · rfl

theorem move_ofPiece {s : Bytes} (h : ¬ Skipped s) (l : Location) :
    (Step.ofPiece s).move l = (Component.ofPiece s).move l := by
  unfold Step.ofPiece Component.ofPiece
  rw [if_neg (not_or.mp h).2]
  split
  · rfl
  · rw [Component.move]
    cases Name.ofBytes? s <;> rfl

theorem foldlM_pieces (pieces : List Bytes) (l : Location) :
    ((pieces.filter (· ≠ [])).map Step.ofPiece).foldlM Step.move l =
      (spelled pieces).foldlM Component.move l := by
  induction pieces generalizing l with
  | nil => rfl
  | cons s r ih =>
    by_cases hn : s = []
    · subst hn
      rw [spelled_cons_of_skipped (.inl rfl), ← ih]
      rfl
    · rw [List.filter_cons_of_pos (by simpa using hn), List.map_cons, List.foldlM_cons]
      by_cases hs : Skipped s
      · obtain rfl : s = [dot] := hs.resolve_left hn
        rw [spelled_cons_of_skipped hs, ← ih]
        rfl
      · rw [move_ofPiece hs, spelled_cons hs, List.foldlM_cons]
        simp only [ih]

theorem foldlM_steps (p : Path) (cwd : Location) :
    p.steps.foldlM Step.move (FileSystem.start cwd p) = p.location? cwd := by
  have hs : ∀ l, (if p.bytes.getLast? = some slash then [Step.slash] else []).foldlM
      Step.move l = some l := by
    intro l
    split <;> rfl
  unfold location? steps
  rw [components_eq, List.foldlM_append, List.foldlM_append, foldlM_leading, foldlM_pieces]
  simp only [hs]
  exact bind_pure _

theorem foldlM_normal {cs : List Component} (hc : ∀ c ∈ cs, ∃ b, c = .normal b)
    {k : Location} (h : cs.foldlM Component.move k = some l) :
    ∃ ns : List Name, cs = ns.map (fun n => .normal n.bytes) ∧ l = ns.reverse ++ k := by
  induction cs generalizing k with
  | nil =>
    cases h
    exact ⟨[], rfl, rfl⟩
  | cons c cs ih =>
    obtain ⟨b, rfl⟩ := hc c List.mem_cons_self
    rw [List.foldlM_cons, Option.bind_eq_bind, Option.bind_eq_some_iff] at h
    obtain ⟨k', hk', h⟩ := h
    obtain ⟨n, hn, rfl⟩ := Option.map_eq_some_iff.mp hk'
    obtain ⟨ns, rfl, rfl⟩ := ih (fun c hc' => hc c (List.mem_cons_of_mem _ hc')) h
    exact ⟨n :: ns, by rw [Name.eq_of_ofBytes? hn, List.map_cons], by simp⟩

theorem components_of_location? (ha : p.isAbsolute = true) (hp : .parent ∉ p.components)
    (hl : p.location? cwd = some l) :
    p.components = .root :: l.reverse.map fun n => .normal n.bytes := by
  obtain ⟨s, r, hr⟩ := isAbsolute_iff.mp ha
  have hc : p.components = .root :: spelled p.pieces := by
    rw [components_eq, hr]
    rfl
  rw [hc, List.mem_cons, not_or] at hp
  have hn : ∀ c ∈ spelled p.pieces, ∃ b, c = .normal b := by
    intro c h
    rcases spelled_cases h with rfl | hb
    · exact absurd h hp.2
    · exact hb
  rw [location?, hc, List.foldlM_cons] at hl
  obtain ⟨ns, hns, rfl⟩ := foldlM_normal hn hl
  rw [hc, hns, List.append_nil, List.reverse_reverse]

theorem same_of_location? (ha : p.isAbsolute = true) (hp : .parent ∉ p.components)
    (hb : q.isAbsolute = true) (hq : .parent ∉ q.components) (hl : p.location? cwd = some l)
    (hl' : q.location? cwd = some l) : p.Same q :=
  (components_of_location? ha hp hl).trans (components_of_location? hb hq hl').symm

end Path

namespace FileSystem

variable {fs fs' : FileSystem} {p : Path} {l : Location} {s : List Step} {x : Place}

def LinkFree (fs : FileSystem) : Prop := ∀ l target, fs.get? l ≠ some (.link target)

theorem linkFree_empty : empty.LinkFree := by
  intro l target h
  cases l with
  | nil => cases h
  | cons n l => cases h

theorem get?_put_cases {e e' : Entry} {k : Location} (h : (fs.put l e).get? k = some e') :
    e' = e ∨ fs.get? k = some e' := by
  by_cases ha : fs.Admits l e
  · rw [get?_put fs ha] at h
    split at h
    · exact .inl (Option.some.inj h).symm
    · exact .inr h
  · rw [FileSystem.put, dif_neg ha] at h
    exact .inr h

theorem LinkFree.put (h : fs.LinkFree) (l : Location) {e : Entry}
    (he : ∀ target, e ≠ .link target) : (fs.put l e).LinkFree := by
  intro k target hk
  rcases get?_put_cases hk with hk | hk
  · exact he target hk.symm
  · exact h k target hk

theorem SameShape.linkFree (h : fs.SameShape fs') (hl : fs.LinkFree) : fs'.LinkFree :=
  fun x target hx => hl x target (h.symm.get?_eq_link hx)

theorem LinkFree.fill {m : Permissions} {s : Bytes} (h : fs.LinkFree)
    (hl : fs.openForWriting p = .ok l) : (fs.fill l (.file m s)).LinkFree := by
  intro k target hk
  rw [get?_fill_of_opened hl] at hk
  split at hk
  · cases hk
  · exact h k target hk

def entryAt? (fs : FileSystem) (p : Path) : Option Entry := (p.location? fs.cwd).bind fs.get?

theorem entryAt?_of_location? (h : p.location? fs.cwd = some l) : fs.entryAt? p = fs.get? l := by
  rw [entryAt?, h, Option.bind_some]

theorem entryAt?_eq_some_iff {e : Entry} :
    fs.entryAt? p = some e ↔ ∃ l, p.location? fs.cwd = some l ∧ fs.get? l = some e :=
  Option.bind_eq_some_iff

theorem Leads.location (h : fs.Leads l s x) (hl : fs.LinkFree) :
    s.foldlM Step.move l = some x.location := by
  induction h with
  | done => rfl
  | stay _ _ ih | slash _ _ ih | up _ _ ih | name _ _ _ _ ih => exact ih
  | free => rfl
  | link _ hn => exact absurd hn (hl _ _)

theorem Leads.location? (h : fs.Leads (start fs.cwd p) p.steps x) (hl : fs.LinkFree) :
    p.location? fs.cwd = some x.location := by
  rw [← Path.foldlM_steps]
  exact h.location hl

/-- Without links, a path leads to the location that it spells out. -/
theorem LeadsTo.location? (h : fs.LeadsTo p l) (hl : fs.LinkFree) :
    p.location? fs.cwd = some l :=
  Leads.location? h hl

end FileSystem

end StagedInstall
