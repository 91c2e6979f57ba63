import StagedInstall.FileSystem.Lookup

/-! # Where a path leads

A look-up that succeeds is a walk through the tree in which every step is taken from a directory
and a link gives way to the steps of its target. `Leads` is that walk alone, without the budget
of links and the permissions that can only stop it. It has one outcome (`Leads.unique`), which
depends on nothing but the shape of the tree (`SameShape.leads`).
-/

namespace StagedInstall

def Entry.bare (e : Entry) : Entry := e.withPermissions ⟨0, by decide⟩

theorem Entry.bare_withPermissions (e : Entry) (p : Permissions) :
    (e.withPermissions p).bare = e.bare := by
  cases e <;> rfl

theorem Entry.eq_link_of_bare {e : Entry} {target : Path} (h : e.bare = .link target) :
    e = .link target := by
  cases e <;> simp [bare, withPermissions] at h
  exact congrArg link h

theorem Entry.eq_directory_of_bare {e : Entry} {p : Permissions} (h : e.bare = .directory p) :
    ∃ q, e = .directory q := by
  cases e <;> simp [bare, withPermissions] at h
  exact ⟨_, rfl⟩

namespace FileSystem

/-- The steps lead from a location to a place, when links are followed without limit and no
permission is missing. -/
inductive Leads (fs : FileSystem) : Location → List Step → Place → Prop
  | done {l} : Leads fs l [] (.taken l)
  | stay {l s x} : fs.IsDirectory l → Leads fs l s x → Leads fs l (.stay :: s) x
  | slash {l s x} : fs.IsDirectory l → Leads fs l s x → Leads fs l (.slash :: s) x
  | up {l s x} : fs.IsDirectory l → Leads fs l.tail s x → Leads fs l (.up :: s) x
  | free {l n} : fs.IsDirectory l → fs.get? (n :: l) = none → Leads fs l [.name n] (.free l n)
  | link {l n target s x} : fs.IsDirectory l → fs.get? (n :: l) = some (.link target) →
      Leads fs (start l target) (target.steps ++ s) x → Leads fs l (.name n :: s) x
  | name {l n e s x} : fs.IsDirectory l → fs.get? (n :: l) = some e →
      (∀ target, e ≠ .link target) → Leads fs (n :: l) s x → Leads fs l (.name n :: s) x

/-- There is an entry at a place that is taken, which is no link, and none at a free name in a
directory. -/
def Fits (fs : FileSystem) : Place → Prop
  | .taken l => ∃ e, fs.get? l = some e ∧ ∀ target, e ≠ .link target
  | .free d n => fs.IsDirectory d ∧ fs.get? (n :: d) = none

variable {fs fs' : FileSystem} {l l' : Location} {n : Name} {s t : List Step} {x y : Place}

theorem stepwise_leads {purpose : Purpose} {follow : Location → List Step → Except Cause Place}
    (hf : ∀ {l s x}, follow l s = .ok x → fs.Leads l s x)
    (h : fs.stepwise purpose follow l s = .ok x) : fs.Leads l s x := by
  induction s generalizing l with
  | nil =>
    simp only [stepwise, Except.ok.injEq] at h
    exact h ▸ .done
  | cons a s ih =>
    simp only [stepwise] at h
    split at h
    · cases h
    next hd =>
    have hd : fs.IsDirectory l := Decidable.not_not.mp hd
    split at h
    · cases h
    cases a with
    | stay => exact .stay hd (ih h)
    | slash => exact .slash hd (ih h)
    | up => exact .up hd (ih h)
    | overlong => dsimp only at h; split at h <;> cases h
    | name n =>
      dsimp only at h
      split at h
      · cases h
      split at h
      · next hn =>
        split at h
        · next hs =>
          cases h
          exact hs ▸ .free hd hn
        · cases h
      · next target hn => exact .link hd hn (hf h)
      · next e hl he => exact .name hd he (fun target ht => hl target ht) (ih h)

theorem resolve_leads {purpose : Purpose} {k : Nat} (h : fs.resolve purpose k l s = .ok x) :
    fs.Leads l s x := by
  induction k generalizing l s x with
  | zero =>
    apply stepwise_leads _ h
    intro l s x h
    cases h
  | succ k ih => exact stepwise_leads ih h

namespace Leads

theorem unique (h : fs.Leads l s x) (h' : fs.Leads l s y) : x = y := by
  induction h with
  | done =>
    cases h'
    rfl
  | stay _ _ ih =>
    cases h' with
    | stay _ h' => exact ih h'
  | slash _ _ ih =>
    cases h' with
    | slash _ h' => exact ih h'
  | up _ _ ih =>
    cases h' with
    | up _ h' => exact ih h'
  | free _ hn =>
    cases h' with
    | free => rfl
    | link _ hn' => cases hn.symm.trans hn'
    | name _ hn' => cases hn.symm.trans hn'
  | link _ hn _ ih =>
    cases h' with
    | free _ hn' => cases hn.symm.trans hn'
    | link _ hn' h' =>
      cases hn.symm.trans hn'
      exact ih h'
    | name _ hn' hl => exact absurd (Option.some.inj (hn'.symm.trans hn)) (hl _)
  | name _ hn hl _ ih =>
    cases h' with
    | free _ hn' => cases hn.symm.trans hn'
    | link _ hn' => exact absurd (Option.some.inj (hn.symm.trans hn')) (hl _)
    | name _ _ _ h' => exact ih h'

theorem taken_unique (h : fs.Leads l s (.taken l')) {k : Location}
    (h' : fs.Leads l s (.taken k)) : l' = k := by
  cases h.unique h'
  rfl

/-- A walk that makes a step ends at an entry that is no link, or at a free name in a
directory. -/
theorem fits (h : fs.Leads l s x) (hl : s = [] → fs.Fits (.taken l)) : fs.Fits x := by
  have found {k : Location} (h : fs.IsDirectory k) : fs.Fits (.taken k) := by
    obtain ⟨p, hp⟩ := h
    exact ⟨_, hp, by simp⟩
  induction h with
  | done => exact hl rfl
  | stay hd _ ih => exact ih fun _ => found hd
  | slash hd _ ih => exact ih fun _ => found hd
  | @up l _ _ hd _ ih =>
    apply ih
    intro _
    cases l with
    | nil => exact found hd
    | cons n l =>
      obtain ⟨p, hp⟩ := hd
      exact found (fs.isDirectory_of_get? (n := n) (by simp [hp]))
  | free hd hn => exact ⟨hd, hn⟩
  | @link l n target _ _ hd _ _ ih =>
    apply ih
    intro _
    unfold start
    split
    · exact found fs.isDirectory_root
    · exact found hd
  | name _ hn hl' _ ih => exact ih fun _ => ⟨_, hn, hl'⟩

theorem name_cases (h : fs.Leads l (.name n :: s) x) :
    (fs.get? (n :: l) = none ∧ s = [] ∧ x = .free l n) ∨
    (∃ target, fs.get? (n :: l) = some (.link target) ∧
      fs.Leads (start l target) (target.steps ++ s) x) ∨
    (∃ e, fs.get? (n :: l) = some e ∧ (∀ target, e ≠ .link target) ∧
      fs.Leads (n :: l) s x) := by
  cases h with
  | free _ hn => exact .inl ⟨hn, rfl, rfl⟩
  | link _ hn h => exact .inr (.inl ⟨_, hn, h⟩)
  | name _ hn hl h => exact .inr (.inr ⟨_, hn, hl, h⟩)

theorem get?_ne_none (h : fs.Leads l (.name n :: s) (.taken l')) : fs.get? (n :: l) ≠ none := by
  cases h with
  | link _ hn => simp [hn]
  | name _ hn => simp [hn]

theorem append (h : fs.Leads l s (.taken l')) (h' : fs.Leads l' t x) : fs.Leads l (s ++ t) x := by
  generalize hy : Place.taken l' = y at h
  induction h with
  | done =>
    cases hy
    exact h'
  | stay hd _ ih => exact .stay hd (ih hy)
  | slash hd _ ih => exact .slash hd (ih hy)
  | up hd _ ih => exact .up hd (ih hy)
  | free => cases hy
  | link hd hn _ ih =>
    have ih := ih hy
    rw [List.append_assoc] at ih
    exact .link hd hn ih
  | name hd hn hl _ ih => exact .name hd hn hl (ih hy)

theorem of_append (h : fs.Leads l s (.taken l')) (h' : fs.Leads l (s ++ t) x) :
    fs.Leads l' t x := by
  generalize hy : Place.taken l' = y at h
  induction h with
  | done =>
    cases hy
    exact h'
  | stay _ _ ih =>
    cases h' with
    | stay _ h' => exact ih h' hy
  | slash _ _ ih =>
    cases h' with
    | slash _ h' => exact ih h' hy
  | up _ _ ih =>
    cases h' with
    | up _ h' => exact ih h' hy
  | free => cases hy
  | link _ hn _ ih =>
    rcases h'.name_cases with ⟨hn', -⟩ | ⟨target, hn', h'⟩ | ⟨e, hn', hl, -⟩
    · cases hn.symm.trans hn'
    · cases hn.symm.trans hn'
      exact ih (by simpa using h') hy
    · exact absurd (Option.some.inj (hn'.symm.trans hn)) (hl _)
  | name _ hn hl _ ih =>
    rcases h'.name_cases with ⟨hn', -⟩ | ⟨target, hn', -⟩ | ⟨e, -, -, h'⟩
    · cases hn.symm.trans hn'
    · exact absurd (Option.some.inj (hn.symm.trans hn')) (hl _)
    · exact ih h' hy

end Leads

/-- Two file systems that differ in nothing but the permission bits of entries and in whose hands
they are. -/
structure SameShape (fs fs' : FileSystem) : Prop where
  bare : ∀ l, (fs'.get? l).map Entry.bare = (fs.get? l).map Entry.bare
  cwd : fs'.cwd = fs.cwd

namespace SameShape

theorem refl (fs : FileSystem) : fs.SameShape fs := ⟨fun _ => rfl, rfl⟩

theorem trans {fs'' : FileSystem} (h : fs.SameShape fs') (h' : fs'.SameShape fs'') :
    fs.SameShape fs'' :=
  ⟨fun l => (h'.bare l).trans (h.bare l), h'.cwd.trans h.cwd⟩

theorem get?_eq_none (h : fs.SameShape fs') (hl : fs.get? l = none) : fs'.get? l = none := by
  have := h.bare l
  rwa [hl, Option.map_none, Option.map_eq_none_iff] at this

theorem get?_eq_some (h : fs.SameShape fs') {e : Entry} (hl : fs.get? l = some e) :
    ∃ e', fs'.get? l = some e' ∧ e'.bare = e.bare := by
  have := h.bare l
  rwa [hl, Option.map_some, Option.map_eq_some_iff] at this

theorem isDirectory (h : fs.SameShape fs') (hl : fs.IsDirectory l) : fs'.IsDirectory l := by
  obtain ⟨p, hp⟩ := hl
  obtain ⟨e, he, hb⟩ := h.get?_eq_some hp
  obtain ⟨q, rfl⟩ := Entry.eq_directory_of_bare hb
  exact ⟨q, he⟩

theorem get?_eq_link (h : fs.SameShape fs') {target : Path}
    (hl : fs.get? l = some (.link target)) : fs'.get? l = some (.link target) := by
  obtain ⟨e, he, hb⟩ := h.get?_eq_some hl
  exact Entry.eq_link_of_bare hb ▸ he

theorem get?_eq_file (h : fs.SameShape fs') {m : Permissions} {content : Bytes}
    (hl : fs.get? l = some (.file m content)) : ∃ m', fs'.get? l = some (.file m' content) := by
  obtain ⟨e, he, hb⟩ := h.get?_eq_some hl
  cases e with
  | file m' c =>
    cases hb
    exact ⟨m', he⟩
  | directory | link | device => cases hb

/-- Where steps lead depends on the shape of the tree alone. -/
theorem leads (h : fs.SameShape fs') (hs : fs.Leads l s x) : fs'.Leads l s x := by
  induction hs with
  | done => exact .done
  | stay hd _ ih => exact .stay (h.isDirectory hd) ih
  | slash hd _ ih => exact .slash (h.isDirectory hd) ih
  | up hd _ ih => exact .up (h.isDirectory hd) ih
  | free hd hn => exact .free (h.isDirectory hd) (h.get?_eq_none hn)
  | link hd hn _ ih => exact .link (h.isDirectory hd) (h.get?_eq_link hn) ih
  | name hd hn hl _ ih =>
    obtain ⟨e, he, hb⟩ := h.get?_eq_some hn
    refine .name (h.isDirectory hd) he ?_ ih
    rintro target rfl
    exact hl target (Entry.eq_link_of_bare hb.symm)

theorem symm (h : fs.SameShape fs') : fs'.SameShape fs :=
  ⟨fun l => (h.bare l).symm, h.cwd.symm⟩

end SameShape

/-- The location of the entry that a path leads to, links followed to the end. -/
def LeadsTo (fs : FileSystem) (p : Path) (l : Location) : Prop :=
  fs.Leads (start fs.cwd p) p.steps (.taken l)

theorem LeadsTo.unique {p : Path} (h : fs.LeadsTo p l) (h' : fs.LeadsTo p l') : l = l' :=
  h.taken_unique h'

theorem SameShape.leadsTo (h : fs.SameShape fs') {p : Path} (hp : fs.LeadsTo p l) :
    fs'.LeadsTo p l := by
  unfold LeadsTo
  rw [h.cwd]
  exact h.leads hp

theorem SameShape.leadsTo_iff (h : fs.SameShape fs') {p : Path} :
    fs'.LeadsTo p l ↔ fs.LeadsTo p l :=
  ⟨h.symm.leadsTo, h.leadsTo⟩

end FileSystem

end StagedInstall
