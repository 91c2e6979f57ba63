import StagedInstall.Proofs.FileSystem.LinkFree
import StagedInstall.Proofs.FileSystem.Spelling

/-! # Trees that grow

A tree that keeps all it holds also keeps where its paths lead (`LeadsTo.extend`). The directories
that are made for a path are new, stand where paths above it lead, and only where the user may
change the directory they stand in (`makeParents_preparedFor`). A path without `..` leads nowhere
that it did not lead before they were made (`PreparedFor.leadsTo`).
-/

namespace StagedInstall

namespace Path

variable {p q r : Path}

/-- `p` goes on where `q` ends. -/
def Above (q p : Path) : Prop :=
  ∃ cs, cs ≠ [] ∧ (∀ c ∈ cs, c ≠ .root ∧ c ≠ .current) ∧ p.components = q.components ++ cs

theorem Above.trans (h : q.Above r) (h' : r.Above p) : q.Above p := by
  obtain ⟨cs, hn, hc, hr⟩ := h
  obtain ⟨ds, -, hd, hp⟩ := h'
  refine ⟨cs ++ ds, by simp [hn], ?_, by rw [hp, hr, List.append_assoc]⟩
  intro c hm
  rcases List.mem_append.mp hm with hm | hm
  · exact hc c hm
  · exact hd c hm

theorem eq_empty_of_components (h : p.components = []) : p = ∅ := by
  rw [components_eq, List.append_eq_nil_iff] at h
  obtain ⟨hl, hs⟩ := h
  have hb : p.pieces = [[]] := by
    rcases hp : p.pieces with _ | ⟨s, l⟩
    · exact absurd hp p.pieces_ne_nil
    · rw [hp] at hl hs
      by_cases hk : Skipped s
      · rcases hk with rfl | rfl
        · cases l with
          | nil => rfl
          | cons => cases hl
        · cases hl
      · rw [spelled_cons hk] at hs
        cases hs
  apply ext
  have hj : [slash].intercalate p.pieces = p.bytes := List.intercalate_splitOn slash
  rw [← hj, hb]
  rfl

theorem current_not_mem_spelled (pieces : List Bytes) : .current ∉ spelled pieces := by
  intro h
  rcases spelled_cases h with h | ⟨b, h⟩ <;> cases h

theorem above_of_parent? (h : p.parent? = some q) (hq : q ≠ ∅) : q.Above p := by
  obtain ⟨c, hc, hpq⟩ := components_parent? h
  refine ⟨[c], by simp, ?_, hpq⟩
  rintro d hd
  obtain rfl := List.mem_singleton.mp hd
  refine ⟨hc, ?_⟩
  rintro rfl
  rw [components_eq] at hpq
  rcases hqc : q.components with _ | ⟨d, r⟩
  · exact hq (eq_empty_of_components hqc)
  · rw [hqc, List.cons_append] at hpq
    apply current_not_mem_spelled p.pieces
    rcases leading_cases p.pieces with hl | hl | hl <;> rw [hl] at hpq
    · rw [List.nil_append] at hpq
      simp [hpq]
    all_goals
      rw [List.singleton_append] at hpq
      simp [(List.cons.inj hpq).2]

theorem above_of_mem_lineage {dir : Path} {k : Nat} (h : p.parent? = some dir)
    (hq : q ∈ FileSystem.lineage k dir) (hn : q ≠ ∅) : q.Above p := by
  induction k generalizing p dir with
  | zero => cases hq
  | succ k ih =>
    rcases List.mem_cons.mp hq with rfl | hq
    · exact above_of_parent? h hn
    · split at hq
      · next r hr =>
        have hd : dir ≠ ∅ := by
          rintro rfl
          cases hr
        exact (ih hr hq).trans (above_of_parent? h hd)
      · cases hq

theorem Above.isAbsolute_eq (h : q.Above p) : q.isAbsolute = p.isAbsolute := by
  obtain ⟨cs, -, hc, hp⟩ := h
  have hr : .root ∉ cs := fun hm => (hc _ hm).1 rfl
  rw [Bool.eq_iff_iff, isAbsolute_iff_root_mem, isAbsolute_iff_root_mem, hp, List.mem_append]
  simp [hr]

theorem Above.exists_normal (h : q.Above p) (hp : .parent ∉ p.components) :
    ∃ cs, cs ≠ [] ∧ (∀ c ∈ cs, ∃ b, c = .normal b) ∧ p.components = q.components ++ cs := by
  obtain ⟨cs, hn, hc, hpq⟩ := h
  refine ⟨cs, hn, ?_, hpq⟩
  rw [hpq, List.mem_append, not_or] at hp
  intro c hm
  cases c with
  | root => exact absurd rfl (hc _ hm).1
  | current => exact absurd rfl (hc _ hm).2
  | parent => exact absurd hm hp.2
  | normal b => exact ⟨b, rfl⟩

theorem Above.filter_moves_steps (h : q.Above p) (hp : .parent ∉ p.components) :
    ∃ t, t ≠ [] ∧ (∀ a ∈ t, ∃ b, a = (Component.normal b).step) ∧
      p.steps.filter Step.moves = q.steps.filter Step.moves ++ t := by
  obtain ⟨cs, hn, hc, hpq⟩ := h.exists_normal hp
  refine ⟨cs.map Component.step, by simpa using hn, ?_, ?_⟩
  · intro a ha
    obtain ⟨c, hm, rfl⟩ := List.mem_map.mp ha
    obtain ⟨b, rfl⟩ := hc c hm
    exact ⟨b, rfl⟩
  · have hf : cs.filter (fun c => c ≠ .root ∧ c ≠ .current) = cs := by
      rw [List.filter_eq_self]
      intro c hm
      obtain ⟨b, rfl⟩ := hc c hm
      simp
    rw [Path.filter_moves_steps, Path.filter_moves_steps, ← filter_components,
      ← filter_components, hpq, List.filter_append, hf, List.map_append]

theorem Above.location? {cwd l : Location} (h : q.Above p) (hp : .parent ∉ p.components)
    (hl : p.location? cwd = some l) : ∃ k, q.location? cwd = some k ∧ k <:+ l ∧ k ≠ l := by
  obtain ⟨cs, hn, hc, hpq⟩ := h.exists_normal hp
  rw [Path.location?, hpq, List.foldlM_append, Option.bind_eq_bind, Option.bind_eq_some_iff] at hl
  obtain ⟨k, hk, hl⟩ := hl
  obtain ⟨ns, rfl, rfl⟩ := foldlM_normal hc hl
  refine ⟨k, hk, List.suffix_append _ k, ?_⟩
  intro he
  have hlen := congrArg List.length he
  simp at hlen hn
  exact hn hlen

theorem Above.bytes_ne_nil (h : q.Above p) : p.bytes ≠ [] := by
  obtain ⟨cs, hn, -, hpq⟩ := h
  intro hb
  obtain rfl : p = ∅ := ext hb
  exact hn (List.append_eq_nil_iff.mp hpq.symm).2

theorem steps_eq (p : Path) : p.steps = p.steps.filter (· ≠ .slash) ∨
    p.steps = p.steps.filter (· ≠ .slash) ++ [.slash] := by
  have hf : ((p.pieces.filter (· ≠ [])).map Step.ofPiece).filter (· ≠ .slash) =
      (p.pieces.filter (· ≠ [])).map Step.ofPiece := by
    rw [List.filter_eq_self]
    intro a ha
    obtain ⟨s, -, rfl⟩ := List.mem_map.mp ha
    simpa using Step.ofPiece_ne_slash s
  unfold steps
  rw [List.filter_append, hf]
  split
  · right
    simp
  · left
    simp

end Path

namespace FileSystem

variable {fs fs' fs₁ : FileSystem} {p q : Path} {l k x : Location} {s : List Step}

theorem get?_suffix_ne_none (h : fs.get? l ≠ none) (hx : x <:+ l) : fs.get? x ≠ none := by
  induction l with
  | nil => rwa [List.suffix_nil.mp hx]
  | cons n l ih =>
    rcases List.suffix_cons_iff.mp hx with rfl | hx
    · exact h
    · obtain ⟨m, hm⟩ := fs.isDirectory_of_get? h
      exact ih (by simp [hm]) hx

theorem permits_congr (hu : fs'.user = fs.user) (h : fs'.get? l = fs.get? k) (a : Access) :
    fs'.permits a l = fs.permits a k := by
  rw [permits, permits, hu, h]

theorem permits_of_grants {m m' : Permissions} {s s' : Bytes} {a : Access}
    (hu : fs'.user = fs.user) (hl : fs'.get? l = some (.file m' s'))
    (hk : fs.get? k = some (.file m s)) (h : m'.grants a = m.grants a) :
    fs'.permits a l = fs.permits a k := by
  cases hf : fs.user with
  | superuser => rw [permits_superuser hf, permits_superuser (hu.trans hf)]
  | owner =>
    rw [permits_owner hf, permits_owner (hu.trans hf), hl, hk]
    exact h

theorem permitsChange_congr (hu : fs'.user = fs.user) (h : fs'.get? l = fs.get? l) :
    fs'.permitsChange l = fs.permitsChange l := by
  rw [permitsChange, permitsChange, permits_congr hu h, permits_congr hu h]

/-- Nothing that stands in `fs` is changed or missing in `fs'`. -/
structure Extends (fs fs' : FileSystem) : Prop where
  cwd : fs'.cwd = fs.cwd
  user : fs'.user = fs.user
  get? : ∀ {x e}, fs.get? x = some e → fs'.get? x = some e

namespace Extends

theorem isDirectory (h : fs.Extends fs') (hl : fs.IsDirectory l) : fs'.IsDirectory l := by
  obtain ⟨m, hm⟩ := hl
  exact ⟨m, h.get? hm⟩

theorem get?_eq (h : fs.Extends fs') (hl : fs.get? l ≠ none) : fs'.get? l = fs.get? l := by
  obtain ⟨e, he⟩ := Option.ne_none_iff_exists'.mp hl
  rw [he, h.get? he]

/-- Steps that end at an entry still do. A free name may be taken now. -/
theorem leads {y : Place} (h : fs.Extends fs') (hs : fs.Leads l s y)
    (hy : ∀ d n, y = .free d n → ∃ e, fs'.get? (n :: d) = some e ∧ ∀ target, e ≠ .link target) :
    fs'.Leads l s (.taken y.location) := by
  induction hs with
  | done => exact .done
  | stay hd _ ih => exact .stay (h.isDirectory hd) (ih hy)
  | slash hd _ ih => exact .slash (h.isDirectory hd) (ih hy)
  | up hd _ ih => exact .up (h.isDirectory hd) (ih hy)
  | free hd _ =>
    obtain ⟨e, he, hl⟩ := hy _ _ rfl
    exact .name (h.isDirectory hd) he hl .done
  | link hd hn _ ih => exact .link (h.isDirectory hd) (h.get? hn) (ih hy)
  | name hd hn hl _ ih => exact .name (h.isDirectory hd) (h.get? hn) hl (ih hy)

theorem stepwise_eq {purpose : Purpose}
    {follow follow' : Location → List Step → Except Cause Place} (h : fs.Extends fs')
    (hf : ∀ {l s}, fs.Leads l s (.taken k) → follow' l s = follow l s)
    (hs : fs.Leads l s (.taken k)) :
    fs'.stepwise purpose follow' l s = fs.stepwise purpose follow l s := by
  induction s generalizing l with
  | nil => rfl
  | cons a s ih =>
    have hd : fs.IsDirectory l := by cases hs <;> assumption
    have hget : fs'.get? l = fs.get? l := by
      obtain ⟨m, hm⟩ := hd
      exact h.get?_eq (by simp [hm])
    simp only [FileSystem.stepwise, hd, h.isDirectory hd, permits_congr h.user hget]
    cases a with
    | stay => cases hs with | stay _ hs => simp only [ih hs]
    | slash => cases hs with | slash _ hs => simp only [ih hs]
    | up => cases hs with | up _ hs => simp only [ih hs]
    | overlong => cases hs
    | name n =>
      rcases hs.name_cases with ⟨-, -, hx⟩ | ⟨target, ht, hs⟩ | ⟨e, he, hn, hs⟩
      · cases hx
      · simp only [ht, h.get? ht, hf hs]
      · simp only [he, h.get? he, ih hs]

theorem resolve_eq {purpose : Purpose} {n : Nat} (h : fs.Extends fs')
    (hs : fs.Leads l s (.taken k)) :
    fs'.resolve purpose n l s = fs.resolve purpose n l s := by
  induction n generalizing l s with
  | zero => exact h.stepwise_eq (fun _ => rfl) hs
  | succ n ih => exact h.stepwise_eq ih hs

theorem place_eq {purpose : Purpose} (h : fs.Extends fs') (hp : fs.LeadsTo p k) :
    fs'.place purpose p = fs.place purpose p := by
  unfold place
  split
  · rfl
  · rw [h.cwd]
    exact h.resolve_eq hp

end Extends

theorem LeadsTo.extend (hp : fs.LeadsTo p l) (h : fs.Extends fs') : fs'.LeadsTo p l := by
  unfold LeadsTo at hp ⊢
  rw [h.cwd]
  exact h.leads hp (by simp)

/-- Nothing differs but for new directories to which paths above `p` lead. Each was made where
the user may change the directory that it stands in. -/
structure PreparedFor (fs : FileSystem) (p : Path) (fs' : FileSystem) : Prop where
  cwd : fs'.cwd = fs.cwd
  system : fs'.system = fs.system
  get? : ∀ x, fs'.get? x = fs.get? x ∨ fs.get? x = none ∧
    fs'.get? x = some (.directory .newDirectory) ∧
    (fs.IsDirectory x.tail → fs.permitsChange x.tail = true) ∧
    ∃ q : Path, q.Above p ∧ fs'.LeadsTo q x

theorem makeDirectory_leadsTo (h : fs.makeDirectory p = .ok fs') :
    fs.Extends fs' ∧ fs'.system = fs.system ∧ ∃ d n, fs.get? (n :: d) = none ∧ fs.permitsChange d = true ∧
      fs'.LeadsTo p (n :: d) ∧
      ∀ k, fs'.get? k = if k = n :: d then some (.directory .newDirectory) else fs.get? k := by
  obtain ⟨d, n, hs, hn, hp, hc, hu, hk⟩ := makeDirectory_effect h
  have he : fs.Extends fs' := by
    refine ⟨hc, user_eq hu, ?_⟩
    intro x e hx
    rw [hk, if_neg]
    · exact hx
    · rintro rfl
      cases hn.symm.trans hx
  have hnew : fs'.get? (n :: d) = some (.directory .newDirectory) := by rw [hk, if_pos rfl]
  refine ⟨he, hu, d, n, hn, hp, ?_, hk⟩
  have hs' : fs'.Leads (start fs'.cwd p) (p.steps.filter (· ≠ .slash)) (.taken (n :: d)) := by
    rw [hc]
    apply he.leads hs
    intro d' n' hy
    cases hy
    exact ⟨_, hnew, by simp⟩
  unfold LeadsTo
  rcases p.steps_eq with h | h <;> rw [h]
  · exact hs'
  · exact hs'.append (.slash ⟨_, hnew⟩ .done)

theorem makeDirectory_empty : fs.makeDirectory ∅ ≠ .ok fs' := by
  intro h
  obtain ⟨a, ha, -⟩ := bind_eq_ok_iff.mp h
  exact throw_bind_ne_ok ha

namespace PreparedFor

theorem user (h : fs.PreparedFor p fs') : fs'.user = fs.user := user_eq h.system

theorem refl (fs : FileSystem) (p : Path) : fs.PreparedFor p fs := ⟨rfl, rfl, fun _ => .inl rfl⟩

theorem extend (h : fs.PreparedFor p fs') : fs.Extends fs' := by
  refine ⟨h.cwd, h.user, ?_⟩
  intro x e hx
  rcases h.get? x with hx' | ⟨hn, -⟩
  · exact hx'.trans hx
  · cases hn.symm.trans hx

theorem get?_of_leadsTo (h : fs.PreparedFor p fs') (hl : fs.LeadsTo p l) :
    fs'.get? l = fs.get? l := by
  rcases h.get? l with he | ⟨hn, -, -, q, hq, -⟩
  · exact he
  · obtain ⟨e, he, -⟩ := Leads.fits hl fun hs => absurd hs (Path.steps_ne_nil hq.bytes_ne_nil)
    cases hn.symm.trans he

theorem makeDirectory (h : fs.PreparedFor p fs₁) (hq : q.Above p)
    (hm : fs₁.makeDirectory q = .ok fs') : fs.PreparedFor p fs' := by
  obtain ⟨he, hs, d, n, hn, hp, hl, hk⟩ := makeDirectory_leadsTo hm
  refine ⟨he.cwd.trans h.cwd, hs.trans h.system, ?_⟩
  intro x
  rw [hk]
  split
  · next hx =>
    subst hx
    refine .inr ⟨?_, rfl, ?_, q, hq, hl⟩
    · rcases h.get? (n :: d) with hx | ⟨hx, -⟩
      · exact hx ▸ hn
      · exact hx
    · rintro ⟨m, hm⟩
      have hd : fs.get? d ≠ none := by
        rw [List.tail_cons] at hm
        simp [hm]
      exact (permitsChange_congr h.user (h.extend.get?_eq hd)).symm.trans hp
  · rcases h.get? x with hx | ⟨hx, hd, hp, r, hr, hrx⟩
    · exact .inl hx
    · exact .inr ⟨hx, hd, hp, r, hr, hrx.extend he⟩

theorem leads_below (h : fs.PreparedFor p fs') (hx : fs.get? x = none)
    (hs : ∀ a ∈ s, ∃ b, a = (Component.normal b).step) (hl : fs'.Leads x s (.taken l)) :
    fs.get? l = none ∧ l.length = x.length + s.length := by
  induction s generalizing x with
  | nil =>
    cases hl
    exact ⟨hx, rfl⟩
  | cons a s ih =>
    obtain ⟨b, rfl⟩ := hs a List.mem_cons_self
    rw [Component.step] at hl
    split at hl
    · next n _ =>
      have hn : fs.get? (n :: x) = none := by
        by_contra hn
        exact get?_suffix_ne_none hn (List.suffix_cons n x) hx
      rcases hl.name_cases with ⟨-, -, he⟩ | ⟨target, ht, -⟩ | ⟨e, -, -, hl⟩
      · cases he
      · rcases h.get? (n :: x) with he | ⟨-, he, -⟩
        · cases (ht.symm.trans he).trans hn
        · cases ht.symm.trans he
      · obtain ⟨hn, hlen⟩ := ih hn (fun c hc => hs c (List.mem_cons_of_mem _ hc)) hl
        exact ⟨hn, by simp [hlen]; omega⟩
    · cases hl

/-- A path without `..` leads nowhere that it did not lead before: it goes on from a new directory,
which is empty but for new directories above it. -/
theorem leadsTo (h : fs.PreparedFor p fs') (hp : .parent ∉ p.components) (hl : fs'.LeadsTo p l) :
    fs.LeadsTo p l := by
  have below {x : Location} (hx : fs.get? x = none) {q : Path} (hq : q.Above p)
      (hqx : fs'.LeadsTo q x) :
      fs.get? l = none ∧ x.length < l.length ∧ fs'.get? l ≠ none := by
    obtain ⟨t, ht, hn, he⟩ := hq.filter_moves_steps hp
    have hs := Leads.skip hl (skips_filter_moves p.steps)
    have hs' := Leads.skip hqx (skips_filter_moves q.steps)
    rw [start, hq.isAbsolute_eq] at hs'
    rw [he] at hs
    have hon := hs'.of_append hs
    obtain ⟨hnone, hlen⟩ := h.leads_below hx hn hon
    obtain ⟨e, hle, -⟩ := hon.fits fun h => absurd h ht
    have := List.length_pos_iff.mpr ht
    exact ⟨hnone, by omega, by simp [hle]⟩
  by_cases hnew : ∃ x, fs'.get? x ≠ fs.get? x
  · obtain ⟨x, hx⟩ := hnew
    rcases h.get? x with he | ⟨hn, -, -, q, hq, hqx⟩
    · exact absurd he hx
    obtain ⟨hnone, -, hle⟩ := below hn hq hqx
    rcases h.get? l with he | ⟨-, -, -, r, hr, hrl⟩
    · exact absurd (he.trans hnone) hle
    · exact absurd (below hnone hr hrl).2.1 (lt_irrefl _)
  · have hsame : fs' = fs := by
      refine ext ?_ h.cwd h.system
      intro x
      by_contra hx
      exact hnew ⟨x, hx⟩
    exact hsame ▸ hl

end PreparedFor

end FileSystem

end StagedInstall
