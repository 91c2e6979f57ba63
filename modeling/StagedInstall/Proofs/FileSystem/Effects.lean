import StagedInstall.FileSystem.Operations
import StagedInstall.Proofs.FileSystem.Resolution

/-! # What operations do to a file system

For each operation: where its paths led, and what stands where afterwards. A write and a copy can
also fail when the file is open already (`writeFile_failed`, `copyFile_failed`).
-/

namespace StagedInstall

section Success

variable {ε ε' α β : Type} {x : Except ε α}

theorem bind_eq_ok_iff {f : α → Except ε β} {b : β} :
    (x >>= f) = .ok b ↔ ∃ a, x = .ok a ∧ f a = .ok b := by
  cases x <;> simp [bind, Except.bind]

theorem mapError_eq_ok_iff {f : ε → ε'} {a : α} : x.mapError f = .ok a ↔ x = .ok a := by
  cases x with
  | error e =>
    have hf : (Except.error e : Except ε α).mapError f = .error (f e) := rfl
    simp [hf]
  | ok b =>
    have hf : (Except.ok b : Except ε α).mapError f = .ok b := rfl
    simp [hf]

end Success

theorem Path.exists_mem_pieces {p : Path} {c : UInt8} (h : c ∈ p.bytes) (hc : c ≠ slash) :
    ∃ s ∈ p.pieces, c ∈ s := by
  unfold pieces
  generalize p.bytes = b at h
  induction b with
  | nil => cases h
  | cons d b ih =>
    rw [List.splitOn_cons_eq_if_modifyHead]
    split
    · next hd =>
      rcases List.mem_cons.mp h with rfl | h
      · exact absurd (eq_of_beq hd) hc
      · obtain ⟨s, hs, hcs⟩ := ih h
        exact ⟨s, List.mem_cons_of_mem _ hs, hcs⟩
    · obtain ⟨t, r, ht⟩ := List.exists_cons_of_ne_nil (List.splitOn_ne_nil slash b)
      rw [ht, List.modifyHead_cons]
      rcases List.mem_cons.mp h with rfl | h
      · exact ⟨c :: t, List.mem_cons_self, List.mem_cons_self⟩
      · obtain ⟨s, hs, hcs⟩ := ih h
        rcases List.mem_cons.mp (ht ▸ hs) with rfl | hs
        · exact ⟨d :: s, List.mem_cons_self, List.mem_cons_of_mem d hcs⟩
        · exact ⟨s, List.mem_cons_of_mem _ hs, hcs⟩

theorem Path.steps_ne_nil {p : Path} (h : p.bytes ≠ []) : p.steps ≠ [] := by
  unfold steps
  split
  · simp
  · next hs =>
    rw [List.getLast?_eq_some_getLast h, Option.some.injEq] at hs
    obtain ⟨s, hm, hc⟩ := exists_mem_pieces (List.getLast_mem h) hs
    have hn : s ≠ [] := List.ne_nil_of_mem hc
    have hf : s ∈ p.pieces.filter (· ≠ []) := List.mem_filter.mpr ⟨hm, by simpa using hn⟩
    simpa using List.ne_nil_of_mem hf

namespace Storage

theorem take_cases (s : Storage) (l : Location) (content : Bytes) :
    s.take l content = (content, none) ∨ ∃ n cause, s.limit? l = some (n, cause) ∧
      n < content.length ∧ s.take l content = (content.take n, some cause) := by
  cases h : s.limit? l with
  | none => exact .inl (by simp only [take, h])
  | some x =>
    obtain ⟨n, cause⟩ := x
    by_cases hn : content.length ≤ n
    · exact .inl (by simp only [take, h, if_pos hn])
    · exact .inr ⟨n, cause, rfl, Nat.lt_of_not_le hn, by simp only [take, h, if_neg hn]⟩

/-- What one storage takes the other one takes as well. -/
structure Eases (s s' : Storage) : Prop where
  refusal : ∀ l, s.refusal? l = none → s'.refusal? l = none
  take : ∀ l content, s.take l content = (content, none) → s'.take l content = (content, none)

theorem Eases.refl (s : Storage) : s.Eases s := ⟨fun _ h => h, fun _ _ h => h⟩

theorem Eases.of_eq {s s' : Storage} (h : s' = s) : s.Eases s' := h ▸ .refl s

end Storage

namespace FileSystem

variable {fs fs' : FileSystem} {purpose : Purpose} {p q : Path} {l : Location} {e : Entry}
  {x : Place}

theorem place_leads (h : fs.place purpose p = .ok x) :
    fs.Leads (start fs.cwd p) p.steps x ∧ fs.Fits x := by
  unfold place at h
  split at h
  · cases h
  · next hr =>
    have hs := resolve_leads h
    refine ⟨hs, hs.fits ?_⟩
    intro hn
    refine absurd hn (Path.steps_ne_nil ?_)
    intro hb
    simp [refusal?, hb] at hr

theorem stepwise_existing {follow follow' : Location → List Step → Except Cause Place}
    {s : List Step} (hf : ∀ {l s x}, follow l s = .ok x → follow' l s = .ok x)
    (h : fs.stepwise purpose follow l s = .ok x) : fs.stepwise .existing follow' l s = .ok x := by
  induction s generalizing l with
  | nil => exact h
  | cons a s ih =>
    simp only [stepwise] at h ⊢
    split at h
    · cases h
    next hd =>
    rw [if_neg hd]
    split at h
    · cases h
    next hp =>
    rw [if_neg hp]
    cases a with
    | stay | slash | up => exact ih h
    | overlong => dsimp only at h; split at h <;> cases h
    | name n =>
      rw [if_neg (by simp)]
      dsimp only at h ⊢
      split at h
      · cases h
      split at h
      · exact h
      · exact hf h
      · exact ih h

theorem resolve_existing {k : Nat} {s : List Step} (h : fs.resolve purpose k l s = .ok x) :
    fs.resolve .existing k l s = .ok x := by
  induction k generalizing l s x with
  | zero =>
    apply stepwise_existing _ h
    intro l s x h
    cases h
  | succ k ih => exact stepwise_existing ih h

/-- What is found when a file may be created is also found when it may not. -/
theorem place_existing (h : fs.place purpose p = .ok x) : fs.place .existing p = .ok x := by
  unfold place at h ⊢
  split at h
  · cases h
  · exact resolve_existing h

theorem locate_eq_ok_iff_place : fs.locate p = .ok l ↔ fs.place .existing p = .ok (.taken l) := by
  rw [locate, bind_eq_ok_iff]
  constructor
  · rintro ⟨x, hx, h⟩
    cases x with
    | taken => cases h; exact hx
    | free => cases h
  · intro h
    exact ⟨_, h, rfl⟩

theorem locate_leads (h : fs.locate p = .ok l) :
    fs.LeadsTo p l ∧ ∃ e, fs.get? l = some e ∧ ∀ target, e ≠ .link target :=
  place_leads (locate_eq_ok_iff_place.mp h)

theorem stat_leads (h : fs.stat p = .ok e) : ∃ l, fs.LeadsTo p l ∧ fs.get? l = some e := by
  obtain ⟨l, hl, h⟩ := bind_eq_ok_iff.mp h
  refine ⟨l, (locate_leads hl).1, ?_⟩
  split at h
  · next he => cases h; exact he
  · cases h

theorem stat_of_locate (h : fs.locate p = .ok l) (he : fs.get? l = some e) : fs.stat p = .ok e := by
  rw [stat, h]
  simp only [bind, Except.bind, he]

theorem any_stat_iff {f : Entry → Bool} :
    (fs.stat p).toOption.any f = true ↔ ∃ e, fs.stat p = .ok e ∧ f e = true := by
  cases fs.stat p with
  | error => simp [Except.toOption]
  | ok e => simp [Except.toOption]

theorem isFile_eq_true_iff : fs.isFile p = true ↔ ∃ m c, fs.stat p = .ok (.file m c) := by
  rw [isFile, any_stat_iff]
  constructor
  · rintro ⟨e, he, hf⟩
    cases e with
    | file m c => exact ⟨m, c, he⟩
    | directory | link | device => cases hf
  · rintro ⟨m, c, he⟩
    exact ⟨_, he, rfl⟩

theorem isDirectory_eq_true_iff :
    fs.isDirectory p = true ↔ ∃ m, fs.stat p = .ok (.directory m) := by
  rw [isDirectory, any_stat_iff]
  constructor
  · rintro ⟨e, he, hf⟩
    cases e with
    | directory m => exact ⟨m, he⟩
    | file | link | device => cases hf
  · rintro ⟨m, he⟩
    exact ⟨_, he, rfl⟩

theorem openForReading_eq_ok_iff :
    fs.openForReading p = .ok l ↔ fs.locate p = .ok l ∧ fs.permits .read l = true := by
  rw [openForReading, bind_eq_ok_iff]
  constructor
  · rintro ⟨k, hk, h⟩
    split at h
    · next hp =>
      cases h
      exact ⟨hk, hp⟩
    · cases h
  · rintro ⟨hl, hp⟩
    exact ⟨l, hl, if_pos hp⟩

theorem openForReading_leads (h : fs.openForReading p = .ok l) : fs.LeadsTo p l := by
  obtain ⟨k, hk, h⟩ := bind_eq_ok_iff.mp h
  split at h
  · cases h; exact (locate_leads hk).1
  · cases h

theorem openForWriting_eq_ok_iff : fs.openForWriting p = .ok l ↔
    (fs.place .creating p = .ok (.taken l) ∧ ¬ fs.IsDirectory l ∧ fs.permits .write l = true) ∨
    ∃ d n, l = n :: d ∧ fs.place .creating p = .ok (.free d n) ∧ fs.permitsChange d = true := by
  rw [openForWriting, bind_eq_ok_iff]
  constructor
  · rintro ⟨x, hx, h⟩
    cases x with
    | taken k =>
      dsimp only at h
      split at h
      · cases h
      next hd =>
      split at h
      · next hw =>
        cases h
        exact .inl ⟨hx, hd, hw⟩
      · cases h
    | free d n =>
      dsimp only at h
      split at h
      · next hc =>
        cases h
        exact .inr ⟨d, n, rfl, hx, hc⟩
      · cases h
  · rintro (⟨hx, hd, hw⟩ | ⟨d, n, rfl, hx, hc⟩)
    · exact ⟨_, hx, (if_neg hd).trans (if_pos hw)⟩
    · exact ⟨_, hx, if_pos hc⟩

theorem openForWriting_leads (h : fs.openForWriting p = .ok l) :
    (fs.LeadsTo p l ∧ fs.get? l ≠ none ∧ ¬ fs.IsDirectory l) ∨
    ∃ d n, l = n :: d ∧ fs.Leads (start fs.cwd p) p.steps (.free d n) ∧ fs.IsDirectory d ∧
      fs.get? l = none := by
  rcases openForWriting_eq_ok_iff.mp h with ⟨hx, hd, -⟩ | ⟨d, n, rfl, hx, -⟩
  · obtain ⟨hs, e, he, -⟩ := place_leads hx
    exact .inl ⟨hs, by simp [he], hd⟩
  · exact .inr ⟨d, n, rfl, place_leads hx⟩

theorem locate_of_openForWriting (h : fs.openForWriting p = .ok l) (he : fs.get? l ≠ none) :
    fs.locate p = .ok l := by
  rcases openForWriting_eq_ok_iff.mp h with ⟨hx, -⟩ | ⟨d, n, rfl, hx, -⟩
  · exact locate_eq_ok_iff_place.mpr (place_existing hx)
  · exact absurd (place_leads hx).2.2 he

theorem stat_of_openForWriting (h : fs.openForWriting p = .ok l) (he : fs.get? l = some e) :
    fs.stat p = .ok e := by
  refine bind_eq_ok_iff.mpr ⟨l, locate_of_openForWriting h (by simp [he]), ?_⟩
  rw [he]

theorem not_isDirectory (h : fs.get? l = some e) (he : e.isDirectory = false) :
    ¬ fs.IsDirectory l := by
  rintro ⟨m, hm⟩
  cases h.symm.trans hm
  cases he

theorem not_isDirectory_of_none (h : fs.get? l = none) : ¬ fs.IsDirectory l := by
  rintro ⟨m, hm⟩
  cases h.symm.trans hm

theorem isDirectory_tail (h : fs.get? l ≠ none) (hl : l ≠ []) : fs.IsDirectory l.tail := by
  cases l with
  | nil => exact absurd rfl hl
  | cons n l => exact fs.isDirectory_of_get? h

theorem admits_withPermissions (h : fs.get? l = some e) (m : Permissions) :
    fs.Admits l (e.withPermissions m) := by
  refine ⟨isDirectory_tail (by simp [h]), ?_⟩
  rintro ⟨q, hq⟩
  cases h.symm.trans hq
  rfl

theorem admits_of_not_isDirectory (h : l ≠ [] → fs.IsDirectory l.tail)
    (hl : ¬ fs.IsDirectory l) (e : Entry) : fs.Admits l e :=
  ⟨h, fun hd => absurd hd hl⟩

theorem setMode_eq_ok_iff {m : Mode} : fs.setMode p m = .ok fs' ↔
    ∃ l e, fs.locate p = .ok l ∧ fs.storage.refusal? l = none ∧ fs.get? l = some e ∧
      fs' = fs.put l (e.withPermissions m.permissions) := by
  rw [setMode, bind_eq_ok_iff]
  constructor
  · rintro ⟨l, hl, h⟩
    split at h
    · cases h
    · next hr he =>
      cases h
      exact ⟨l, _, hl, hr, he, rfl⟩
    · cases h
  · rintro ⟨l, e, hl, hr, he, rfl⟩
    refine ⟨l, hl, ?_⟩
    rw [hr, he]

theorem setMode_of_locate {m : Mode} (h : fs.locate p = .ok l)
    (hr : fs.storage.refusal? l = none) (he : fs.get? l = some e) :
    fs.setMode p m = .ok (fs.put l (e.withPermissions m.permissions)) :=
  setMode_eq_ok_iff.mpr ⟨l, e, h, hr, he, rfl⟩

theorem setMode_effect {m : Mode} (h : fs.setMode p m = .ok fs') :
    ∃ l e, fs.LeadsTo p l ∧ fs.get? l = some e ∧ (∀ target, e ≠ .link target) ∧
      fs'.cwd = fs.cwd ∧ fs'.system = fs.system ∧
      ∀ k, fs'.get? k = if k = l then some (e.withPermissions m.permissions) else fs.get? k := by
  obtain ⟨l, e, hl, -, he, rfl⟩ := setMode_eq_ok_iff.mp h
  obtain ⟨hp, e', he', hn⟩ := locate_leads hl
  cases he.symm.trans he'
  exact ⟨l, e, hp, he, hn, fs.put_cwd .., fs.put_system ..,
    fs.get?_put (admits_withPermissions he _)⟩

theorem setMode_sameShape {m : Mode} (h : fs.setMode p m = .ok fs') : fs.SameShape fs' := by
  obtain ⟨l, e, -, he, -, hc, -, hk⟩ := setMode_effect h
  refine ⟨?_, hc⟩
  intro k
  rw [hk]
  split
  · next hkl => rw [hkl, he, Option.map_some, Option.map_some, Entry.bare_withPermissions]
  · rfl

theorem get?_fill (h : l ≠ [] → fs.IsDirectory l.tail) (hl : ¬ fs.IsDirectory l) (e : Entry)
    (k : Location) :
    (fs.fill l e).get? k =
      if k = l ∧ ¬ (∃ m, fs.get? l = some (.device m)) then some e else fs.get? k := by
  unfold fill
  split
  · next m hm => simp [hm]
  · next hm =>
    have hd : ¬ ∃ m, fs.get? l = some (.device m) := by
      rintro ⟨m, h⟩
      exact hm m h
    rw [get?_put fs (admits_of_not_isDirectory h hl e)]
    simp only [hd, not_false_eq_true, and_true]

theorem fill_cwd (l : Location) (e : Entry) : (fs.fill l e).cwd = fs.cwd := by
  unfold fill
  split
  · rfl
  · exact fs.put_cwd l e

theorem fill_system (l : Location) (e : Entry) : (fs.fill l e).system = fs.system := by
  unfold fill
  split
  · rfl
  · exact fs.put_system l e

theorem get?_fill_of_opened (h : fs.openForWriting p = .ok l) (e : Entry) (k : Location) :
    (fs.fill l e).get? k =
      if k = l ∧ ¬ (∃ m, fs.get? l = some (.device m)) then some e else fs.get? k := by
  rcases openForWriting_leads h with ⟨-, he, hd⟩ | ⟨d, n, rfl, -, hd, hn⟩
  · exact get?_fill (isDirectory_tail he) hd e k
  · exact get?_fill (fun _ => hd) (not_isDirectory_of_none hn) e k

/-- A write that succeeds touches one location. A file that stood there keeps its permissions, but
for what an ordinary user's write takes from them. -/
theorem writeFile_effect {content : Bytes} (h : fs.writeFile p content = (fs', none)) :
    ∃ l, fs.openForWriting p = .ok l ∧ fs.storage.take l content = (content, none) ∧
      fs' = fs.fill l (.file (fs.emptied l .newFile) content) := by
  unfold writeFile at h
  split at h
  · cases h
  next l hl =>
  rcases fs.storage.take_cases l content with ht | ⟨n, cause, -, -, ht⟩ <;> rw [ht] at h
  · cases h
    exact ⟨l, hl, ht, rfl⟩
  · cases h

theorem writeFile_failed {content : Bytes} {cause : Cause}
    (h : fs.writeFile p content = (fs', some cause)) :
    fs' = fs ∨ ∃ l n, fs.openForWriting p = .ok l ∧ fs.storage.limit? l = some (n, cause) ∧
      n < content.length ∧ fs' = fs.fill l (.file (fs.emptied l .newFile) (content.take n)) := by
  unfold writeFile at h
  split at h
  · cases h
    exact .inl rfl
  next l hl =>
  rcases fs.storage.take_cases l content with ht | ⟨n, cause, hn, hlt, ht⟩ <;> rw [ht] at h
  · cases h
  · cases h
    exact .inr ⟨l, n, hl, hn, hlt, rfl⟩

theorem rewritten_congr (h : fs'.user = fs.user) (m : Permissions) :
    fs'.rewritten m = fs.rewritten m := by
  rw [rewritten, rewritten, h]

theorem written_congr (h : fs'.user = fs.user) (m : Permissions) (s : Bytes) :
    fs'.written m s = fs.written m s := by
  rw [written, written, rewritten_congr h]

theorem grants_rewritten (fs : FileSystem) (m : Permissions) (a : Access) :
    (fs.rewritten m).grants a = m.grants a := by
  unfold rewritten
  split
  · rfl
  · exact m.grants_withoutSetId a

theorem grants_written (fs : FileSystem) (m : Permissions) (s : Bytes) (a : Access) :
    (fs.written m s).grants a = m.grants a := by
  unfold written
  split
  · rfl
  · exact fs.grants_rewritten m a

/-- The storage takes what a copy writes to an opened location. -/
def Accepts (fs : FileSystem) (l : Location) (content : Bytes) : Prop :=
  fs.copyRefusal? l = none ∧ fs.storage.take l content = (content, none)

/-- The files of a copy are opened: `content` is read from the source and written to `l`. -/
structure OpensBoth (fs : FileSystem) (p q : Path) (l : Location) (m : Permissions)
    (content : Bytes) : Prop where
  source : ∃ o s, fs.openForReading p = .ok o ∧ fs.get? o = some (.file m s) ∧
    content = if l = o then [] else s
  target : fs.openForWriting q = .ok l

/-- What a copy leaves that fails when its target is open: an empty file if the bits of the source
were refused, and otherwise as much of the content as there was room for. -/
inductive CutShort (fs : FileSystem) (l : Location) (m : Permissions) (content : Bytes) :
    FileSystem → Cause → Prop
  | refused {cause} (h : fs.copyRefusal? l = some cause) :
      CutShort fs l m content (fs.fill l (.file (fs.emptied l m.masked) [])) cause
  | full {n cause} (hr : fs.copyRefusal? l = none) (h : fs.storage.limit? l = some (n, cause))
      (hn : n < content.length) :
      CutShort fs l m content (fs.fill l (.file (fs.written m content) (content.take n))) cause

theorem copyRefusal?_eased (h : fs.copyRefusal? l = none) (hs : fs.storage.Eases fs'.storage)
    (hd : ∀ m, fs'.get? l = some (.device m) ↔ fs.get? l = some (.device m)) :
    fs'.copyRefusal? l = none := by
  unfold copyRefusal? at h ⊢
  split
  · rfl
  next hn =>
  split at h
  · next m hm => exact absurd ((hd m).mpr hm) (hn m)
  · exact hs.refusal l h

theorem Accepts.eased {content : Bytes} (h : fs.Accepts l content)
    (hs : fs.storage.Eases fs'.storage)
    (hd : ∀ m, fs'.get? l = some (.device m) ↔ fs.get? l = some (.device m)) :
    fs'.Accepts l content :=
  ⟨copyRefusal?_eased h.1 hs hd, hs.take l content h.2⟩

theorem copyFile_of_accepts {m : Permissions} {content : Bytes} (h : fs.OpensBoth p q l m content)
    (ha : fs.Accepts l content) :
    fs.copyFile p q = (fs.fill l (.file (fs.written m content) content), none) := by
  obtain ⟨⟨o, s, ho, hs, rfl⟩, hl⟩ := h
  simp only [copyFile, ho, hs, hl, ha.1, ha.2]

theorem copyFile_of_opensBoth {m : Permissions} {content : Bytes} (h : fs.OpensBoth p q l m content) :
    (fs.Accepts l content ∧
      fs.copyFile p q = (fs.fill l (.file (fs.written m content) content), none)) ∨
    ∃ fs' cause, fs.CutShort l m content fs' cause ∧ fs.copyFile p q = (fs', some cause) := by
  obtain ⟨⟨o, s, ho, hs, rfl⟩, hl⟩ := h
  simp only [copyFile, ho, hs, hl]
  cases hr : fs.copyRefusal? l with
  | some cause => exact .inr ⟨_, cause, .refused hr, rfl⟩
  | none =>
    rcases fs.storage.take_cases l (if l = o then [] else s) with ht | ⟨n, cause, hn, hlt, ht⟩
    · exact .inl ⟨⟨hr, ht⟩, by simp only [ht]⟩
    · exact .inr ⟨_, cause, .full hr hn hlt, by simp only [ht]⟩

theorem copyFile_cases (fs : FileSystem) (p q : Path) :
    (∃ l m content, fs.OpensBoth p q l m content) ∨ ∃ cause, fs.copyFile p q = (fs, some cause) := by
  cases ho : fs.openForReading p with
  | error cause => exact .inr ⟨cause, by simp only [copyFile, ho]⟩
  | ok o =>
    by_cases hs : ∃ m s, fs.get? o = some (.file m s)
    · obtain ⟨m, s, hs⟩ := hs
      cases hl : fs.openForWriting q with
      | error cause => exact .inr ⟨cause, by simp only [copyFile, ho, hs, hl]⟩
      | ok l => exact .inl ⟨l, m, _, ⟨o, s, ho, hs, rfl⟩, hl⟩
    · refine .inr ⟨.notRegular, ?_⟩
      unfold copyFile
      rw [ho]
      dsimp only
      split
      · next m s h => exact absurd ⟨m, s, h⟩ hs
      · rfl

theorem copyFile_effect (h : fs.copyFile p q = (fs', none)) :
    ∃ l m content, fs.OpensBoth p q l m content ∧ fs.Accepts l content ∧
      fs' = fs.fill l (.file (fs.written m content) content) := by
  rcases fs.copyFile_cases p q with ⟨l, m, content, ho⟩ | ⟨cause, hc⟩
  · rcases copyFile_of_opensBoth ho with ⟨ha, hc⟩ | ⟨_, _, _, hc⟩
    · cases h.symm.trans hc
      exact ⟨l, m, content, ho, ha, rfl⟩
    · cases h.symm.trans hc
  · cases h.symm.trans hc

theorem copyFile_failed {cause : Cause} (h : fs.copyFile p q = (fs', some cause)) :
    fs' = fs ∨ ∃ l m content, fs.OpensBoth p q l m content ∧ fs.CutShort l m content fs' cause := by
  rcases fs.copyFile_cases p q with ⟨l, m, content, ho⟩ | ⟨_, hc⟩
  · rcases copyFile_of_opensBoth ho with ⟨-, hc⟩ | ⟨_, _, hcut, hc⟩
    · cases h.symm.trans hc
    · cases h.symm.trans hc
      exact .inr ⟨l, m, content, ho, hcut⟩
  · cases h.symm.trans hc
    exact .inl rfl

theorem copyFile_fills {r : Option Cause} (h : fs.copyFile p q = (fs', r)) :
    fs' = fs ∨ ∃ l m s, fs.openForWriting q = .ok l ∧ fs' = fs.fill l (.file m s) := by
  cases r with
  | none =>
    obtain ⟨l, m, s, ho, -, rfl⟩ := copyFile_effect h
    exact .inr ⟨l, _, s, ho.target, rfl⟩
  | some cause =>
    rcases copyFile_failed h with rfl | ⟨l, m, s, ho, hc⟩
    · exact .inl rfl
    · cases hc with
      | refused => exact .inr ⟨l, _, [], ho.target, rfl⟩
      | full => exact .inr ⟨l, _, _, ho.target, rfl⟩

theorem writeFile_fills {content : Bytes} {r : Option Cause}
    (h : fs.writeFile p content = (fs', r)) :
    fs' = fs ∨ ∃ l m s, fs.openForWriting p = .ok l ∧ fs' = fs.fill l (.file m s) := by
  cases r with
  | none =>
    obtain ⟨l, hl, -, rfl⟩ := writeFile_effect h
    exact .inr ⟨l, _, content, hl, rfl⟩
  | some cause =>
    rcases writeFile_failed h with rfl | ⟨l, n, hl, -, -, rfl⟩
    · exact .inl rfl
    · exact .inr ⟨l, _, _, hl, rfl⟩

theorem splitLast_eq_name {s : List Step} {n : Name} {slashed : Bool}
    (h : splitLast p = (s, .name n slashed)) : p.steps.filter (· ≠ .slash) = s ++ [.name n] := by
  simp only [splitLast] at h
  split at h
  · next m hm =>
    obtain ⟨r, hr⟩ := List.getLast?_eq_some_iff.mp hm
    simp only [hr, List.dropLast_concat, Prod.mk.injEq, LastStep.name.injEq] at h
    rw [hr, h.1, h.2.1]
  · cases h
  · cases h

theorem throw_bind_ne_ok {α β : Type} {cause : Cause} {f : α → Except Cause β} {b : β} :
    ¬ (throw cause >>= f) = .ok b := by
  simp [throw, throwThe, MonadExceptOf.throw, bind, Except.bind]

theorem locateEntry_leads {d : Location} {n : Name} {slashed : Bool}
    (h : fs.locateEntry p = .ok (d, .name n slashed)) :
    fs.IsDirectory d ∧ ∃ s, p.steps.filter (· ≠ .slash) = s ++ [.name n] ∧
      fs.Leads (start fs.cwd p) s (.taken d) := by
  simp only [locateEntry] at h
  split at h
  · exact absurd h throw_bind_ne_ok
  obtain ⟨x, hx, h⟩ := bind_eq_ok_iff.mp h
  have hs := resolve_leads hx
  cases x with
  | free => cases h
  | taken d' =>
    dsimp only at h
    split at h
    · exact absurd h throw_bind_ne_ok
    next hd =>
    split at h
    · exact absurd h throw_bind_ne_ok
    simp only [pure, Except.pure, Except.ok.injEq, Prod.mk.injEq] at h
    obtain ⟨rfl, hlast⟩ := h
    exact ⟨Decidable.not_not.mp hd, _, splitLast_eq_name (Prod.ext rfl hlast), hs⟩

theorem makeDirectory_effect (h : fs.makeDirectory p = .ok fs') :
    ∃ d n, fs.Leads (start fs.cwd p) (p.steps.filter (· ≠ .slash)) (.free d n) ∧
      fs.get? (n :: d) = none ∧ fs.permitsChange d = true ∧ fs'.cwd = fs.cwd ∧
      fs'.system = fs.system ∧
      ∀ k, fs'.get? k = if k = n :: d then some (.directory .newDirectory) else fs.get? k := by
  obtain ⟨⟨d, last⟩, hl, h⟩ := bind_eq_ok_iff.mp h
  cases last with
  | unnamed => cases h
  | overlong => cases h
  | name n slashed =>
    dsimp only at h
    split at h
    · cases h
    next hn =>
    have hn : fs.get? (n :: d) = none := Decidable.not_not.mp hn
    split at h
    · next hp =>
      cases h
      obtain ⟨hd, s, hs, hsd⟩ := locateEntry_leads hl
      have ha : fs.Admits (n :: d) (.directory .newDirectory) := ⟨fun _ => hd, fun _ => rfl⟩
      exact ⟨d, n, hs ▸ hsd.append (.free hd hn), hn, hp, fs.put_cwd .., fs.put_system ..,
        fs.get?_put ha⟩
    · cases h

section MakeAlong

variable {motive : FileSystem → Prop} {ps : List Path}

/-- What holds before, and is kept by every single directory that is made for one of the paths,
holds afterwards, whether all of them could be made or not. -/
theorem makeAlong_induction (h : motive fs)
    (hstep : ∀ {fs fs' : FileSystem} {q : Path}, q ∈ ps → motive fs →
      fs.makeDirectory q = .ok fs' → motive fs') : motive (fs.makeAlong ps).1 := by
  induction ps with
  | nil => exact h
  | cons p above ih =>
    have ih := ih fun hq => hstep (List.mem_cons_of_mem p hq)
    unfold makeAlong
    dsimp only
    split
    · exact h
    split
    · next hp => exact hstep List.mem_cons_self h hp
    · split
      · next hm =>
        rw [hm] at ih
        exact ih
      · next hm =>
        rw [hm] at ih
        split
        · next hp => exact hstep List.mem_cons_self ih hp
        · exact ih
    · exact h

end MakeAlong

end FileSystem

end StagedInstall
