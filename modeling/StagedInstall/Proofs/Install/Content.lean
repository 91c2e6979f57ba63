import StagedInstall.Install.Basic
import StagedInstall.Proofs.FileSystem.Effects

/-! # Copies that are up to date

A copy is up to date when its target is a regular file and what its source leads to has the same
length and the same digest (`Copy.isUpToDate_of_isFile`). Only such a copy leaves the file system
alone; every other one that succeeds makes directories and then writes its target
(`Copy.perform_cases`).
-/

namespace StagedInstall

def Entry.content? : Entry → Option Bytes
  | file _ content => some content
  | device _ => some []
  | _ => none

theorem Entry.length_of_content? {e : Entry} {s : Bytes} (h : e.content? = some s) :
    e.length = s.length := by
  cases e with
  | file | device => cases h; rfl
  | directory | link => cases h

def digest (content : Bytes) : String :=
  hashChunks (chunksWithin chunkSize content.length content)

variable {fs fs' : FileSystem} {p : Path} {l : Location} {e : Entry} {s : Bytes} {d : String}
  {b : Bool} {c : Copy} {o : CopyOutcome}

namespace FileSystem

theorem readFile_of_open (h : fs.openForReading p = .ok l) (he : fs.get? l = some e)
    (hs : e.content? = some s) : fs.readFile p = .ok s := by
  rw [readFile, h]
  simp only [bind, Except.bind, he]
  cases e with
  | file | device => cases hs; rfl
  | directory | link => cases hs

theorem exists_of_readFile (h : fs.readFile p = .ok s) :
    ∃ l e, fs.openForReading p = .ok l ∧ fs.get? l = some e ∧ e.content? = some s := by
  obtain ⟨l, hl, h⟩ := bind_eq_ok_iff.mp h
  refine ⟨l, ?_⟩
  split at h
  · next he => cases h; exact ⟨_, hl, he, rfl⟩
  · next he => cases h; exact ⟨_, hl, he, rfl⟩
  · cases h

theorem readFile_leads (h : fs.readFile p = .ok s) :
    ∃ l e, fs.LeadsTo p l ∧ fs.get? l = some e ∧ e.content? = some s := by
  obtain ⟨l, e, hl, he, hs⟩ := exists_of_readFile h
  exact ⟨l, e, openForReading_leads hl, he, hs⟩

theorem hashFile_eq_ok_iff {d : String} :
    fs.hashFile p = .ok d ↔ ∃ s, fs.readFile p = .ok s ∧ d = digest s := by
  rw [hashFile, bind_eq_ok_iff]
  simp only [mapError_eq_ok_iff]
  constructor
  · rintro ⟨s, hs, h⟩
    cases h
    exact ⟨s, hs, rfl⟩
  · rintro ⟨s, hs, rfl⟩
    exact ⟨s, hs, rfl⟩

theorem hashFile_leads (h : fs.hashFile p = .ok d) :
    ∃ l e s, fs.LeadsTo p l ∧ fs.get? l = some e ∧ e.content? = some s ∧ d = digest s := by
  obtain ⟨s, hs, hd⟩ := hashFile_eq_ok_iff.mp h
  obtain ⟨l, e, hl, he, hc⟩ := readFile_leads hs
  exact ⟨l, e, s, hl, he, hc, hd⟩

/-- What holds before, and is kept by every single directory that is made above a path, holds
after all of them. -/
theorem makeParents_induction {motive : FileSystem → Prop} {e : Option InstallError}
    (h : fs.makeParents p = (fs', e)) (hfs : motive fs)
    (hstep : ∀ {dir q : Path} {fs fs' : FileSystem}, p.parent? = some dir →
      q ∈ lineage (dir.bytes.length + 1) dir → motive fs → fs.makeDirectory q = .ok fs' →
        motive fs') : motive fs' := by
  obtain rfl : (fs.makeParents p).1 = fs' := congrArg Prod.fst h
  unfold makeParents
  split
  · exact hfs
  next dir hdir =>
  have key : motive (fs.makeDirectories dir).1 := makeAlong_induction hfs (hstep hdir)
  split <;> next hm => rwa [hm] at key

end FileSystem

namespace Copy

theorem isFile_of_isUpToDate (h : c.isUpToDate fs = .ok true) : fs.isFile c.target = true := by
  unfold isUpToDate at h
  split at h
  · next hf => exact hf
  · cases h

theorem isUpToDate_of_isFile (hf : fs.isFile c.target = true) (h : c.isUpToDate fs = .ok b) :
    ∃ l m t k e, fs.LeadsTo c.target l ∧ fs.get? l = some (.file m t) ∧
      fs.LeadsTo c.source k ∧ fs.get? k = some e ∧
      (b = true ↔ ∃ s, e.content? = some s ∧ t.length = s.length ∧ digest t = digest s) := by
  rw [isUpToDate, if_pos hf] at h
  obtain ⟨e, he, h⟩ := bind_eq_ok_iff.mp h
  obtain ⟨e', he', h⟩ := bind_eq_ok_iff.mp h
  obtain ⟨m, t, ht⟩ := FileSystem.isFile_eq_true_iff.mp hf
  obtain rfl : e' = .file m t := Except.ok.inj ((mapError_eq_ok_iff.mp he').symm.trans ht)
  obtain ⟨l, hl, hm⟩ := FileSystem.stat_leads ht
  obtain ⟨k, hk, hke⟩ := FileSystem.stat_leads (mapError_eq_ok_iff.mp he)
  refine ⟨l, m, t, k, e, hl, hm, hk, hke, ?_⟩
  split at h
  · next hlen =>
    cases h
    refine iff_of_false (by simp) ?_
    rintro ⟨s, hs, hts, -⟩
    exact hlen ((Entry.length_of_content? hs).trans hts.symm)
  · next hlen =>
    obtain ⟨ds, hds, h⟩ := bind_eq_ok_iff.mp h
    obtain ⟨dt, hdt, h⟩ := bind_eq_ok_iff.mp h
    cases h
    obtain ⟨k', e', s, hk', hke', hs, rfl⟩ := FileSystem.hashFile_leads hds
    obtain ⟨l', f, t', hl', hlf, ht', rfl⟩ := FileSystem.hashFile_leads hdt
    cases hk.unique hk'
    cases hl.unique hl'
    cases hke.symm.trans hke'
    cases hm.symm.trans hlf
    cases ht'
    have hlen : t.length = s.length :=
      (Decidable.not_not.mp hlen).symm.trans (Entry.length_of_content? hs)
    rw [decide_eq_true_iff]
    constructor
    · intro hd
      exact ⟨s, hs, hlen, hd.symm⟩
    · rintro ⟨s', hs', -, hd⟩
      cases hs.symm.trans hs'
      exact hd.symm

theorem perform_cases (h : c.perform fs = (fs', .ok o)) :
    (o = .upToDate ∧ c.isUpToDate fs = .ok true ∧ fs' = fs) ∨
    (o = .copied ∧ c.isUpToDate fs = .ok false ∧ ∃ fs₁, fs.makeParents c.target = (fs₁, none) ∧
      fs₁.copyFile c.source c.target = (fs', none)) := by
  unfold perform at h
  split at h
  · cases h
  · next hu =>
    cases h
    exact .inl ⟨rfl, hu, rfl⟩
  · next hu =>
    split at h
    · cases h
    next fs₁ hm =>
    split at h
    · cases h
    next hc =>
    cases h
    exact .inr ⟨rfl, hu, fs₁, hm, hc⟩

end Copy

end StagedInstall
