import StagedInstall.Proofs.Digest.Standard
import StagedInstall.Proofs.Install.Content

/-! # What the comparison of content says

The pieces in which a file is read make up its content (`flatten_chunksWithin`), so its digest is
that of the whole content. Two regular files of one length that can both be opened therefore
compare as their digests do. Where one of the files cannot be looked up or opened, the comparison
names the first that cannot (`FileSystem.sameContent_compares`).
-/

namespace StagedInstall

variable {fs : FileSystem} {p q : Path} {e f : Entry} {s t : Bytes} {cause : Cause}
  {size fuel : Nat} {c b : Bytes}

/-! ### The pieces of a content -/

theorem flatten_chunksWithin (hs : 0 < size) (h : b.length ≤ fuel) :
    (chunksWithin size fuel b).flatten = b := by
  induction fuel generalizing b with
  | zero => exact (List.length_eq_zero_iff.mp (Nat.le_zero.mp h)).symm
  | succ fuel ih =>
    unfold chunksWithin
    split
    · next hb => rw [hb, List.flatten_nil]
    · next hb =>
      have hpos : 0 < b.length := List.length_pos_iff.mpr hb
      have hdrop : (b.drop size).length ≤ fuel := by
        rw [List.length_drop]
        omega
      rw [List.flatten_cons, ih hdrop, List.take_append_drop]

theorem hashChunks_eq (chunks : List Bytes) :
    hashChunks chunks = Sha1.hex (Sha1.digest chunks.flatten) :=
  congrArg Sha1.hex (Sha1.Hasher.finalize_foldl_update chunks)

theorem digest_eq (s : Bytes) : digest s = Sha1.hex (Sha1.digest s) := by
  rw [digest, hashChunks_eq, flatten_chunksWithin (by decide) (Nat.le_refl s.length)]

namespace FileSystem

/-- The path leads to a regular file with the content `s`. -/
def Contains (fs : FileSystem) (p : Path) (s : Bytes) : Prop := ∃ m, fs.stat p = .ok (.file m s)

/-- What the path leads to can be opened for reading. -/
def Opens (fs : FileSystem) (p : Path) : Prop := ∃ l, fs.openForReading p = .ok l

/-! ### The digest of one file -/

theorem Contains.readFile (hp : fs.Contains p s) (ho : fs.Opens p) : fs.readFile p = .ok s := by
  obtain ⟨m, hp⟩ := hp
  obtain ⟨l, ho⟩ := ho
  obtain ⟨k, hk, he⟩ := stat_leads hp
  obtain rfl : k = l := hk.unique (openForReading_leads ho)
  exact readFile_of_open ho he rfl

theorem Contains.hashFile (hp : fs.Contains p s) (ho : fs.Opens p) :
    fs.hashFile p = .ok (digest s) :=
  hashFile_eq_ok_iff.mpr ⟨s, hp.readFile ho, rfl⟩

theorem hashFile_of_denied (h : fs.openForReading p = .error cause) :
    fs.hashFile p = .error (.file .hash p cause) := by
  rw [hashFile, FileSystem.readFile, h]
  rfl

/-! ### Two files -/

theorem sameContent_of_stat (hp : fs.stat p = .ok e) (hq : fs.stat q = .ok f) :
    fs.sameContent p q =
      if e.length ≠ f.length then .ok false
      else do return (← fs.hashFile p) = (← fs.hashFile q) := by
  rw [sameContent, hp, hq]
  rfl

theorem Contains.sameContent_of_length_ne (hp : fs.Contains p s) (hq : fs.Contains q t)
    (h : s.length ≠ t.length) : fs.sameContent p q = .ok false := by
  obtain ⟨m, hp⟩ := hp
  obtain ⟨n, hq⟩ := hq
  exact (sameContent_of_stat hp hq).trans (if_pos h)

theorem Contains.sameContent_of_length_eq (hp : fs.Contains p s) (hq : fs.Contains q t)
    (h : s.length = t.length) :
    fs.sameContent p q = do return (← fs.hashFile p) = (← fs.hashFile q) := by
  obtain ⟨m, hp⟩ := hp
  obtain ⟨n, hq⟩ := hq
  exact (sameContent_of_stat hp hq).trans (if_neg (not_not.mpr h))

theorem Contains.sameContent_of_opens (hp : fs.Contains p s) (hq : fs.Contains q t)
    (hop : fs.Opens p) (hoq : fs.Opens q) :
    fs.sameContent p q =
      .ok (decide (s.length = t.length ∧ Sha1.digest s = Sha1.digest t)) := by
  by_cases h : s.length = t.length
  · rw [hp.sameContent_of_length_eq hq h, hp.hashFile hop, hq.hashFile hoq, digest_eq,
      digest_eq]
    refine congrArg Except.ok (decide_eq_decide.mpr ?_)
    rw [Sha1.hex_injective.eq_iff, and_iff_right h]
  · rw [hp.sameContent_of_length_ne hq h, decide_eq_false fun hd => h hd.1]

theorem Contains.sameContent_of_source_denied (hp : fs.Contains p s) (hq : fs.Contains q t)
    (h : s.length = t.length) (hop : fs.openForReading p = .error cause) :
    fs.sameContent p q = .error (.file .hash p cause) := by
  rw [hp.sameContent_of_length_eq hq h, hashFile_of_denied hop]
  rfl

theorem Contains.sameContent_of_target_denied (hp : fs.Contains p s) (hq : fs.Contains q t)
    (h : s.length = t.length) (hop : fs.Opens p) (hoq : fs.openForReading q = .error cause) :
    fs.sameContent p q = .error (.file .hash q cause) := by
  rw [hp.sameContent_of_length_eq hq h, hp.hashFile hop, hashFile_of_denied hoq]
  rfl

/-- A file that can be read has the digest of its whole content, whatever the pieces in which it
is read. Two regular files that can be opened compare as their contents do, and else the
comparison names the first file that cannot be looked up or opened. -/
theorem sameContent_compares (fs : FileSystem) :
    (∀ p s, fs.readFile p = .ok s → ∃ d, Sha1.IsDigest s d ∧ fs.hashFile p = .ok (Sha1.hex d) ∧
      (Sha1.hex d).toList.length = 40 ∧
      (∀ c ∈ (Sha1.hex d).toList, c ∈ "0123456789abcdef".toList) ∧
      ∀ chunks, chunks.flatten = s → hashChunks chunks = Sha1.hex d) ∧
    (∀ p q s t, fs.Contains p s → fs.Contains q t →
      (s.length ≠ t.length → fs.sameContent p q = .ok false) ∧
      (fs.Opens p → fs.Opens q →
        (s = t → fs.sameContent p q = .ok true) ∧
        (∀ d d', Sha1.IsDigest s d → Sha1.IsDigest t d' → d ≠ d' →
          fs.sameContent p q = .ok false) ∧
        ((∀ d, Sha1.IsDigest s d → Sha1.IsDigest t d → s = t) →
          (fs.sameContent p q = .ok true ↔ s = t))) ∧
      (s.length = t.length → ∀ cause,
        (fs.openForReading p = .error cause →
          fs.sameContent p q = .error (.file .hash p cause)) ∧
        (fs.Opens p → fs.openForReading q = .error cause →
          fs.sameContent p q = .error (.file .hash q cause)))) ∧
    ∀ p q cause,
      (fs.stat p = .error cause → fs.sameContent p q = .error (.file .hash p cause)) ∧
      ∀ e, fs.stat p = .ok e → fs.stat q = .error cause →
        fs.sameContent p q = .error (.file .hash q cause) := by
  refine ⟨?_, ?_, ?_⟩
  · intro p s h
    refine ⟨Sha1.digest s, Sha1.isDigest_iff.mpr rfl, ?_, ?_, ?_, ?_⟩
    · exact hashFile_eq_ok_iff.mpr ⟨s, h, (digest_eq s).symm⟩
    · rw [Sha1.length_hex, Sha1.length_digest]
    · intro c hc
      exact Sha1.mem_hex hc
    · rintro chunks rfl
      exact hashChunks_eq chunks
  · intro p q s t hp hq
    refine ⟨hp.sameContent_of_length_ne hq, ?_, ?_⟩
    · intro hop hoq
      have hsame := hp.sameContent_of_opens hq hop hoq
      refine ⟨?_, ?_, ?_⟩
      · rintro rfl
        rw [hsame, decide_eq_true ⟨rfl, rfl⟩]
      · intro d d' hd hd' hne
        rw [Sha1.isDigest_iff.mp hd, Sha1.isDigest_iff.mp hd'] at hne
        rw [hsame, decide_eq_false fun h => hne h.2]
      · intro hcollide
        rw [hsame, Except.ok.injEq, decide_eq_true_iff]
        constructor
        · rintro ⟨-, hd⟩
          exact hcollide _ (Sha1.isDigest_iff.mpr rfl) (Sha1.isDigest_iff.mpr hd)
        · rintro rfl
          exact ⟨rfl, rfl⟩
    · intro h cause
      exact ⟨hp.sameContent_of_source_denied hq h, hp.sameContent_of_target_denied hq h⟩
  · intro p q cause
    constructor
    · intro h
      rw [sameContent, h]
      rfl
    · intro e hp hq
      rw [sameContent, hp, hq]
      rfl

namespace Sample

def nameOf (c : UInt8) (h : (Name.ofBytes? [c]).isSome) : Name := (Name.ofBytes? [c]).get h

/-- The files `/v` and `/w` of one content, `/x` of another, `/y`, which may only be written,
and `/z`, which is empty. -/
def held : FileSystem :=
  ((((empty.put [nameOf 0x76 rfl] (.file .newFile [1, 2])).put [nameOf 0x77 rfl]
    (.file .newFile [1, 2])).put [nameOf 0x78 rfl] (.file .newFile [2, 1])).put [nameOf 0x79 rfl]
      (.file (Mode.permissions 0o200) [1, 2])).put [nameOf 0x7A rfl] (.file .newFile [])

def pathOf (c : UInt8) : Path := ⟨[slash, c]⟩

end Sample

open Sample in
theorem sameContent_compares_sample :
    (∃ d, Sha1.IsDigest [1, 2] d ∧ held.hashFile (pathOf 0x76) = .ok (Sha1.hex d) ∧
      hashChunks [[1], [2]] = Sha1.hex d) ∧
    held.sameContent (pathOf 0x76) (pathOf 0x77) = .ok true ∧
    held.sameContent (pathOf 0x76) (pathOf 0x78) = .ok false ∧
    (held.sameContent (pathOf 0x76) (pathOf 0x78) = .ok true ↔ [(1 : UInt8), 2] = [2, 1]) ∧
    held.sameContent (pathOf 0x79) (pathOf 0x7A) = .ok false ∧
    held.sameContent (pathOf 0x79) (pathOf 0x76) =
      .error (.file .hash (pathOf 0x79) .permissionDenied) ∧
    held.sameContent (pathOf 0x76) (pathOf 0x79) =
      .error (.file .hash (pathOf 0x79) .permissionDenied) ∧
    held.sameContent (pathOf 0x6D) (pathOf 0x6B) =
      .error (.file .hash (pathOf 0x6D) .notFound) ∧
    held.sameContent (pathOf 0x76) (pathOf 0x6B) =
      .error (.file .hash (pathOf 0x6B) .notFound) := by
  obtain ⟨hhash, hfiles, hunknown⟩ := sameContent_compares held
  have hv : held.Contains (pathOf 0x76) [1, 2] := ⟨_, rfl⟩
  have hw : held.Contains (pathOf 0x77) [1, 2] := ⟨_, rfl⟩
  have hx : held.Contains (pathOf 0x78) [2, 1] := ⟨_, rfl⟩
  have hy : held.Contains (pathOf 0x79) [1, 2] := ⟨_, rfl⟩
  have hz : held.Contains (pathOf 0x7A) [] := ⟨_, rfl⟩
  have hov : held.Opens (pathOf 0x76) := ⟨_, rfl⟩
  have how : held.Opens (pathOf 0x77) := ⟨_, rfl⟩
  have hox : held.Opens (pathOf 0x78) := ⟨_, rfl⟩
  have hdenied : held.openForReading (pathOf 0x79) = .error .permissionDenied := rfl
  have hdigests := (hfiles _ _ _ _ hv hx).2.1 hov hox
  have hne : Sha1.digest [1, 2] ≠ Sha1.digest [2, 1] := by decide +kernel
  refine ⟨?_, ((hfiles _ _ _ _ hv hw).2.1 hov how).1 rfl, ?_, ?_, ?_, ?_, ?_, ?_, ?_⟩
  · obtain ⟨d, hd, hfile, -, -, hchunks⟩ := hhash (pathOf 0x76) [1, 2] rfl
    exact ⟨d, hd, hfile, hchunks _ rfl⟩
  · exact hdigests.2.1 _ _ (Sha1.isDigest_iff.mpr rfl) (Sha1.isDigest_iff.mpr rfl) hne
  · refine hdigests.2.2 fun d h h' => ?_
    exact absurd ((Sha1.isDigest_iff.mp h).symm.trans (Sha1.isDigest_iff.mp h')) hne
  · exact (hfiles _ _ _ _ hy hz).1 (by decide)
  · exact ((hfiles _ _ _ _ hy hv).2.2 rfl _).1 hdenied
  · exact ((hfiles _ _ _ _ hv hy).2.2 rfl _).2 hov hdenied
  · exact (hunknown _ _ _).1 rfl
  · exact (hunknown _ _ _).2 _ rfl rfl

/-- Files of equal content do not compare as such where one of them cannot be opened. -/
theorem denied_not_same :
    ¬ ∀ (fs : FileSystem) (p q : Path) (m n : Permissions) (s : Bytes),
      fs.stat p = .ok (.file m s) → fs.stat q = .ok (.file n s) →
        fs.sameContent p q = .ok true := by
  intro h
  have hv : Sample.held.Contains (Sample.pathOf 0x76) [1, 2] := ⟨_, rfl⟩
  have hy : Sample.held.Contains (Sample.pathOf 0x79) [1, 2] := ⟨_, rfl⟩
  have hdenied := hv.sameContent_of_target_denied hy rfl ⟨_, rfl⟩ rfl
  have hsame := h Sample.held (Sample.pathOf 0x76) (Sample.pathOf 0x79) .newFile _ [1, 2] rfl rfl
  cases hdenied.symm.trans hsame

end FileSystem

end StagedInstall
