import StagedInstall.FileSystem.System
import StagedInstall.SortedMap

/-! # File systems

A file system is a finite map from locations to entries in which every entry stands in a
directory, together with the current directory and the system behind it. The writes of this module
ask for no permission and keep that shape: one that would break it changes nothing.
-/

namespace StagedInstall

structure FileSystem where
  entries : SortedMap Location Entry
  cwd : Location
  system : System
  rooted : ∃ p, entries.get? [] = some (.directory p)
  closed : ∀ n l, entries.get? (n :: l) ≠ none → ∃ p, entries.get? l = some (.directory p)

namespace FileSystem

variable (fs : FileSystem)

def get? (l : Location) : Option Entry := fs.entries.get? l

theorem ext {a b : FileSystem} (h : ∀ l, a.get? l = b.get? l) (hc : a.cwd = b.cwd)
    (hs : a.system = b.system) : a = b := by
  obtain ⟨m, c, s, _, _⟩ := a
  obtain ⟨m', c', s', _, _⟩ := b
  obtain rfl : m = m' := SortedMap.ext h
  obtain rfl : c = c' := hc
  obtain rfl : s = s' := hs
  rfl

def user : User := fs.system.user

def storage : Storage := fs.system.storage

variable {fs} in
theorem user_eq {fs' : FileSystem} (h : fs'.system = fs.system) : fs'.user = fs.user :=
  congrArg System.user h

variable {fs} in
theorem storage_eq {fs' : FileSystem} (h : fs'.system = fs.system) : fs'.storage = fs.storage :=
  congrArg System.storage h

/-- The file system that holds nothing but its root, in the hands of its owner. -/
def empty : FileSystem where
  entries := (∅ : SortedMap Location Entry).insert [] (.directory .newDirectory)
  cwd := []
  system := .plain
  rooted := ⟨.newDirectory, rfl⟩
  closed n l h := absurd (by rw [SortedMap.get?_insert]; rfl) h

def IsDirectory (l : Location) : Prop := ∃ p, fs.get? l = some (.directory p)

theorem isDirectory_iff {l : Location} :
    fs.IsDirectory l ↔ (fs.get? l).any Entry.isDirectory = true := by
  unfold IsDirectory
  cases h : fs.get? l with
  | none => simp
  | some e => cases e <;> simp [Entry.isDirectory]

instance (l : Location) : Decidable (fs.IsDirectory l) :=
  decidable_of_iff _ fs.isDirectory_iff.symm

/-- The names in a directory, in ascending order. -/
def sortedNames (d : Location) : List Name :=
  fs.entries.toList.filterMap fun
    | (n :: l, _) => if l = d then some n else none
    | ([], _) => none

/-- The names in a directory, in the order in which it is listed. -/
def names (d : Location) : List Name := fs.system.listing.arrange d (fs.sortedNames d)

theorem names_perm (d : Location) : (fs.names d).Perm (fs.sortedNames d) :=
  fs.system.listing.perm d _

theorem mem_names {d : Location} {n : Name} : n ∈ fs.names d ↔ fs.get? (n :: d) ≠ none := by
  rw [(fs.names_perm d).mem_iff, sortedNames, List.mem_filterMap]
  constructor
  · rintro ⟨⟨l, e⟩, he, h⟩
    cases l with
    | nil => simp at h
    | cons n' l =>
      simp only [Option.ite_none_right_eq_some, Option.some.injEq] at h
      obtain ⟨rfl, rfl⟩ := h
      simp [get?, (fs.entries.mem_toList_iff).mp he]
  · intro h
    obtain ⟨e, he⟩ := Option.ne_none_iff_exists'.mp h
    exact ⟨(n :: d, e), (fs.entries.mem_toList_iff).mpr he, by simp⟩

/-- Whether `e` may be written at `l`: `l` is the root or stands in a directory, and a directory
is not replaced by anything else. -/
def Admits (l : Location) (e : Entry) : Prop :=
  (l ≠ [] → fs.IsDirectory l.tail) ∧ (fs.IsDirectory l → e.isDirectory = true)

instance (l : Location) (e : Entry) : Decidable (fs.Admits l e) :=
  inferInstanceAs (Decidable (_ ∧ _))

theorem isDirectory_root : fs.IsDirectory [] := fs.rooted

theorem isDirectory_of_get? {n : Name} {l : Location} (h : fs.get? (n :: l) ≠ none) :
    fs.IsDirectory l :=
  fs.closed n l h

/-- Writes an entry, in place of the one that stood there. -/
def put (l : Location) (e : Entry) : FileSystem :=
  if h : fs.Admits l e then
    { fs with
      entries := fs.entries.insert l e
      rooted := by
        rw [SortedMap.get?_insert]
        split
        · next hl =>
          have hd := h.2 (hl ▸ fs.isDirectory_root)
          cases e <;> simp [Entry.isDirectory] at hd ⊢
        · exact fs.rooted
      closed := fun n d hn => by
        rw [SortedMap.get?_insert] at hn ⊢
        have hd : fs.IsDirectory d := by
          split at hn
          · next hl => subst hl; exact h.1 (List.cons_ne_nil n d)
          · exact fs.closed n d hn
        split
        · next hl =>
          have hd := h.2 (hl ▸ hd)
          cases e <;> simp [Entry.isDirectory] at hd ⊢
        · exact hd }
  else fs

theorem get?_put {l : Location} {e : Entry} (h : fs.Admits l e) (k : Location) :
    (fs.put l e).get? k = if k = l then some e else fs.get? k := by
  unfold put get?
  rw [dif_pos h]
  exact SortedMap.get?_insert ..

theorem put_cwd (l : Location) (e : Entry) : (fs.put l e).cwd = fs.cwd := by
  unfold put; split <;> rfl

theorem put_system (l : Location) (e : Entry) : (fs.put l e).system = fs.system := by
  unfold put; split <;> rfl

/-- Takes an entry away that is no directory. -/
def erase (l : Location) : FileSystem :=
  if h : fs.IsDirectory l then fs
  else
    { fs with
      entries := fs.entries.erase l
      rooted := by
        have hl : [] ≠ l := fun hl => h (hl ▸ fs.isDirectory_root)
        rw [SortedMap.get?_erase, if_neg hl]
        exact fs.rooted
      closed := fun n d hn => by
        rw [SortedMap.get?_erase] at hn ⊢
        split at hn
        · exact absurd rfl hn
        · have hd := fs.closed n d hn
          have hl : d ≠ l := fun hl => h (hl ▸ hd)
          rw [if_neg hl]
          exact hd }

theorem get?_erase {l : Location} (h : ¬ fs.IsDirectory l) (k : Location) :
    (fs.erase l).get? k = if k = l then none else fs.get? k := by
  unfold erase get?
  rw [dif_neg h]
  exact SortedMap.get?_erase ..

theorem erase_cwd (l : Location) : (fs.erase l).cwd = fs.cwd := by
  unfold erase; split <;> rfl

theorem erase_system (l : Location) : (fs.erase l).system = fs.system := by
  unfold erase; split <;> rfl

def cwdPath : Path := fs.cwd.toPath

/-- The same entries seen from another current directory. -/
def withCwd (l : Location) : FileSystem := { fs with cwd := l }

/-- The same entries with another system behind them. -/
def withSystem (s : System) : FileSystem := { fs with system := s }

def withUser (u : User) : FileSystem := fs.withSystem { fs.system with user := u }

def withStorage (s : Storage) : FileSystem := fs.withSystem { fs.system with storage := s }

/-- Whether the user has the access to what stands at `l`. -/
def permits (a : Access) (l : Location) : Bool :=
  match fs.user with
  | .superuser => true
  | .owner => (fs.get? l).all (·.grants a)

theorem permits_superuser {fs : FileSystem} (h : fs.user = .superuser) (a : Access)
    (l : Location) : fs.permits a l = true := by
  rw [permits, h]

theorem permits_owner {fs : FileSystem} (h : fs.user = .owner) (a : Access) (l : Location) :
    fs.permits a l = (fs.get? l).all (·.grants a) := by
  rw [permits, h]

/-- Whether the user may add names to the directory `d` and take names away from it. -/
def permitsChange (d : Location) : Bool := fs.permits .write d && fs.permits .search d

end FileSystem

end StagedInstall
