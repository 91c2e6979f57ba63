import StagedInstall.Manifest.Basic
import StagedInstall.Proofs.FileSystem.Effects
import StagedInstall.Proofs.Toml.Keys
import Mathlib.Data.List.Induction

/-! # The records of a manifest

A record is read from a table entry by entry. When the keys are distinct this comes down to
looking each field up (`foldlM_eq_ok_iff`), so the values that are accepted as settings
(`Settings.ofValue_eq_ok_iff`) and as requests (`StageEntry.exists_ofValue_iff`) can be told by
their keys and what is under them.
-/

namespace StagedInstall

namespace Toml

variable {α β : Type} {v : Value} {es : List (String × Value)} {k k' : String}

namespace Value

def text? : Value → Option String
  | string s => some s
  | _ => none

def flag? : Value → Option Bool
  | boolean b => some b
  | _ => none

def elements : Value → List Value
  | array vs => vs
  | _ => []

def entries : Value → List (String × Value)
  | table es => es
  | _ => []

theorem text?_eq_some_iff {s : String} : v.text? = some s ↔ v = .string s := by
  cases v <;> simp [text?]

theorem asString_eq_ok_iff {s : String} : v.asString = .ok s ↔ v.text? = some s := by
  cases v <;> simp [asString, text?, misfit]

theorem asBoolean_eq_ok_iff {b : Bool} : v.asBoolean = .ok b ↔ v.flag? = some b := by
  cases v <;> simp [asBoolean, flag?, misfit]

end Value

/-- What the entry under the key reads as; none when it is missing, or does not read. -/
def readAt (read : Value → Option α) (es : List (String × Value)) (k : String) : Option α :=
  (es.lookup k).bind read

theorem lookup_eq_none (hk : k ∉ es.map Prod.fst) : es.lookup k = none := by
  rw [List.lookup_eq_none_iff]
  intro e he
  rw [bne_iff_ne]
  rintro rfl
  exact hk (List.mem_map_of_mem he)

theorem readAt_concat {read : Value → Option α} (hk : k ∉ es.map Prod.fst) :
    readAt read (es ++ [(k, v)]) k' = if k' = k then read v else readAt read es k' := by
  unfold readAt
  rw [List.lookup_append]
  split
  · next h =>
    subst h
    rw [lookup_eq_none hk, Option.none_or, List.lookup_cons_self, Option.bind_some]
  · next h =>
    rw [List.lookup_cons, (beq_eq_false_iff_ne).mpr h, List.lookup_nil]
    exact congrArg (Option.bind · read) Option.or_none

theorem mem_of_lookup (h : es.lookup k = some v) : (k, v) ∈ es := by
  obtain ⟨l, r, rfl, -⟩ := List.lookup_eq_some_iff.mp h
  exact List.mem_append_right l List.mem_cons_self

theorem lookup_eq_some_iff (hn : (es.map Prod.fst).Nodup) : es.lookup k = some v ↔ (k, v) ∈ es := by
  refine ⟨mem_of_lookup, fun h => ?_⟩
  cases hl : es.lookup k with
  | none => simpa using List.lookup_eq_none_iff.mp hl (k, v) h
  | some w => cases List.inj_on_of_nodup_map hn (mem_of_lookup hl) h rfl; rfl

theorem isSome_readAt {read : Value → Option α} (h : ∀ v, (k, v) ∈ es → (read v).isSome = true) :
    (readAt read es k).isSome = true ↔ k ∈ es.map Prod.fst := by
  constructor
  · intro hs
    by_contra hk
    rw [readAt, lookup_eq_none hk] at hs
    cases hs
  · intro hk
    cases hl : es.lookup k with
    | none =>
      obtain ⟨e, he, rfl⟩ := List.mem_map.mp hk
      simpa using List.lookup_eq_none_iff.mp hl e he
    | some v =>
      rw [readAt, hl]
      exact h v (mem_of_lookup hl)

/-- A record that is read entry by entry: where each new entry is accepted if the table still fits,
and changes what has been read to what the table then says, a whole table is accepted if it fits. -/
theorem foldlM_eq_ok_iff {set : α → String → Value → Except Misfit α}
    {said : List (String × Value) → α} {Fits : List (String × Value) → Prop} (hnil : Fits [])
    (hpre : ∀ es e, Fits (es ++ [e]) → Fits es)
    (hset : ∀ es k v a, Fits es → k ∉ es.map Prod.fst →
      (set (said es) k v = .ok a ↔ Fits (es ++ [(k, v)]) ∧ a = said (es ++ [(k, v)])))
    (hn : (es.map Prod.fst).Nodup) {a : α} :
    es.foldlM (fun a (k, v) => set a k v) (said []) = .ok a ↔ Fits es ∧ a = said es := by
  induction es using List.reverseRecOn generalizing a with
  | nil =>
    rw [List.foldlM_nil]
    exact ⟨fun h => by cases h; exact ⟨hnil, rfl⟩, fun h => by rw [h.2]; rfl⟩
  | append_singleton es e ih =>
    obtain ⟨k, v⟩ := e
    rw [List.map_append, List.nodup_append] at hn
    have hk : k ∉ es.map Prod.fst := fun hk => hn.2.2 k hk k List.mem_cons_self rfl
    have hlast {b : α} : [(k, v)].foldlM (fun a (k, v) => set a k v) b = set b k v := by
      rw [List.foldlM_cons]
      exact bind_pure (set b k v)
    rw [List.foldlM_append, bind_eq_ok_iff]
    constructor
    · rintro ⟨a', ha', h⟩
      obtain ⟨hf, rfl⟩ := (ih hn.1).mp ha'
      exact (hset es k v a hf hk).mp (hlast ▸ h)
    · rintro ⟨hf, h⟩
      have hes := hpre es _ hf
      exact ⟨said es, (ih hn.1).mpr ⟨hes, rfl⟩, hlast ▸ (hset es k v a hes hk).mpr ⟨hf, h⟩⟩

end Toml

open Toml

section

variable {v : Value} {es : List (String × Value)} {k : String}

namespace StageEntry

def IsField (k : String) (v : Value) : Prop :=
  k ∈ ["file", "parent", "pattern", "basedir"] ∧ (∃ s, v = .string s) ∨
    k = "recursive" ∧ ∃ b, v = .boolean b

def IsTable (es : List (String × Value)) : Prop := ∀ e ∈ es, IsField e.1 e.2

/-- What a table says in its fields. -/
def said (es : List (String × Value)) : StageEntry where
  file := readAt Value.text? es "file"
  parent := readAt Value.text? es "parent"
  pattern := readAt Value.text? es "pattern"
  basedir := (readAt Value.text? es "basedir").getD ""
  recursive := (readAt Value.flag? es "recursive").getD false

theorem setField_eq_ok_iff {e : StageEntry} (hk : k ∉ es.map Prod.fst) :
    (said es).setField k v = .ok e ↔ IsField k v ∧ e = said (es ++ [(k, v)]) := by
  unfold setField
  split
  case h_6 h₁ h₂ h₃ h₄ h₅ =>
    refine iff_of_false (fun h => by cases h) ?_
    rintro ⟨⟨hm, -⟩ | ⟨rfl, -⟩, -⟩
    · simp only [List.mem_cons, List.not_mem_nil, or_false] at hm
      tauto
    · exact h₅ rfl
  all_goals
    simp only [bind_eq_ok_iff, Value.asString_eq_ok_iff, Value.asBoolean_eq_ok_iff, said,
      readAt_concat hk, IsField]
    cases v <;> simp [Value.text?, Value.flag?, pure, Except.pure, eq_comm]

theorem ofValue_table (hn : (es.map Prod.fst).Nodup) {e : StageEntry} :
    ofValue (.table es) = .ok e ↔ IsTable es ∧ e = said es := by
  have hnil : IsTable [] := fun _ h => absurd h List.not_mem_nil
  have hset (es k v e) (hes : IsTable es) (hk : k ∉ es.map Prod.fst) :
      (said es).setField k v = .ok e ↔ IsTable (es ++ [(k, v)]) ∧ e = said (es ++ [(k, v)]) := by
    rw [setField_eq_ok_iff hk, IsTable, List.forall_mem_append, List.forall_mem_singleton]
    exact and_congr_left' (and_iff_right hes).symm
  exact foldlM_eq_ok_iff hnil (fun es e h => (List.forall_mem_append.mp h).1) hset hn

end StageEntry

namespace Settings

def IsField (k : String) (v : Value) : Prop :=
  k ∈ ["prefix", "eprefix", "exec_prefix", "bindir", "libdir", "includedir", "sharedir"] ∧
    ∃ s, v = .string s

/-- The exec prefix goes by two names, of which one may be used. -/
def IsTable (es : List (String × Value)) : Prop :=
  (∀ e ∈ es, IsField e.1 e.2) ∧
    ¬ ("eprefix" ∈ es.map Prod.fst ∧ "exec_prefix" ∈ es.map Prod.fst)

def said (es : List (String × Value)) : Settings where
  prefixDir := readAt Value.text? es "prefix"
  execPrefixDir := (readAt Value.text? es "eprefix").or (readAt Value.text? es "exec_prefix")
  binDir := readAt Value.text? es "bindir"
  libDir := readAt Value.text? es "libdir"
  includeDir := readAt Value.text? es "includedir"
  shareDir := readAt Value.text? es "sharedir"

theorem isTable_concat : IsTable (es ++ [(k, v)]) ↔ IsTable es ∧ IsField k v ∧
    (k = "eprefix" → "exec_prefix" ∉ es.map Prod.fst) ∧
    (k = "exec_prefix" → "eprefix" ∉ es.map Prod.fst) := by
  unfold IsTable
  rw [List.forall_mem_append, List.forall_mem_singleton]
  simp only [List.map_append, List.mem_append, List.map_cons, List.map_nil, List.mem_singleton]
  by_cases h₁ : k = "eprefix"
  · subst h₁; simp; tauto
  · by_cases h₂ : k = "exec_prefix"
    · subst h₂; simp; tauto
    · simp [h₁, h₂, Ne.symm h₁, Ne.symm h₂]; tauto

theorem setField_eq_ok_iff {s : Settings} (hes : IsTable es) (hk : k ∉ es.map Prod.fst) :
    (said es).setField k v = .ok s ↔
      IsTable (es ++ [(k, v)]) ∧ s = said (es ++ [(k, v)]) := by
  have htext (k v) (hv : (k, v) ∈ es) : v.text?.isSome = true := by
    obtain ⟨-, s, rfl⟩ := hes.1 (k, v) hv
    rfl
  have hexec : (said es).execPrefixDir.isSome = true ↔
      "eprefix" ∈ es.map Prod.fst ∨ "exec_prefix" ∈ es.map Prod.fst := by
    rw [said, Option.isSome_or, Bool.or_eq_true, isSome_readAt (htext _), isSome_readAt (htext _)]
  rw [isTable_concat, and_iff_right hes]
  unfold setField
  split
  case h_8 =>
    refine iff_of_false (fun h => by cases h) ?_
    rintro ⟨⟨⟨hm, -⟩, -⟩, -⟩
    simp only [List.mem_cons, List.not_mem_nil, or_false] at hm
    tauto
  case h_2 | h_3 =>
    -- the name is new, so the exec prefix has been set under the other one, or not at all
    dsimp only
    split
    · next ho =>
      refine iff_of_false (fun h => by cases h) ?_
      have ho := hexec.mp ho
      tauto
    · next ho =>
      have ho := not_or.mp (mt hexec.mpr ho)
      have hnone (k) (hk : k ∉ es.map Prod.fst) : readAt Value.text? es k = none := by
        rw [readAt, lookup_eq_none hk]
        rfl
      simp only [bind_eq_ok_iff, Value.asString_eq_ok_iff, said, readAt_concat hk, IsField,
        hnone _ ho.1, hnone _ ho.2]
      cases v <;> simp [Value.text?, pure, Except.pure, eq_comm, ho]
  all_goals
    simp only [bind_eq_ok_iff, Value.asString_eq_ok_iff, said, readAt_concat hk, IsField]
    cases v <;> simp [Value.text?, pure, Except.pure, eq_comm]

theorem ofValue_table (hn : (es.map Prod.fst).Nodup) {s : Settings} :
    ofValue (.table es) = .ok s ↔ IsTable es ∧ s = said es := by
  have hnil : IsTable [] :=
    ⟨fun _ h => absurd h List.not_mem_nil, fun h => absurd h.1 List.not_mem_nil⟩
  have hset (es k v s) (hes : IsTable es) (hk : k ∉ es.map Prod.fst) :
      (said es).setField k v = .ok s ↔ IsTable (es ++ [(k, v)]) ∧ s = said (es ++ [(k, v)]) :=
    setField_eq_ok_iff hes hk
  exact foldlM_eq_ok_iff hnil (fun es e h => (isTable_concat.mp h).1) hset hn

/-- The settings that an array gives one after the other. -/
def saidInOrder (vs : List Value) : Settings where
  prefixDir := (vs[0]?).bind Value.text?
  execPrefixDir := (vs[1]?).bind Value.text?
  binDir := (vs[2]?).bind Value.text?
  libDir := (vs[3]?).bind Value.text?
  includeDir := (vs[4]?).bind Value.text?
  shareDir := (vs[5]?).bind Value.text?

theorem forall_mem_take_iff {vs : List Value} {n : Nat} :
    (n ≤ vs.length ∧ ∀ v ∈ vs.take n, ∃ s, v = .string s) ↔
      ∀ i < n, ∃ s, (vs[i]?).bind Value.text? = some s := by
  constructor
  · rintro ⟨hn, h⟩ i hi
    have hi' : i < vs.length := by omega
    obtain ⟨s, hs⟩ := h vs[i] (List.mem_take_iff_getElem.mpr ⟨i, by omega, rfl⟩)
    exact ⟨s, by rw [List.getElem?_eq_getElem hi', hs]; rfl⟩
  · intro h
    constructor
    · by_contra hn
      obtain ⟨s, hs⟩ := h vs.length (by omega)
      rw [List.getElem?_eq_none (Nat.le_refl _)] at hs
      cases hs
    · intro v hv
      obtain ⟨i, hi, rfl⟩ := List.mem_take_iff_getElem.mp hv
      obtain ⟨s, hs⟩ := h i (by omega)
      rw [List.getElem?_eq_getElem (by omega)] at hs
      exact ⟨s, Value.text?_eq_some_iff.mp hs⟩

theorem ofItems_eq_ok_iff {vs : List Value} {s : Settings} : ofItems vs = .ok s ↔
    (6 ≤ vs.length ∧ ∀ v ∈ vs.take 6, ∃ s, v = .string s) ∧ s = saidInOrder vs := by
  have hitem (i : Nat) (t : String) :
      requiredItem recordName 6 vs i = .ok t ↔ (vs[i]?).bind Value.text? = some t := by
    unfold requiredItem
    cases vs[i]? with
    | none => simp
    | some v => exact Value.asString_eq_ok_iff
  rw [forall_mem_take_iff]
  unfold ofItems
  simp only [bind_eq_ok_iff, hitem]
  constructor
  · rintro ⟨p, hp, e, he, b, hb, l, hl, n, hn, t, ht, h⟩
    cases h
    refine ⟨fun i hi => ?_, by simp only [saidInOrder, hp, he, hb, hl, hn, ht]⟩
    match i, hi with
    | 0, _ => exact ⟨p, hp⟩
    | 1, _ => exact ⟨e, he⟩
    | 2, _ => exact ⟨b, hb⟩
    | 3, _ => exact ⟨l, hl⟩
    | 4, _ => exact ⟨n, hn⟩
    | 5, _ => exact ⟨t, ht⟩
  · rintro ⟨h, rfl⟩
    obtain ⟨p, hp⟩ := h 0 (by decide)
    obtain ⟨e, he⟩ := h 1 (by decide)
    obtain ⟨b, hb⟩ := h 2 (by decide)
    obtain ⟨l, hl⟩ := h 3 (by decide)
    obtain ⟨n, hn⟩ := h 4 (by decide)
    obtain ⟨t, ht⟩ := h 5 (by decide)
    refine ⟨p, hp, e, he, b, hb, l, hl, n, hn, t, ht, ?_⟩
    simp only [saidInOrder, hp, he, hb, hl, hn, ht]
    rfl

/-- A table of directories, or an array of at least six, the surplus of which does not count. -/
def IsValue (v : Value) : Prop :=
  (∃ es, v = .table es ∧ IsTable es) ∨
    ∃ vs, v = .array vs ∧ 6 ≤ vs.length ∧ ∀ w ∈ vs.take 6, ∃ s, w = .string s

/-- What a value says, if there is one. -/
def saidBy : Option Value → Settings
  | some (.table es) => said es
  | some (.array vs) => saidInOrder vs
  | _ => {}

theorem ofValue_eq_ok_iff (hv : v.Distinct) {s : Settings} :
    ofValue v = .ok s ↔ IsValue v ∧ s = saidBy (some v) := by
  cases v with
  | table es =>
    rw [ofValue_table (Value.distinct_table_iff.mp hv).nodup]
    simp [IsValue, saidBy]
  | array vs =>
    refine ofItems_eq_ok_iff.trans ?_
    simp [IsValue, saidBy]
  | dateTime | string | integer | float | boolean =>
    refine iff_of_false (fun h => by cases h) ?_
    simp [IsValue]

end Settings

namespace StageEntry

/-- A table of these fields that names either a file, or a directory with a pattern. -/
structure Fits (es : List (String × Value)) : Prop where
  fields : IsTable es
  source : "file" ∈ es.map Prod.fst ↔ "parent" ∉ es.map Prod.fst
  pattern : "parent" ∈ es.map Prod.fst → "pattern" ∈ es.map Prod.fst

/-- The request that a table makes. -/
def requested (root : Path) (es : List (String × Value)) : Request where
  source := match readAt Value.text? es "file" with
    | some file => .file (root / .ofString file)
    | none => .directory (.ofString ((readAt Value.text? es "parent").getD ""))
      ((readAt Value.text? es "pattern").getD "") ((readAt Value.flag? es "recursive").getD false)
  basedir := (readAt Value.text? es "basedir").getD ""

theorem toRequest_said {root : Path} {table : String} {r : Request} (hes : IsTable es) :
    (said es).toRequest root table = .ok r ↔ Fits es ∧ r = requested root es := by
  have hmem {k : String} (hk : k ∈ ["file", "parent", "pattern"]) :
      (readAt Value.text? es k).isSome = true ↔ k ∈ es.map Prod.fst := by
    refine isSome_readAt fun v hv => ?_
    rcases hes (k, v) hv with ⟨-, s, rfl⟩ | ⟨rfl, -⟩
    · rfl
    · simp at hk
  have hfits : Fits es ↔
      ((readAt Value.text? es "file").isSome = true ↔
        ¬ (readAt Value.text? es "parent").isSome = true) ∧
      ((readAt Value.text? es "parent").isSome = true →
        (readAt Value.text? es "pattern").isSome = true) := by
    rw [hmem (by simp), hmem (by simp), hmem (by simp)]
    exact ⟨fun h => ⟨h.source, h.pattern⟩, fun h => ⟨hes, h.1, h.2⟩⟩
  rw [hfits]
  unfold toRequest requested said
  cases readAt Value.text? es "file" <;> cases readAt Value.text? es "parent" <;>
    cases readAt Value.text? es "pattern" <;> simp [eq_comm]

theorem toRequest_of_ofItems {vs : List Value} {e : StageEntry} (h : ofItems vs = .ok e)
    (root : Path) (table : String) : e.toRequest root table = .error (.notOneSource table) := by
  unfold ofItems at h
  simp only [bind_eq_ok_iff] at h
  obtain ⟨_, -, _, -, _, -, _, -, _, -, h⟩ := h
  cases h
  rfl

theorem exists_ofValue_iff {v : Value} (hv : v.Distinct) {root : Path} {table : String}
    {r : Request} : (∃ e, ofValue v = .ok e ∧ e.toRequest root table = .ok r) ↔
      (∃ es, v = .table es ∧ Fits es) ∧ r = requested root v.entries := by
  cases v with
  | table es =>
    have hn := (Value.distinct_table_iff.mp hv).nodup
    simp only [ofValue_table hn, and_assoc, exists_eq_left', Value.table.injEq]
    constructor
    · rintro ⟨e, hes, rfl, h⟩
      exact (toRequest_said hes).mp h
    · rintro ⟨hes, h⟩
      exact ⟨_, hes.fields, rfl, (toRequest_said hes.fields).mpr ⟨hes, h⟩⟩
  | array vs =>
    refine iff_of_false ?_ (by simp)
    rintro ⟨e, he, h⟩
    cases (toRequest_of_ofItems he root table).symm.trans h
  | dateTime | string | integer | float | boolean =>
    refine iff_of_false (fun h => ?_) (by simp)
    obtain ⟨e, he, -⟩ := h
    cases he

end StageEntry

end

end StagedInstall
