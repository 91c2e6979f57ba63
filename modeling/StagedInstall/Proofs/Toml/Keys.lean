import StagedInstall.Toml.Document
import Mathlib.Data.List.Nodup

/-! # The keys of a document

A key stands at most once in each table of a document, at every level and however the table was
written (`distinct_of_parse`): whatever adds an entry to a table has looked for its key first.
-/

namespace StagedInstall.Toml

variable {α : Type} {P : α → Prop} {es : List (String × α)} {k : String} {a : α}

/-- No key stands twice, and what stands under the keys has the property. -/
structure Keyed (P : α → Prop) (es : List (String × α)) : Prop where
  nodup : (es.map Prod.fst).Nodup
  holds : ∀ e ∈ es, P e.2

namespace Keyed

theorem nil : Keyed P [] := ⟨List.nodup_nil, fun _ h => absurd h List.not_mem_nil⟩

theorem concat (h : Keyed P es) (hk : ∀ e ∈ es, e.1 ≠ k) (ha : P a) : Keyed P (es ++ [(k, a)]) := by
  constructor
  · rw [List.map_append, List.nodup_append]
    refine ⟨h.nodup, List.nodup_singleton k, ?_⟩
    intro x hx y hy
    obtain ⟨e, he, rfl⟩ := List.mem_map.mp hx
    obtain rfl := List.mem_singleton.mp hy
    exact hk e he
  · intro e he
    rcases List.mem_append.mp he with he | he
    · exact h.holds e he
    · obtain rfl := List.mem_singleton.mp he
      exact ha

theorem update (h : Keyed P es) (ha : P a) :
    Keyed P (es.map fun e => if e.1 = k then (k, a) else e) := by
  constructor
  · have hkeys : (es.map fun e => if e.1 = k then (k, a) else e).map Prod.fst =
        es.map Prod.fst := by
      rw [List.map_map]
      refine List.map_congr_left fun e _ => ?_
      rw [Function.comp_apply]
      split
      · next he => exact he.symm
      · rfl
    rw [hkeys]
    exact h.nodup
  · intro e he
    obtain ⟨e', he', rfl⟩ := List.mem_map.mp he
    split
    · exact ha
    · exact h.holds e' he'

theorem filter (h : Keyed P es) (p : String × α → Bool) : Keyed P (es.filter p) :=
  ⟨h.nodup.sublist (List.filter_sublist.map Prod.fst),
    fun e he => h.holds e (List.mem_of_mem_filter he)⟩

end Keyed

theorem foldlM_some {β γ : Type} {f : β → γ → Option β} {Q : β → Prop} {cs : List γ} {b b' : β}
    (hf : ∀ b, Q b → ∀ c ∈ cs, ∀ b', f b c = some b' → Q b') (hb : Q b)
    (h : cs.foldlM f b = some b') : Q b' := by
  induction cs generalizing b with
  | nil =>
    cases h
    exact hb
  | cons c cs ih =>
    rw [List.foldlM_cons] at h
    obtain ⟨b₁, h₁, h⟩ := Option.bind_eq_some_iff.mp h
    refine ih ?_ (hf b hb c List.mem_cons_self b₁ h₁) h
    exact fun b hb c hc => hf b hb c (List.mem_cons_of_mem _ hc)

namespace Value

/-- No table in the value has a key twice. -/
inductive Distinct : Value → Prop
  | string (s : String) : Distinct (.string s)
  | integer (n : Int) : Distinct (.integer n)
  | float (x : Binary64) : Distinct (.float x)
  | boolean (b : Bool) : Distinct (.boolean b)
  | dateTime : Distinct .dateTime
  | array {vs : List Value} : (∀ v ∈ vs, Distinct v) → Distinct (.array vs)
  | table {es : List (String × Value)} : (es.map Prod.fst).Nodup → (∀ e ∈ es, Distinct e.2) →
      Distinct (.table es)

theorem distinct_table_iff {es : List (String × Value)} :
    (Value.table es).Distinct ↔ Keyed Distinct es := by
  constructor
  · intro h
    cases h with | table hn hv => exact ⟨hn, hv⟩
  · exact fun h => .table h.nodup h.holds

end Value

section Reading

variable {v : Value} {s r : List Char}

theorem distinct_of_based {base : Nat} {ok : Char → Bool} (h : based base ok s = some (v, r)) :
    v.Distinct := by
  unfold based at h
  simp only [Option.bind_eq_bind, Option.bind_eq_some_iff] at h
  obtain ⟨_, _, _, _, h⟩ := h
  cases h
  exact .integer _

theorem distinct_of_integer (h : integer s = some (v, r)) : v.Distinct := by
  unfold integer at h
  split at h
  · exact distinct_of_based h
  · exact distinct_of_based h
  · exact distinct_of_based h
  · simp only [Option.bind_eq_bind, Option.bind_eq_some_iff] at h
    obtain ⟨_, _, _, _, h⟩ := h
    cases h
    exact .integer _

theorem distinct_of_special (h : special s = some (v, r)) : v.Distinct := by
  unfold special at h
  dsimp only at h
  split at h
  · cases h
    exact .float _
  · split at h
    · cases h
      exact .float _
    · cases h

theorem distinct_of_decimal (h : decimal s = some (v, r)) : v.Distinct := by
  have hfloat {x : Binary64} {t : List Char}
      (h : (if x = .infinite false then none else some (Value.float x, t)) = some (v, r)) :
      v.Distinct := by
    split at h
    · cases h
    · cases h
      exact .float x
  unfold decimal at h
  simp only [Option.bind_eq_bind, Option.bind_eq_some_iff] at h
  obtain ⟨_, -, h⟩ := h
  split at h
  · obtain ⟨_, -, h⟩ := Option.bind_eq_some_iff.mp h
    split at h
    · obtain ⟨_, -, h⟩ := Option.bind_eq_some_iff.mp h
      exact hfloat h
    · exact hfloat h
  · obtain ⟨_, -, h⟩ := Option.bind_eq_some_iff.mp h
    exact hfloat h

theorem distinct_of_dateTime (h : dateTime s = some (v, r)) : v.Distinct := by
  unfold dateTime at h
  split at h
  · cases h
    exact .dateTime
  · obtain ⟨_, _, h⟩ := Option.map_eq_some_iff.mp h
    cases h
    exact .dateTime

theorem distinct_of_number (h : number s = some (v, r)) : v.Distinct := by
  unfold number at h
  simp only [Option.or_eq_some_iff] at h
  rcases h with h | ⟨-, h | ⟨-, h | ⟨-, h⟩⟩⟩
  · exact distinct_of_dateTime h
  · exact distinct_of_decimal h
  · exact distinct_of_special h
  · exact distinct_of_integer h

variable {item : List Char → Option (Value × List Char)}

theorem forall_mem_items (hi : ∀ s v r, item s = some (v, r) → v.Distinct) {fuel : Nat}
    {vs : List Value} (h : items item fuel s = some (vs, r)) : ∀ v ∈ vs, v.Distinct := by
  induction fuel generalizing s vs r with
  | zero => cases h
  | succ fuel ih =>
    rw [items] at h
    split at h
    · cases h
      exact fun _ h => absurd h List.not_mem_nil
    · obtain ⟨⟨v, s'⟩, hv, h⟩ := Option.bind_eq_some_iff.mp h
      have hv := hi _ v s' hv
      dsimp only at h
      split at h
      · obtain ⟨⟨vs', r'⟩, hvs, h⟩ := Option.bind_eq_some_iff.mp h
        cases h
        exact List.forall_mem_cons.mpr ⟨hv, ih hvs⟩
      · cases h
        exact List.forall_mem_singleton.mpr hv
      · cases h

theorem distinct_of_entry (hi : ∀ s v r, item s = some (v, r) → v.Distinct) {e : Key × Value}
    (h : entry item s = some (e, r)) : e.2.Distinct := by
  unfold entry at h
  simp only [Option.bind_eq_bind, Option.bind_eq_some_iff] at h
  obtain ⟨_, _, _, _, ⟨v, s'⟩, hv, h⟩ := h
  cases h
  exact hi _ _ _ hv

theorem forall_mem_inlineEntries (hi : ∀ s v r, item s = some (v, r) → v.Distinct) {fuel : Nat}
    {es : List (Key × Value)} (h : inlineEntries item fuel s = some (es, r)) :
    ∀ e ∈ es, e.2.Distinct := by
  induction fuel generalizing s es r with
  | zero => cases h
  | succ fuel ih =>
    rw [inlineEntries] at h
    obtain ⟨⟨e, s'⟩, he, h⟩ := Option.bind_eq_some_iff.mp h
    have hd : e.2.Distinct := distinct_of_entry hi he
    dsimp only at h
    split at h
    · obtain ⟨⟨es', r'⟩, hes, h⟩ := Option.bind_eq_some_iff.mp h
      cases h
      exact List.forall_mem_cons.mpr ⟨hd, ih hes⟩
    · cases h
      exact List.forall_mem_singleton.mpr hd
    · cases h

theorem keyed_addInline {above : List String} {k : String} {es es' : List (String × Value)}
    (hv : v.Distinct) (hes : Keyed Value.Distinct es) (h : addInline above k v es = some es') :
    Keyed Value.Distinct es' := by
  induction above generalizing es es' with
  | nil =>
    rw [addInline] at h
    split at h
    · cases h
    · next hk =>
      cases h
      refine hes.concat (fun e he hk' => hk ?_) hv
      exact List.any_eq_true.mpr ⟨e, he, decide_eq_true hk'⟩
  | cons a above ih =>
    rw [addInline] at h
    split at h
    · next hf =>
      obtain ⟨inner, hi, h⟩ := Option.bind_eq_some_iff.mp h
      cases h
      refine hes.concat ?_ (Value.distinct_table_iff.mpr (ih .nil hi))
      simpa using hf
    · next hf =>
      obtain ⟨inner, hi, h⟩ := Option.bind_eq_some_iff.mp h
      cases h
      have ht := hes.holds _ (List.mem_of_find?_eq_some hf)
      exact hes.update (Value.distinct_table_iff.mpr (ih (Value.distinct_table_iff.mp ht) hi))
    · cases h

theorem distinct_of_inlineTable {es : List (Key × Value)} (hes : ∀ e ∈ es, e.2.Distinct)
    (h : inlineTable es = some v) : v.Distinct := by
  unfold inlineTable at h
  obtain ⟨entries, he, h⟩ := Option.bind_eq_some_iff.mp h
  cases h
  refine Value.distinct_table_iff.mpr (foldlM_some ?_ Keyed.nil he)
  exact fun acc hacc e hmem acc' h => keyed_addInline (hes e hmem) hacc h

theorem distinct_of_value {depth : Nat} (h : value depth s = some (v, r)) : v.Distinct := by
  induction depth using Nat.strongRecOn generalizing s v r with
  | ind depth ih =>
    revert h
    fun_cases value depth s <;> intro h
    case case2 =>
      obtain ⟨_, -, h⟩ := Option.map_eq_some_iff.mp h
      cases h
      exact .string _
    case case4 depth _ =>
      obtain ⟨_, hvs, h⟩ := Option.map_eq_some_iff.mp h
      cases h
      exact .array (forall_mem_items (fun _ _ _ => ih depth (Nat.lt_succ_self depth)) hvs)
    case case6 =>
      cases h
      exact Value.distinct_table_iff.mpr .nil
    case case7 depth _ _ _ =>
      obtain ⟨_, hes, h⟩ := Option.bind_eq_some_iff.mp h
      obtain ⟨_, hv, h⟩ := Option.bind_eq_some_iff.mp h
      cases h
      have hi (s v r) (h : value depth s = some (v, r)) : v.Distinct :=
        ih depth (Nat.lt_succ_self depth) h
      exact distinct_of_inlineTable (forall_mem_inlineEntries hi hes) hv
    case case8 | case10 =>
      cases h
      exact .boolean _
    case case12 => exact distinct_of_number h
    all_goals cases h

/-- The value of an entry is well formed; headers have none. -/
def Statement.Distinct : Statement → Prop
  | .entry _ v => v.Distinct
  | .header _ | .elementHeader _ => True

theorem distinct_of_statement {st : Statement} (h : statement s = some (st, r)) :
    st.Distinct := by
  unfold statement at h
  split at h
  · obtain ⟨_, -, h⟩ := Option.bind_eq_some_iff.mp h
    cases h
    trivial
  split at h
  · obtain ⟨_, -, h⟩ := Option.bind_eq_some_iff.mp h
    cases h
    trivial
  · obtain ⟨_, he, h⟩ := Option.bind_eq_some_iff.mp h
    cases h
    exact distinct_of_entry (fun _ _ _ => distinct_of_value) he

theorem forall_mem_statementsWithin {fuel : Nat} {sts : List Statement}
    (h : statementsWithin fuel s = some sts) : ∀ st ∈ sts, st.Distinct := by
  induction fuel generalizing s sts with
  | zero => cases h
  | succ fuel ih =>
    rw [statementsWithin] at h
    dsimp only at h
    split at h
    · cases h
      exact fun _ h => absurd h List.not_mem_nil
    split at h
    · obtain ⟨_, -, h⟩ := Option.bind_eq_some_iff.mp h
      exact ih h
    · obtain ⟨⟨st, s'⟩, hst, h⟩ := Option.bind_eq_some_iff.mp h
      obtain ⟨_, -, h⟩ := Option.bind_eq_some_iff.mp h
      obtain ⟨sts', hsts, h⟩ := Option.bind_eq_some_iff.mp h
      cases h
      exact List.forall_mem_cons.mpr ⟨distinct_of_statement hst, ih hsts⟩

end Reading

/-- No table in the node has a key twice. -/
inductive Node.Distinct : Node → Prop
  | value {v : Value} : v.Distinct → Distinct (.value v)
  | table {es : Entries} (origin : Origin) : (es.map Prod.fst).Nodup →
      (∀ e ∈ es, Distinct e.2) → Distinct (.table origin es)
  | elements {ts : List Entries} : (∀ es ∈ ts, (es.map Prod.fst).Nodup) →
      (∀ es ∈ ts, ∀ e ∈ es, Distinct e.2) → Distinct (.elements ts)

namespace Node

theorem distinct_table_iff {origin : Origin} {es : Entries} :
    (Node.table origin es).Distinct ↔ Keyed Distinct es := by
  constructor
  · intro h
    cases h with | table _ hn hv => exact ⟨hn, hv⟩
  · exact fun h => .table origin h.nodup h.holds

theorem distinct_elements_iff {ts : List Entries} :
    (Node.elements ts).Distinct ↔ ∀ es ∈ ts, Keyed Distinct es := by
  constructor
  · intro h
    cases h with | elements hn hv => exact fun es he => ⟨hn es he, hv es he⟩
  · exact fun h => .elements (fun es he => (h es he).nodup) fun es he => (h es he).holds

end Node

section Building

open Entries

variable {es es' : Entries} {above : List String} {k : String} {n : Node} {v : Value}

theorem keyed_lookup? (h : Keyed Node.Distinct es) (hl : lookup? es k = some n) : n.Distinct := by
  obtain ⟨e, he, rfl⟩ := Option.map_eq_some_iff.mp hl
  exact h.holds e (List.mem_of_find?_eq_some he)

theorem keyed_concat (h : Keyed Node.Distinct es) (hl : lookup? es k = none) (hn : n.Distinct) :
    Keyed Node.Distinct (es ++ [(k, n)]) := by
  refine h.concat (fun e he hk => ?_) hn
  have hf := List.find?_eq_none.mp (Option.map_eq_none_iff.mp hl) e he
  exact hf (decide_eq_true hk)

theorem keyed_replace (h : Keyed Node.Distinct es) (hn : n.Distinct) :
    Keyed Node.Distinct (replace es k n) := h.update hn

theorem distinct_of_last {ts : List Entries} {t : Entries}
    (hts : ∀ es ∈ ts, Keyed Node.Distinct es) (ht : Keyed Node.Distinct t) :
    (Node.elements (ts.dropLast ++ [t])).Distinct := by
  refine Node.distinct_elements_iff.mpr fun es he => ?_
  rcases List.mem_append.mp he with he | he
  · exact hts es (List.dropLast_subset ts he)
  · exact List.mem_singleton.mp he ▸ ht

theorem keyed_addDotted (hv : v.Distinct) (hes : Keyed Node.Distinct es)
    (h : addDotted above k v es = some es') : Keyed Node.Distinct es' := by
  induction above generalizing es es' with
  | nil =>
    rw [addDotted, addNew] at h
    split at h
    · cases h
    · next hl =>
      cases h
      exact keyed_concat hes (by simpa using hl) (.value hv)
  | cons a above ih =>
    rw [addDotted] at h
    split at h
    · next hl =>
      obtain ⟨inner, hi, h⟩ := Option.bind_eq_some_iff.mp h
      cases h
      exact keyed_concat hes hl (Node.distinct_table_iff.mpr (ih .nil hi))
    · next hl =>
      have hinner := Node.distinct_table_iff.mp (keyed_lookup? hes hl)
      split at h
      · cases h
      · obtain ⟨inner, hi, h⟩ := Option.bind_eq_some_iff.mp h
        cases h
        exact keyed_replace hes (Node.distinct_table_iff.mpr (ih hinner hi))
    · next ts hl =>
      have hts := Node.distinct_elements_iff.mp (keyed_lookup? hes hl)
      split at h
      · next t ht =>
        obtain ⟨t', ht', h⟩ := Option.bind_eq_some_iff.mp h
        cases h
        exact keyed_replace hes (distinct_of_last hts (ih (hts t (List.mem_of_getLast? ht)) ht'))
      · cases h
    · cases h

theorem keyed_fill {entries : List (Key × Value)} (hv : ∀ e ∈ entries, e.2.Distinct)
    (hes : Keyed Node.Distinct es) (h : fill es entries = some es') : Keyed Node.Distinct es' :=
  foldlM_some (fun _ hb e he _ h => keyed_addDotted (hv e he) hb h) hes h

theorem keyed_changeAt {change : Entries → Option Entries}
    (hc : ∀ es es', Keyed Node.Distinct es → change es = some es' → Keyed Node.Distinct es')
    (hes : Keyed Node.Distinct es) (h : changeAt change above es = some es') :
    Keyed Node.Distinct es' := by
  induction above generalizing es es' with
  | nil => exact hc es es' hes h
  | cons a above ih =>
    rw [changeAt] at h
    split at h
    · next hl =>
      obtain ⟨inner, hi, h⟩ := Option.bind_eq_some_iff.mp h
      cases h
      exact keyed_concat hes hl (Node.distinct_table_iff.mpr (ih .nil hi))
    · next hl =>
      have hinner := Node.distinct_table_iff.mp (keyed_lookup? hes hl)
      obtain ⟨inner, hi, h⟩ := Option.bind_eq_some_iff.mp h
      cases h
      exact keyed_replace hes (Node.distinct_table_iff.mpr (ih hinner hi))
    · next ts hl =>
      have hts := Node.distinct_elements_iff.mp (keyed_lookup? hes hl)
      obtain ⟨t, ht, h⟩ := Option.bind_eq_some_iff.mp h
      obtain ⟨t', ht', h⟩ := Option.bind_eq_some_iff.mp h
      cases h
      exact keyed_replace hes (distinct_of_last hts (ih (hts t (List.mem_of_getLast? ht)) ht'))
    · cases h

theorem keyed_addTo {s : Section} (hv : ∀ e ∈ s.entries, e.2.Distinct)
    (hes : Keyed Node.Distinct es) (h : s.addTo es = some es') : Keyed Node.Distinct es' := by
  have hfill {es es' : Entries} (h : Keyed Node.Distinct es) (hf : fill es s.entries = some es') :
      Keyed Node.Distinct es' := keyed_fill hv h hf
  unfold Section.addTo at h
  dsimp only at h
  split at h
  · split at h
    · next hl =>
      obtain ⟨t, ht, h⟩ := Option.bind_eq_some_iff.mp h
      cases h
      refine keyed_concat hes hl (Node.distinct_elements_iff.mpr ?_)
      exact List.forall_mem_singleton.mpr (hfill .nil ht)
    · next ts hl =>
      have hts := Node.distinct_elements_iff.mp (keyed_lookup? hes hl)
      obtain ⟨t, ht, h⟩ := Option.bind_eq_some_iff.mp h
      cases h
      refine keyed_replace hes (Node.distinct_elements_iff.mpr ?_)
      intro es he
      rcases List.mem_append.mp he with he | he
      · exact hts es he
      · exact List.mem_singleton.mp he ▸ hfill .nil ht
    · cases h
  · split at h
    · next hl =>
      obtain ⟨t, ht, h⟩ := Option.bind_eq_some_iff.mp h
      cases h
      exact keyed_concat hes hl (Node.distinct_table_iff.mpr (hfill .nil ht))
    · next inner hl =>
      have hinner := Node.distinct_table_iff.mp (keyed_lookup? hes hl)
      obtain ⟨t, ht, h⟩ := Option.bind_eq_some_iff.mp h
      cases h
      refine (hes.filter _).concat ?_ (Node.distinct_table_iff.mpr (hfill hinner ht))
      intro e he
      simpa using (List.mem_filter.mp he).2
    · cases h

theorem distinct_of_sections {sts : List Statement} (h : ∀ st ∈ sts, st.Distinct) :
    (∀ e ∈ (sections sts).1, e.2.Distinct) ∧
      ∀ s ∈ (sections sts).2, ∀ e ∈ s.entries, e.2.Distinct := by
  induction sts with
  | nil => exact ⟨fun _ h => absurd h List.not_mem_nil, fun _ h => absurd h List.not_mem_nil⟩
  | cons st sts ih =>
    obtain ⟨hst, hsts⟩ := List.forall_mem_cons.mp h
    obtain ⟨hentries, hsections⟩ := ih hsts
    cases st with
    | entry k v => exact ⟨List.forall_mem_cons.mpr ⟨hst, hentries⟩, hsections⟩
    | header k | elementHeader k =>
      exact ⟨fun _ h => absurd h List.not_mem_nil,
        List.forall_mem_cons.mpr ⟨hentries, hsections⟩⟩

theorem keyed_build {sts : List Statement} (hst : ∀ st ∈ sts, st.Distinct)
    (h : build sts = some es) : Keyed Node.Distinct es := by
  obtain ⟨hentries, hsections⟩ := distinct_of_sections hst
  unfold build at h
  obtain ⟨es₀, h₀, h⟩ := Option.bind_eq_some_iff.mp h
  refine foldlM_some ?_ (keyed_fill hentries .nil h₀) h
  intro es hes s hs es' h
  exact keyed_changeAt (fun _ _ => keyed_addTo (hsections s hs)) hes h

end Building

theorem map_fst_entriesToValues (es : Entries) :
    (entriesToValues es).map Prod.fst = es.map Prod.fst := by
  induction es with
  | nil => rw [entriesToValues]; rfl
  | cons e es ih => rw [entriesToValues, List.map_cons, ih, List.map_cons]

mutual

theorem Node.distinct_toValue : (n : Node) → n.Distinct → n.toValue.Distinct
  | .value v, h => by
    rw [Node.toValue]
    cases h with | value h => exact h
  | .table origin es, h => by
    rw [Node.toValue]
    obtain ⟨hn, hes⟩ := Node.distinct_table_iff.mp h
    exact .table (map_fst_entriesToValues es ▸ hn) (distinct_entriesToValues es hes)
  | .elements ts, h => by
    rw [Node.toValue]
    exact .array (distinct_elementsToValues ts (Node.distinct_elements_iff.mp h))

theorem distinct_entriesToValues : (es : Entries) → (∀ e ∈ es, e.2.Distinct) →
    ∀ e ∈ entriesToValues es, e.2.Distinct
  | [], _ => by
    rw [entriesToValues]
    exact fun _ h => absurd h List.not_mem_nil
  | (k, n) :: r, h => by
    obtain ⟨hn, hr⟩ := List.forall_mem_cons.mp h
    rw [entriesToValues]
    exact List.forall_mem_cons.mpr ⟨n.distinct_toValue hn, distinct_entriesToValues r hr⟩

theorem distinct_elementsToValues : (ts : List Entries) → (∀ es ∈ ts, Keyed Node.Distinct es) →
    ∀ v ∈ elementsToValues ts, v.Distinct
  | [], _ => by
    rw [elementsToValues]
    exact fun _ h => absurd h List.not_mem_nil
  | es :: r, h => by
    obtain ⟨hes, hr⟩ := List.forall_mem_cons.mp h
    rw [elementsToValues]
    refine List.forall_mem_cons.mpr ⟨?_, distinct_elementsToValues r hr⟩
    exact .table (map_fst_entriesToValues es ▸ hes.nodup) (distinct_entriesToValues es hes.holds)

end

/-- A document that is read has no key twice in any of its tables. -/
theorem distinct_of_parse {text : String} {es : List (String × Value)}
    (h : parse text = some es) : Keyed Value.Distinct es := by
  unfold parse at h
  obtain ⟨sts, hs, h⟩ := Option.bind_eq_some_iff.mp h
  obtain ⟨es', hb, h⟩ := Option.bind_eq_some_iff.mp h
  cases h
  have hes := keyed_build (forall_mem_statementsWithin hs) hb
  exact ⟨map_fst_entriesToValues es' ▸ hes.nodup, distinct_entriesToValues es' hes.holds⟩

end StagedInstall.Toml
