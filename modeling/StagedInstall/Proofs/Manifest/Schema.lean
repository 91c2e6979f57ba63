import StagedInstall.Proofs.Manifest.Records

/-! # The schema of a manifest

A TOML document is accepted as a manifest if its keys and the values under them fit the schema, and
is then read as the manifest that it spells out (`Manifest.parse_eq_ok_iff`). The passes in which
the lists are read do not matter, since each element is accepted on its own (`listAt_iff`).
-/

namespace StagedInstall

open Toml

variable {v : Value} {es : List (String × Value)} {k : String}

section Lists

variable {α β : Type} {read : Value → Except Misfit α} {make : α → Except ManifestFault β}
  {Fits : Value → Prop} {said : Value → β} {bs : List β}

theorem mapM_mapM_eq_ok_iff {vs : List Value}
    (h : ∀ v ∈ vs, ∀ b, (∃ a, read v = .ok a ∧ make a = .ok b) ↔ Fits v ∧ b = said v) :
    (∃ as, vs.mapM read = .ok as ∧ as.mapM make = .ok bs) ↔
      (∀ v ∈ vs, Fits v) ∧ bs = vs.map said := by
  induction vs generalizing bs with
  | nil =>
    constructor
    · rintro ⟨as, ha, hb⟩
      cases ha
      cases hb
      exact ⟨fun _ h => absurd h List.not_mem_nil, rfl⟩
    · rintro ⟨-, rfl⟩
      exact ⟨[], rfl, rfl⟩
  | cons v vs ih =>
    obtain ⟨hv, hvs⟩ := List.forall_mem_cons.mp h
    rw [List.forall_mem_cons, List.map_cons]
    constructor
    · rintro ⟨as, ha, hb⟩
      rw [List.mapM_cons] at ha
      obtain ⟨a, hva, ha⟩ := bind_eq_ok_iff.mp ha
      obtain ⟨as', has, ha⟩ := bind_eq_ok_iff.mp ha
      cases ha
      rw [List.mapM_cons] at hb
      obtain ⟨b, hab, hb⟩ := bind_eq_ok_iff.mp hb
      obtain ⟨bs', hbs, hb⟩ := bind_eq_ok_iff.mp hb
      cases hb
      obtain ⟨hf, rfl⟩ := (hv b).mp ⟨a, hva, hab⟩
      obtain ⟨hfs, rfl⟩ := (ih hvs).mp ⟨as', has, hbs⟩
      exact ⟨⟨hf, hfs⟩, rfl⟩
    · rintro ⟨⟨hf, hfs⟩, rfl⟩
      obtain ⟨a, hva, hab⟩ := (hv _).mpr ⟨hf, rfl⟩
      obtain ⟨as, has, hbs⟩ := (ih hvs).mpr ⟨hfs, rfl⟩
      refine ⟨a :: as, ?_, ?_⟩
      · rw [List.mapM_cons, hva, has]
        rfl
      · rw [List.mapM_cons, hab, hbs]
        rfl

def elementsAt (es : List (String × Value)) (k : String) : List Value :=
  ((es.lookup k).map Value.elements).getD []

theorem listAt_iff (hes : Keyed Value.Distinct es) (h : ∀ v : Value, v.Distinct → ∀ b,
      (∃ a, read v = .ok a ∧ make a = .ok b) ↔ Fits v ∧ b = said v) :
    (∀ v, (k, v) ∈ es → ∃ as, v.asList read = .ok as) ∧
        ((readAt (fun v => (v.asList read).toOption) es k).getD []).mapM make = .ok bs ↔
      (∀ v, (k, v) ∈ es → ∃ vs, v = .array vs ∧ ∀ w ∈ vs, Fits w) ∧
        bs = (elementsAt es k).map said := by
  simp only [← lookup_eq_some_iff hes.nodup]
  unfold readAt elementsAt
  cases hl : es.lookup k with
  | none =>
    have hdone : ([] : List α).mapM make = .ok bs ↔ bs = [] :=
      ⟨fun h => by cases h; rfl, fun h => by rw [h]; rfl⟩
    simpa using hdone
  | some v =>
    have hv : v.Distinct := hes.holds _ (mem_of_lookup hl)
    simp only [Option.some.injEq, forall_eq', Option.bind_some, Option.map_some, Option.getD_some]
    cases v with
    | array vs =>
      have hvs : ∀ v ∈ vs, v.Distinct := by
        cases hv with | array hvs => exact hvs
      simp only [Value.asList, Value.elements, Value.array.injEq, exists_eq_left']
      rw [← mapM_mapM_eq_ok_iff fun v hv => h v (hvs v hv)]
      constructor
      · rintro ⟨⟨as, ha⟩, hb⟩
        rw [ha] at hb
        exact ⟨as, ha, hb⟩
      · rintro ⟨as, ha, hb⟩
        rw [ha]
        exact ⟨⟨as, rfl⟩, hb⟩
    | table | dateTime | string | integer | float | boolean =>
      refine iff_of_false (fun h => ?_) (by simp)
      obtain ⟨⟨as, ha⟩, -⟩ := h
      cases ha

end Lists

theorem Settings.at_iff (hes : Keyed Value.Distinct es) {s : Settings} :
    (∀ v, (k, v) ∈ es → ∃ s, ofValue v = .ok s) ∧
        s = (readAt (fun v => (ofValue v).toOption) es k).getD {} ↔
      (∀ v, (k, v) ∈ es → IsValue v) ∧ s = saidBy (es.lookup k) := by
  simp only [← lookup_eq_some_iff hes.nodup]
  unfold readAt
  cases hl : es.lookup k with
  | none => simp [saidBy]
  | some v =>
    have hv : v.Distinct := hes.holds _ (mem_of_lookup hl)
    simp only [Option.some.injEq, forall_eq', Option.bind_some]
    rw [← ofValue_eq_ok_iff hv]
    constructor
    · rintro ⟨⟨s, hs⟩, rfl⟩
      rw [hs]
      rfl
    · intro hs
      rw [hs]
      exact ⟨⟨s, rfl⟩, rfl⟩

/-- The fields of a manifest, each with the property that goes with it. -/
structure ManifestFields (settings files requests : Value → Prop) (es : List (String × Value)) :
    Prop where
  keys : ∀ e ∈ es, e.1 ∈ ["install", "programs", "libraries", "headers", "shares"]
  install : ∀ v, ("install", v) ∈ es → settings v
  programs : ∀ v, ("programs", v) ∈ es → files v
  libraries : ∀ v, ("libraries", v) ∈ es → files v
  headers : ∀ v, ("headers", v) ∈ es → requests v
  shares : ∀ v, ("shares", v) ∈ es → requests v

theorem manifestFields_concat {settings files requests : Value → Prop} :
    ManifestFields settings files requests (es ++ [(k, v)]) ↔
      ManifestFields settings files requests es ∧
      (k = "install" ∧ settings v ∨ (k = "programs" ∨ k = "libraries") ∧ files v ∨
        (k = "headers" ∨ k = "shares") ∧ requests v) := by
  constructor
  · intro h
    have hold {e : String × Value} (he : e ∈ es) : e ∈ es ++ [(k, v)] :=
      List.mem_append_left _ he
    have hnew : (k, v) ∈ es ++ [(k, v)] := List.mem_append_right es List.mem_cons_self
    refine ⟨⟨fun e he => h.keys e (hold he), fun v hv => h.install v (hold hv),
      fun v hv => h.programs v (hold hv), fun v hv => h.libraries v (hold hv),
      fun v hv => h.headers v (hold hv), fun v hv => h.shares v (hold hv)⟩, ?_⟩
    have hk := h.keys (k, v) hnew
    simp only [List.mem_cons, List.not_mem_nil, or_false] at hk
    rcases hk with rfl | rfl | rfl | rfl | rfl
    · exact .inl ⟨rfl, h.install v hnew⟩
    · exact .inr (.inl ⟨.inl rfl, h.programs v hnew⟩)
    · exact .inr (.inl ⟨.inr rfl, h.libraries v hnew⟩)
    · exact .inr (.inr ⟨.inl rfl, h.headers v hnew⟩)
    · exact .inr (.inr ⟨.inr rfl, h.shares v hnew⟩)
  · rintro ⟨h, hk⟩
    have hlast {e : String × Value} (he : e ∈ es ++ [(k, v)]) : e ∈ es ∨ e = (k, v) :=
      (List.mem_append.mp he).imp_right List.mem_singleton.mp
    constructor
    case keys =>
      intro e he
      rcases hlast he with he | rfl
      · exact h.keys e he
      · simp only [List.mem_cons, List.not_mem_nil, or_false]
        tauto
    all_goals
      intro w hw
      rcases hlast hw with hw | hw
    · exact h.install w hw
    · cases hw
      simpa using hk
    · exact h.programs w hw
    · cases hw
      simpa using hk
    · exact h.libraries w hw
    · cases hw
      simpa using hk
    · exact h.headers w hw
    · cases hw
      simpa using hk
    · exact h.shares w hw
    · cases hw
      simpa using hk

namespace ManifestDocument

/-- Whether a document can be read, before its requests are looked at. -/
def Reads : List (String × Value) → Prop :=
  ManifestFields (fun v => ∃ s, Settings.ofValue v = .ok s)
    (fun v => ∃ l, v.asList Value.asString = .ok l)
    (fun v => ∃ l, v.asList StageEntry.ofValue = .ok l)

def said (es : List (String × Value)) : ManifestDocument where
  install := (readAt (fun v => (Settings.ofValue v).toOption) es "install").getD {}
  programs := (readAt (fun v => (v.asList Value.asString).toOption) es "programs").getD []
  libraries := (readAt (fun v => (v.asList Value.asString).toOption) es "libraries").getD []
  headers := (readAt (fun v => (v.asList StageEntry.ofValue).toOption) es "headers").getD []
  shares := (readAt (fun v => (v.asList StageEntry.ofValue).toOption) es "shares").getD []

theorem setField_eq_ok_iff {d : ManifestDocument} (hes : Reads es) (hk : k ∉ es.map Prod.fst) :
    (said es).setField k v = .ok d ↔ Reads (es ++ [(k, v)]) ∧ d = said (es ++ [(k, v)]) := by
  unfold Reads at hes ⊢
  rw [manifestFields_concat, and_iff_right hes]
  unfold setField
  split
  case h_6 =>
    refine iff_of_false (fun h => by cases h) ?_
    tauto
  all_goals simp only [bind_eq_ok_iff, said, readAt_concat hk]
  case h_1 => cases Settings.ofValue v <;> simp [Except.toOption, pure, Except.pure, eq_comm]
  case h_2 | h_3 =>
    cases v.asList Value.asString <;> simp [Except.toOption, pure, Except.pure, eq_comm]
  case h_4 | h_5 =>
    cases v.asList StageEntry.ofValue <;> simp [Except.toOption, pure, Except.pure, eq_comm]

theorem ofEntries_eq_ok_iff (hn : (es.map Prod.fst).Nodup) {d : ManifestDocument} :
    ofEntries es = .ok d ↔ Reads es ∧ d = said es := by
  have hnil : Reads [] := by constructor <;> exact fun _ h => absurd h List.not_mem_nil
  have hset (es k v d) (hes : Reads es) (hk : k ∉ es.map Prod.fst) :
      (said es).setField k v = .ok d ↔ Reads (es ++ [(k, v)]) ∧ d = said (es ++ [(k, v)]) :=
    setField_eq_ok_iff hes hk
  exact foldlM_eq_ok_iff hnil (fun es e h => (manifestFields_concat.mp h).1) hset hn

end ManifestDocument

namespace Manifest

def IsFiles (v : Value) : Prop := ∃ vs, v = .array vs ∧ ∀ w ∈ vs, ∃ s, w = .string s

def IsRequests (v : Value) : Prop :=
  ∃ vs, v = .array vs ∧ ∀ w ∈ vs, ∃ es, w = .table es ∧ StageEntry.Fits es

def Fits : List (String × Value) → Prop := ManifestFields Settings.IsValue IsFiles IsRequests

def said (path root : Path) (es : List (String × Value)) : Manifest where
  path := path
  root := root
  settings := Settings.saidBy (es.lookup "install")
  programs := (elementsAt es "programs").map fun v => root / .ofString (v.text?.getD "")
  libraries := (elementsAt es "libraries").map fun v => root / .ofString (v.text?.getD "")
  headers := (elementsAt es "headers").map fun v => StageEntry.requested root v.entries
  shares := (elementsAt es "shares").map fun v => StageEntry.requested root v.entries

variable {path root : Path} {m : Manifest}

def placed (root : Path) (file : String) : Except ManifestFault Path :=
  .ok (root / .ofString file)

theorem mapM_placed (files : List String) :
    files.mapM (placed root) = .ok (files.map fun file => root / .ofString file) :=
  List.mapM_pure

theorem ofDocument_eq_ok_iff {d : ManifestDocument} : ofDocument path root d = .ok m ↔
    m.path = path ∧ m.root = root ∧ m.settings = d.install ∧
      d.programs.mapM (placed root) = .ok m.programs ∧
      d.libraries.mapM (placed root) = .ok m.libraries ∧
      d.headers.mapM (StageEntry.toRequest root "headers") = .ok m.headers ∧
      d.shares.mapM (StageEntry.toRequest root "shares") = .ok m.shares := by
  unfold ofDocument
  simp only [bind_eq_ok_iff, mapM_placed, Except.ok.injEq]
  constructor
  · rintro ⟨headers, hh, shares, hs, h⟩
    cases h
    exact ⟨rfl, rfl, rfl, rfl, rfl, hh, hs⟩
  · rintro ⟨hp, hroot, hset, hprog, hlib, hh, hs⟩
    refine ⟨_, hh, _, hs, ?_⟩
    rw [hprog, hlib, ← hp, ← hroot, ← hset]
    rfl

theorem exists_asString_iff {v : Value} {p : Path} :
    (∃ s, v.asString = .ok s ∧ placed root s = .ok p) ↔
      (∃ s, v = .string s) ∧ p = root / .ofString (v.text?.getD "") := by
  cases v <;> simp [Value.asString, placed, Value.text?, Value.misfit, eq_comm]

theorem filesAt_iff (hes : Keyed Value.Distinct es) {ps : List Path} :
    (∀ v, (k, v) ∈ es → ∃ l, v.asList Value.asString = .ok l) ∧
        ((readAt (fun v => (v.asList Value.asString).toOption) es k).getD []).mapM (placed root) =
          .ok ps ↔
      (∀ v, (k, v) ∈ es → IsFiles v) ∧
        ps = (elementsAt es k).map fun v => root / .ofString (v.text?.getD "") :=
  listAt_iff hes fun _ _ _ => exists_asString_iff

theorem requestsAt_iff (hes : Keyed Value.Distinct es) {table : String} {rs : List Request} :
    (∀ v, (k, v) ∈ es → ∃ l, v.asList StageEntry.ofValue = .ok l) ∧
        ((readAt (fun v => (v.asList StageEntry.ofValue).toOption) es k).getD []).mapM
          (StageEntry.toRequest root table) = .ok rs ↔
      (∀ v, (k, v) ∈ es → IsRequests v) ∧
        rs = (elementsAt es k).map fun v => StageEntry.requested root v.entries :=
  listAt_iff hes fun _ hv _ => StageEntry.exists_ofValue_iff hv

theorem eq_said_iff : m = said path root es ↔
    m.path = path ∧ m.root = root ∧ m.settings = Settings.saidBy (es.lookup "install") ∧
      m.programs = (said path root es).programs ∧ m.libraries = (said path root es).libraries ∧
      m.headers = (said path root es).headers ∧ m.shares = (said path root es).shares := by
  cases m
  simp [said]

theorem parse_eq_ok_iff {text : String} (h : Toml.parse text = some es) :
    parse text path root = .ok m ↔ Fits es ∧ m = said path root es := by
  have hes := distinct_of_parse h
  have hparse : ManifestDocument.parse text =
      (ManifestDocument.ofEntries es).mapError .misfit := by
    rw [ManifestDocument.parse, h]
  unfold parse
  rw [mapError_eq_ok_iff, bind_eq_ok_iff, eq_said_iff]
  simp only [mapError_eq_ok_iff, hparse, ManifestDocument.ofEntries_eq_ok_iff hes.nodup,
    ofDocument_eq_ok_iff]
  constructor
  · rintro ⟨d, ⟨hr, rfl⟩, hp, hroot, hs, hprograms, hlibraries, hheaders, hshares⟩
    obtain ⟨fs, hs⟩ := (Settings.at_iff hes).mp ⟨hr.install, hs⟩
    obtain ⟨fp, hprograms⟩ := (filesAt_iff hes).mp ⟨hr.programs, hprograms⟩
    obtain ⟨fl, hlibraries⟩ := (filesAt_iff hes).mp ⟨hr.libraries, hlibraries⟩
    obtain ⟨fh, hheaders⟩ := (requestsAt_iff hes).mp ⟨hr.headers, hheaders⟩
    obtain ⟨fsh, hshares⟩ := (requestsAt_iff hes).mp ⟨hr.shares, hshares⟩
    exact ⟨⟨hr.keys, fs, fp, fl, fh, fsh⟩, hp, hroot, hs, hprograms, hlibraries, hheaders, hshares⟩
  · rintro ⟨hf, hp, hroot, hs, hprograms, hlibraries, hheaders, hshares⟩
    obtain ⟨rs, hs⟩ := (Settings.at_iff hes).mpr ⟨hf.install, hs⟩
    obtain ⟨rp, hprograms⟩ := (filesAt_iff hes).mpr ⟨hf.programs, hprograms⟩
    obtain ⟨rl, hlibraries⟩ := (filesAt_iff hes).mpr ⟨hf.libraries, hlibraries⟩
    obtain ⟨rh, hheaders⟩ := (requestsAt_iff hes).mpr ⟨hf.headers, hheaders⟩
    obtain ⟨rsh, hshares⟩ := (requestsAt_iff hes).mpr ⟨hf.shares, hshares⟩
    exact ⟨_, ⟨⟨hf.keys, rs, rp, rl, rh, rsh⟩, rfl⟩, hp, hroot, hs, hprograms, hlibraries,
      hheaders, hshares⟩

/-- The documents that are accepted as manifests are those that fit the schema, and each is read as
what it spells out. -/
theorem parse_fits {text : String} (h : Toml.parse text = some es) (path root : Path) :
    ((∃ m, parse text path root = .ok m) ↔ Fits es) ∧
      ∀ m, parse text path root = .ok m → m = said path root es := by
  refine ⟨⟨?_, fun hf => ⟨_, (parse_eq_ok_iff h).mpr ⟨hf, rfl⟩⟩⟩, ?_⟩
  · rintro ⟨m, hm⟩
    exact ((parse_eq_ok_iff h).mp hm).1
  · exact fun m hm => ((parse_eq_ok_iff h).mp hm).2

namespace Sample

def document : String :=
  "programs = ['p']\n[install]\nexec_prefix = '/x'\n[[headers]]\nfile = 'a.h'\n[[shares]]\n" ++
    "parent = 'd'\npattern = '*'\nbasedir = 'b'\n"

def spelled : Manifest :=
  ⟨∅, .root, { execPrefixDir := "/x" }, [.ofString "/p"], [], [⟨.file (.ofString "/a.h"), ""⟩],
    [⟨.directory (.ofString "d") "*" false, "b"⟩]⟩

end Sample

open Sample in
theorem parse_fits_sample : ∃ es, Toml.parse document = some es ∧
    (parse document ∅ .root = .ok spelled ∧ Fits es) ∧ spelled = said ∅ .root es := by
  have hs : (Toml.parse document).isSome = true := by decide +kernel
  obtain ⟨es, h⟩ := Option.isSome_iff_exists.mp hs
  have hm : parse document ∅ .root = .ok spelled := by decide +kernel
  obtain ⟨hfits, hsaid⟩ := parse_fits h ∅ .root
  exact ⟨es, h, ⟨hm, hfits.mp ⟨_, hm⟩⟩, hsaid _ hm⟩

end Manifest

end StagedInstall
