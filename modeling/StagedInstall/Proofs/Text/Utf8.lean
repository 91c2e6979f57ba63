import StagedInstall.Text.Utf8
import Mathlib.Data.List.Basic

/-! # Reading and writing UTF-8

A character that the decoder is about to finish is one whose bytes it has read: every completion
of a state that can be reached is a code point that is written in no fewer bytes (`Sound`). So
well-formed bytes are read without loss (`encode_decodeLossy`), and reading ill-formed ones makes
up no ASCII (`mem_of_mem_encode_decodeLossy`).
-/

namespace StagedInstall.Utf8

variable {b : Bytes} {s : State} {c : Char} {x : UInt8} {cs : List Char}

/-- The least code point with `owed + 2` bytes. -/
def least : (owed : Nat) → Nat
  | 0 => 0x80
  | 1 => 0x800
  | _ => 0x10000

/-- What a step of the value is worth when `owed` more bytes follow the next one. -/
def weight : (owed : Nat) → Nat
  | 0 => 1
  | owed + 1 => 0x40 * weight owed

def begun : (owed value : Nat) → Bytes
  | 0, v =>
    if v < 0x20 then [.ofNat (0xC0 + v)]
    else if v < 0x400 then [.ofNat (0xE0 + v / 0x40), .ofNat (0x80 + v % 0x40)]
    else [.ofNat (0xF0 + v / 0x1000), .ofNat (0x80 + v / 0x40 % 0x40), .ofNat (0x80 + v % 0x40)]
  | 1, v =>
    if v < 0x10 then [.ofNat (0xE0 + v)]
    else [.ofNat (0xF0 + v / 0x40), .ofNat (0x80 + v % 0x40)]
  | _, v => [.ofNat (0xF0 + v)]

namespace State

def read : State → Bytes
  | start => []
  | within _ _ owed value => begun owed value

/-- All completions of the state are code points that need as many bytes. -/
def Sound : State → Prop
  | start => True
  | within low high owed value =>
    0x80 ≤ low.toNat ∧ high.toNat ≤ 0xBF ∧ owed ≤ 2 ∧
      least owed ≤ (value * 0x40 + (low.toNat - 0x80)) * weight owed ∧
      (value * 0x40 + (high.toNat - 0x80) + 1) * weight owed ≤ 0x110000 ∧
      ((value * 0x40 + (high.toNat - 0x80) + 1) * weight owed ≤ 0xD800 ∨
        0xE000 ≤ (value * 0x40 + (low.toNat - 0x80)) * weight owed)

end State

theorem ofNat_eq {n : Nat} (h : n = x.toNat) : UInt8.ofNat n = x := by
  rw [h, UInt8.ofNat_toNat]

theorem toNat_ofNat_of_valid {n : Nat} (h : n.isValidChar) : (Char.ofNat n).toNat = n := by
  rw [Char.ofNat, dif_pos h]
  rfl

theorem lead_eq_whole (h : lead x = .whole c) : x.toNat < 0x80 ∧ c = .ofNat x.toNat := by
  unfold lead at h
  split at h
  · next hx =>
    cases h
    exact ⟨UInt8.lt_iff_toNat_lt.mp hx, rfl⟩
  · repeat' split at h
    all_goals cases h

theorem begun_zero {v : Nat} (h : v < 0x20) (hx : 0xC0 + v = x.toNat) : begun 0 v = [x] := by
  rw [begun, if_pos h, ofNat_eq hx]

theorem begun_one {v : Nat} (h : v < 0x10) (hx : 0xE0 + v = x.toNat) : begun 1 v = [x] := by
  rw [begun, if_pos h, ofNat_eq hx]

theorem begun_two {v : Nat} (hx : 0xF0 + v = x.toNat) : begun 2 v = [x] :=
  congrArg (fun y => [y]) (ofNat_eq hx)

theorem lead_eq_begins (h : lead x = .begins s) : s.Sound ∧ s.read = [x] := by
  unfold lead at h
  simp only [UInt8.lt_iff_toNat_lt, ← UInt8.toNat_inj, UInt8.reduceToNat] at h
  repeat' split at h
  all_goals cases h
  all_goals simp only [State.Sound, State.read, least, weight, UInt8.reduceToNat]
  · exact ⟨by omega, begun_zero (by omega) (by omega)⟩
  · exact ⟨by omega, begun_one (by omega) (by omega)⟩
  · exact ⟨by omega, begun_one (by omega) (by omega)⟩
  · exact ⟨by omega, begun_one (by omega) (by omega)⟩
  · exact ⟨by omega, begun_two (by omega)⟩
  · exact ⟨by omega, begun_two (by omega)⟩
  · exact ⟨by omega, begun_two (by omega)⟩

variable {low high : UInt8} {owed v : Nat}

/-- The value after one more byte, digit by digit. -/
theorem shifted {v m : Nat} (h : m < 0x40) :
    (v * 0x40 + m) % 0x40 = m ∧ (v * 0x40 + m) / 0x40 = v ∧
      (v * 0x40 + m) / 0x1000 = v / 0x40 ∧ (v * 0x40 + m) / 0x40000 = v / 0x1000 := by
  omega

theorem State.Sound.next (h : (State.within low high (owed + 1) v).Sound) (hlo : low ≤ x)
    (hhi : x ≤ high) : (State.within 0x80 0xBF owed (v * 0x40 + (x.toNat - 0x80))).Sound ∧
      begun owed (v * 0x40 + (x.toNat - 0x80)) = begun (owed + 1) v ++ [x] := by
  obtain ⟨hl, hh, ho, hleast, hmax, hsur⟩ := h
  rw [UInt8.le_iff_toNat_le] at hlo hhi
  obtain ⟨hmod, hdiv, hdiv₂, -⟩ := shifted (v := v) (m := x.toNat - 0x80) (by omega)
  have hx : UInt8.ofNat (0x80 + (x.toNat - 0x80)) = x := ofNat_eq (by omega)
  match owed with
  | 0 =>
    simp only [least, weight] at hleast hmax hsur
    refine ⟨by simp only [State.Sound, least, weight, UInt8.reduceToNat]; omega, ?_⟩
    rw [begun, if_neg (by omega), begun, hmod, hdiv, hdiv₂, hx]
    by_cases hv : v < 0x10
    · rw [if_pos (by omega), if_pos hv, List.singleton_append]
    · rw [if_neg (by omega), if_neg hv, List.cons_append, List.singleton_append]
  | 1 =>
    simp only [least, weight] at hleast hmax hsur
    refine ⟨by simp only [State.Sound, least, weight, UInt8.reduceToNat]; omega, ?_⟩
    rw [begun, if_neg (by omega), hmod, hdiv, hx]
    rfl
  | owed + 2 => omega

theorem State.Sound.finish (h : (State.within low high 0 v).Sound) (hlo : low ≤ x)
    (hhi : x ≤ high) : (v * 0x40 + (x.toNat - 0x80)).isValidChar ∧
      0x80 ≤ v * 0x40 + (x.toNat - 0x80) ∧
      encodeNat (v * 0x40 + (x.toNat - 0x80)) = begun 0 v ++ [x] := by
  obtain ⟨hl, hh, ho, hleast, hmax, hsur⟩ := h
  rw [UInt8.le_iff_toNat_le] at hlo hhi
  obtain ⟨hmod, hdiv, hdiv₂, hdiv₃⟩ := shifted (v := v) (m := x.toNat - 0x80) (by omega)
  have hx : UInt8.ofNat (0x80 + (x.toNat - 0x80)) = x := ofNat_eq (by omega)
  simp only [least, weight] at hleast hmax hsur
  refine ⟨by unfold Nat.isValidChar; omega, by omega, ?_⟩
  rw [encodeNat, if_neg (by omega), begun, hmod, hdiv, hdiv₂, hdiv₃, hx]
  by_cases h₂ : v < 0x20
  · rw [if_pos (by omega), if_pos h₂, List.singleton_append]
  rw [if_neg (by omega), if_neg h₂]
  by_cases h₃ : v < 0x400
  · rw [if_pos (by omega), if_pos h₃, List.cons_append, List.singleton_append]
  · rw [if_neg (by omega), if_neg h₃, List.cons_append, List.cons_append, List.singleton_append]

theorem encodeChar_whole (h : x.toNat < 0x80) : encodeChar (.ofNat x.toNat) = [x] := by
  have hv : x.toNat.isValidChar := by
    unfold Nat.isValidChar
    omega
  rw [encodeChar, toNat_ofNat_of_valid hv, encodeNat, if_pos h, ofNat_eq rfl]

theorem encode_of_decodeFrom (hs : s.Sound) (h : decodeFrom s b = cs.map some) :
    encode cs = s.read ++ b := by
  fun_induction decodeFrom s b generalizing cs with
  | case1 =>
    obtain rfl := List.map_eq_nil_iff.mp h.symm
    rfl
  | case3 x r c hc ih =>
    cases cs with
    | nil => cases h
    | cons c' cs =>
      obtain ⟨hcc, ht⟩ := List.cons.inj h
      cases hcc
      obtain ⟨hx, rfl⟩ := lead_eq_whole hc
      rw [encode, List.flatMap_cons, encodeChar_whole hx]
      exact congrArg (x :: ·) (ih trivial ht)
  | case4 x r s hs' ih =>
    obtain ⟨hs', hr⟩ := lead_eq_begins hs'
    rw [ih hs' h, hr]
    rfl
  | case6 low high v x r hx n =>
    rename_i ih
    cases cs with
    | nil => cases h
    | cons c' cs =>
      obtain ⟨hc, ht⟩ := List.cons.inj h
      obtain ⟨hv, -, he⟩ := hs.finish hx.1 hx.2
      have ih : encode cs = r := ih trivial ht
      rw [← Option.some.inj hc, encode, List.flatMap_cons, encodeChar, toNat_ofNat_of_valid hv,
        he]
      exact (List.append_assoc ..).trans (congrArg (fun t => begun 0 v ++ ([x] ++ t)) ih)
  | case7 low high v x r hx n owed =>
    rename_i ih
    obtain ⟨hs', hr⟩ := hs.next hx.1 hx.2
    rw [ih hs' h, State.read, hr, List.append_assoc]
    rfl
  | _ => cases cs <;> cases h

theorem mem_of_mem_decodeFrom (hs : s.Sound) (h : some c ∈ decodeFrom s b) (hc : c.toNat < 0x80) :
    ∃ x ∈ b, x.toNat = c.toNat := by
  have head {x : UInt8} (hx : lead x = .whole c) : x.toNat = c.toNat := by
    obtain ⟨hlt, rfl⟩ := lead_eq_whole hx
    exact (toNat_ofNat_of_valid (by unfold Nat.isValidChar; omega)).symm
  have tail {x : UInt8} {r : Bytes} (h : ∃ y ∈ r, y.toNat = c.toNat) :
      ∃ y ∈ x :: r, y.toNat = c.toNat := by
    obtain ⟨y, hy, he⟩ := h
    exact ⟨y, List.mem_cons_of_mem x hy, he⟩
  fun_induction decodeFrom s b with
  | case1 => cases h
  | case2 => cases h with | tail _ h => cases h
  | case3 x r c' hx ih =>
    rcases List.mem_cons.mp h with h | h
    · cases h
      exact ⟨x, List.mem_cons_self, head hx⟩
    · exact tail (ih trivial h)
  | case4 x r s hx ih => exact tail (ih (lead_eq_begins hx).1 h)
  | case5 x r hx ih => exact tail (ih trivial ((List.mem_cons.mp h).resolve_left (by simp)))
  | case6 low high v x r hx n =>
    rename_i ih
    rcases List.mem_cons.mp h with h | h
    · obtain ⟨hv, hn, -⟩ := hs.finish hx.1 hx.2
      rw [Option.some.inj h, toNat_ofNat_of_valid hv] at hc
      exact absurd hc (Nat.not_lt.mpr hn)
    · exact tail (ih trivial h)
  | case7 low high v x r hx n owed =>
    rename_i ih
    exact tail (ih (hs.next hx.1 hx.2).1 h)
  | case8 low high owed v x r =>
    rename_i ihStart ih
    have h := (List.mem_cons.mp h).resolve_left (by simp)
    split at h
    · next c' hx =>
      rcases List.mem_cons.mp h with h | h
      · cases h
        exact ⟨x, List.mem_cons_self, head hx⟩
      · exact tail (ihStart trivial h)
    · next s hx => exact tail (ih s (lead_eq_begins hx).1 h)
    · exact tail (ihStart trivial ((List.mem_cons.mp h).resolve_left (by simp)))

theorem eq_of_mem_encodeChar (h : x ∈ encodeChar c) (hx : x.toNat < 0x80) :
    x.toNat = c.toNat := by
  unfold encodeChar encodeNat at h
  have hc : c.toNat < 0x110000 := by
    have hv : c.toNat.isValidChar := c.valid
    unfold Nat.isValidChar at hv
    omega
  split at h
  · rw [List.mem_singleton.mp h, UInt8.toNat_ofNat']
    omega
  repeat' split at h
  all_goals
    exfalso
    simp only [List.mem_cons, List.not_mem_nil, or_false, ← UInt8.toNat_inj,
      UInt8.toNat_ofNat'] at h
    omega

/-- The ASCII bytes of a text that was read without regard to gaps are bytes that were read. -/
theorem mem_of_mem_encode_decodeLossy (h : x ∈ encode (decodeLossy b)) (hx : x.toNat < 0x80) :
    x ∈ b := by
  obtain ⟨c, hc, hxc⟩ := List.mem_flatMap.mp h
  have hn := eq_of_mem_encodeChar hxc hx
  obtain ⟨o, ho, rfl⟩ := List.mem_map.mp hc
  cases o with
  | none => exact absurd (hn ▸ hx) (by decide)
  | some c =>
    obtain ⟨y, hy, he⟩ := mem_of_mem_decodeFrom (s := .start) trivial ho (hn ▸ hx)
    rwa [UInt8.toNat_inj.mp (hn.trans he.symm)]

theorem decodeFrom_within_ne_nil (low high : UInt8) (owed value : Nat) (b : Bytes) :
    decodeFrom (.within low high owed value) b ≠ [] := by
  induction b generalizing low high owed value with
  | nil => simp [decodeFrom]
  | cons x r ih =>
    unfold decodeFrom
    split
    · cases owed with
      | zero => simp
      | succ owed => exact ih _ _ _ _
    · simp

theorem decode_ne_nil (h : b ≠ []) : decode b ≠ [] := by
  obtain ⟨x, r, rfl⟩ := List.exists_cons_of_ne_nil h
  unfold decode decodeFrom
  cases hx : lead x with
  | whole => simp
  | invalid => simp
  | begins s =>
    cases s with
    | start => exact absurd (lead_eq_begins hx).2 (by simp [State.read])
    | within => exact decodeFrom_within_ne_nil _ _ _ _ _

theorem encodeChar_ne_nil (c : Char) : encodeChar c ≠ [] := by
  unfold encodeChar encodeNat
  split
  · simp
  split
  · simp
  split <;> simp

theorem head?_encode (cs : List Char) : (encode cs).head? = some 0x2F ↔ cs.head? = some '/' := by
  cases cs with
  | nil => simp [encode]
  | cons c cs =>
    obtain ⟨x, r, hx⟩ := List.exists_cons_of_ne_nil (encodeChar_ne_nil c)
    rw [encode, List.flatMap_cons, hx, List.cons_append, List.head?_cons, List.head?_cons,
      Option.some.injEq, Option.some.injEq]
    constructor
    · intro h
      have hm : 0x2F ∈ encodeChar c := by simp [hx, h]
      exact Char.toNat_inj.mp (eq_of_mem_encodeChar hm (by decide)).symm
    · rintro rfl
      exact (List.cons.inj hx).1.symm

theorem encode_decodeLossy_ne_nil (h : b ≠ []) : encode (decodeLossy b) ≠ [] := by
  obtain ⟨o, l, hl⟩ := List.exists_cons_of_ne_nil (decode_ne_nil h)
  rw [decodeLossy, hl, List.map_cons, encode, List.flatMap_cons]
  intro he
  exact encodeChar_ne_nil _ (List.append_eq_nil_iff.mp he).1

theorem encode_decodeLossy (h : decode? b = some cs) : encode (decodeLossy b) = b := by
  have hcs : decode b = cs.map some := by
    unfold decode? at h
    generalize decode b = l at h
    induction l generalizing cs with
    | nil => cases h; rfl
    | cons o l ih =>
      rw [List.mapM_cons, Option.bind_eq_bind, Option.bind_eq_some_iff] at h
      obtain ⟨c, rfl, h⟩ := h
      obtain ⟨cs', hcs', h⟩ := Option.bind_eq_some_iff.mp h
      cases h
      rw [ih hcs', List.map_cons]
  have hl : decodeLossy b = cs := by
    rw [decodeLossy, hcs, List.map_map]
    exact List.map_id cs
  rw [hl, encode_of_decodeFrom (s := .start) trivial hcs]
  rfl

theorem encode_decodeLossy_of_ascii (h : ∀ x ∈ encode (decodeLossy b), x.toNat < 0x80) :
    encode (decodeLossy b) = b := by
  have hgap : none ∉ decode b := by
    intro hn
    have hc : '\uFFFD' ∈ decodeLossy b := List.mem_map.mpr ⟨none, hn, rfl⟩
    exact absurd (h 0xEF (List.mem_flatMap.mpr ⟨_, hc, by decide⟩)) (by decide)
  have hd : decode b = (decodeLossy b).map some := by
    rw [decodeLossy, List.map_map]
    refine (List.map_id _).symm.trans (List.map_congr_left fun o ho => ?_)
    cases o with
    | none => exact absurd ho hgap
    | some c => rfl
  exact encode_of_decodeFrom (s := .start) trivial hd

end StagedInstall.Utf8
