import StagedInstall.Proofs.Text.Utf8
import Mathlib.Tactic.IntervalCases

/-! # Reading back what was written in UTF-8

The bytes of a character take the decoder back to where it stands between characters
(`decodeFrom_encodeNat`), so every text is read as what was written (`toString?_ofString`).
-/

namespace StagedInstall.Utf8

theorem toNat_continuation {m : Nat} (h : m < 0x40) :
    (UInt8.ofNat (0x80 + m)).toNat = 0x80 + m := by
  rw [UInt8.toNat_ofNat']
  omega

theorem le_continuation {low high : UInt8} {m : Nat} (h : m < 0x40)
    (hlow : low.toNat ≤ 0x80 + m) (hhigh : 0x80 + m ≤ high.toNat) :
    low ≤ .ofNat (0x80 + m) ∧ .ofNat (0x80 + m) ≤ high := by
  rw [UInt8.le_iff_toNat_le, UInt8.le_iff_toNat_le, toNat_continuation h]
  exact ⟨hlow, hhigh⟩

section Following

variable {low high : UInt8} {owed v m : Nat} (r : Bytes)

theorem decodeFrom_next (h : m < 0x40) (hlow : low.toNat ≤ 0x80 + m)
    (hhigh : 0x80 + m ≤ high.toNat) :
    decodeFrom (.within low high (owed + 1) v) (.ofNat (0x80 + m) :: r) =
      decodeFrom (.within 0x80 0xBF owed (v * 0x40 + m)) r := by
  rw [decodeFrom, if_pos (le_continuation h hlow hhigh), toNat_continuation h,
    Nat.add_sub_cancel_left]

theorem decodeFrom_last (h : m < 0x40) (hlow : low.toNat ≤ 0x80 + m)
    (hhigh : 0x80 + m ≤ high.toNat) :
    decodeFrom (.within low high 0 v) (.ofNat (0x80 + m) :: r) =
      some (.ofNat (v * 0x40 + m)) :: decodeFrom .start r := by
  rw [decodeFrom, if_pos (le_continuation h hlow hhigh), toNat_continuation h,
    Nat.add_sub_cancel_left]

end Following

theorem lead_one {n : Nat} (h : n < 0x80) : lead (.ofNat n) = .whole (.ofNat n) := by
  have hn : (UInt8.ofNat n).toNat = n := by
    rw [UInt8.toNat_ofNat']
    omega
  rw [lead, if_pos (by rw [UInt8.lt_iff_toNat_lt, hn]; exact h), hn]

theorem lead_two {a : Nat} (h₂ : 2 ≤ a) (h : a < 0x20) :
    lead (.ofNat (0xC0 + a)) = .begins (.within 0x80 0xBF 0 a) := by
  interval_cases a <;> rfl

theorem lead_three {a : Nat} (h : a < 0x10) : lead (.ofNat (0xE0 + a)) =
    .begins (.within (if a = 0 then 0xA0 else 0x80) (if a = 0xD then 0x9F else 0xBF) 1 a) := by
  interval_cases a <;> rfl

theorem lead_four {a : Nat} (h : a < 5) : lead (.ofNat (0xF0 + a)) =
    .begins (.within (if a = 0 then 0x90 else 0x80) (if a = 4 then 0x8F else 0xBF) 2 a) := by
  interval_cases a <;> rfl

theorem decodeFrom_encodeNat {n : Nat} (h : n.isValidChar) (r : Bytes) :
    decodeFrom .start (encodeNat n ++ r) = some (.ofNat n) :: decodeFrom .start r := by
  unfold Nat.isValidChar at h
  have hlast : n % 0x40 < 0x40 := Nat.mod_lt n (by decide)
  have hnext : n / 0x40 % 0x40 < 0x40 := Nat.mod_lt _ (by decide)
  have hnext₂ : n / 0x1000 % 0x40 < 0x40 := Nat.mod_lt _ (by decide)
  unfold encodeNat
  split_ifs with h₁ h₂ h₃
  · rw [List.singleton_append, decodeFrom, lead_one h₁]
  · have he : n / 0x40 * 0x40 + n % 0x40 = n := by omega
    rw [List.cons_append, List.singleton_append, decodeFrom, lead_two (by omega) (by omega)]
    dsimp only
    rw [decodeFrom_last r hlast (by simp) (by simp; omega), he]
  · have he : (n / 0x1000 * 0x40 + n / 0x40 % 0x40) * 0x40 + n % 0x40 = n := by omega
    rw [List.cons_append, List.cons_append, List.singleton_append, decodeFrom,
      lead_three (by omega)]
    dsimp only
    rw [decodeFrom_next _ hnext, decodeFrom_last r hlast (by simp) (by simp; omega), he]
    · split_ifs <;> simp
      omega
    · split_ifs <;> (simp; omega)
  · have he : ((n / 0x40000 * 0x40 + n / 0x1000 % 0x40) * 0x40 + n / 0x40 % 0x40) * 0x40 +
        n % 0x40 = n := by omega
    rw [List.cons_append, List.cons_append, List.cons_append, List.singleton_append, decodeFrom,
      lead_four (by omega)]
    dsimp only
    rw [decodeFrom_next _ hnext₂, decodeFrom_next _ hnext (by simp) (by simp; omega),
      decodeFrom_last r hlast (by simp) (by simp; omega), he]
    · split_ifs <;> simp
      omega
    · split_ifs <;> (simp; omega)

theorem decode?_encode (cs : List Char) : decode? (encode cs) = some cs := by
  have h : decode (encode cs) = cs.map some := by
    induction cs with
    | nil => rfl
    | cons c cs ih =>
      have hv : c.toNat.isValidChar := c.valid
      have hc := decodeFrom_encodeNat hv (encode cs)
      rw [Char.ofNat_toNat] at hc
      exact hc.trans (congrArg (some c :: ·) ih)
  have hid : (cs.map some).mapM id = some cs := by
    clear h
    induction cs with
    | nil => rfl
    | cons c cs ih =>
      rw [List.map_cons, List.mapM_cons, ih]
      rfl
  rw [decode?, h, hid]

end StagedInstall.Utf8

namespace StagedInstall.Bytes

theorem toString?_ofString (s : String) : (ofString s).toString? = some s := by
  rw [toString?, ofString, Utf8.decode?_encode, Option.map_some, String.ofList_toList]

end StagedInstall.Bytes
