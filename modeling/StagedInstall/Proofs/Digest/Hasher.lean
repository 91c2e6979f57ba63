import StagedInstall.Digest.Sha1
import Mathlib.Algebra.Group.Nat.Defs
import Mathlib.Data.List.Basic
import Mathlib.Data.Nat.Basic

/-! # Digests of content that arrives in pieces

A hasher has worked the full blocks of what it was given and keeps the rest (`Hasher.Absorbed`).
That holds of it whatever the pieces were in which the bytes came, so its digest is that of the
whole message (`Hasher.finalize_foldl_update`).
-/

namespace StagedInstall.Sha1

variable {m chunk : Bytes} {s : Hasher} {n : Nat}

theorem blocks_eq (n : Nat) (b : Bytes) :
    blocks n b = (List.range n).map fun i => (b.drop (64 * i)).take 64 := by
  induction n generalizing b with
  | zero => rfl
  | succ n ih =>
    rw [blocks, ih, List.range_succ_eq_map, List.map_cons, List.map_map]
    refine congrArg _ (List.map_congr_left fun i _ => ?_)
    rw [List.drop_drop, Function.comp_apply, Nat.mul_succ, Nat.add_comm]

theorem blocks_succ (n : Nat) (b : Bytes) :
    blocks (n + 1) b = blocks n b ++ [(b.drop (64 * n)).take 64] := by
  rw [blocks_eq, blocks_eq, List.range_succ, List.map_append, List.map_singleton]

theorem blocks_append (h : 64 * n ≤ m.length) (b : Bytes) : blocks n (m ++ b) = blocks n m := by
  rw [blocks_eq, blocks_eq]
  refine List.map_congr_left fun i hi => ?_
  have hi : i < n := List.mem_range.mp hi
  rw [List.drop_append_of_le_length (by omega), List.take_append_of_le_length]
  rw [List.length_drop]
  omega

namespace Hasher

/-- The hasher has taken in the message `m`: the blocks that are full are worked, and the rest is
pending. -/
structure Absorbed (s : Hasher) (m : Bytes) : Prop where
  words : s.words = (blocks (m.length / 64) m).foldl compress initial
  pending : s.pending = m.drop (64 * (m.length / 64))
  count : s.count = m.length

theorem absorbed_new : new.Absorbed [] := ⟨rfl, rfl, rfl⟩

theorem Absorbed.push (h : s.Absorbed m) (b : UInt8) : (s.push b).Absorbed (m ++ [b]) := by
  obtain ⟨hw, hp, hc⟩ := h
  have hfull : 64 * (m.length / 64) ≤ m.length := Nat.mul_div_le m.length 64
  have hpending : s.pending ++ [b] = (m ++ [b]).drop (64 * (m.length / 64)) := by
    rw [hp, List.drop_append_of_le_length hfull]
  have hlength : (s.pending ++ [b]).length = m.length % 64 + 1 := by
    rw [hp, List.length_append, List.length_drop, List.length_singleton]
    omega
  have hcount : s.count + 1 = (m ++ [b]).length := by
    rw [hc, List.length_append, List.length_singleton]
  unfold Hasher.push
  dsimp only
  split
  · next hlast =>
    have hblocks : (m ++ [b]).length / 64 = m.length / 64 + 1 := by
      rw [List.length_append, List.length_singleton]
      omega
    refine ⟨?_, ?_, hcount⟩
    · rw [hblocks, blocks_succ, blocks_append hfull, List.foldl_append, ← hw, ← hpending,
        List.take_of_length_le (Nat.le_of_eq hlast)]
      rfl
    · rw [hblocks, List.drop_of_length_le]
      rw [List.length_append, List.length_singleton]
      omega
  · next hmore =>
    have hblocks : (m ++ [b]).length / 64 = m.length / 64 := by
      rw [List.length_append, List.length_singleton]
      omega
    refine ⟨?_, ?_, hcount⟩
    · rw [hblocks, blocks_append hfull, hw]
    · rw [hblocks, hpending]

theorem Absorbed.update (h : s.Absorbed m) (chunk : Bytes) :
    (s.update chunk).Absorbed (m ++ chunk) := by
  unfold Hasher.update
  induction chunk generalizing s m with
  | nil => rwa [List.append_nil]
  | cons b chunk ih =>
    rw [List.foldl_cons, List.append_cons]
    exact ih (h.push b)

theorem Absorbed.foldl_update (h : s.Absorbed m) (chunks : List Bytes) :
    (chunks.foldl Hasher.update s).Absorbed (m ++ chunks.flatten) := by
  induction chunks generalizing s m with
  | nil => rwa [List.flatten_nil, List.append_nil]
  | cons chunk chunks ih =>
    rw [List.foldl_cons, List.flatten_cons, ← List.append_assoc]
    exact ih (h.update chunk)

theorem Absorbed.finalize (h : s.Absorbed m) : s.finalize = digest m := by
  rw [Hasher.finalize, h.count, (h.update (padding m.length)).words]
  rfl

/-- The digest does not depend on the pieces in which a message arrives. -/
theorem finalize_foldl_update (chunks : List Bytes) :
    (chunks.foldl Hasher.update .new).finalize = digest chunks.flatten :=
  (absorbed_new.foldl_update chunks).finalize

end Hasher

theorem bigEndian_succ (n x : Nat) :
    bigEndian (n + 1) x = .ofNat (x / 256 ^ n) :: bigEndian n x := rfl

theorem length_bigEndian (n x : Nat) : (bigEndian n x).length = n := by
  induction n with
  | zero => rfl
  | succ n ih => rw [bigEndian_succ, List.length_cons, ih]

theorem length_digest (m : Bytes) : (digest m).length = 20 := by
  simp [digest, Words.bytes, length_bigEndian]

/-! ### Hexadecimal digits -/

theorem hexDigit_inj : ∀ i < 16, ∀ j < 16, hexDigit i = hexDigit j → i = j := by decide

theorem hexDigit_mem : ∀ i < 16, hexDigit i ∈ "0123456789abcdef".toList := by decide

theorem toList_hex (b : Bytes) :
    (hex b).toList = b.flatMap fun x => [hexDigit (x.toNat / 16), hexDigit (x.toNat % 16)] :=
  String.toList_ofList

theorem length_hex (b : Bytes) : (hex b).toList.length = 2 * b.length := by
  rw [toList_hex]
  induction b with
  | nil => rfl
  | cons x b ih =>
    rw [List.flatMap_cons, List.length_append, ih, List.length_cons]
    simp only [List.length_cons, List.length_nil]
    omega

theorem mem_hex {b : Bytes} {c : Char} (h : c ∈ (hex b).toList) :
    c ∈ "0123456789abcdef".toList := by
  rw [toList_hex, List.mem_flatMap] at h
  obtain ⟨x, -, hc⟩ := h
  have hx : x.toNat < 256 := x.toNat_lt
  simp only [List.mem_cons, List.not_mem_nil, or_false] at hc
  rcases hc with rfl | rfl
  · exact hexDigit_mem _ (by omega)
  · exact hexDigit_mem _ (by omega)

theorem hex_injective : Function.Injective hex := by
  intro a b h
  replace h : (hex a).toList = (hex b).toList := congrArg String.toList h
  rw [toList_hex, toList_hex] at h
  induction a generalizing b with
  | nil =>
    cases b with
    | nil => rfl
    | cons y b => simp at h
  | cons x a ih =>
    cases b with
    | nil => simp at h
    | cons y b =>
      simp only [List.flatMap_cons, List.cons_append, List.nil_append, List.cons.injEq] at h
      obtain ⟨hhigh, hlow, h⟩ := h
      have hx : x.toNat < 256 := x.toNat_lt
      have hy : y.toNat < 256 := y.toNat_lt
      have hdiv := hexDigit_inj _ (by omega) _ (by omega) hhigh
      have hmod := hexDigit_inj _ (by omega) _ (by omega) hlow
      have hxy : x = y := UInt8.toNat_inj.mp (by omega)
      rw [hxy, ih h]

end StagedInstall.Sha1
