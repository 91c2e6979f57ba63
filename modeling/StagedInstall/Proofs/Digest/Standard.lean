import StagedInstall.Proofs.Digest.Hasher

/-! # SHA-1 in closed form

The words of a block and the working variables after each round as functions of their index, and the
padding as what it has to satisfy (`Sha1.IsDigest`). A sliding window of sixteen words yields the
same words (`Sha1.schedule_words`) and the rounds over them the same variables
(`Sha1.rounds_words`), so every message has exactly one such digest, the one that is computed
(`Sha1.isDigest_iff`).
-/

namespace StagedInstall.Sha1

/-- The number that bytes spell, the highest first. -/
def value (b : Bytes) : Nat := b.foldl (fun n x => 256 * n + x.toNat) 0

/-- The word `t` of a sequence of bytes. -/
def wordAt (b : Bytes) (t : Nat) : UInt32 := .ofNat (value ((b.drop (4 * t)).take 4))

def rotateLeft (n : Nat) (x : UInt32) : UInt32 := ⟨x.toBitVec.rotateLeft n⟩

/-- The word that goes into round `t`. -/
def scheduled (block : Bytes) (t : Nat) : UInt32 :=
  if t < 16 then wordAt block t
  else rotateLeft 1 (scheduled block (t - 3) ^^^ scheduled block (t - 8) ^^^
    scheduled block (t - 14) ^^^ scheduled block (t - 16))
termination_by t
decreasing_by all_goals omega

def mix (t : Nat) (x y z : UInt32) : UInt32 :=
  if t < 20 then (x &&& y) ^^^ (~~~x &&& z)
  else if t < 40 then x ^^^ y ^^^ z
  else if t < 60 then (x &&& y) ^^^ (x &&& z) ^^^ (y &&& z)
  else x ^^^ y ^^^ z

def constant (t : Nat) : UInt32 :=
  if t < 20 then 0x5A827999
  else if t < 40 then 0x6ED9EBA1
  else if t < 60 then 0x8F1BBCDC
  else 0xCA62C1D6

/-- The five working variables after `t` rounds on a block. -/
def working (h : Words) (block : Bytes) : (t : Nat) → Words
  | 0 => h
  | t + 1 =>
    let v := working h block t
    ⟨rotateLeft 5 v.a + mix t v.b v.c v.d + v.e + constant t + scheduled block t,
      v.a, rotateLeft 30 v.b, v.c, v.d⟩

/-- The chaining words after `n` blocks of a padded message. -/
def hashValue (padded : Bytes) : (n : Nat) → Words
  | 0 => ⟨0x67452301, 0xEFCDAB89, 0x98BADCFE, 0x10325476, 0xC3D2E1F0⟩
  | n + 1 =>
    let h := hashValue padded n
    let v := working h ((padded.drop (64 * n)).take 64) 80
    ⟨h.a + v.a, h.b + v.b, h.c + v.c, h.d + v.d, h.e + v.e⟩

/-- A message is padded with a one bit, the fewest zeros that leave eight bytes of a block, and
its length in bits in these. -/
def Pads (m padded : Bytes) : Prop :=
  ∃ zeros size, padded = m ++ 0x80 :: (List.replicate zeros 0 ++ size) ∧ zeros < 64 ∧
    (m.length + 1 + zeros) % 64 = 56 ∧ size.length = 8 ∧ value size = 8 * m.length % 2 ^ 64

/-- Twenty bytes that hold the five words. -/
def Spells (d : Bytes) (h : Words) : Prop :=
  d.length = 20 ∧ (List.range 5).map (wordAt d) = [h.a, h.b, h.c, h.d, h.e]

def IsDigest (m d : Bytes) : Prop :=
  ∃ padded, Pads m padded ∧ Spells d (hashValue padded (padded.length / 64))

variable {a b block d m p : Bytes} {h : Words} {n t x : Nat}

/-! ### Numbers and their bytes -/

theorem value_cons (x : UInt8) (b : Bytes) :
    value (x :: b) = x.toNat * 256 ^ b.length + value b := by
  have key (n : Nat) : b.foldl (fun n x => 256 * n + x.toNat) n = n * 256 ^ b.length + value b := by
    induction b generalizing n with
    | nil => rw [List.length_nil, Nat.pow_zero, Nat.mul_one]; rfl
    | cons y b ih =>
      rw [value, List.foldl_cons, List.foldl_cons, ih, ih, List.length_cons, Nat.pow_succ]
      grind
  rw [value, List.foldl_cons, key, Nat.mul_zero, Nat.zero_add]

theorem value_lt (b : Bytes) : value b < 256 ^ b.length := by
  induction b with
  | nil => decide
  | cons x b ih =>
    have hx : (x.toNat + 1) * 256 ^ b.length ≤ 256 * 256 ^ b.length :=
      Nat.mul_le_mul_right _ x.toNat_lt
    rw [value_cons, List.length_cons, Nat.pow_succ]
    grind

theorem value_inj (hlen : a.length = b.length) (h : value a = value b) : a = b := by
  induction a generalizing b with
  | nil => exact (List.length_eq_zero_iff.mp hlen.symm).symm
  | cons x a ih =>
    cases b with
    | nil => cases hlen
    | cons y b =>
      have hlen : a.length = b.length := Nat.succ.inj hlen
      have ha := value_lt a
      have hb := value_lt b
      rw [value_cons, value_cons, hlen] at h
      rw [hlen] at ha
      have hpos : 0 < 256 ^ b.length := Nat.pow_pos (by decide)
      have hxy := congrArg (· / 256 ^ b.length) h
      simp only [Nat.mul_add_div, Nat.mul_comm _ (256 ^ b.length), hpos, Nat.div_eq_of_lt ha,
        Nat.div_eq_of_lt hb, Nat.add_zero] at hxy
      rw [hxy] at h
      rw [UInt8.toNat_inj.mp hxy, ih hlen (Nat.add_left_cancel h)]

theorem value_bigEndian (n x : Nat) : value (bigEndian n x) = x % 256 ^ n := by
  induction n with
  | zero => rw [Nat.pow_zero, Nat.mod_one]; rfl
  | succ n ih =>
    have hmod : x % 256 ^ (n + 1) = x % 256 ^ n + 256 ^ n * (x / 256 ^ n % 256) := by
      rw [Nat.pow_succ, Nat.mod_mul]
    rw [bigEndian_succ, value_cons, length_bigEndian, ih, UInt8.toNat_ofNat', hmod, Nat.mul_comm,
      Nat.add_comm]

theorem bigEndian_value (b : Bytes) : bigEndian b.length (value b) = b :=
  value_inj (length_bigEndian _ _) <| by
    rw [value_bigEndian, Nat.mod_eq_of_lt (value_lt b)]

/-! ### Words and their bytes -/

theorem or_shifts (x y z w : UInt8) :
    (x.toUInt32 <<< 24 ||| y.toUInt32 <<< 16 ||| z.toUInt32 <<< 8 ||| w.toUInt32) =
      .ofNat (value [x, y, z, w]) := by
  have hvalue : value [x, y, z, w] =
      ((x.toNat <<< 8 + y.toNat) <<< 8 + z.toNat) <<< 8 + w.toNat := by
    simp only [value, List.foldl_cons, List.foldl_nil, Nat.shiftLeft_eq]
    omega
  -- no byte reaches into the place of another, so sums are unions of bits
  rw [hvalue, Nat.shiftLeft_add_eq_or_of_lt w.toNat_lt, Nat.shiftLeft_add_eq_or_of_lt z.toNat_lt,
    Nat.shiftLeft_add_eq_or_of_lt y.toNat_lt]
  have hw : w.toNat % 2 ^ 32 = w.toNat := Nat.mod_eq_of_lt (Nat.lt_trans w.toNat_lt (by decide))
  refine UInt32.toNat_inj.mp ?_
  simp only [UInt32.toNat_or, UInt32.toNat_shiftLeft, UInt8.toNat_toUInt32, UInt32.toNat_ofNat,
    UInt32.toNat_ofNat', Nat.shiftLeft_or_distrib, ← Nat.shiftLeft_add, Nat.or_mod_two_pow, hw]

theorem length_lt_four (h : ∀ x y z w r, b = x :: y :: z :: w :: r → False) : b.length < 4 := by
  rcases b with _ | ⟨x, _ | ⟨y, _ | ⟨z, _ | ⟨w, r⟩⟩⟩⟩
  · simp
  · simp
  · simp
  · simp
  · exact (h x y z w r rfl).elim

theorem blockWords_eq (b : Bytes) :
    blockWords b = (List.range (b.length / 4)).map (wordAt b) := by
  induction b using blockWords.induct with
  | case1 x y z w r ih =>
    have hlen : (x :: y :: z :: w :: r).length / 4 = r.length / 4 + 1 := by
      simp only [List.length_cons]
      omega
    rw [blockWords, ih, hlen, List.range_succ_eq_map, List.map_cons, List.map_map, or_shifts]
    rfl
  | case2 b hb => rw [blockWords.eq_2 b hb, Nat.div_eq_of_lt (length_lt_four hb)]; rfl

theorem blockWords_flatMap (ws : List UInt32) :
    blockWords (ws.flatMap fun w => bigEndian 4 w.toNat) = ws := by
  induction ws with
  | nil => rfl
  | cons w ws ih =>
    have hlt : w.toNat < 256 ^ 4 := w.toNat_lt
    have hw : UInt32.ofNat (value (bigEndian 4 w.toNat)) = w := by
      rw [value_bigEndian, Nat.mod_eq_of_lt hlt, UInt32.ofNat_toNat]
    exact congr (congrArg _ ((or_shifts _ _ _ _).trans hw)) ih

theorem flatMap_blockWords (h : 4 ∣ b.length) :
    ((blockWords b).flatMap fun w => bigEndian 4 w.toNat) = b := by
  induction b using blockWords.induct with
  | case1 x y z w r ih =>
    have hr : 4 ∣ r.length := by
      simp only [List.length_cons] at h
      omega
    have hvalue : value [x, y, z, w] < 2 ^ 32 := by simpa using value_lt [x, y, z, w]
    have hbytes : bigEndian 4 (value [x, y, z, w]) = [x, y, z, w] := bigEndian_value [x, y, z, w]
    rw [blockWords, List.flatMap_cons, ih hr, or_shifts, UInt32.toNat_ofNat_of_lt' hvalue, hbytes]
    rfl
  | case2 b hb =>
    have hlen : b.length = 0 := Nat.eq_zero_of_dvd_of_lt h (length_lt_four hb)
    rw [List.length_eq_zero_iff.mp hlen]
    rfl

theorem spells_iff : Spells d h ↔ d = h.bytes := by
  constructor
  · rintro ⟨hlen, hwords⟩
    have hblock : blockWords d = [h.a, h.b, h.c, h.d, h.e] := by
      rw [blockWords_eq, hlen]
      exact hwords
    rw [Words.bytes, ← hblock, flatMap_blockWords (by omega)]
  · rintro rfl
    have hlen : h.bytes.length = 20 := by simp [Words.bytes, length_bigEndian]
    have hwords : blockWords h.bytes = [h.a, h.b, h.c, h.d, h.e] := blockWords_flatMap _
    rw [blockWords_eq, hlen] at hwords
    exact ⟨hlen, hwords⟩

/-! ### Rounds -/

theorem choose_eq (x y z : UInt32) : choose x y z = (x &&& y) ^^^ (~~~x &&& z) := by
  refine UInt32.toBitVec_inj.mp (BitVec.eq_of_getLsbD_eq fun i hi => ?_)
  simp only [choose, UInt32.toBitVec_or, UInt32.toBitVec_and, UInt32.toBitVec_xor,
    UInt32.toBitVec_not, BitVec.getLsbD_or, BitVec.getLsbD_and, BitVec.getLsbD_xor,
    BitVec.getLsbD_not, hi, decide_true, Bool.true_and]
  cases x.toBitVec.getLsbD i <;> simp

theorem majority_eq (x y z : UInt32) :
    majority x y z = (x &&& y) ^^^ (x &&& z) ^^^ (y &&& z) := by
  refine UInt32.toBitVec_inj.mp (BitVec.eq_of_getLsbD_eq fun i _ => ?_)
  simp only [majority, UInt32.toBitVec_or, UInt32.toBitVec_and, UInt32.toBitVec_xor,
    BitVec.getLsbD_or, BitVec.getLsbD_and, BitVec.getLsbD_xor]
  cases x.toBitVec.getLsbD i <;> cases y.toBitVec.getLsbD i <;> simp

theorem roundOf_eq (t : Nat) : roundOf t = (mix t, constant t) := by
  have hchoose : choose = fun x y z => (x &&& y) ^^^ (~~~x &&& z) := by
    funext x y z
    exact choose_eq x y z
  have hmajority : majority = fun x y z => (x &&& y) ^^^ (x &&& z) ^^^ (y &&& z) := by
    funext x y z
    exact majority_eq x y z
  unfold roundOf mix constant
  rw [hchoose, hmajority]
  split_ifs <;> rfl

theorem round_working (t : Nat) :
    round (working h block t) t (scheduled block t) = working h block (t + 1) := by
  rw [round, roundOf_eq]
  rfl

theorem rounds_words (n t : Nat) :
    rounds t ((List.range' t n).map (scheduled block)) (working h block t) =
      working h block (t + n) := by
  induction n generalizing t with
  | zero => rfl
  | succ n ih =>
    rw [List.range'_succ, List.map_cons, rounds, round_working, ih, Nat.add_right_comm]
    rfl

theorem scheduled_add (block : Bytes) (t : Nat) :
    scheduled block (t + 16) = rotate 1 (scheduled block (t + 13) ^^^ scheduled block (t + 8) ^^^
      scheduled block (t + 2) ^^^ scheduled block t) := by
  rw [scheduled, if_neg (by omega)]
  rfl

theorem schedule_words (n t : Nat) :
    schedule n ((List.range' t 16).map (scheduled block)) =
      (List.range' t (16 + n)).map (scheduled block) := by
  induction n generalizing t with
  | zero => rfl
  | succ n ih =>
    have hwindow : (List.range' (t + 1) 16).map (scheduled block) =
        (List.range' (t + 1) 15).map (scheduled block) ++ [rotate 1 (scheduled block (t + 13) ^^^
          scheduled block (t + 8) ^^^ scheduled block (t + 2) ^^^ scheduled block t)] := by
      rw [List.range'_1_concat, List.map_append, List.map_singleton, Nat.add_right_comm,
        scheduled_add]
    calc schedule (n + 1) ((List.range' t 16).map (scheduled block))
        = scheduled block t :: schedule n ((List.range' (t + 1) 16).map (scheduled block)) := by
          rw [schedule, hwindow]; rfl
      _ = (List.range' t (16 + (n + 1))).map (scheduled block) := by
          rw [ih, ← Nat.add_assoc, List.range'_succ, List.map_cons]

/-- On a whole block the sliding window and its rounds are the eighty rounds by index. -/
theorem compress_eq (hb : block.length = 64) :
    compress h block =
      let v := working h block 80
      ⟨h.a + v.a, h.b + v.b, h.c + v.c, h.d + v.d, h.e + v.e⟩ := by
  have hwindow : blockWords block = (List.range' 0 16).map (scheduled block) := by
    rw [blockWords_eq, hb, ← List.range_eq_range']
    refine List.map_congr_left fun t ht => ?_
    rw [scheduled, if_pos (List.mem_range.mp ht)]
  have hrounds : rounds 0 (schedule 64 (blockWords block)) h = working h block 80 := by
    rw [hwindow, schedule_words]
    exact rounds_words 80 0
  rw [compress, hrounds]

theorem hashValue_eq (hn : 64 * n ≤ p.length) :
    hashValue p n = (blocks n p).foldl compress initial := by
  induction n with
  | zero => rfl
  | succ n ih =>
    have hblock : ((p.drop (64 * n)).take 64).length = 64 := by
      rw [List.length_take, List.length_drop]
      omega
    rw [hashValue, ih (by omega), blocks_succ, List.foldl_append, List.foldl_cons, List.foldl_nil,
      compress_eq hblock]

/-! ### Padding -/

theorem pads_iff : Pads m p ↔ p = m ++ padding m.length := by
  have hvalue : value (bigEndian 8 (8 * m.length)) = 8 * m.length % 2 ^ 64 :=
    value_bigEndian 8 (8 * m.length)
  constructor
  · rintro ⟨zeros, size, rfl, hz, hmod, hlen, hsize⟩
    have hzeros : zeros = (119 - m.length % 64) % 64 := by omega
    have hbytes : size = bigEndian 8 (8 * m.length) := by
      refine value_inj (by rw [hlen, length_bigEndian]) ?_
      rw [hsize, hvalue]
    rw [hzeros, hbytes]
    rfl
  · rintro rfl
    exact ⟨_, _, rfl, Nat.mod_lt _ (by decide), by omega, length_bigEndian _ _, hvalue⟩

/-- A message has one digest, the one that is computed. -/
theorem isDigest_iff : IsDigest m d ↔ d = digest m := by
  have hwhole (p : Bytes) : hashValue p (p.length / 64) =
      (blocks (p.length / 64) p).foldl compress initial := hashValue_eq (Nat.mul_div_le _ 64)
  constructor
  · rintro ⟨p, hp, hd⟩
    rw [hwhole, pads_iff.mp hp] at hd
    exact spells_iff.mp hd
  · intro hd
    refine ⟨_, pads_iff.mpr rfl, ?_⟩
    rw [hwhole]
    exact spells_iff.mpr hd

example : hex (digest [0x61, 0x62, 0x63]) = "a9993e364706816aba3e25717850c26c9cd0d89d" := by
  decide +kernel

end StagedInstall.Sha1
