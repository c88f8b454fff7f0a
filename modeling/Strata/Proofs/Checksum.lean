/-
# `Strata.Proofs.Checksum` — what a checksum tells apart

A shift of the register is linear in exclusive or and loses nothing, and the table takes in a byte
as eight shifts do (`stepByte_eq`).  So whatever bytes follow, they keep different registers apart.
Up to four bytes fit into the register: they are taken in as one word (`register_eq_shifts`), and
texts that differ in no more than four bytes side by side never have the same checksum.

The bits of a byte, taken in one by one, come to the same eight shifts, so the table and the bits
give the same register for every text (`register_eq_bitwise`).
-/
import Mathlib.Algebra.Group.Nat.Defs
import Strata.Checksum

namespace Strata.Checksum

variable {r a b : UInt32} {n : Nat}

/-! ## One shift -/

theorem and_one_eq_zero : r &&& 1 = 0 ↔ r.toNat % 2 = 0 := by
  rw [← UInt32.toNat_inj, UInt32.toNat_and]
  exact iff_of_eq (congrArg (· = 0) (Nat.and_one_is_mod r.toNat))

theorem shift_of_even (h : r.toNat % 2 = 0) : shift r = r >>> 1 := by
  rw [shift, if_pos (and_one_eq_zero.mpr h)]

theorem shift_of_odd (h : r.toNat % 2 = 1) : shift r = polynomial ^^^ (r >>> 1) := by
  rw [shift, if_neg]
  rw [and_one_eq_zero, h]
  exact Nat.one_ne_zero

theorem toNat_half (r : UInt32) : (r >>> 1).toNat = r.toNat / 2 := by
  rw [UInt32.toNat_shiftRight]
  exact Nat.shiftRight_eq_div_pow r.toNat 1

/-- Shifting is linear. -/
theorem shift_xor (a b : UInt32) : shift (a ^^^ b) = shift a ^^^ shift b := by
  have hparity : (a ^^^ b).toNat % 2 = a.toNat % 2 ^^^ b.toNat % 2 := by
    rw [UInt32.toNat_xor]
    exact Nat.xor_mod_two_pow (n := 1)
  rcases Nat.mod_two_eq_zero_or_one a.toNat with ha | ha <;>
    rcases Nat.mod_two_eq_zero_or_one b.toNat with hb | hb <;> rw [ha, hb] at hparity
  · rw [shift_of_even hparity, shift_of_even ha, shift_of_even hb, UInt32.shiftRight_xor]
  · rw [shift_of_odd hparity, shift_of_even ha, shift_of_odd hb, UInt32.shiftRight_xor]
    ac_rfl
  · rw [shift_of_odd hparity, shift_of_odd ha, shift_of_even hb, UInt32.shiftRight_xor,
      UInt32.xor_assoc]
  · rw [shift_of_even hparity, shift_of_odd ha, shift_of_odd hb, UInt32.shiftRight_xor]
    calc a >>> 1 ^^^ b >>> 1
        = (polynomial ^^^ polynomial) ^^^ (a >>> 1 ^^^ b >>> 1) := by simp
      _ = polynomial ^^^ a >>> 1 ^^^ (polynomial ^^^ b >>> 1) := by ac_rfl

/-- Where a one fell out the polynomial has set the highest bit, so nothing is lost. -/
theorem eq_zero_of_shift (h : shift r = 0) : r = 0 := by
  rcases Nat.mod_two_eq_zero_or_one r.toNat with hr | hr
  · rw [shift_of_even hr, ← UInt32.toNat_inj, toNat_half] at h
    rw [← UInt32.toNat_inj]
    change r.toNat / 2 = 0 at h
    change r.toNat = 0
    omega
  · rw [shift_of_odd hr, UInt32.xor_eq_zero_iff, ← UInt32.toNat_inj, toNat_half] at h
    have hlt := r.toNat_lt
    change 0xEDB88320 = r.toNat / 2 at h
    omega

theorem shift_injective (h : shift a = shift b) : a = b := by
  rw [← UInt32.xor_eq_zero_iff, ← shift_xor] at h
  exact UInt32.xor_eq_zero_iff.mp (eq_zero_of_shift h)

/-! ## Many shifts -/

theorem shifts_xor (n : Nat) (a b : UInt32) : shifts n (a ^^^ b) = shifts n a ^^^ shifts n b := by
  induction n generalizing a b with
  | zero => rfl
  | succ n ih => rw [shifts, shift_xor, ih, shifts, shifts]

theorem shifts_injective (n : Nat) (h : shifts n a = shifts n b) : a = b := by
  induction n generalizing a b with
  | zero => exact h
  | succ n ih => exact shift_injective (ih h)

theorem shifts_add (m n : Nat) (r : UInt32) : shifts (m + n) r = shifts n (shifts m r) := by
  induction m generalizing r with
  | zero => rw [Nat.zero_add, shifts]
  | succ m ih => rw [Nat.succ_add, shifts, ih, shifts]

/-- As long as only zeros fall out, a register is halved. -/
theorem toNat_shifts_of_dvd (h : 2 ^ n ∣ r.toNat) : (shifts n r).toNat = r.toNat / 2 ^ n := by
  induction n generalizing r with
  | zero => rw [shifts, Nat.pow_zero, Nat.div_one]
  | succ n ih =>
    obtain ⟨k, hk⟩ := h
    rw [Nat.pow_succ', Nat.mul_assoc] at hk
    have heven : r.toNat % 2 = 0 := by omega
    have hhalf : (r >>> 1).toNat = 2 ^ n * k := by rw [toNat_half]; omega
    rw [shifts, shift_of_even heven, ih (hhalf ▸ Nat.dvd_mul_right _ k), toNat_half,
      Nat.div_div_eq_div_mul, ← Nat.pow_succ']

/-! ## One byte -/

theorem getD_table {i : Nat} (h : i < 256) : table.getD i 0 = shifts 8 (UInt32.ofNat i) := by
  simp [table, h]

theorem toNat_low (r : UInt32) : (r &&& 0xFF).toNat = r.toNat % 256 := by
  rw [UInt32.toNat_and]
  exact Nat.and_two_pow_sub_one_eq_mod r.toNat 8

theorem shiftRight_byte (b : UInt8) : b.toUInt32 >>> 8 = 0 := by
  rw [← UInt32.toNat_inj, UInt32.toNat_shiftRight]
  have hlt := b.toNat_lt
  change b.toUInt32.toNat >>> 8 = 0
  rw [UInt8.toNat_toUInt32, Nat.shiftRight_eq_div_pow]
  omega

/-- Eight shifts take the low byte of a register through the table and move the rest down. -/
theorem shifts_eight (r : UInt32) : shifts 8 r = shifts 8 (r &&& 0xFF) ^^^ (r >>> 8) := by
  have hlow : r.toNat % 256 / 256 = 0 := Nat.div_eq_of_lt (Nat.mod_lt _ (by decide))
  have hdvd : 2 ^ 8 ∣ (r ^^^ (r &&& 0xFF)).toNat := by
    refine Nat.dvd_of_mod_eq_zero ?_
    rw [UInt32.toNat_xor, toNat_low, Nat.xor_mod_two_pow, Nat.mod_mod, Nat.xor_self]
  have hhigh : shifts 8 (r ^^^ (r &&& 0xFF)) = r >>> 8 := by
    rw [← UInt32.toNat_inj, toNat_shifts_of_dvd hdvd, UInt32.toNat_xor, toNat_low,
      Nat.xor_div_two_pow, UInt32.toNat_shiftRight]
    change r.toNat / 256 ^^^ r.toNat % 256 / 256 = r.toNat >>> 8
    rw [hlow, Nat.xor_zero, Nat.shiftRight_eq_div_pow]
  calc shifts 8 r
      = shifts 8 ((r &&& 0xFF) ^^^ (r ^^^ (r &&& 0xFF))) := by
        rw [UInt32.xor_comm r, ← UInt32.xor_assoc, UInt32.xor_self, UInt32.zero_xor]
    _ = shifts 8 (r &&& 0xFF) ^^^ (r >>> 8) := by rw [shifts_xor, hhigh]

/-- The table takes in a byte as eight shifts of the register with the byte on it do. -/
theorem stepByte_eq (r : UInt32) (b : UInt8) : stepByte r b = shifts 8 (r ^^^ b.toUInt32) := by
  have hlow : ((r ^^^ b.toUInt32) &&& 0xFF).toNat < 256 := by
    rw [toNat_low]
    exact Nat.mod_lt _ (by decide)
  rw [stepByte, getD_table hlow, UInt32.ofNat_toNat, shifts_eight (r ^^^ b.toUInt32),
    UInt32.shiftRight_xor, shiftRight_byte, UInt32.xor_zero]

/-! ## Some bytes -/

/-- The register that four bytes or fewer fill from below. -/
def word : List UInt8 → UInt32
  | [] => 0
  | b :: bs => b.toUInt32 ^^^ (word bs <<< 8)

/-- A word of three bytes or fewer has room for one below it. -/
theorem toNat_up {w : UInt32} (h : w.toNat < 2 ^ 24) : (w <<< 8).toNat = w.toNat * 2 ^ 8 := by
  rw [UInt32.toNat_shiftLeft]
  change w.toNat <<< 8 % 2 ^ 32 = _
  rw [Nat.shiftLeft_eq, Nat.mod_eq_of_lt (by omega)]

theorem shifts_up {w : UInt32} (h : w.toNat < 2 ^ 24) : shifts 8 (w <<< 8) = w := by
  have hdvd : 2 ^ 8 ∣ (w <<< 8).toNat := toNat_up h ▸ Nat.dvd_mul_left _ _
  rw [← UInt32.toNat_inj, toNat_shifts_of_dvd hdvd, toNat_up h, Nat.mul_div_cancel _ (by decide)]

theorem toNat_byte_xor (b : UInt8) {w : UInt32} (h : w.toNat < 2 ^ 24) :
    (b.toUInt32 ^^^ (w <<< 8)).toNat = b.toNat + 256 * w.toNat := by
  have hb := b.toNat_lt
  have hmod : (b.toNat ^^^ w.toNat * 2 ^ 8) % 2 ^ 8 = b.toNat := by
    rw [Nat.xor_mod_two_pow, Nat.mul_mod_left, Nat.xor_zero, Nat.mod_eq_of_lt hb]
  have hdiv : (b.toNat ^^^ w.toNat * 2 ^ 8) / 2 ^ 8 = w.toNat := by
    rw [Nat.xor_div_two_pow, Nat.div_eq_of_lt hb, Nat.zero_xor, Nat.mul_div_cancel _ (by decide)]
  rw [UInt32.toNat_xor, UInt8.toNat_toUInt32, toNat_up h]
  omega

theorem toNat_word_lt {bs : List UInt8} (h : bs.length ≤ 3) : (word bs).toNat < 2 ^ 24 := by
  suffices hlt : (word bs).toNat < 2 ^ (8 * bs.length) from
    Nat.lt_of_lt_of_le hlt (Nat.pow_le_pow_right (by decide) (by omega))
  induction bs with
  | nil => decide
  | cons b bs ih =>
    rw [List.length_cons] at h
    have hw := ih (by omega)
    have h24 : 2 ^ (8 * bs.length) ≤ 2 ^ 24 := Nat.pow_le_pow_right (by decide) (by omega)
    have hb := b.toNat_lt
    rw [word, toNat_byte_xor b (Nat.lt_of_lt_of_le hw h24), List.length_cons, Nat.mul_succ,
      Nat.pow_add]
    omega

theorem toNat_word_cons (b : UInt8) {bs : List UInt8} (h : bs.length ≤ 3) :
    (word (b :: bs)).toNat = b.toNat + 256 * (word bs).toNat :=
  toNat_byte_xor b (toNat_word_lt h)

theorem word_injective {xs ys : List UInt8} (hlen : xs.length = ys.length) (h4 : xs.length ≤ 4)
    (h : word xs = word ys) : xs = ys := by
  induction xs generalizing ys with
  | nil => exact (List.length_eq_zero_iff.mp hlen.symm).symm
  | cons x xs ih =>
    cases ys with
    | nil => cases hlen
    | cons y ys =>
      rw [List.length_cons] at h4 hlen
      rw [List.length_cons] at hlen
      have hx := toNat_word_cons x (show xs.length ≤ 3 by omega)
      have hy := toNat_word_cons y (show ys.length ≤ 3 by omega)
      have hxlt := x.toNat_lt
      have hylt := y.toNat_lt
      rw [h] at hx
      have hhead : x = y := UInt8.toNat_inj.mp (by omega)
      have htail : word xs = word ys := UInt32.toNat_inj.mp (by omega)
      rw [hhead, ih (by omega) (by omega) htail]

/-- Up to four bytes are taken in as so many shifts of the register with their word on it do. -/
theorem register_eq_shifts (r : UInt32) (bs : List UInt8) (h : bs.length ≤ 4) :
    register r bs = shifts (8 * bs.length) (r ^^^ word bs) := by
  induction bs generalizing r with
  | nil => exact (UInt32.xor_zero).symm
  | cons b bs ih =>
    rw [List.length_cons] at h
    have hup : shifts 8 (word bs <<< 8) = word bs := shifts_up (toNat_word_lt (by omega))
    calc register r (b :: bs)
        = register (stepByte r b) bs := rfl
      _ = shifts (8 * bs.length) (shifts 8 (r ^^^ b.toUInt32) ^^^ word bs) := by
          rw [ih _ (by omega), stepByte_eq]
      _ = shifts (8 * bs.length) (shifts 8 (r ^^^ b.toUInt32 ^^^ (word bs <<< 8))) := by
          rw [shifts_xor 8 (r ^^^ b.toUInt32), hup]
      _ = shifts (8 * (b :: bs).length) (r ^^^ word (b :: bs)) := by
          rw [← shifts_add, UInt32.xor_assoc, List.length_cons, Nat.mul_succ, Nat.add_comm 8, word]

theorem register_injective {r r' : UInt32} (bs : List UInt8) (h : register r bs = register r' bs) :
    r = r' := by
  induction bs generalizing r r' with
  | nil => exact h
  | cons b bs ih =>
    have hstep : stepByte r b = stepByte r' b := ih h
    rw [stepByte_eq, stepByte_eq] at hstep
    exact (UInt32.xor_left_inj _).mp (shifts_injective 8 hstep)

theorem eq_of_crc32_eq {front xs ys back : List UInt8} (hlen : xs.length = ys.length)
    (h4 : xs.length ≤ 4) (h : crc32 (front ++ xs ++ back) = crc32 (front ++ ys ++ back)) :
    xs = ys := by
  simp only [crc32, UInt32.not_inj, register_append] at h
  have hregister := register_injective back h
  rw [register_eq_shifts _ xs h4, register_eq_shifts _ ys (hlen ▸ h4), hlen] at hregister
  exact word_injective hlen h4 ((UInt32.xor_right_inj _).mp (shifts_injective _ hregister))

/-! ## Bursts -/

/-- Two texts of one length that differ, and only within four bytes side by side. -/
structure Burst (xs ys : List UInt8) : Prop where
  length : xs.length = ys.length
  differ : xs ≠ ys
  window : ∃ k, ∀ i, i < k ∨ k + 4 ≤ i → xs[i]? = ys[i]?

theorem Burst.crc32_ne {xs ys : List UInt8} (h : Burst xs ys) : crc32 xs ≠ crc32 ys := by
  obtain ⟨k, hwindow⟩ := h.window
  have hfront : xs.take k = ys.take k := by
    refine List.ext_getElem? fun i => ?_
    rw [List.getElem?_take, List.getElem?_take]
    split
    · exact hwindow i (.inl ‹_›)
    · rfl
  have hback : xs.drop (k + 4) = ys.drop (k + 4) := by
    refine List.ext_getElem? fun i => ?_
    rw [List.getElem?_drop, List.getElem?_drop]
    exact hwindow _ (.inr (Nat.le_add_right _ _))
  have hparts (zs : List UInt8) : zs = zs.take k ++ (zs.drop k).take 4 ++ zs.drop (k + 4) := by
    rw [List.append_assoc, ← List.drop_drop, List.take_append_drop, List.take_append_drop]
  have hlen : ((xs.drop k).take 4).length = ((ys.drop k).take 4).length := by
    rw [List.length_take, List.length_take, List.length_drop, List.length_drop, h.length]
  intro hsum
  rw [hparts xs, hparts ys, ← hfront, ← hback] at hsum
  have hmid := eq_of_crc32_eq hlen (List.length_take_le _ _) hsum
  exact h.differ (by rw [hparts xs, hparts ys, hfront, hmid, hback])

/-! ## Bit by bit -/

/-- The `k` lowest bits of a number, least significant first. -/
def lowBits (k n : Nat) : List Bool := (List.range k).map fun i => n.testBit i

theorem lowBits_succ (k n : Nat) : lowBits (k + 1) n = n.testBit 0 :: lowBits k (n / 2) := by
  rw [lowBits, List.range_succ_eq_map, List.map_cons, List.map_map]
  refine congrArg (n.testBit 0 :: ·) (List.map_congr_left fun i _ => ?_)
  exact Nat.testBit_add_one n i

/-- A bit adds the polynomial to the shifted register, or nothing. -/
theorem stepBit_eq (r : UInt32) (bit : Bool) :
    stepBit r bit = shift r ^^^ (if bit then polynomial else 0) := by
  rw [stepBit, shift_xor]
  cases bit <;> rfl

/-- Shifting a number moves out its lowest bit. -/
theorem shift_ofNat {m : Nat} (h : m < 2 ^ 32) :
    shift (UInt32.ofNat m) = (if m.testBit 0 then polynomial else 0) ^^^ UInt32.ofNat (m / 2) := by
  have hm : (UInt32.ofNat m).toNat = m := UInt32.toNat_ofNat_of_lt' h
  have hhalf : UInt32.ofNat m >>> 1 = UInt32.ofNat (m / 2) := by
    rw [← UInt32.toNat_inj, toNat_half, hm,
      UInt32.toNat_ofNat_of_lt' (Nat.lt_of_le_of_lt (Nat.div_le_self m 2) h)]
  rcases Nat.mod_two_eq_zero_or_one m with heven | hodd
  · rw [shift_of_even (hm.symm ▸ heven), hhalf]
    simp [Nat.testBit_zero, heven]
  · rw [shift_of_odd (hm.symm ▸ hodd), hhalf]
    simp [Nat.testBit_zero, hodd]

/-- The low bits of a number, taken in one by one, act as so many shifts of the register with the
number on it. -/
theorem foldl_stepBit (k : Nat) {m : Nat} (h : m < 2 ^ k) (hk : k ≤ 32) (r : UInt32) :
    (lowBits k m).foldl stepBit r = shifts k (r ^^^ UInt32.ofNat m) := by
  induction k generalizing m r with
  | zero =>
    obtain rfl : m = 0 := by omega
    exact (UInt32.xor_zero).symm
  | succ k ih =>
    have hword : m < 2 ^ 32 := Nat.lt_of_lt_of_le h (Nat.pow_le_pow_right (by decide) hk)
    rw [Nat.pow_succ] at h
    calc (lowBits (k + 1) m).foldl stepBit r
        = (lowBits k (m / 2)).foldl stepBit (stepBit r (m.testBit 0)) := by
          rw [lowBits_succ, List.foldl_cons]
      _ = shifts k (shift r ^^^ (if m.testBit 0 then polynomial else 0) ^^^ UInt32.ofNat (m / 2)) := by
          rw [ih (by omega) (by omega), stepBit_eq]
      _ = shifts (k + 1) (r ^^^ UInt32.ofNat m) := by
          rw [shifts, shift_xor, shift_ofNat hword, UInt32.xor_assoc]

/-- The eight bits of a byte do to every register what the table does. -/
theorem stepBits_eq_stepByte (r : UInt32) (b : UInt8) : stepBits r b = stepByte r b := by
  have hbits : bitsOf b = lowBits 8 b.toNat := rfl
  have hbyte : UInt32.ofNat b.toNat = b.toUInt32 := UInt32.ofNat_uInt8ToNat b
  rw [stepBits, hbits, foldl_stepBit 8 b.toNat_lt (by decide), hbyte, stepByte_eq]

/-- The table and the single bits give the same register after every text, whatever the register
before it, and so the same checksum. -/
theorem register_eq_bitwise (data : List UInt8) :
    (∀ r : UInt32, register r data = data.foldl stepBits r) ∧ crc32 data = crc32Bitwise data := by
  have hregister (r : UInt32) : register r data = data.foldl stepBits r := by
    induction data generalizing r with
    | nil => rw [register, List.foldl_nil, List.foldl_nil]
    | cons b bs ih =>
      calc register r (b :: bs)
          = register (stepByte r b) bs := rfl
        _ = bs.foldl stepBits (stepBits r b) := by rw [ih, stepBits_eq_stepByte]
        _ = (b :: bs).foldl stepBits r := rfl
  refine ⟨hregister, ?_⟩
  rw [crc32, crc32Bitwise, hregister]

/-- The check value of the bitwise definition. -/
example : crc32Bitwise [0x31, 0x32, 0x33, 0x34, 0x35, 0x36, 0x37, 0x38, 0x39] = 0xCBF43926 := by
  decide +kernel

end Strata.Checksum
