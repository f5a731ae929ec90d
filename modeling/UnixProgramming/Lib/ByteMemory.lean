import Mathlib.Data.BitVec
import Mathlib.Logic.Function.Basic
import Mathlib.Tactic.IntervalCases

/-!
# Byte memory with little-endian words

A memory maps addresses of `w` bits to bytes. `peek` reads a word of `n` bytes at any
address and `poke` writes one; addresses wrap around. The rules say which bytes of
the memory a written word changes: a word that agrees with the memory except for its
lowest byte changes one byte only.
-/

namespace UnixProgramming

/-- A byte for every address. -/
abbrev ByteMemory (w : ℕ) := BitVec w → BitVec 8

/-- Byte `k` of a word, counted from the lowest. -/
def byteOf {m : ℕ} (v : BitVec m) (k : ℕ) : BitVec 8 := v.extractLsb' (8 * k) 8

/-- Shifting a word down moves its bytes down. -/
theorem byteOf_ushiftRight {m : ℕ} (v : BitVec m) (k : ℕ) :
    byteOf (v >>> (k * 8)) 0 = byteOf v k := by
  unfold byteOf
  ext i hi
  simp [BitVec.getLsbD_ushiftRight, Nat.mul_comm]

namespace ByteMemory

variable {w : ℕ} {n k : ℕ}

/-- The word of `n` bytes at an address, lowest byte first. -/
def peek (mem : ByteMemory w) (a : BitVec w) : (n : ℕ) → BitVec (8 * n)
  | 0 => 0#0
  | n + 1 => mem.peek (a + 1#w) n ++ mem a

/-- Write the bytes of a word at an address. -/
def poke (mem : ByteMemory w) (a : BitVec w) (v : BitVec (8 * n)) : ByteMemory w :=
  fun x => if (x - a).toNat < n then byteOf v (x - a).toNat else mem x

/-- The lowest byte of a word that ends in a byte. -/
theorem byteOf_append_zero {m : ℕ} (v : BitVec m) (b : BitVec 8) : byteOf (v ++ b) 0 = b := by
  unfold byteOf
  ext i hi
  simp [BitVec.getLsbD_append, hi]

/-- The higher bytes of a word that ends in a byte. -/
theorem byteOf_append_succ {m : ℕ} (v : BitVec m) (b : BitVec 8) (k : ℕ) :
    byteOf (v ++ b) (k + 1) = byteOf v k := by
  unfold byteOf
  ext i hi
  have hlow : ¬8 * (k + 1) + i < 8 := by omega
  have hsub : 8 * (k + 1) + i - 8 = 8 * k + i := by omega
  simp [BitVec.getLsbD_append, hlow, hsub]

theorem add_ofNat_succ (a : BitVec w) (k : ℕ) :
    a + 1#w + BitVec.ofNat w k = a + BitVec.ofNat w (k + 1) := by
  rw [BitVec.add_assoc, ← BitVec.ofNat_add, Nat.add_comm]

/-- Byte `k` of the word at `a` is the byte at `a + k`. -/
theorem byteOf_peek {mem : ByteMemory w} {a : BitVec w} (hk : k < n) :
    byteOf (mem.peek a n) k = mem (a + BitVec.ofNat w k) := by
  induction n generalizing a k with
  | zero => omega
  | succ n ih =>
    cases k with
    | zero => exact (byteOf_append_zero _ _).trans (by simp)
    | succ k =>
      rw [← add_ofNat_succ, ← ih (by omega)]
      exact byteOf_append_succ _ _ _

/-- Adding the distance from `a` to `x` leads from `a` to `x`. -/
theorem add_distance (x a : BitVec w) : a + BitVec.ofNat w (x - a).toNat = x := by
  have hcancel := BitVec.sub_add_cancel x a
  rwa [BitVec.add_comm, ← BitVec.setWidth_eq (x - a), ← BitVec.ofNat_toNat] at hcancel

/-- The distance that has been added is the distance from `a`. -/
theorem distance_add (a : BitVec w) (hk : k < 2 ^ w) : (a + BitVec.ofNat w k - a).toNat = k := by
  rw [BitVec.add_comm, BitVec.add_sub_cancel, BitVec.toNat_ofNat, Nat.mod_eq_of_lt hk]

/-- A written word is found in the memory byte by byte. -/
theorem poke_add {mem : ByteMemory w} {a : BitVec w} {v : BitVec (8 * n)} (hn : n ≤ 2 ^ w)
    (hk : k < n) : mem.poke a v (a + BitVec.ofNat w k) = byteOf v k := by
  have hdist := distance_add a (hk.trans_le hn)
  simp only [poke, hdist, hk, if_true]

/-- A word is determined by its bytes. -/
theorem eq_of_byteOf {v v' : BitVec (8 * n)} (hbytes : ∀ k < n, byteOf v k = byteOf v' k) :
    v = v' := by
  refine BitVec.eq_of_getLsbD_eq fun i hi => ?_
  have hbyte := congrArg (fun b : BitVec 8 => b.getLsbD (i % 8)) (hbytes (i / 8) (by omega))
  have hmod : i % 8 < 8 := Nat.mod_lt _ (by decide)
  simpa [byteOf, hmod, Nat.div_add_mod] using hbyte

/-- A written word is read back, -/
theorem peek_poke_self (mem : ByteMemory w) (a : BitVec w) (v : BitVec (8 * n)) (hn : n ≤ 2 ^ w) :
    (mem.poke a v).peek a n = v := by
  refine eq_of_byteOf fun k hk => ?_
  rw [byteOf_peek hk, poke_add hn hk]

/-- and no word apart from it changes. -/
theorem peek_poke_of_apart {m : ℕ} (mem : ByteMemory w) {a x : BitVec w} (v : BitVec (8 * n))
    (hafter : n ≤ (x - a).toNat) (hbefore : m ≤ (a - x).toNat) :
    (mem.poke a v).peek x m = mem.peek x m := by
  refine eq_of_byteOf fun k hk => ?_
  have hfar : ¬(x + BitVec.ofNat w k - a).toNat < n := by
    have hsum : x + BitVec.ofNat w k - a = (x - a) + BitVec.ofNat w k := by
      rw [BitVec.sub_eq_add_neg, BitVec.sub_eq_add_neg, BitVec.add_assoc, BitVec.add_assoc,
        BitVec.add_comm (BitVec.ofNat w k)]
    have hroom : (x - a).toNat + m ≤ 2 ^ w := by
      have hopp : (x - a).toNat ≤ 2 ^ w - (a - x).toNat := by
        have hneg : x - a = -(a - x) := by
          rw [BitVec.neg_sub, BitVec.add_comm, BitVec.sub_eq_add_neg]
        rw [hneg, BitVec.toNat_neg]
        exact Nat.mod_le _ _
      have hlt := (a - x).isLt
      omega
    rw [hsum, BitVec.toNat_add, BitVec.toNat_ofNat, Nat.mod_eq_of_lt (a := k) (by omega),
      Nat.mod_eq_of_lt (by omega)]
    omega
  rw [byteOf_peek hk, byteOf_peek hk, poke, if_neg hfar]

/-- Reading one byte, -/
theorem peek_byte (mem : ByteMemory w) (a : BitVec w) : mem.peek a 1 = mem a := by
  refine BitVec.eq_of_getLsbD_eq fun i hi => ?_
  have hi' : i < 8 := hi
  have happend : mem.peek a 1 = 0#0 ++ mem a := rfl
  rw [happend, BitVec.getLsbD_append, if_pos hi']

/-- and writing one. -/
theorem poke_byte (mem : ByteMemory w) (a x : BitVec w) (v : BitVec (8 * 1)) :
    mem.poke a v x = if x = a then v else mem x := by
  by_cases hx : x = a
  · subst hx
    simp [poke, byteOf]
  · have hdist : ¬(x - a).toNat < 1 := by
      intro hlt
      have hsub : x - a = 0 := BitVec.eq_of_toNat_eq (by simpa using hlt)
      exact hx (by simpa [hsub] using (add_distance x a).symm)
    rw [poke, if_neg hdist, if_neg hx]

/-- A word that agrees with the memory except for its lowest byte changes one byte. -/
theorem poke_eq_update {mem : ByteMemory w} {a : BitVec w} {v : BitVec (8 * n)} (hn : 0 < n)
    (hsame : ∀ k, 1 ≤ k → k < n → byteOf v k = mem (a + BitVec.ofNat w k)) :
    mem.poke a v = Function.update mem a (byteOf v 0) := by
  funext x
  by_cases hx : x = a
  · subst hx
    simp [poke, hn]
  · rw [Function.update_of_ne hx, poke]
    split
    · next hdist =>
      have hpos : 1 ≤ (x - a).toNat := by
        by_contra hzero
        have hsub : x - a = 0 := BitVec.eq_of_toNat_eq (by simpa using hzero)
        exact hx (by simpa [hsub] using (add_distance x a).symm)
      rw [hsame _ hpos hdist, add_distance]
    · rfl

/-- The memory with its bytes from `a` on replaced by the `n` lowest bytes of a word. -/
def overwrite {m : ℕ} (mem : ByteMemory w) (a : BitVec w) (v : BitVec m) (n : ℕ) : ByteMemory w :=
  fun x => if (x - a).toNat < n then byteOf v (x - a).toNat else mem x

@[simp] theorem overwrite_zero {m : ℕ} (mem : ByteMemory w) (a : BitVec w) (v : BitVec m) :
    mem.overwrite a v 0 = mem := rfl

/-- Overwriting one more byte changes one more byte. -/
theorem overwrite_succ {m : ℕ} (mem : ByteMemory w) (a : BitVec w) (v : BitVec m)
    (hn : n < 2 ^ w) : mem.overwrite a v (n + 1) =
      Function.update (mem.overwrite a v n) (a + BitVec.ofNat w n) (byteOf v n) := by
  funext x
  by_cases hx : x = a + BitVec.ofNat w n
  · subst hx
    have hdist := distance_add a hn
    rw [Function.update_self, overwrite, hdist, if_pos (Nat.lt_succ_self n)]
  · have hdist : (x - a).toNat ≠ n := fun heq => hx (by rw [← heq, add_distance])
    have hiff : (x - a).toNat < n + 1 ↔ (x - a).toNat < n := by omega
    simp only [Function.update_of_ne hx, overwrite, hiff]

end ByteMemory

/-- A 64-bit word with the lowest byte of another one. -/
def withLow (v u : BitVec 64) : BitVec 64 := (v &&& 0xffffffffffffff00#64) ||| (u &&& 0xff#64)

theorem byteOf_withLow_zero (v u : BitVec 64) : byteOf (withLow v u) 0 = byteOf u 0 := by
  unfold byteOf withLow
  ext i hi
  simp only [BitVec.getElem_extractLsb', BitVec.getLsbD_or, BitVec.getLsbD_and]
  interval_cases i <;> simp

theorem byteOf_withLow_pos (v u : BitVec 64) {k : ℕ} (hk : 1 ≤ k) (hk' : k < 8) :
    byteOf (withLow v u) k = byteOf v k := by
  unfold byteOf withLow
  ext i hi
  simp only [BitVec.getElem_extractLsb', BitVec.getLsbD_or, BitVec.getLsbD_and]
  interval_cases k <;> interval_cases i <;> simp

/-- Reading a word and writing it back with another lowest byte changes one byte. -/
theorem ByteMemory.poke_withLow {w : ℕ} (mem : ByteMemory w) (a : BitVec w) (u : BitVec 64) :
    mem.poke (n := 8) a (withLow (mem.peek a 8) u) = Function.update mem a (byteOf u 0) := by
  rw [poke_eq_update (by decide), byteOf_withLow_zero]
  intro k hk hk'
  rw [byteOf_withLow_pos _ _ hk hk']
  exact byteOf_peek hk'

end UnixProgramming
