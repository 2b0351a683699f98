import Mathlib.Data.List.Basic

/-!
# The bits of a byte string

A byte string is read as a string of bits, the top bit of the first byte first. Code that works
on such strings goes byte by byte and masks the bytes at the two ends; its specification speaks
of single bits. The lemmas here pass between the two.

## Main results

* `eq_of_bitOf`: strings of one length with the same bits are equal
* `bitOf_drop`, `bitOf_take`: the bits of a slice
* `bitOf_clampBits`: clamping clears the bits outside of its bounds
-/

namespace Foks.Lib

open List

def byteBit (b : UInt8) (j : ℕ) : Bool := b.toBitVec.getMsbD j

def bitOf (bs : List UInt8) (i : ℕ) : Bool := byteBit (bs.getD (i / 8) 0) (i % 8)

/-- The mask of the bits `s`, …, 7 of a byte. -/
def headMask (s : ℕ) : UInt8 := 0xff >>> UInt8.ofNat s

/-- The mask of the bits 0, …, `e` of a byte. -/
def tailMask (e : ℕ) : UInt8 := 0xff <<< UInt8.ofNat (7 - e)

def clampBits (s e : ℕ) (bs : List UInt8) : List UInt8 :=
  (bs.modify 0 (· &&& headMask s)).modify (e / 8) (· &&& tailMask (e % 8))

/-! ## Bytes -/

@[simp] theorem byteBit_zero (j : ℕ) : byteBit 0 j = false := by
  simp [byteBit]

@[simp] theorem byteBit_and (a b : UInt8) (j : ℕ) : byteBit (a &&& b) j = (byteBit a j && byteBit b j) := by
  simp [byteBit]

@[simp] theorem byteBit_xor (a b : UInt8) (j : ℕ) : byteBit (a ^^^ b) j = (byteBit a j ^^ byteBit b j) := by
  simp [byteBit]

variable {b : UInt8} {j : ℕ} {bs : List UInt8}

theorem byte_ext {a : UInt8} (h : ∀ j < 8, byteBit a j = byteBit b j) : a = b := by
  apply UInt8.toBitVec_inj.mp
  exact BitVec.eq_of_getMsbD_eq fun j hj => h j hj

theorem byteBit_ff (hj : j < 8) : byteBit 0xff j = true := by
  revert j
  decide

theorem byteBit_headMask {s : ℕ} (hs : s < 8) (hj : j < 8) : byteBit (headMask s) j = decide (s ≤ j) := by
  have h : ∀ s < 8, ∀ j < 8, byteBit (headMask s) j = decide (s ≤ j) := by decide
  exact h s hs j hj

theorem byteBit_tailMask {e : ℕ} (he : e < 8) (hj : j < 8) : byteBit (tailMask e) j = decide (j ≤ e) := by
  have h : ∀ e < 8, ∀ j < 8, byteBit (tailMask e) j = decide (j ≤ e) := by decide
  exact h e he j hj

/-! ## Strings -/

theorem bitOf_byte (n : ℕ) (hj : j < 8) : bitOf bs (8 * n + j) = byteBit (bs.getD n 0) j := by
  have hdiv : (8 * n + j) / 8 = n := by omega
  have hmod : (8 * n + j) % 8 = j := by omega
  rw [bitOf, hdiv, hmod]

theorem bitOf_cons_lt {i : ℕ} (hi : i < 8) : bitOf (b :: bs) i = byteBit b i := by
  have h : bitOf (b :: bs) (8 * 0 + i) = byteBit b i := bitOf_byte 0 hi
  rwa [Nat.zero_add] at h

theorem bitOf_cons_add (i : ℕ) : bitOf (b :: bs) (8 + i) = bitOf bs i := by
  have hdiv : (8 + i) / 8 = i / 8 + 1 := by omega
  have hmod : (8 + i) % 8 = i % 8 := by omega
  rw [bitOf, bitOf, hdiv, hmod, getD_cons_succ]

theorem bitOf_drop (n i : ℕ) : bitOf (bs.drop n) i = bitOf bs (8 * n + i) := by
  have hdiv : (8 * n + i) / 8 = n + i / 8 := by omega
  have hmod : (8 * n + i) % 8 = i % 8 := by omega
  rw [bitOf, bitOf, hdiv, hmod, getD_eq_getElem?_getD, getD_eq_getElem?_getD, getElem?_drop]

theorem bitOf_take {n i : ℕ} (hi : i < 8 * n) : bitOf (bs.take n) i = bitOf bs i := by
  have hlt : i / 8 < n := by omega
  rw [bitOf, bitOf, getD_eq_getElem?_getD, getD_eq_getElem?_getD, getElem?_take_of_lt hlt]

theorem eq_of_bitOf {a b : List UInt8} (hlen : a.length = b.length)
    (h : ∀ i < 8 * a.length, bitOf a i = bitOf b i) : a = b := by
  refine ext_getElem hlen fun n ha hb => byte_ext fun j hj => ?_
  have hbit := h (8 * n + j) (by omega)
  rw [bitOf_byte n hj, bitOf_byte n hj] at hbit
  simpa [ha, hb] using hbit

@[simp] theorem length_clampBits (s e : ℕ) (bs : List UInt8) : (clampBits s e bs).length = bs.length := by
  simp [clampBits]

theorem bitOf_modify_and {m : UInt8} {n i : ℕ} (hn : n < bs.length) :
    bitOf (bs.modify n (· &&& m)) i = (bitOf bs i && (decide (i / 8 ≠ n) || byteBit m (i % 8))) := by
  rw [bitOf, bitOf, getD_eq_getElem?_getD, getD_eq_getElem?_getD, getElem?_modify]
  rcases eq_or_ne n (i / 8) with rfl | hne
  · simp [getElem?_eq_getElem hn]
  · cases bs[i / 8]? <;> simp [hne, Ne.symm hne]

theorem bitOf_clampBits {s e i : ℕ} (hs : s < 8) (he : e / 8 + 1 = bs.length) (hi : i < 8 * bs.length) :
    bitOf (clampBits s e bs) i = (bitOf bs i && decide (s ≤ i ∧ i ≤ e)) := by
  have hhead : (decide (i / 8 ≠ 0) || byteBit (headMask s) (i % 8)) = decide (s ≤ i) := by
    rw [byteBit_headMask hs (by omega), ← Bool.decide_or]
    exact decide_eq_decide.mpr (by omega)
  have htail : (decide (i / 8 ≠ e / 8) || byteBit (tailMask (e % 8)) (i % 8)) = decide (i ≤ e) := by
    rw [byteBit_tailMask (by omega) (by omega), ← Bool.decide_or]
    exact decide_eq_decide.mpr (by omega)
  rw [clampBits, bitOf_modify_and (by rw [length_modify]; omega),
    bitOf_modify_and (by omega), hhead, htail, Bool.and_assoc, ← Bool.decide_and]

end Foks.Lib
