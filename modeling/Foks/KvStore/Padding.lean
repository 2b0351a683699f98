import Mathlib.Data.Nat.Log
import Foks.Core.Role
import Foks.Lib.Except

/-!
# Padding of file chunks

A chunk of a file is encoded before it is encrypted, with a head of two, three or five bytes according
to its length, and padded so that its size shows little of its length (`lib/kv/crypto.go`). The client
pads to the next power of two, plus the head of a chunk of that length; the server takes the head off
again and counts what is left as the length of the chunk.
-/

namespace Foks.KvStore

open Lib List

structure PadSpec where
  atOrAbove : ℕ
  overhead : ℕ
  deriving DecidableEq

def padSpecs : List PadSpec := [⟨0x0, 2⟩, ⟨0x100, 3⟩, ⟨0x10000, 5⟩]

def minPaddedInputSize : ℕ := 0x20

/-- The spec for `base2`, and those that are left. -/
def nextSpec (base2 : ℕ) (spec : PadSpec) : List PadSpec → PadSpec × List PadSpec
  | [] => (spec, [])
  | next :: rest => if next.atOrAbove ≤ base2 then (next, rest) else (spec, next :: rest)

/-- The loop of `PaddedLen`. Every turn doubles `base2`, so that `n` turns are more than enough. -/
def paddedLenLoop (n : ℕ) : ℕ → ℕ → PadSpec → List PadSpec → ℕ
  | 0, base2, spec, _ => base2 + spec.overhead
  | fuel + 1, base2, spec, specs =>
    if n ≤ base2 + spec.overhead then base2 + spec.overhead
    else
      let next := nextSpec (base2 * 2) spec specs
      paddedLenLoop n fuel (base2 * 2) next.1 next.2

def paddedLen (n : ℕ) : Except CoreError ℕ := do
  refuse (0xffffffff < n) (.tooBigError 0 0 "")
  return paddedLenLoop n n minPaddedInputSize ⟨0x0, 2⟩ [⟨0x100, 3⟩, ⟨0x10000, 5⟩]

def paddedLenInv (n : ℤ) : Except CoreError ℤ := do
  refuse (0xffffffff < n) (.tooBigError 0 0 "")
  refuse (n < 0) (.internalError "negative length")
  match padSpecs.reverse.find? fun spec => (spec.atOrAbove : ℤ) ≤ n with
  | some spec => return n - spec.overhead
  | none => .error (.internalError "unreachable")

/-! ## Heads -/

/-- The length of the head of an encoded chunk. -/
def headLen (n : ℕ) : ℕ := if n < 0x100 then 2 else if n < 0x10000 then 3 else 5

theorem headLen_mono {a b : ℕ} (h : a ≤ b) : headLen a ≤ headLen b := by
  unfold headLen
  split_ifs <;> omega

theorem two_le_headLen (n : ℕ) : 2 ≤ headLen n := by
  unfold headLen
  split_ifs <;> omega

theorem headLen_le_five (n : ℕ) : headLen n ≤ 5 := by
  unfold headLen
  split_ifs <;> omega

/-! ## The length of a padded chunk -/

/-- The spec in use for `base2`, and those that come after it. -/
def InUse (base2 : ℕ) (spec : PadSpec) (specs : List PadSpec) : Prop :=
  (base2 < 0x100 ∧ spec = ⟨0x0, 2⟩ ∧ specs = [⟨0x100, 3⟩, ⟨0x10000, 5⟩]) ∨
    (0x100 ≤ base2 ∧ base2 < 0x10000 ∧ spec = ⟨0x100, 3⟩ ∧ specs = [⟨0x10000, 5⟩]) ∨
      (0x10000 ≤ base2 ∧ spec = ⟨0x10000, 5⟩ ∧ specs = [])

variable {specs : List PadSpec} {base2 n : ℕ} {spec : PadSpec}

theorem InUse.overhead (h : InUse base2 spec specs) : spec.overhead = headLen base2 := by
  rcases h with ⟨hlt, rfl, -⟩ | ⟨hle, hlt, rfl, -⟩ | ⟨hle, rfl, -⟩
  · rw [headLen, if_pos hlt]
  · rw [headLen, if_neg (by omega), if_pos hlt]
  · rw [headLen, if_neg (by omega), if_neg (by omega)]

theorem InUse.next (h : InUse base2 spec specs) :
    InUse (base2 * 2) (nextSpec (base2 * 2) spec specs).1 (nextSpec (base2 * 2) spec specs).2 := by
  rcases h with ⟨hlt, rfl, rfl⟩ | ⟨hle, hlt, rfl, rfl⟩ | ⟨hle, rfl, rfl⟩
  · by_cases hnext : 0x100 ≤ base2 * 2
    · rw [nextSpec, if_pos hnext]
      exact .inr (.inl ⟨hnext, by omega, rfl, rfl⟩)
    · rw [nextSpec, if_neg hnext]
      exact .inl ⟨Nat.lt_of_not_le hnext, rfl, rfl⟩
  · by_cases hnext : 0x10000 ≤ base2 * 2
    · rw [nextSpec, if_pos hnext]
      exact .inr (.inr ⟨hnext, rfl, rfl⟩)
    · rw [nextSpec, if_neg hnext]
      exact .inr (.inl ⟨by omega, Nat.lt_of_not_le hnext, rfl, rfl⟩)
  · exact .inr (.inr ⟨by omega, rfl, rfl⟩)

/-- The loop finds the first power of two that is large enough. -/
theorem paddedLenLoop_spec : ∀ (fuel k : ℕ) (spec : PadSpec) (specs : List PadSpec),
    InUse (2 ^ k) spec specs → n ≤ 2 ^ k + fuel →
      ∃ j, k ≤ j ∧ paddedLenLoop n fuel (2 ^ k) spec specs = 2 ^ j + headLen (2 ^ j) ∧
        n ≤ 2 ^ j + headLen (2 ^ j) ∧ (j = k ∨ 2 ^ (j - 1) + headLen (2 ^ (j - 1)) < n)
  | 0, k, spec, specs, h, hfuel => by
    refine ⟨k, Nat.le_refl k, ?_, by omega, .inl rfl⟩
    rw [paddedLenLoop, h.overhead]
  | fuel + 1, k, spec, specs, h, hfuel => by
    by_cases hle : n ≤ 2 ^ k + headLen (2 ^ k)
    · refine ⟨k, Nat.le_refl k, ?_, hle, .inl rfl⟩
      rw [paddedLenLoop, h.overhead, if_pos hle]
    have h' := h.next
    rw [← pow_succ] at h'
    have hpow : 2 ^ k + 1 ≤ 2 ^ (k + 1) := by
      have hpos := Nat.one_le_two_pow (n := k)
      omega
    obtain ⟨j, hj, hloop, hn, hmin⟩ :=
      paddedLenLoop_spec fuel (k + 1) _ _ h' (by omega : n ≤ 2 ^ (k + 1) + fuel)
    refine ⟨j, by omega, ?_, hn, .inr ?_⟩
    · rw [paddedLenLoop, h.overhead, if_neg hle]
      exact hloop
    rcases hmin with rfl | hmin
    · rw [Nat.add_sub_cancel]
      omega
    · exact hmin

/-- The length that the server counts a chunk at: the next power of two. -/
def countedLen (n : ℕ) : ℕ := max 0x20 (2 ^ Nat.clog 2 n)

theorem le_countedLen (n : ℕ) : n ≤ countedLen n :=
  (Nat.le_pow_clog Nat.one_lt_two n).trans (le_max_right ..)

theorem countedLen_ge (n : ℕ) : 0x20 ≤ countedLen n := le_max_left ..

theorem countedLen_eq_pow {k : ℕ} (hk : 5 ≤ k) (hle : n ≤ 2 ^ k) (hmin : k = 5 ∨ 2 ^ (k - 1) < n) :
    countedLen n = 2 ^ k := by
  have hclog : Nat.clog 2 n ≤ k := (Nat.clog_le_iff_le_pow Nat.one_lt_two).mpr hle
  unfold countedLen
  rcases hmin with rfl | hmin
  · exact max_eq_left (Nat.pow_le_pow_right Nat.two_pos hclog)
  have hge : k ≤ Nat.clog 2 n := by
    by_contra hlt
    have hpow : n ≤ 2 ^ (k - 1) := (Nat.clog_le_iff_le_pow Nat.one_lt_two).mp (by omega)
    omega
  rw [Nat.le_antisymm hclog hge]
  exact max_eq_right (Nat.pow_le_pow_right Nat.two_pos hk)

theorem countedLen_pow (n : ℕ) : ∃ k, 5 ≤ k ∧ countedLen n = 2 ^ k := by
  rcases Nat.le_total 5 (Nat.clog 2 n) with h | h
  · exact ⟨_, h, max_eq_right (Nat.pow_le_pow_right Nat.two_pos h)⟩
  · exact ⟨5, Nat.le_refl 5, max_eq_left (Nat.pow_le_pow_right Nat.two_pos h)⟩

theorem countedLen_gap (n : ℕ) :
    (countedLen n < 0x100 → countedLen n ≤ 0x80) ∧ (countedLen n < 0x10000 → countedLen n ≤ 0x8000) := by
  obtain ⟨k, -, hk⟩ := countedLen_pow n
  rw [hk]
  constructor
  · intro h
    have hlt : k < 8 := (Nat.pow_lt_pow_iff_right (by decide)).mp (h : 2 ^ k < 2 ^ 8)
    exact Nat.pow_le_pow_right Nat.two_pos (Nat.le_of_lt_succ hlt)
  · intro h
    have hlt : k < 16 := (Nat.pow_lt_pow_iff_right (by decide)).mp (h : 2 ^ k < 2 ^ 16)
    exact Nat.pow_le_pow_right Nat.two_pos (Nat.le_of_lt_succ hlt)

/-- A chunk of at least 32 bytes is counted at its length exactly when that is a power of two. -/
theorem countedLen_eq_iff (hn : 0x20 ≤ n) : countedLen n = n ↔ ∃ k, n = 2 ^ k := by
  constructor
  · intro h
    obtain ⟨k, -, hk⟩ := countedLen_pow n
    exact ⟨k, h.symm.trans hk⟩
  · rintro ⟨k, rfl⟩
    rw [countedLen, Nat.clog_pow 2 k Nat.one_lt_two]
    exact max_eq_right hn

theorem countedLen_le_of_pow {k : ℕ} (hk : 5 ≤ k) (hn : n ≤ 2 ^ k) : countedLen n ≤ 2 ^ k :=
  max_le (Nat.pow_le_pow_right Nat.two_pos hk)
    (Nat.pow_le_pow_right Nat.two_pos ((Nat.clog_le_iff_le_pow Nat.one_lt_two).mpr hn))

/-- The client pads a chunk of length `n` to the next power of two, with a head of that length. -/
theorem paddedLen_chunk (hn : n + headLen n ≤ 0xffffffff) :
    paddedLen (n + headLen n) = .ok (countedLen n + headLen (countedLen n)) := by
  obtain ⟨k, hk, hloop, hle, hmin⟩ := paddedLenLoop_spec (n := n + headLen n) (n + headLen n) 5 ⟨0x0, 2⟩
    [⟨0x100, 3⟩, ⟨0x10000, 5⟩] (.inl ⟨by decide, rfl, rfl⟩) (by omega)
  have hpow : countedLen n = 2 ^ k := by
    refine countedLen_eq_pow hk ?_ (hmin.imp_right fun hmin => ?_)
    · by_contra hlt
      have hmono := headLen_mono (a := 2 ^ k) (b := n) (by omega)
      omega
    by_contra hlt
    have hmono := headLen_mono (a := n) (b := 2 ^ (k - 1)) (by omega)
    omega
  rw [hpow, ← hloop]
  refine bind_eq_ok.mpr ⟨(), refuse_eq_ok.mpr (by omega), rfl⟩

theorem paddedLenInv_eq (hn : n ≤ 0xffffffff) : paddedLenInv n = .ok ((n : ℤ) - headLen n) := by
  refine bind_eq_ok.mpr ⟨(), refuse_eq_ok.mpr (by omega), ?_⟩
  have hrev : padSpecs.reverse = [⟨0x10000, 5⟩, ⟨0x100, 3⟩, ⟨0x0, 2⟩] := rfl
  rw [hrev]
  unfold headLen
  split_ifs with h1 h2
  · rw [find?_cons_of_neg (by simp; omega), find?_cons_of_neg (by simp; omega)]
    rfl
  · rw [find?_cons_of_neg (by simp; omega), find?_cons_of_pos (by simp; omega)]
    rfl
  · rw [find?_cons_of_pos (by simp; omega)]
    rfl

/-- The server takes the head off: it does not take a power of two past the next spec. -/
theorem paddedLenInv_chunk (hn : countedLen n ≤ 0x10000000) :
    paddedLenInv ((countedLen n + headLen (countedLen n) : ℕ) : ℤ) = .ok (countedLen n : ℤ) := by
  have hle := headLen_le_five (countedLen n)
  have hhead : headLen (countedLen n + headLen (countedLen n)) = headLen (countedLen n) := by
    have hgap := countedLen_gap n
    unfold headLen
    split_ifs <;> omega
  rw [paddedLenInv_eq (by omega)]
  congr 1
  omega

end Foks.KvStore
