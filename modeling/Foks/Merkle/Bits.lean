import Foks.Core.Role
import Foks.Lib.Bits
import Foks.Lib.Except

/-!
# Comparing keys bit by bit

The functions of `lib/core/bits.go`. The tree compares a key with the compressed prefixes of its
nodes, which start at any bit of a byte. A prefix is kept in a byte string that starts at the
byte of its first bit, so bit `start % 8 + i` of the string is bit `start + i` of the key.
-/

namespace Foks.Merkle

open Lib List Option

/-- `int`: the 64-bit signed value of an integer. -/
def int64 (x : ℤ) : ℤ := x.bmod (2 ^ 64)

theorem int64_of_lt {n : ℕ} (h : n < 2 ^ 63) : int64 n = n := by
  rw [int64, Int.bmod_eq_of_le] <;> omega

theorem int64_le (n : ℕ) : int64 n ≤ n := by
  rw [int64, Int.bmod_def]
  split <;> omega

/-- `UppermostBitSet`: 7 for `0x80`, 0 for `0x01`, and -1 for 0. -/
def uppermostBitSet (b : UInt8) : ℤ :=
  if b &&& 0xf0 ≠ 0 then
    if b &&& 0xc0 ≠ 0 then
      if b &&& 0x80 ≠ 0 then 7 else 6
    else
      if b &&& 0x20 ≠ 0 then 5 else 4
  else
    if b &&& 0xc ≠ 0 then
      if b &&& 0x8 ≠ 0 then 3 else 2
    else
      if b &&& 0x2 ≠ 0 then 1
      else if b = 0x1 then 0
      else -1

/-- The bits of byte `i` from bit `start` on and up to bit `endBit` of the string. -/
def maskByte (start : ℕ) (endBit : ℤ) (i : ℕ) (b : UInt8) : UInt8 :=
  let topMask := if i = start / 8 then headMask (start % 8) else 0xff
  let bottomMask := if i = endBit / 8 then tailMask (endBit % 8).toNat else 0xff
  b &&& topMask &&& bottomMask

/-- The loop of `AssertKeyMatch`, at byte `i` of the key and at the rest of `sub`. -/
def matchBytes (key : List UInt8) (start : ℕ) (endBit : ℤ) : ℕ → List UInt8 → Except CoreError Unit
  | _, [] => .ok ()
  | i, b :: sub =>
    if endBit / 8 < i then .ok ()
    else match key[i]? with
      | none => .error (.internalError "fell off end of key string")
      | some k =>
        let tmp := maskByte start endBit i (k ^^^ b)
        if tmp ≠ 0 then
          let fbs := uppermostBitSet tmp
          if fbs < 0 then .error (.internalError "didn't find a set bit")
          else .error (.bitPrefixMatchError (8 * i + (7 - fbs.toNat)))
        else matchBytes key start endBit (i + 1) sub

/-- `AssertKeyMatch`: the `count` bits of the key from `start` on are those of `sub`. -/
def assertKeyMatch (key sub : List UInt8) (start : ℕ) (count : ℤ) : Except CoreError Unit :=
  if count = 0 then .ok ()
  else matchBytes key start (int64 (start + count - 1)) (start / 8) sub

/-- The loop of `ComputePrefixMatch`: the number of leading bits in common, and the bit of `x`
after them. -/
def commonBits : List UInt8 → List UInt8 → ℕ × Bool
  | c :: x, d :: y =>
    if c = d then
      let rest := commonBits x y
      (8 + rest.1, rest.2)
    else
      let pos := (uppermostBitSet (c ^^^ d)).toNat
      (7 - pos, c &&& (1 <<< UInt8.ofNat pos) ≠ 0)
  | _, _ => (0, false)

/-- `ComputePrefixMatch`: for two keys that agree on their first `bitsMatched` bits, the bytes of
the prefix that they share from there on, its length in bits, and the bit of `x` that follows. -/
def computePrefixMatch (x y : List UInt8) (bitsMatched : ℕ) : Except CoreError (List UInt8 × ℕ × Bool) := do
  refuse (x.length ≠ y.length) (.internalError "inputs must have equal length")
  refuse (x = y) (.internalError "did not expect x=y in ComputePrefixMatch")
  let startByte := bitsMatched / 8
  refuse (x.length ≤ startByte) (.internalError "bitsMatched was too big")
  let x := x.drop startByte
  let y := y.drop startByte
  let (newBitsMatched, firstXMismatchBit) := commonBits x y
  let rightFence := (newBitsMatched + 7) / 8
  return (x.take rightFence, newBitsMatched - bitsMatched % 8, firstXMismatchBit)

def bitAt (key : List UInt8) (bitPos : ℕ) : Except CoreError Bool :=
  match key[bitPos / 8]? with
  | none => .error (.internalError "bit location is out of range")
  | some b => .ok (b &&& (1 <<< UInt8.ofNat (7 - bitPos % 8)) ≠ 0)

/-- `ShiftCopyAndClamp`: clear what is not in the `count` bits from bit `start % 8` on. -/
def shiftCopyAndClamp (inp : List UInt8) (start count : ℕ) : List UInt8 :=
  if count = 0 then []
  else
    let startBit := start % 8
    let endBit := startBit + count - 1
    let endByte := endBit / 8
    -- `copy` into a zeroed buffer: a short input is filled up with zeroes
    let buf := (inp ++ replicate (endByte + 1) 0).take (endByte + 1)
    clampBits startBit endBit buf

/-- `CopyAndClamp`: the bytes of bits `start`, …, `start + count - 1` of the input, without the
bits around them; `none` past the end of the input. -/
def copyAndClamp (inp : List UInt8) (start count : ℕ) : Option (List UInt8) :=
  if count = 0 then some []
  else
    let startByte := start / 8
    let endBit := start + count - 1
    let endByte := endBit / 8
    if inp.length ≤ endByte then none
    else
      let buf := (inp.drop startByte).take (endByte - startByte + 1)
      some (clampBits (start % 8) (endBit - 8 * startByte) buf)

/-! ## Single bits -/

variable {b : UInt8} {key : List UInt8} {i start endBit count : ℕ}

theorem uppermostBitSet_spec (hb : b ≠ 0) :
    ∃ p < 8, uppermostBitSet b = (p : ℕ) ∧ byteBit b (7 - p) = true ∧ ∀ j < 7 - p, byteBit b j = false := by
  have h : ∀ v : BitVec 8, UInt8.ofBitVec v ≠ 0 → ∃ p < 8,
      uppermostBitSet (.ofBitVec v) = (p : ℕ) ∧ byteBit (.ofBitVec v) (7 - p) = true ∧
      ∀ j < 7 - p, byteBit (.ofBitVec v) j = false := by decide +kernel
  exact h b.toBitVec hb

theorem and_shiftLeft_ne_zero {j : ℕ} (hj : j < 8) :
    decide (b &&& (1 <<< UInt8.ofNat (7 - j)) ≠ 0) = byteBit b j := by
  have h : ∀ v : BitVec 8, ∀ j < 8,
      decide (UInt8.ofBitVec v &&& (1 <<< UInt8.ofNat (7 - j)) ≠ 0) = byteBit (.ofBitVec v) j := by
    decide +kernel
  exact h b.toBitVec j hj

theorem bitAt_of_lt (hi : i < 8 * key.length) : bitAt key i = .ok (bitOf key i) := by
  have hlt : i / 8 < key.length := by omega
  rw [bitAt]
  simp only [and_shiftLeft_ne_zero (show i % 8 < 8 by omega), bitOf, getD_eq_getElem?_getD,
    getElem?_eq_getElem hlt, Option.getD_some]

theorem lt_of_bitAt_eq_ok {b : Bool} (h : bitAt key i = .ok b) : i < 8 * key.length ∧ b = bitOf key i := by
  by_cases hi : i < 8 * key.length
  · rw [bitAt_of_lt hi] at h
    exact ⟨hi, (Except.ok.inj h).symm⟩
  have hnone : key[i / 8]? = none := getElem?_eq_none (by omega)
  rw [bitAt, hnone] at h
  cases h

/-! ## Comparing a key with a prefix -/

theorem byteBit_maskByte {j : ℕ} (hj : j < 8) (hstart : start / 8 ≤ i) (hend : i ≤ endBit / 8) :
    byteBit (maskByte start endBit i b) j
      = (byteBit b j && decide (start ≤ 8 * i + j) && decide (8 * i + j ≤ endBit)) := by
  have htop : byteBit (if i = start / 8 then headMask (start % 8) else 0xff) j =
      decide (start ≤ 8 * i + j) := by
    split
    · rw [byteBit_headMask (by omega) hj]
      exact decide_eq_decide.mpr (by omega)
    · rw [byteBit_ff hj, eq_comm, decide_eq_true_iff]
      omega
  have hbottom : byteBit (if (i : ℤ) = (endBit : ℤ) / 8 then tailMask ((endBit : ℤ) % 8).toNat
      else 0xff) j = decide (8 * i + j ≤ endBit) := by
    split
    · rw [byteBit_tailMask (by omega) hj]
      exact decide_eq_decide.mpr (by omega)
    · rw [byteBit_ff hj, eq_comm, decide_eq_true_iff]
      omega
  rw [maskByte, byteBit_and, byteBit_and, htop, hbottom]

/-- One byte of the comparison: no bit in the bounds differs, or the uppermost set bit of the
masked difference is the first that does. -/
theorem maskByte_cases (k b : UInt8) (hstart : start / 8 ≤ i) (hend : i ≤ endBit / 8) :
    (maskByte start endBit i (k ^^^ b) = 0 ∧
      ∀ j < 8, start ≤ 8 * i + j → 8 * i + j ≤ endBit → byteBit k j = byteBit b j) ∨
    maskByte start endBit i (k ^^^ b) ≠ 0 ∧
      ∃ j < 8, uppermostBitSet (maskByte start endBit i (k ^^^ b)) = ((7 - j : ℕ) : ℤ) ∧
        start ≤ 8 * i + j ∧ 8 * i + j ≤ endBit ∧ byteBit k j ≠ byteBit b j ∧
        ∀ j' < j, start ≤ 8 * i + j' → byteBit k j' = byteBit b j' := by
  have hmask : ∀ j < 8, byteBit (maskByte start endBit i (k ^^^ b)) j =
      ((byteBit k j ^^ byteBit b j) && decide (start ≤ 8 * i + j) &&
        decide (8 * i + j ≤ endBit)) := by
    intro j hj
    rw [byteBit_maskByte hj hstart hend, byteBit_xor]
  have hsame : ∀ j < 8, byteBit (maskByte start endBit i (k ^^^ b)) j = false →
      start ≤ 8 * i + j → 8 * i + j ≤ endBit → byteBit k j = byteBit b j := by
    intro j hj hclear hs he
    simpa [hmask j hj, hs, he] using hclear
  by_cases htmp : maskByte start endBit i (k ^^^ b) = 0
  · exact .inl ⟨htmp, fun j hj => hsame j hj (by rw [htmp, byteBit_zero])⟩
  obtain ⟨u, hu, hfbs, hset, hclear⟩ := uppermostBitSet_spec htmp
  have hdiff := hmask (7 - u) (by omega)
  rw [hset, eq_comm, Bool.and_eq_true, Bool.and_eq_true, decide_eq_true_iff,
    decide_eq_true_iff, bne_iff_ne] at hdiff
  obtain ⟨⟨hne, hs⟩, he⟩ := hdiff
  refine .inr ⟨htmp, 7 - u, by omega, ?_, hs, he, hne, fun j hj hsj => ?_⟩
  · rw [hfbs, show 7 - (7 - u) = u by omega]
  · exact hsame j (by omega) (hclear j hj) hsj (by omega)

/-- What the loop finds from byte `i` on: no difference up to `endBit`, or the first one. -/
theorem matchBytes_cases (hkey : endBit / 8 < key.length)
    (sub : List UInt8) (i : ℕ) (hi : start / 8 ≤ i) (hsub : endBit / 8 < i + sub.length) :
    (matchBytes key start endBit i sub = .ok () ∧
      ∀ p, start ≤ p → 8 * i ≤ p → p ≤ endBit → bitOf key p = bitOf sub (p - 8 * i)) ∨
    ∃ p, start ≤ p ∧ 8 * i ≤ p ∧ p ≤ endBit ∧
      matchBytes key start endBit i sub = .error (.bitPrefixMatchError p) ∧
      bitOf key p ≠ bitOf sub (p - 8 * i) ∧
      ∀ q, start ≤ q → 8 * i ≤ q → q < p → bitOf key q = bitOf sub (q - 8 * i) := by
  induction sub generalizing i with
  | nil =>
    rw [length_nil] at hsub
    exact .inl ⟨rfl, fun p _ hp hpe => absurd hsub (by omega)⟩
  | cons b sub ih =>
    rw [length_cons] at hsub
    by_cases hend : endBit / 8 < i
    · refine .inl ⟨?_, fun p _ hp hpe => absurd hend (by omega)⟩
      rw [matchBytes, if_pos (by exact_mod_cast hend)]
    have hget : key[i]? = some key[i] := getElem?_eq_getElem (by omega)
    -- the bits of this byte, on both sides, and those of the bytes after it
    have hkeybit : ∀ j < 8, bitOf key (8 * i + j) = byteBit key[i] j := by
      intro j hj
      rw [bitOf_byte i hj, getD_eq_getElem?_getD, hget, Option.getD_some]
    have hbyte : ∀ q, 8 * i ≤ q → q < 8 * (i + 1) → ∃ j < 8, q = 8 * i + j ∧
        bitOf key q = byteBit key[i] j ∧ bitOf (b :: sub) (q - 8 * i) = byteBit b j := by
      intro q hq hlt
      refine ⟨q - 8 * i, by omega, by omega, ?_, bitOf_cons_lt (by omega)⟩
      rw [← hkeybit _ (by omega), Nat.add_sub_cancel' hq]
    have hrest : ∀ q, 8 * (i + 1) ≤ q → bitOf (b :: sub) (q - 8 * i) = bitOf sub (q - 8 * (i + 1)) := by
      intro q hq
      rw [show q - 8 * i = 8 + (q - 8 * (i + 1)) by omega, bitOf_cons_add]
    rw [matchBytes, if_neg (by exact_mod_cast hend), hget]
    rcases maskByte_cases key[i] b hi (show i ≤ endBit / 8 by omega) with
      ⟨htmp, hsame⟩ | ⟨htmp, j, hj, hfbs, hs, he, hne, hsame⟩
    · simp only [htmp]
      have hfirst : ∀ q, start ≤ q → 8 * i ≤ q → q ≤ endBit → q < 8 * (i + 1) →
          bitOf key q = bitOf (b :: sub) (q - 8 * i) := by
        intro q hs hq he hlt
        obtain ⟨j, hj, rfl, hk, hb⟩ := hbyte q hq hlt
        rw [hk, hb, hsame j hj hs he]
      rcases ih (i + 1) (by omega) (by omega) with ⟨hok, hall⟩ | ⟨p, hs, hp, he, herr, hne, hall⟩
      · refine .inl ⟨hok, fun q hs hq he => ?_⟩
        by_cases hlt : q < 8 * (i + 1)
        · exact hfirst q hs hq he hlt
        · rw [hrest q (by omega)]
          exact hall q hs (by omega) he
      refine .inr ⟨p, hs, by omega, he, herr, ?_, fun q hqs hq hqp => ?_⟩
      · rwa [hrest p hp]
      by_cases hlt : q < 8 * (i + 1)
      · exact hfirst q hqs hq (by omega) hlt
      · rw [hrest q (by omega)]
        exact hall q hqs (by omega) hqp
    refine .inr ⟨8 * i + j, hs, by omega, he, ?_, ?_, fun q hqs hq hqp => ?_⟩
    · simp only [ne_eq, htmp, not_false_eq_true, if_true]
      rw [if_neg (by omega), hfbs, Int.toNat_natCast, show 7 - (7 - j) = j by omega]
    · rwa [hkeybit j hj, Nat.add_sub_cancel_left, bitOf_cons_lt hj]
    · obtain ⟨j', hj', rfl, hk, hb⟩ := hbyte q hq (by omega)
      rw [hk, hb, hsame j' (by omega) hqs]

/-- The comparison of a key with a prefix: it succeeds when all bits agree, and otherwise fails
at the first bit that differs. -/
theorem assertKeyMatch_cases {sub : List UInt8}
    (hkey : start + count ≤ 8 * key.length) (hsmall : 8 * key.length ≤ 2 ^ 63)
    (hsub : start % 8 + count ≤ 8 * sub.length) :
    (assertKeyMatch key sub start count = .ok () ∧ ∀ i < count,
      bitOf key (start + i) = bitOf sub (start % 8 + i)) ∨
    ∃ d < count, assertKeyMatch key sub start count = .error (.bitPrefixMatchError (start + d)) ∧
      bitOf key (start + d) ≠ bitOf sub (start % 8 + d) ∧
      ∀ i < d, bitOf key (start + i) = bitOf sub (start % 8 + i) := by
  rcases Nat.eq_zero_or_pos count with rfl | hpos
  · exact .inl ⟨rfl, fun i hi => absurd hi (by omega)⟩
  have hloop : assertKeyMatch key sub start count
      = matchBytes key start ((start + count - 1 : ℕ) : ℤ) (start / 8) sub := by
    rw [assertKeyMatch, if_neg (by omega)]
    rw [show (start : ℤ) + count - 1 = ((start + count - 1 : ℕ) : ℤ) by omega, int64_of_lt (by omega)]
  have hpos : ∀ i, start + i - 8 * (start / 8) = start % 8 + i := by
    omega
  rw [hloop]
  rcases matchBytes_cases (show (start + count - 1) / 8 < key.length by omega) sub (start / 8)
    le_rfl (by omega) with ⟨hok, hall⟩ | ⟨p, hs, hp, he, herr, hne, hall⟩
  · refine .inl ⟨hok, fun i hi => ?_⟩
    rw [hall (start + i) (by omega) (by omega) (by omega), hpos]
  obtain ⟨d, rfl⟩ := Nat.exists_eq_add_of_le hs
  rw [hpos] at hne
  refine .inr ⟨d, by omega, herr, hne, fun i hi => ?_⟩
  rw [hall (start + i) (by omega) (by omega) (by omega), hpos]

/-! ## The common prefix of two keys -/

theorem commonBits_spec {x y : List UInt8} (hlen : x.length = y.length) (hne : x ≠ y) :
    ∃ d < 8 * x.length, commonBits x y = (d, bitOf x d) ∧ bitOf x d ≠ bitOf y d ∧ ∀ i < d,
        bitOf x i = bitOf y i := by
  induction x generalizing y with
  | nil => exact absurd (length_eq_zero_iff.mp hlen.symm).symm hne
  | cons c x ih =>
    obtain _ | ⟨e, y⟩ := y
    · cases hlen
    rw [length_cons]
    by_cases hce : c = e
    · subst hce
      have htail : x ≠ y := fun h => hne (by rw [h])
      obtain ⟨d, hd, hcommon, hdiff, hsame⟩ := ih (Nat.succ.inj hlen) htail
      refine ⟨8 + d, by omega, ?_, ?_, fun i hi => ?_⟩
      · rw [commonBits, if_pos rfl, hcommon, bitOf_cons_add]
      · rwa [bitOf_cons_add, bitOf_cons_add]
      by_cases hi8 : i < 8
      · rw [bitOf_cons_lt hi8, bitOf_cons_lt hi8]
      · rw [show i = 8 + (i - 8) by omega, bitOf_cons_add, bitOf_cons_add]
        exact hsame (i - 8) (by omega)
    have hxor : c ^^^ e ≠ 0 := fun h => hce (UInt8.xor_eq_zero_iff.mp h)
    obtain ⟨p, hp, hpos, hset, hclear⟩ := uppermostBitSet_spec hxor
    rw [byteBit_xor, bne_iff_ne] at hset
    refine ⟨7 - p, by omega, ?_, ?_, fun i hi => ?_⟩
    · rw [commonBits, if_neg hce, hpos, Int.toNat_natCast, bitOf_cons_lt (by omega),
        ← and_shiftLeft_ne_zero (show 7 - p < 8 by omega), show 7 - (7 - p) = p by omega]
    · rwa [bitOf_cons_lt (by omega), bitOf_cons_lt (by omega)]
    have hbit := hclear i hi
    rw [byteBit_xor, bne_eq_false_iff_eq] at hbit
    rwa [bitOf_cons_lt (by omega), bitOf_cons_lt (by omega)]

/-- Two keys that agree on their first `m` bits: the bytes of the prefix that they share from bit
`m` up to the first bit where they differ. -/
theorem computePrefixMatch_eq_ok {x y : List UInt8} {m : ℕ} (hlen : x.length = y.length)
    (hne : x ≠ y) (hm : ∀ i < m, bitOf x i = bitOf y i) :
    ∃ d, m ≤ d ∧ d < 8 * x.length ∧ bitOf x d ≠ bitOf y d ∧ (∀ i < d, bitOf x i = bitOf y i) ∧
      computePrefixMatch x y m = .ok ((x.drop (m / 8)).take ((m % 8 + (d - m) + 7) / 8), d - m, bitOf x d) := by
  have htail : x.drop (m / 8) ≠ y.drop (m / 8) := by
    intro h
    refine hne (eq_of_bitOf hlen fun i hi => ?_)
    by_cases him : i < m
    · exact hm i him
    have hbit := congrArg (bitOf · (i - 8 * (m / 8))) h
    simp only [bitOf_drop] at hbit
    rwa [Nat.add_sub_cancel' (by omega)] at hbit
  obtain ⟨d, hd, hcommon, hdiff, hsame⟩ :=
    commonBits_spec (by rw [length_drop, length_drop, hlen]) htail
  rw [length_drop] at hd
  rw [bitOf_drop] at hcommon
  rw [bitOf_drop, bitOf_drop] at hdiff
  have hmd : m ≤ 8 * (m / 8) + d := by
    by_contra hlt
    exact hdiff (hm _ (by omega))
  refine ⟨8 * (m / 8) + d, hmd, by omega, hdiff, fun i hi => ?_, ?_⟩
  · by_cases him : i < m
    · exact hm i him
    · have hbit := hsame (i - 8 * (m / 8)) (by omega)
      rwa [bitOf_drop, bitOf_drop, Nat.add_sub_cancel' (by omega)] at hbit
  have hcount : d - m % 8 = 8 * (m / 8) + d - m := by omega
  have hfence : m % 8 + (8 * (m / 8) + d - m) = d := by omega
  simp only [computePrefixMatch, hcommon, hcount, hfence, refuse, hlen, ne_eq, hne,
    if_neg (show ¬ y.length ≤ m / 8 by omega)]
  rfl

/-! ## Cutting a prefix -/

/-- The bytes that `CopyAndClamp` returns: the bits of the input in the bounds, zeroes around
them. -/
theorem copyAndClamp_spec {inp : List UInt8} (hpos : 0 < count) (hlen : start + count ≤ 8 * inp.length) :
    ∃ buf, copyAndClamp inp start count = some buf ∧ buf.length = (start % 8 + count - 1) / 8 + 1 ∧
      ∀ i < 8 * buf.length, bitOf buf i =
        (bitOf inp (start - start % 8 + i) && decide (start % 8 ≤ i ∧ i ≤ start % 8 + count - 1)) := by
  set buf := (inp.drop (start / 8)).take ((start + count - 1) / 8 - start / 8 + 1) with hbuf
  have hbuflen : buf.length = (start % 8 + count - 1) / 8 + 1 := by
    rw [length_take, length_drop]
    omega
  have hend : start + count - 1 - 8 * (start / 8) = start % 8 + count - 1 := by omega
  refine ⟨clampBits (start % 8) (start % 8 + count - 1) buf, ?_, ?_, fun i hi => ?_⟩
  · rw [copyAndClamp, if_neg (by omega), if_neg (by omega), hend]
  · rw [length_clampBits, hbuflen]
  rw [length_clampBits] at hi
  rw [bitOf_clampBits (by omega) (by omega) hi, bitOf_take (by omega), bitOf_drop,
    show 8 * (start / 8) = start - start % 8 by omega]

theorem lt_of_copyAndClamp_eq_some {inp buf : List UInt8}
    (h : copyAndClamp inp start count = some buf) : count = 0 ∨ start + count ≤ 8 * inp.length := by
  by_cases hc : count = 0
  · exact .inl hc
  right
  by_contra hlt
  rw [copyAndClamp, if_neg hc, if_pos (by omega)] at h
  cases h

/-- The two ways to cut a prefix agree: a buffer that holds the bits of a key from `start` on,
possibly with other bits around them, and the key itself. -/
theorem shiftCopyAndClamp_eq_copyAndClamp {bytes : List UInt8}
    (hkey : start + count ≤ 8 * key.length) (hbytes : start % 8 + count ≤ 8 * bytes.length)
    (h : ∀ i < count, bitOf bytes (start % 8 + i) = bitOf key (start + i)) :
    copyAndClamp key start count = some (shiftCopyAndClamp bytes start count) := by
  rcases Nat.eq_zero_or_pos count with rfl | hpos
  · rfl
  obtain ⟨buf, hcopy, hlen, hbits⟩ := copyAndClamp_spec hpos hkey
  rw [hcopy, some.injEq, shiftCopyAndClamp, if_neg (by omega)]
  have htake : (bytes ++ replicate ((start % 8 + count - 1) / 8 + 1) 0).take
      ((start % 8 + count - 1) / 8 + 1) = bytes.take ((start % 8 + count - 1) / 8 + 1) :=
    take_append_of_le_length (by omega)
  have hlen' : (bytes.take ((start % 8 + count - 1) / 8 + 1)).length = (start % 8 + count - 1) / 8 + 1 := by
    rw [length_take]
    omega
  simp only [htake]
  refine eq_of_bitOf (by rw [length_clampBits, hlen', hlen]) fun i hi => ?_
  rw [hbits i hi, bitOf_clampBits (by omega) (by omega) (by omega), bitOf_take (by omega)]
  by_cases hin : start % 8 ≤ i ∧ i ≤ start % 8 + count - 1
  · have hbit := h (i - start % 8) (by omega)
    rw [Nat.add_sub_cancel' hin.1] at hbit
    rw [hbit, show start + (i - start % 8) = start - start % 8 + i by omega]
  · rw [decide_eq_false hin, Bool.and_false, Bool.and_false]

/-- A key agrees with the prefix cut from it. -/
theorem assertKeyMatch_copyAndClamp {buf : List UInt8}
    (hsmall : 8 * key.length ≤ 2 ^ 63) (h : copyAndClamp key start count = some buf) :
    assertKeyMatch key buf start count = .ok () := by
  rcases Nat.eq_zero_or_pos count with rfl | hpos
  · rfl
  have hkey := (lt_of_copyAndClamp_eq_some h).resolve_left (by omega)
  obtain ⟨buf', hcopy, hlen, hbits⟩ := copyAndClamp_spec hpos hkey
  obtain rfl : buf' = buf := mem_unique hcopy h
  rcases assertKeyMatch_cases hkey hsmall (show start % 8 + count ≤ 8 * buf'.length by omega) with
    ⟨hok, -⟩ | ⟨d, hd, -, hne, -⟩
  · exact hok
  refine absurd ?_ hne
  rw [hbits _ (by omega), decide_eq_true (by omega), Bool.and_true,
    show start - start % 8 + (start % 8 + d) = start + d by omega]

end Foks.Merkle
