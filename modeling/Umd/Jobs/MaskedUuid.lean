import Umd.Lib.Uuid
/-!
# The masks of `deterministic_uuid`

The first sixteen bytes of a digest are masked to look like a version 4 UUID, but the
masks are of 64 bits. They clear the upper half, where a UUID has its version
(`never_version_four`), and of the lower half 58 bits are left of the digest
(`masked_eq_iff`). The variant is in its place (`variant_digit`).
-/

namespace Umd.Jobs.Masked

open Umd.Lib

/-- `value`, after both masks. -/
def maskedValue (value : Nat) : Nat :=
  let value := (value &&& 0xFFFFFFFFFFFF0FFF) ||| 0x4000
  (value &&& 0x3FFFFFFFFFFFFFFF) ||| 0x8000000000000000

/-- `UUID(int=n)` -/
def uuidOfInt (n : Nat) : UuidValue where
  digits := (List.range 32).map fun i => Fin.ofNat 16 (n / 16 ^ (31 - i))
  length_digits := by simp

/-- What `deterministic_uuid` makes of the first sixteen bytes of the digest. -/
def uuidText (value : Nat) : String := (uuidOfInt (maskedValue value)).dashed

section
variable (sha256 : String → BitVec 256)

/-- `int.from_bytes(hashlib.sha256(material.encode("utf-8")).digest()[:16], "big")` -/
def digestPrefix (material : String) : Nat := ((sha256 material).extractLsb' 128 128).toNat

/-- `deterministic_uuid`. -/
def deterministicUuid (material : String) : String := uuidText (digestPrefix sha256 material)

end

/-- The text of a version 4 UUID: the digit of the version is 4, and the variant bits are `10`. -/
def IsVersionFour (text : String) : Prop := text.toList[14]? = some '4' ∧ ∃ c ∈ ['8', '9', 'a', 'b'], text.toList[19]? = some c

/-- The bits in which a version 4 UUID has its variant and its version. -/
def fixedBits : List Nat := [62, 63, 76, 77, 78, 79]

/-- The bits of the digest that are in the UUID. -/
def keptBits : List Nat := (List.range 62).filter fun i => i < 12 ∨ 15 < i

/-! ## The bits of the masks -/

/-- A mask has no bit from the 64th on. -/
theorem no_upper_bit {mask i : Nat} (hmask : mask < 2 ^ 64) (hi : 64 ≤ i) : mask.testBit i = false :=
  Nat.testBit_lt_two_pow (lt_of_lt_of_le hmask (Nat.pow_le_pow_right (by omega) hi))

theorem testBit_masked (value i : Nat) :
    (maskedValue value).testBit i = (decide (i = 14 ∨ i = 63) || (decide (i ∈ keptBits) && value.testBit i)) := by
  have hand : ∀ i < 64, (0xFFFFFFFFFFFF0FFF : Nat).testBit i = decide (i < 12 ∨ 15 < i) := by decide
  have hor : ∀ i < 64, (0x4000 : Nat).testBit i = decide (i = 14) := by decide
  have hand' : ∀ i < 64, (0x3FFFFFFFFFFFFFFF : Nat).testBit i = decide (i < 62) := by decide
  have hor' : ∀ i < 64, (0x8000000000000000 : Nat).testBit i = decide (i = 63) := by decide
  simp only [maskedValue, Nat.testBit_or, Nat.testBit_and, keptBits, List.mem_filter, List.mem_range]
  generalize value.testBit i = bit
  rw [Bool.eq_iff_iff]
  by_cases hi : i < 64
  · rw [hand i hi, hor i hi, hand' i hi, hor' i hi]
    simp only [Bool.or_eq_true, Bool.and_eq_true, decide_eq_true_eq]
    cases bit <;> simp <;> omega
  · have hi : 64 ≤ i := Nat.not_lt.1 hi
    rw [no_upper_bit (by decide) hi, no_upper_bit (by decide) hi, no_upper_bit (by decide) hi, no_upper_bit (by decide) hi]
    simp only [Bool.or_eq_true, Bool.and_eq_true, decide_eq_true_eq, Bool.false_eq_true, and_false, or_false]
    exact ⟨False.elim, fun h => by omega⟩

/-- Nothing is left of the upper half. -/
theorem masked_lt (value : Nat) : maskedValue value < 2 ^ 64 := by
  refine Nat.lt_pow_two_of_testBit _ fun i hi => ?_
  have hkept : i ∉ keptBits := by
    simp only [keptBits, List.mem_filter, List.mem_range]
    omega
  rw [testBit_masked, decide_eq_false hkept, decide_eq_false (by omega)]
  rfl

/-- Two values are masked alike if and only if they agree on the 58 bits that are kept. -/
theorem masked_eq_iff {value value' : Nat} :
    maskedValue value = maskedValue value' ↔ ∀ i ∈ keptBits, value.testBit i = value'.testBit i := by
  constructor
  · intro h i hi
    have hbit := congrArg (fun n => n.testBit i) h
    have hnot : ¬ (i = 14 ∨ i = 63) := by
      simp only [keptBits, List.mem_filter, List.mem_range, decide_eq_true_eq] at hi
      omega
    simpa [testBit_masked, hi, hnot] using hbit
  · intro h
    refine Nat.eq_of_testBit_eq fun i => ?_
    rw [testBit_masked, testBit_masked]
    by_cases hi : i ∈ keptBits
    · rw [h i hi]
    · rw [decide_eq_false hi]
      rfl

/-! ## The text -/

theorem dashed_toList (u : UuidValue) : u.dashed.toList = u.chars.take 8 ++ '-' :: (u.chars.drop 8).take 4 ++
    '-' :: (u.chars.drop 12).take 4 ++ '-' :: (u.chars.drop 16).take 4 ++ '-' :: u.chars.drop 20 :=
  String.toList_ofList

theorem uuidOfInt_chars (n : Nat) {i : Nat} (hi : i < 32) :
    (uuidOfInt n).chars[i]? = some (digitChar (Fin.ofNat 16 (n / 16 ^ (31 - i)))) := by
  simp only [UuidValue.chars, uuidOfInt, List.map_map, List.getElem?_map, List.getElem?_range hi, Option.map_some,
    Function.comp_apply]

theorem length_chars (u : UuidValue) : u.chars.length = 32 := by simp [UuidValue.chars, UuidValue.length_digits]

/-- The digit of the version is in the half that the masks clear. -/
theorem version_digit (value : Nat) : (uuidText value).toList[14]? = some '0' := by
  have hzero : maskedValue value / 16 ^ 19 = 0 := Nat.div_eq_of_lt (lt_of_lt_of_le (masked_lt value) (by decide))
  rw [uuidText, dashed_toList]
  have hdigit : (uuidOfInt (maskedValue value)).chars[12]? = some '0' := by
    rw [uuidOfInt_chars (maskedValue value) (by decide), show 31 - 12 = 19 from rfl, hzero]
    rfl
  obtain ⟨h12, hdigit⟩ := List.getElem?_eq_some_iff.1 hdigit
  rw [List.append_assoc, List.append_assoc, List.append_assoc]
  simpa [length_chars] using hdigit

/-- The digit of the variant is in the other half. -/
theorem variant_digit (value : Nat) : ∃ c ∈ ['8', '9', 'a', 'b'], (uuidText value).toList[19]? = some c := by
  have hbits : ∀ n < 16, n.testBit 3 = true → n.testBit 2 = false → digitChar (Fin.ofNat 16 n) ∈ ['8', '9', 'a', 'b'] := by decide
  have hlt : maskedValue value / 16 ^ 15 < 16 := Nat.div_lt_of_lt_mul (lt_of_lt_of_le (masked_lt value) (by decide))
  have hbit : ∀ i, (maskedValue value / 16 ^ 15).testBit i = (maskedValue value).testBit (60 + i) := by
    intro i
    rw [show 16 ^ 15 = 2 ^ 60 from rfl, Nat.testBit_div_two_pow, Nat.add_comm]
  refine ⟨_, hbits _ hlt ?_ ?_, ?_⟩
  · rw [hbit, testBit_masked]
    rfl
  · rw [hbit, testBit_masked, decide_eq_false (by decide : 60 + 2 ∉ keptBits)]
    rfl
  · obtain ⟨h16, hdigit⟩ := List.getElem?_eq_some_iff.1 (uuidOfInt_chars (maskedValue value) (show 16 < 32 by decide))
    rw [uuidText, dashed_toList, List.append_assoc, List.append_assoc, List.append_assoc]
    simpa [length_chars] using hdigit

/-- **No text it makes is of version 4, and another digest, of other bits outside the version and the variant, has the same.** -/
theorem never_version_four (sha256 : String → BitVec 256) (material : String) :
    ¬ IsVersionFour (deterministicUuid sha256 material) ∧
      ∃ value < 2 ^ 128, (∃ i < 128, i ∉ fixedBits ∧ value.testBit i ≠ (digestPrefix sha256 material).testBit i) ∧
        uuidText value = deterministicUuid sha256 material := by
  constructor
  · rintro ⟨hversion, -⟩
    rw [deterministicUuid, version_digit] at hversion
    cases hversion
  · have hlt : digestPrefix sha256 material < 2 ^ 128 := BitVec.isLt _
    refine ⟨digestPrefix sha256 material ^^^ 2 ^ 127, Nat.xor_lt_two_pow hlt (by decide), ⟨127, by decide, by decide, ?_⟩, ?_⟩
    · rw [Nat.testBit_xor, Nat.testBit_two_pow_self]
      simp
    · rw [uuidText, deterministicUuid, uuidText, masked_eq_iff.2 fun i hi => ?_]
      have hne : 127 ≠ i := by
        simp only [keptBits, List.mem_filter, List.mem_range] at hi
        omega
      rw [Nat.testBit_xor, Nat.testBit_two_pow_of_ne hne, Bool.xor_false]

/-- The SHA-256 digest of the empty text. -/
def emptyDigest : BitVec 256 := 0xe3b0c44298fc1c149afbf4c8996fb92427ae41e4649b934ca495991b7852b855

/-- The UUID of the empty text, and that of a digest of another first bit. -/
theorem empty_not_version_four : ¬ (IsVersionFour (deterministicUuid (fun _ => emptyDigest) "") ∧
    ∀ value < 2 ^ 128, (∃ i < 128, i ∉ fixedBits ∧ value.testBit i ≠ (digestPrefix (fun _ => emptyDigest) "").testBit i) →
      uuidText value ≠ deterministicUuid (fun _ => emptyDigest) "") := by
  have htext : deterministicUuid (fun _ => emptyDigest) "" = "00000000-0000-0000-9afb-f4c8996f4924" := by decide +kernel
  rintro ⟨⟨hversion, -⟩, -⟩
  rw [htext] at hversion
  revert hversion
  decide +kernel

end Umd.Jobs.Masked
