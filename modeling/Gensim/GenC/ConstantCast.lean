import Gensim.GenC.IRConstant

/-! Casts between the integer types, as `IRType::Cast` computes them on constants and as the language
defines them. -/
namespace Gensim.GenC.IRType

/-- The number that a constant of the type stands for. -/
def number (type : IRType) (value : BitVec 64) : Int :=
  if type.signed then (value.setWidth type.width).toInt else (value.setWidth type.width).toNat

/-- A cast between signed types extends the sign of the source, any other one fills with zeros. -/
def converted (value : BitVec 64) (source target : IRType) : BitVec 64 :=
  let low := value.setWidth source.width
  if source.signed && target.signed then (low.signExtend target.width).setWidth 64
  else (low.setWidth target.width).setWidth 64

/-- The cast follows the rules of the language, and what they promise holds. -/
structure FollowsRules (value : BitVec 64) (source target : IRType) : Prop where
  converts : cast value source target = converted value source target
  keepsNumber : source.width < target.width → (source.signed = true → target.signed = true) →
    target.number (cast value source target) = source.number value
  returns : source.width < target.width → cast (cast value source target) target source = value
  same : cast value source source = value

section Cast

variable {value : BitVec 64} {source target : IRType}

theorem width_cases (type : IRType) : type.width = 8 ∨ type.width = 16 ∨ type.width = 32 ∨ type.width = 64 := by
  unfold width sizeInBytes PlainOldDataType.elementSize
  cases type.base <;> simp

theorem base_eq_int64_iff (type : IRType) : type.base = .int64 ↔ type.width = 64 := by
  unfold width sizeInBytes PlainOldDataType.elementSize
  cases type.base <;> simp

/-- A number of the source's width with the bits above it filled by its sign. -/
def signExtended (width v : Nat) : Nat := if 2 ^ (width - 1) ≤ v then v + (2 ^ 64 - 2 ^ width) else v

section

variable (hMasked : value.toNat < 2 ^ source.width)
include hMasked

theorem msb_setWidth : (value.setWidth source.width).msb = decide (2 ^ (source.width - 1) ≤ value.toNat) := by
  rw [BitVec.msb_eq_decide, BitVec.toNat_setWidth, Nat.mod_eq_of_lt hMasked]

theorem toNat_converted : (converted value source target).toNat =
      (if source.signed && target.signed then signExtended source.width value.toNat
        else value.toNat) % 2 ^ target.width := by
  unfold converted signExtended
  dsimp only
  split
  · rw [BitVec.toNat_setWidth, BitVec.toNat_signExtend, msb_setWidth hMasked, BitVec.toNat_setWidth,
      BitVec.toNat_setWidth, Nat.mod_eq_of_lt hMasked]
    simp only [decide_eq_true_eq]
    rcases source.width_cases with hSource | hSource | hSource | hSource <;>
      rcases target.width_cases with hTarget | hTarget | hTarget | hTarget <;>
      rw [hSource] at hMasked ⊢ <;> rw [hTarget] <;> split <;> omega
  · have hLe := Nat.pow_le_pow_right (Nat.two_pos) target.width_le
    have hLt : value.toNat % 2 ^ target.width < 2 ^ target.width := Nat.mod_lt _ (Nat.two_pow_pos _)
    rw [BitVec.toNat_setWidth, BitVec.toNat_setWidth, BitVec.toNat_setWidth, Nat.mod_eq_of_lt hMasked,
      Nat.mod_eq_of_lt (lt_of_lt_of_le hLt hLe)]

theorem toNat_cast :
    (cast value source target).toNat = if target.width = 64 then value.toNat
      else (if source.signed && target.signed then signExtended source.width value.toNat
        else value.toNat) % 2 ^ target.width := by
  unfold cast signExtended
  by_cases hWide : target.width = 64
  · rw [if_pos ((base_eq_int64_iff target).mpr hWide), if_pos hWide]
  · have hWidth : target.width < 64 := lt_of_le_of_ne target.width_le hWide
    rw [if_neg (mt (base_eq_int64_iff target).mp hWide), if_neg hWide, BitVec.toNat_and, toNat_mask hWidth,
      Nat.and_two_pow_sub_one_eq_mod]
    split
    · rw [BitVec.toNat_signExtend, msb_setWidth hMasked, BitVec.toNat_setWidth, BitVec.toNat_setWidth,
        Nat.mod_eq_of_lt hMasked, Nat.mod_eq_of_lt value.isLt]
      simp only [decide_eq_true_eq]
      split <;> rfl
    · rfl

theorem cast_masked : (cast value source target).toNat < 2 ^ target.width := by
  rw [toNat_cast hMasked]
  split
  · rename_i hWide
    rw [hWide]
    exact value.isLt
  · exact Nat.mod_lt _ (Nat.two_pow_pos _)

end

theorem signExtended_mod {n width : Nat} (hn : n ≤ width) (hWidth : width ≤ 64) (v : Nat) :
    signExtended width v % 2 ^ n = v % 2 ^ n := by
  unfold signExtended
  split
  · obtain ⟨k, hk⟩ : 2 ^ n ∣ 2 ^ 64 - 2 ^ width :=
      Nat.dvd_sub (Nat.pow_dvd_pow 2 (hn.trans hWidth)) (Nat.pow_dvd_pow 2 hn)
    rw [hk, Nat.add_mul_mod_self_left]
  · rfl

section

variable (hMasked : value.toNat < 2 ^ source.width)
include hMasked

/-- The bits that both types have are kept. -/
theorem toNat_cast_mod {n : Nat} (hSource : n ≤ source.width) (hTarget : n ≤ target.width) :
    (cast value source target).toNat % 2 ^ n = value.toNat % 2 ^ n := by
  rw [toNat_cast hMasked]
  split
  · rfl
  · rw [Nat.mod_mod_of_dvd _ (Nat.pow_dvd_pow 2 hTarget)]
    split
    · exact signExtended_mod hSource source.width_le _
    · rfl

theorem cast_back (hWider : source.width ≤ target.width) : cast (cast value source target) target source = value := by
  have hThere : (cast value source target).toNat < 2 ^ target.width := cast_masked hMasked
  have hBack : (cast (cast value source target) target source).toNat < 2 ^ source.width := cast_masked hThere
  apply BitVec.eq_of_toNat_eq
  rw [← Nat.mod_eq_of_lt hBack, toNat_cast_mod hThere hWider le_rfl, toNat_cast_mod hMasked le_rfl hWider,
    Nat.mod_eq_of_lt hMasked]

theorem eq_signExtended_iff :
    value.toNat = signExtended source.width value.toNat % 2 ^ 64 ↔
      source.width = 64 ∨ value.toNat < 2 ^ (source.width - 1) := by
  unfold signExtended
  rcases source.width_cases with hSource | hSource | hSource | hSource <;>
    rw [hSource] at hMasked ⊢ <;> split <;> omega

theorem cast_eq_converted_iff :
    cast value source target = converted value source target ↔
      (source.signed = true → target.signed = true → target.base = .int64 →
        source.base = .int64 ∨ value.toNat < 2 ^ (source.width - 1)) := by
  rw [← BitVec.toNat_inj, toNat_cast hMasked, toNat_converted hMasked, base_eq_int64_iff, base_eq_int64_iff]
  by_cases hTarget : target.width = 64
  · rw [if_pos hTarget, hTarget]
    by_cases hSigned : source.signed = true ∧ target.signed = true
    · rw [hSigned.1, hSigned.2, Bool.and_true, if_pos rfl, eq_signExtended_iff hMasked]
      simp
    · have hPlain : (source.signed && target.signed) ≠ true := by simpa using hSigned
      rw [if_neg hPlain, Nat.mod_eq_of_lt value.isLt]
      exact iff_of_true rfl fun hLeft hRight => absurd ⟨hLeft, hRight⟩ hSigned
  · simp [hTarget]

end

theorem number_converted (hWider : source.width < target.width)
    (hSigned : source.signed = true → target.signed = true) :
    target.number (converted value source target) = source.number value := by
  have hAgain (x : BitVec target.width) : (x.setWidth 64).setWidth target.width = x := by
    rw [BitVec.setWidth_setWidth_of_le _ target.width_le, BitVec.setWidth_eq]
  unfold number converted
  dsimp only
  by_cases hSource : source.signed = true
  · rw [hSource, hSigned hSource, Bool.and_true, if_pos rfl, if_pos rfl, if_pos rfl, hAgain,
      BitVec.toInt_signExtend_of_le hWider.le]
  · have hPlain : (source.signed && target.signed) ≠ true := by simp [hSource]
    have hLow : 2 * (value.setWidth source.width).toNat < 2 ^ target.width := by
      have hLt := (value.setWidth source.width).isLt
      have hPow := Nat.pow_le_pow_right Nat.two_pos hWider
      omega
    have hSame := BitVec.toNat_setWidth_of_le (b := value.setWidth source.width) hWider.le
    rw [if_neg hPlain, if_neg hSource, hAgain, BitVec.toInt_eq_toNat_of_lt (by rwa [hSame]), hSame]
    exact ite_self _

/-- The sign is lost in a cast of a negative number to a signed type of 64 bits, and nowhere else. -/
theorem followsRules_iff (hMasked : value.toNat < 2 ^ source.width) :
    FollowsRules value source target ↔
      (source.signed = true → target.signed = true → target.base = .int64 →
        source.base = .int64 ∨ value.toNat < 2 ^ (source.width - 1)) := by
  rw [← cast_eq_converted_iff hMasked]
  constructor
  · exact FollowsRules.converts
  · intro hConverts
    refine ⟨hConverts, ?_, fun hWider => cast_back hMasked hWider.le, ?_⟩
    · intro hWider hSigned
      rw [hConverts]
      exact number_converted hWider hSigned
    · have hSame : cast (cast value source source) source source = value := cast_back hMasked le_rfl
      rwa [cast_cast] at hSame

theorem followsRules_iff_widened :
    (0x80#64).toNat < 2 ^ width ⟨.int8, true⟩ ∧ FollowsRules 0x80#64 ⟨.int8, true⟩ ⟨.int32, true⟩ :=
  ⟨by decide, (followsRules_iff (by decide)).mpr (by decide)⟩

/-- The byte for -1 becomes 255. -/
theorem negative_byte_cast_to_255 :
    cast 0xff#64 ⟨.int8, true⟩ ⟨.int64, true⟩ = 255 ∧ ¬ FollowsRules 0xff#64 ⟨.int8, true⟩ ⟨.int64, true⟩ :=
  ⟨by decide, fun h => absurd h.converts (by decide)⟩

end Cast

end Gensim.GenC.IRType
