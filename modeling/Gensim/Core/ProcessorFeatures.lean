import Mathlib.Tactic

/-! The features a processor has and the ones a translation was made for, each with its level. -/
namespace Gensim.Core

/-- The `std::map` of a feature set: every feature stands in it once. -/
structure ProcessorFeatureSet where
  levels : List (BitVec 32 × BitVec 32)
  nodup : (levels.map Prod.fst).Nodup
  deriving DecidableEq

namespace ProcessorFeatureSet

variable (features : ProcessorFeatureSet) {id other level : BitVec 32}

def empty : ProcessorFeatureSet := ⟨[], List.nodup_nil⟩

/-- `none` where `std::map::at` throws. -/
def getFeatureLevel (id : BitVec 32) : Option (BitVec 32) := features.levels.lookup id

def setFeatureLevel (id newLevel : BitVec 32) : ProcessorFeatureSet where
  levels := (id, newLevel) :: features.levels.filter (·.1 != id)
  nodup := by
    refine List.nodup_cons.mpr ⟨?_, (features.nodup).sublist (List.filter_sublist.map _)⟩
    simp

/-- `int << int` and `uint32_t << uint32_t`. A shift by 32 or more is undefined in C++; the model has
the processor's instruction, which takes the amount modulo 32. -/
def shiftLeft32 (x amount : BitVec 32) : BitVec 32 := x <<< (amount.toNat % 32)

/-- A level, shifted as a `uint32_t` to the byte of its feature. -/
def levelField (feature : BitVec 32 × BitVec 32) : BitVec 64 :=
  (shiftLeft32 feature.2 (feature.1 * 8)).setWidth 64

/-- All ones in the byte of a feature. The shifted constant is an `int`, so the byte of the fourth
feature is sign extended. -/
def requiredField (feature : BitVec 32 × BitVec 32) : BitVec 64 :=
  (shiftLeft32 0xff (feature.1 * 8)).signExtend 64

def getAvailableMask : BitVec 64 :=
  features.levels.foldl (fun mask feature =>
    if 7 ≤ feature.1 then mask else mask ||| levelField feature) 0

def getRequiredMask : BitVec 64 :=
  features.levels.foldl (fun mask feature =>
    (if 7 ≤ feature.1 then mask ||| 0xf000000000000000 else mask) ||| requiredField feature) 0

def getLevelMask : BitVec 64 :=
  features.levels.foldl (fun mask feature =>
    (if 7 ≤ feature.1 then mask ||| 0xf000000000000000 else mask) ||| levelField feature) 0

/-- Every required feature is there at the level required. -/
def Offers (available required : ProcessorFeatureSet) : Prop :=
  ∀ feature ∈ required.levels, available.getFeatureLevel feature.1 = some feature.2

instance (available required : ProcessorFeatureSet) : Decidable (available.Offers required) :=
  List.decidableBAll (fun feature : BitVec 32 × BitVec 32 => available.getFeatureLevel feature.1 = some feature.2) _

/-- The loop of `FeaturesValid`, with no result where a level is asked for that is not there. -/
def levelsValid : List (BitVec 32 × BitVec 32) → Option Bool
  | [] => some true
  | (id, level) :: rest => do
      if (← features.getFeatureLevel id) ≠ level then return false
      levelsValid rest

/-- `BlockTranslation::FeaturesValid`, which asks nothing where no features were noted. -/
def featuresValid (featuresRequired : Option ProcessorFeatureSet) : Option Bool :=
  match featuresRequired with
  | none => some true
  | some required => features.levelsValid required.levels

/-- The set requires the feature, at whatever level. -/
def Mentions (id : BitVec 32) : Prop := id ∈ features.levels.map Prod.fst

instance : Decidable (features.Mentions id) := inferInstanceAs (Decidable (id ∈ _))

variable {list : List (BitVec 32 × BitVec 32)}

theorem lookup_filter (hOther : other ≠ id) : (list.filter (·.1 != id)).lookup other = list.lookup other := by
  induction list with
  | nil => rfl
  | cons feature rest ih =>
    obtain ⟨key, value⟩ := feature
    rw [List.lookup_cons]
    by_cases hKey : key = id
    · have hMiss : (other == key) = false := beq_eq_false_iff_ne.mpr (hKey ▸ hOther)
      rw [List.filter_cons_of_neg (by simp [hKey]), ih, hMiss]
    · rw [List.filter_cons_of_pos (by simp [hKey]), List.lookup_cons, ih]

theorem getFeatureLevel_setFeatureLevel : (features.setFeatureLevel id level).getFeatureLevel other =
      if other = id then some level else features.getFeatureLevel other := by
  unfold getFeatureLevel setFeatureLevel
  rw [List.lookup_cons]
  by_cases hSame : other = id
  · rw [if_pos hSame, beq_iff_eq.mpr hSame]
  · rw [if_neg hSame, beq_eq_false_iff_ne.mpr hSame, lookup_filter hSame]

variable {required : ProcessorFeatureSet}

/-- Of the sets on offer before, those that name the changed feature are the ones on offer no more. -/
theorem offers_setFeatureLevel (hOffers : features.Offers required)
    (hChange : features.getFeatureLevel id ≠ some level) :
    (features.setFeatureLevel id level).Offers required ↔ ¬ required.Mentions id := by
  constructor
  · intro hAfter hMentions
    obtain ⟨feature, hMem, rfl⟩ := List.mem_map.mp hMentions
    have hNew := hAfter feature hMem
    rw [getFeatureLevel_setFeatureLevel, if_pos rfl] at hNew
    exact hChange ((hOffers feature hMem).trans hNew.symm)
  · intro hNot feature hMem
    have hOther : feature.1 ≠ id := fun h => hNot (h ▸ List.mem_map_of_mem hMem)
    rw [getFeatureLevel_setFeatureLevel, if_neg hOther]
    exact hOffers feature hMem

@[simp] theorem offers_empty : features.Offers empty := fun _ hMem => absurd hMem List.not_mem_nil

/-! The masks say of features of eight bits what the sets say, where no two of the features share a byte. -/

/-- The features whose bytes the 32-bit shifts of the masks can reach, at levels of one byte. -/
def Fits : Prop := ∀ feature ∈ features.levels, feature.1 < 4 ∧ feature.2 < 256

instance : Decidable features.Fits :=
  List.decidableBAll (fun feature : BitVec 32 × BitVec 32 => feature.1 < 4 ∧ feature.2 < 256) _

/-- The features are among some of the first seven, at levels of one byte. -/
def Over (ids : Set (Fin 7)) : Prop :=
  ∀ feature ∈ features.levels, (∃ i ∈ ids, feature.1.toNat = i.val) ∧ feature.2 < 256

/-- The masks compare equal. -/
def MaskTest (available required : ProcessorFeatureSet) : Prop :=
  available.getAvailableMask &&& required.getRequiredMask = required.getLevelMask

instance (available required : ProcessorFeatureSet) : Decidable (available.MaskTest required) :=
  inferInstanceAs (Decidable (_ = _))

/-- Among sets over some of the first seven features, the masks say whether the features of a translation are
valid, and a set with a further feature never passes. -/
def MasksDecide (ids : Set (Fin 7)) : Prop :=
  (∀ available required : ProcessorFeatureSet, available.Over ids → required.Over ids →
    (∀ feature ∈ required.levels, available.Mentions feature.1) →
    (available.MaskTest required ↔ available.featuresValid (some required) = some true)) ∧
  ∀ available required : ProcessorFeatureSet, (∃ feature ∈ required.levels, 7 ≤ feature.1) →
    ¬ available.MaskTest required

variable {features}

theorem getLsbD_foldl_or {α : Type*} (field : α → BitVec 64) (list : List α) (mask : BitVec 64) (bit : Nat) :
    (list.foldl (fun mask x => mask ||| field x) mask).getLsbD bit =
      (mask.getLsbD bit || list.any fun x => (field x).getLsbD bit) := by
  induction list generalizing mask with
  | nil => simp
  | cons x list ih => rw [List.foldl_cons, ih, BitVec.getLsbD_or, List.any_cons, Bool.or_assoc]

/-- The features are among the first seven, at levels of one byte. -/
def InBytes (features : ProcessorFeatureSet) : Prop :=
  ∀ feature ∈ features.levels, feature.1.toNat < 7 ∧ feature.2 < 256

theorem Over.inBytes {ids : Set (Fin 7)} (hOver : features.Over ids) : features.InBytes := by
  intro feature hMem
  obtain ⟨⟨i, -, hId⟩, hLevel⟩ := hOver feature hMem
  exact ⟨by omega, hLevel⟩

theorem over_empty (ids : Set (Fin 7)) : empty.Over ids := fun _ hMem => absurd hMem List.not_mem_nil

theorem Over.setFeatureLevel {ids : Set (Fin 7)} (hOver : features.Over ids) {i : Fin 7} (hi : i ∈ ids)
    (hLevel : level < 256) : (features.setFeatureLevel (BitVec.ofNat 32 i) level).Over ids := by
  intro feature hMem
  obtain rfl | hRest := List.mem_cons.mp hMem
  · exact ⟨⟨i, hi, Nat.mod_eq_of_lt (by omega)⟩, hLevel⟩
  · exact hOver feature (List.mem_of_mem_filter hRest)

/-- A mask is the union of the fields of its features. -/
theorem getLsbD_mask (hBytes : features.InBytes) {update : BitVec 64 → BitVec 32 × BitVec 32 → BitVec 64}
    (field : BitVec 32 × BitVec 32 → BitVec 64)
    (hUpdate : ∀ mask feature, ¬ 7 ≤ feature.1 → update mask feature = mask ||| field feature)
    (bit : Nat) : (features.levels.foldl update 0).getLsbD bit = true ↔
      ∃ feature ∈ features.levels, (field feature).getLsbD bit = true := by
  have hCongr : features.levels.foldl update 0 = features.levels.foldl (fun mask feature => mask ||| field feature) 0 :=
    List.foldl_ext _ _ _ fun mask feature hMem =>
      hUpdate mask feature (by have := (hBytes feature hMem).1; bv_omega)
  rw [hCongr, getLsbD_foldl_or]
  simp

theorem shiftLeft32_byte (id x : BitVec 32) : shiftLeft32 x (id * 8) = x <<< (8 * (id.toNat % 4)) := by
  have hAmount : (id * 8).toNat % 32 = 8 * (id.toNat % 4) := by
    rw [BitVec.toNat_mul]
    change id.toNat * 8 % 2 ^ 32 % 32 = 8 * (id.toNat % 4)
    omega
  rw [shiftLeft32, hAmount]

variable {bit : Nat}

theorem getLsbD_eq_false_of_lt {x : BitVec 32} (hLevel : x < 256) (hBit : 8 ≤ bit) : x.getLsbD bit = false := by
  have hSmall : x.toNat < 2 ^ 8 := hLevel
  exact Nat.testBit_lt_two_pow (hSmall.trans_le (Nat.pow_le_pow_right (by decide) hBit))

/-- The byte of a feature holds its level and nothing else. -/
theorem getLsbD_levelField {feature : BitVec 32 × BitVec 32} (hLevel : feature.2 < 256) (bit : Nat) :
    (levelField feature).getLsbD bit = (decide (bit / 8 = feature.1.toNat % 4) && feature.2.getLsbD (bit % 8)) := by
  rw [levelField, shiftLeft32_byte, BitVec.getLsbD_setWidth, BitVec.getLsbD_shiftLeft]
  by_cases hByte : bit / 8 = feature.1.toNat % 4
  · have hIndex : bit - 8 * (feature.1.toNat % 4) = bit % 8 := by omega
    have hIn : bit < 64 ∧ bit < 32 ∧ ¬ bit < 8 * (feature.1.toNat % 4) := by omega
    simp [hByte, hIndex, hIn]
  · by_cases hBelow : bit < 8 * (feature.1.toNat % 4)
    · simp [hByte, hBelow]
    · simp [hByte, getLsbD_eq_false_of_lt hLevel (show 8 ≤ bit - 8 * (feature.1.toNat % 4) by omega)]

/-- The byte of a feature is all ones in a required mask, below the sign extension. -/
theorem getLsbD_requiredField (feature : BitVec 32 × BitVec 32) (hBit : bit < 32) :
    (requiredField feature).getLsbD bit = decide (bit / 8 = feature.1.toNat % 4) := by
  have hOnes : ∀ index, (0xff : BitVec 32).getLsbD index = decide (index < 8) :=
    fun index => Nat.testBit_two_pow_sub_one 8 index
  rw [requiredField, shiftLeft32_byte, BitVec.getLsbD_signExtend, BitVec.getLsbD_shiftLeft, hOnes]
  by_cases hByte : bit / 8 = feature.1.toNat % 4
  · have hIn : bit < 64 ∧ ¬ bit < 8 * (feature.1.toNat % 4) ∧ bit - 8 * (feature.1.toNat % 4) < 8 := by omega
    simp [hByte, hIn, hBit]
  · have hOut : bit < 8 * (feature.1.toNat % 4) ∨ ¬ bit - 8 * (feature.1.toNat % 4) < 8 := by omega
    rcases hOut with hBelow | hAbove
    · simp [hByte, hBit, hBelow]
    · simp [hByte, hBit, hAbove]

/-- A bit of some level, in the byte that its feature has. -/
def BitSet (features : ProcessorFeatureSet) (bit : Nat) : Prop :=
  ∃ feature ∈ features.levels, bit / 8 = feature.1.toNat % 4 ∧ feature.2.getLsbD (bit % 8) = true

section

variable (hBytes : features.InBytes)
include hBytes

theorem getLsbD_getAvailableMask (bit : Nat) : features.getAvailableMask.getLsbD bit = true ↔ features.BitSet bit := by
  rw [getAvailableMask, getLsbD_mask hBytes levelField fun mask feature h => if_neg h]
  refine exists_congr fun feature => and_congr_right fun hMem => ?_
  rw [getLsbD_levelField (hBytes feature hMem).2, Bool.and_eq_true, decide_eq_true_eq]

theorem getLsbD_getLevelMask (bit : Nat) : features.getLevelMask.getLsbD bit = true ↔ features.BitSet bit := by
  rw [getLevelMask, getLsbD_mask hBytes levelField fun mask feature h => by rw [if_neg h]]
  refine exists_congr fun feature => and_congr_right fun hMem => ?_
  rw [getLsbD_levelField (hBytes feature hMem).2, Bool.and_eq_true, decide_eq_true_eq]

theorem getLsbD_getRequiredMask (hBit : bit < 32) :
    features.getRequiredMask.getLsbD bit = true ↔ ∃ feature ∈ features.levels, bit / 8 = feature.1.toNat % 4 := by
  rw [getRequiredMask, getLsbD_mask hBytes requiredField fun mask feature h => by rw [if_neg h]]
  refine exists_congr fun feature => and_congr_right fun hMem => ?_
  rw [getLsbD_requiredField feature hBit, decide_eq_true_eq]

/-- The masks compare equal where the levels agree in every byte that the required set has. -/
theorem maskTest_iff (hRequired : required.InBytes) :
    features.MaskTest required ↔ ∀ bit < 32, (∃ feature ∈ required.levels, bit / 8 = feature.1.toNat % 4) →
        (features.BitSet bit ↔ required.BitSet bit) := by
  have hInside : ∀ {set : ProcessorFeatureSet} {bit : Nat}, set.BitSet bit →
      bit < 32 ∧ ∃ feature ∈ set.levels, bit / 8 = feature.1.toNat % 4 := by
    rintro set bit ⟨feature, hMem, hByte, -⟩
    exact ⟨by omega, feature, hMem, hByte⟩
  have hBits : features.MaskTest required ↔ ∀ bit < 64,
      (features.BitSet bit ∧ required.getRequiredMask.getLsbD bit = true ↔ required.BitSet bit) := by
    have hAt (bit : Nat) : (features.getAvailableMask &&& required.getRequiredMask).getLsbD bit =
        required.getLevelMask.getLsbD bit ↔
        (features.BitSet bit ∧ required.getRequiredMask.getLsbD bit = true ↔ required.BitSet bit) := by
      rw [BitVec.getLsbD_and, Bool.eq_iff_iff, Bool.and_eq_true, getLsbD_getAvailableMask hBytes,
        getLsbD_getLevelMask hRequired]
    constructor
    · intro hTest bit _
      exact (hAt bit).mp (congrArg (·.getLsbD bit) hTest)
    · intro hAll
      exact BitVec.eq_of_getLsbD_eq fun bit hBit => (hAt bit).mpr (hAll bit hBit)
  rw [hBits]
  constructor
  · intro hAll bit hBit hByte
    rw [← hAll bit (by omega), getLsbD_getRequiredMask hRequired hBit, and_iff_left hByte]
  · intro hAll bit _
    constructor
    · rintro ⟨hSet, hMask⟩
      have hBit := (hInside hSet).1
      exact (hAll bit hBit ((getLsbD_getRequiredMask hRequired hBit).mp hMask)).mp hSet
    · intro hSet
      obtain ⟨hBit, hByte⟩ := hInside hSet
      exact ⟨(hAll bit hBit hByte).mpr hSet, (getLsbD_getRequiredMask hRequired hBit).mpr hByte⟩

end

theorem mem_of_lookup (hLevel : list.lookup id = some level) : (id, level) ∈ list := by
  induction list with
  | nil => exact absurd hLevel (by simp)
  | cons feature rest ih =>
    rw [List.lookup_cons] at hLevel
    cases hHead : id == feature.1 with
    | true =>
      rw [hHead] at hLevel
      rw [beq_iff_eq.mp hHead, ← Option.some.inj hLevel]
      exact List.mem_cons_self
    | false =>
      rw [hHead] at hLevel
      exact List.mem_cons_of_mem feature (ih hLevel)

theorem exists_getFeatureLevel (hMentions : features.Mentions id) :
    ∃ level, features.getFeatureLevel id = some level := by
  cases hLevel : features.getFeatureLevel id with
  | some level => exact ⟨level, rfl⟩
  | none =>
    obtain ⟨feature, hMem, rfl⟩ := List.mem_map.mp hMentions
    simpa using List.lookup_eq_none_iff.mp hLevel feature hMem

/-- No two of the features share a byte. -/
def Apart (features : ProcessorFeatureSet) : Prop :=
  ∀ one ∈ features.levels, ∀ two ∈ features.levels, one.1.toNat % 4 = two.1.toNat % 4 → one = two

/-- With a byte to each feature, the bits of the byte are those of the level. -/
theorem bitSet_iff (hApart : features.Apart) {feature : BitVec 32 × BitVec 32} (hMem : feature ∈ features.levels)
    (hByte : bit / 8 = feature.1.toNat % 4) : features.BitSet bit ↔ feature.2.getLsbD (bit % 8) = true := by
  constructor
  · rintro ⟨other, hOther, hSame, hSet⟩
    rwa [hApart feature hMem other hOther (hByte.symm.trans hSame)]
  · intro hSet
    exact ⟨feature, hMem, hByte, hSet⟩

/-- With a byte to each feature, the masks compare equal exactly if every level is the required one. -/
theorem maskTest_iff_offers (hBytes : features.InBytes) (hRequired : required.InBytes) (hApart : features.Apart)
    (hContains : ∀ feature ∈ required.levels, features.Mentions feature.1) :
    features.MaskTest required ↔ features.Offers required := by
  have hRequiredApart : required.Apart := by
    intro one hOne two hTwo hSame
    obtain ⟨available, hAvailable, hEqOne⟩ := List.mem_map.mp (hContains one hOne)
    obtain ⟨other, hOther, hEqTwo⟩ := List.mem_map.mp (hContains two hTwo)
    have hEq := hApart available hAvailable other hOther (by rw [hEqOne, hEqTwo, hSame])
    exact List.inj_on_of_nodup_map required.nodup hOne hTwo (by rw [← hEqOne, ← hEqTwo, hEq])
  rw [maskTest_iff hBytes hRequired]
  constructor
  · intro hAll feature hMem
    obtain ⟨level, hLevel⟩ := exists_getFeatureLevel (hContains feature hMem)
    have hIn : (feature.1, level) ∈ features.levels := mem_of_lookup hLevel
    have hSame : ∀ index < 8, level.getLsbD index = feature.2.getLsbD index := by
      intro index hIndex
      -- the bit of the mask at which the level has this one
      have hByte : (8 * (feature.1.toNat % 4) + index) / 8 = feature.1.toNat % 4 := by omega
      have hBit := hAll (8 * (feature.1.toNat % 4) + index) (by omega) ⟨feature, hMem, hByte⟩
      rw [bitSet_iff hApart hIn hByte, bitSet_iff hRequiredApart hMem hByte, ← Bool.eq_iff_iff] at hBit
      rwa [show (8 * (feature.1.toNat % 4) + index) % 8 = index by omega] at hBit
    rw [hLevel, Option.some.injEq]
    apply BitVec.eq_of_getLsbD_eq
    intro index _
    by_cases hIndex : index < 8
    · exact hSame index hIndex
    · rw [getLsbD_eq_false_of_lt (hBytes _ hIn).2 (by omega), getLsbD_eq_false_of_lt (hRequired _ hMem).2 (by omega)]
  · rintro hOffers bit - ⟨feature, hMem, hByte⟩
    rw [bitSet_iff hApart (mem_of_lookup (hOffers feature hMem)) hByte, bitSet_iff hRequiredApart hMem hByte]

/-- A set on offer passes the comparison of the masks. -/
theorem masks_agree (hFits : features.Fits) (hRequired : required.Fits) (hOffers : features.Offers required) :
    features.getAvailableMask &&& required.getRequiredMask = required.getLevelMask := by
  have hInBytes : ∀ {set : ProcessorFeatureSet}, set.Fits → set.InBytes := by
    intro set hSet feature hMem
    have hId : feature.1.toNat < 4 := (hSet feature hMem).1
    exact ⟨by omega, (hSet feature hMem).2⟩
  have hApart : features.Apart := by
    intro one hOne two hTwo hSame
    have hIdOne : one.1.toNat < 4 := (hFits one hOne).1
    have hIdTwo : two.1.toNat < 4 := (hFits two hTwo).1
    rw [Nat.mod_eq_of_lt hIdOne, Nat.mod_eq_of_lt hIdTwo] at hSame
    exact List.inj_on_of_nodup_map features.nodup hOne hTwo (BitVec.eq_of_toNat_eq hSame)
  refine (maskTest_iff_offers (hInBytes hFits) (hInBytes hRequired) hApart fun feature hMem => ?_).mpr hOffers
  exact List.mem_map_of_mem (mem_of_lookup (hOffers feature hMem))

theorem levelsValid_iff (hContains : ∀ feature ∈ list, features.Mentions feature.1) :
    features.levelsValid list = some true ↔ ∀ feature ∈ list, features.getFeatureLevel feature.1 = some feature.2 := by
  induction list with
  | nil => simp [levelsValid]
  | cons feature rest ih =>
    obtain ⟨id, level⟩ := feature
    rw [List.forall_mem_cons] at hContains
    obtain ⟨current, hCurrent⟩ := exists_getFeatureLevel hContains.1
    by_cases hSame : current = level
    · simp [levelsValid, hCurrent, hSame, ih hContains.2]
    · simp [levelsValid, hCurrent, hSame]

/-- The upper bits that a further feature sets are clear in an available mask. -/
theorem not_maskTest_of_seven_le (hSeven : ∃ feature ∈ required.levels, 7 ≤ feature.1) :
    ¬ features.MaskTest required := by
  have hAvailable : features.getAvailableMask.getLsbD 63 = false := by
    have hUnion : features.getAvailableMask =
        features.levels.foldl (fun mask feature => mask ||| if 7 ≤ feature.1 then 0 else levelField feature) 0 :=
      List.foldl_ext _ _ _ fun mask feature _ => by split <;> simp
    rw [hUnion, getLsbD_foldl_or, show BitVec.getLsbD 0 63 = false from rfl, Bool.false_or, List.any_eq_false]
    intro feature _
    split
    · simp
    · simp [levelField]
  have hLevel : required.getLevelMask.getLsbD 63 = true := by
    have hUnion : required.getLevelMask = required.levels.foldl (fun mask feature =>
        mask ||| ((if 7 ≤ feature.1 then 0xf000000000000000 else 0) ||| levelField feature)) 0 :=
      List.foldl_ext _ _ _ fun mask feature _ => by split <;> simp [BitVec.or_assoc]
    obtain ⟨feature, hMem, hId⟩ := hSeven
    rw [hUnion, getLsbD_foldl_or, show BitVec.getLsbD 0 63 = false from rfl, Bool.false_or, List.any_eq_true]
    refine ⟨feature, hMem, ?_⟩
    rw [if_pos hId, BitVec.getLsbD_or]
    rfl
  intro hTest
  have hBit : (features.getAvailableMask &&& required.getRequiredMask).getLsbD 63 = required.getLevelMask.getLsbD 63 :=
    congrArg (·.getLsbD 63) hTest
  rw [BitVec.getLsbD_and, hAvailable, hLevel] at hBit
  exact absurd hBit (by simp)

/-- Two features in one byte: the mask of a required level 0 sees the bit of the other level. -/
theorem not_maskTest_of_clash {one two : Fin 7} (hNe : one ≠ two) (hClash : one.val % 4 = two.val % 4) :
    let available := (empty.setFeatureLevel (BitVec.ofNat 32 two) 1).setFeatureLevel (BitVec.ofNat 32 one) 0
    let required := empty.setFeatureLevel (BitVec.ofNat 32 one) 0
    available.Offers required ∧ ¬ available.MaskTest required := by
  revert one two
  decide

/-- The masks decide among sets over some features exactly if no two of the features share a byte, as the first
three do with the last three. -/
theorem masksDecide_iff (ids : Set (Fin 7)) :
    MasksDecide ids ↔ ∀ one ∈ ids, ∀ two ∈ ids, one.val % 4 = two.val % 4 → one = two := by
  have hValid : ∀ {available required : ProcessorFeatureSet},
      (∀ feature ∈ required.levels, available.Mentions feature.1) →
      (available.featuresValid (some required) = some true ↔ available.Offers required) := by
    intro available required hContains
    rw [featuresValid, levelsValid_iff hContains, Offers]
  constructor
  · rintro ⟨hDecides, -⟩ one hOne two hTwo hClash
    by_contra hNe
    obtain ⟨hOffers, hNot⟩ := not_maskTest_of_clash hNe hClash
    have hContains : ∀ feature ∈ (empty.setFeatureLevel (BitVec.ofNat 32 one) 0).levels,
        ((empty.setFeatureLevel (BitVec.ofNat 32 two) 1).setFeatureLevel (BitVec.ofNat 32 one) 0).Mentions feature.1 :=
      fun feature hMem => List.mem_map_of_mem (mem_of_lookup (hOffers feature hMem))
    refine hNot ((hDecides _ _ ?_ ?_ hContains).mpr ((hValid hContains).mpr hOffers))
    · exact ((over_empty ids).setFeatureLevel hTwo (by decide)).setFeatureLevel hOne (by decide)
    · exact (over_empty ids).setFeatureLevel hOne (by decide)
  · intro hApart
    refine ⟨fun available required hAvailable hRequired hContains => ?_, fun _ _ => not_maskTest_of_seven_le⟩
    rw [hValid hContains]
    refine maskTest_iff_offers hAvailable.inBytes hRequired.inBytes ?_ hContains
    intro one hOne two hTwo hSame
    obtain ⟨⟨i, hi, hIdOne⟩, -⟩ := hAvailable one hOne
    obtain ⟨⟨j, hj, hIdTwo⟩, -⟩ := hAvailable two hTwo
    have hEq : i = j := hApart i hi j hj (by rw [← hIdOne, ← hIdTwo, hSame])
    exact List.inj_on_of_nodup_map available.nodup hOne hTwo (BitVec.eq_of_toNat_eq (by rw [hIdOne, hIdTwo, hEq]))

/-- Feature 0 is there at the level required, and feature 4 at another level. -/
theorem valid_set_fails_masks :
    let available := (empty.setFeatureLevel 4 1).setFeatureLevel 0 0
    let required := empty.setFeatureLevel 0 0
    available.featuresValid (some required) = some true ∧ ¬ available.MaskTest required := by
  decide

end ProcessorFeatureSet

end Gensim.Core
