import Mathlib.Tactic

/-! The intervals of the register file that a translation accesses, taken from a set of its bytes. -/
namespace Gensim.Translate

/-- A `wutils::vbitset`, with a size of 32 bits. -/
structure VBitset where
  bits : List Bool
  size_lt : bits.length < 2 ^ 32

namespace RegisterIntervals

/-- An `unsigned int` as an `int`. -/
def toInt (index : Nat) : Int := (BitVec.ofNat 32 index).toInt

/-- The variables of the loop. -/
structure Scan where
  intervals : Finset (Int × Int)
  intervalStart : Int
  inInterval : Bool

def Scan.next (scan : Scan) (index : Nat) (bit : Bool) : Scan :=
  if scan.inInterval then
    if bit then scan
    else { scan with intervals := insert (scan.intervalStart, toInt index) scan.intervals, inInterval := false }
  else if bit then { scan with intervalStart := toInt index, inInterval := true }
  else scan

def scanned (bits : List Bool) : Scan :=
  bits.zipIdx.foldl (fun scan (bit, index) => scan.next index bit) ⟨∅, 0, false⟩

def convertToIntervals (bits : VBitset) : Finset (Int × Int) := (scanned bits.bits).intervals

/-- Bits that are all set, behind one that is not. -/
structure Run (bits : List Bool) (first last : Nat) : Prop where
  lt : first < last
  set : ∀ i, first ≤ i → i < last → bits[i]? = some true
  left : first = 0 ∨ bits[first - 1]? = some false

/-- A run that cannot be made longer. -/
structure MaximalRun (bits : List Bool) (first last : Nat) : Prop extends Run bits first last where
  right : bits[last]? ≠ some true

/-- The intervals are half-open maximal runs without common bits, and have all the bits that are set. -/
structure Exact (bits : List Bool) (intervals : Finset (Int × Int)) : Prop where
  runs : ∀ interval ∈ intervals, ∃ first last : Nat, MaximalRun bits first last ∧ interval = (↑first, ↑last)
  disjoint : ∀ interval ∈ intervals, ∀ other ∈ intervals, interval ≠ other →
    ∀ i, interval.1 ≤ i → i < interval.2 → ¬ (other.1 ≤ i ∧ i < other.2)
  covers : ∀ i, (∃ interval ∈ intervals, interval.1 ≤ i ∧ i < interval.2) ↔ ∃ n : Nat, i = n ∧ bits[n]? = some true

section Runs

variable {bits : List Bool} {first last first' last' : Nat}

theorem Run.last_le (hRun : Run bits first last) : last ≤ bits.length := by
  have hSet := hRun.set (last - 1) (Nat.le_sub_one_of_lt hRun.lt) (Nat.sub_one_lt_of_lt hRun.lt)
  have hLt := (List.getElem?_eq_some_iff.mp hSet).1
  omega

variable {i : Nat}

/-- A run does not start inside another. -/
theorem Run.first_le (hRun : Run bits first last) (hOther : Run bits first' last') (hIn : i < last)
    (hOtherIn : first' ≤ i) : first' ≤ first := by
  by_contra hLt
  rcases hOther.left with hZero | hClear
  · omega
  · have hSet := hRun.set (first' - 1) (by omega) (by omega)
    rw [hSet] at hClear
    cases hClear

theorem MaximalRun.last_le (hRun : MaximalRun bits first last) (hOther : Run bits first' last') (hIn : i < last)
    (hOtherIn : first' ≤ i) : last' ≤ last := by
  by_contra hLt
  exact hRun.right (hOther.set last (by omega) (by omega))

theorem MaximalRun.unique (hRun : MaximalRun bits first last) (hOther : MaximalRun bits first' last')
    (hIn : first ≤ i ∧ i < last) (hOtherIn : first' ≤ i ∧ i < last') : first = first' ∧ last = last' :=
  ⟨le_antisymm (hOther.toRun.first_le hRun.toRun hOtherIn.2 hIn.1) (hRun.toRun.first_le hOther.toRun hIn.2 hOtherIn.1),
    le_antisymm (hOther.last_le hRun.toRun hOtherIn.2 hIn.1) (hRun.last_le hOther.toRun hIn.2 hOtherIn.1)⟩

theorem Run.extend (hRun : Run bits first last) (hNext : bits[last]? = some true) : Run bits first (last + 1) := by
  refine ⟨hRun.lt.trans (Nat.lt_succ_self last), fun i hLow hHigh => ?_, hRun.left⟩
  rcases Nat.lt_or_eq_of_le (Nat.lt_succ_iff.mp hHigh) with hIn | rfl
  · exact hRun.set i hLow hIn
  · exact hNext

theorem Run.single (hSet : bits[i]? = some true) (hLeft : i = 0 ∨ bits[i - 1]? = some false) : Run bits i (i + 1) := by
  refine ⟨Nat.lt_succ_self i, fun k hLow hHigh => ?_, hLeft⟩
  obtain rfl : k = i := by omega
  exact hSet

theorem exists_run (hSet : bits[i]? = some true) : ∃ first, first ≤ i ∧ Run bits first (i + 1) := by
  induction i with
  | zero => exact ⟨0, le_rfl, .single hSet (.inl rfl)⟩
  | succ i ih =>
    have hLt := (List.getElem?_eq_some_iff.mp hSet).1
    have hBefore : bits[i]? = some bits[i] := List.getElem?_eq_getElem (by omega)
    cases hBit : bits[i] with
    | true =>
      obtain ⟨first, hLe, hRun⟩ := ih (hBefore.trans (congrArg some hBit))
      exact ⟨first, by omega, hRun.extend hSet⟩
    | false => exact ⟨i + 1, le_rfl, .single hSet (.inr (hBefore.trans (congrArg some hBit)))⟩

/-- A run goes on to where a bit is not set. -/
theorem Run.exists_maximal (hRun : Run bits first last) : ∃ stop, last ≤ stop ∧ MaximalRun bits first stop := by
  induction hLeft : bits.length - last generalizing last with
  | zero =>
    refine ⟨last, le_rfl, hRun, fun hSet => ?_⟩
    have hLt := (List.getElem?_eq_some_iff.mp hSet).1
    omega
  | succ left ih =>
    by_cases hRight : bits[last]? = some true
    · obtain ⟨stop, hLe, hMaximal⟩ := ih (hRun.extend hRight) (by omega)
      exact ⟨stop, by omega, hMaximal⟩
    · exact ⟨last, le_rfl, hRun, hRight⟩

theorem Run.congr {other : List Bool} (hRun : Run bits first last) (hSame : ∀ i < last, other[i]? = bits[i]?) :
    Run other first last := by
  have hLt := hRun.lt
  refine ⟨hLt, fun i hLow hHigh => ?_, hRun.left.imp_right fun hClear => ?_⟩
  · rw [hSame i hHigh, hRun.set i hLow hHigh]
  · rw [hSame _ (by omega), hClear]

theorem run_concat {bit : Bool} (hLe : last ≤ bits.length) : Run (bits ++ [bit]) first last ↔ Run bits first last := by
  have hSame (i : Nat) (hLt : i < last) : (bits ++ [bit])[i]? = bits[i]? := List.getElem?_append_left (hLt.trans_le hLe)
  exact ⟨fun hRun => hRun.congr fun i hLt => (hSame i hLt).symm, fun hRun => hRun.congr hSame⟩

/-- With another bit, the runs that ended still do, and a clear bit ends the run at the end. -/
theorem closed_concat {bit : Bool} : Run (bits ++ [bit]) first last ∧ (bits ++ [bit])[last]? = some false ↔
      (Run bits first last ∧ bits[last]? = some false) ∨ bit = false ∧ last = bits.length ∧ Run bits first last := by
  rcases Nat.lt_trichotomy last bits.length with hLt | hSame | hGt
  · rw [run_concat hLt.le, List.getElem?_append_left hLt]
    simp [hLt.ne]
  · subst hSame
    rw [run_concat le_rfl]
    simp [and_comm]
  · have hNone : (bits ++ [bit])[last]? = none := by simp; omega
    have hShort : bits[last]? = none := by simp; omega
    simp [hNone, hShort, hGt.ne']

/-- A set bit makes the run at the end longer, or starts one. -/
theorem run_concat_end {bit : Bool} : Run (bits ++ [bit]) first (bits.length + 1) ↔
    bit = true ∧ (Run bits first bits.length ∨ first = bits.length ∧ ∀ other, ¬ Run bits other bits.length) := by
  have hBit : (bits ++ [bit])[bits.length]? = some bit := by simp
  constructor
  · intro hRun
    have hSet := hRun.set bits.length (Nat.le_of_lt_succ hRun.lt) (Nat.lt_succ_self _)
    refine ⟨Option.some.inj (hBit.symm.trans hSet), ?_⟩
    rcases Nat.lt_or_eq_of_le (Nat.le_of_lt_succ hRun.lt) with hLt | rfl
    · exact .inl ((run_concat le_rfl).mp ⟨hLt, fun i hLow hHigh => hRun.set i hLow (by omega), hRun.left⟩)
    · refine .inr ⟨rfl, fun other hOther => ?_⟩
      have hLt := hOther.lt
      rcases hRun.left with hZero | hClear
      · omega
      · rw [((run_concat le_rfl).mpr hOther).set _ (by omega) (by omega)] at hClear
        cases hClear
  · rintro ⟨rfl, hRun | ⟨rfl, hNone⟩⟩
    · exact ((run_concat le_rfl).mpr hRun).extend hBit
    · refine .single hBit ?_
      rcases Nat.eq_zero_or_pos bits.length with hZero | hPos
      · exact .inl hZero
      · right
        rw [List.getElem?_append_left (by omega), List.getElem?_eq_getElem (by omega)]
        cases hLast : bits[bits.length - 1] with
        | false => rfl
        | true =>
          obtain ⟨first, -, hRun⟩ := exists_run ((List.getElem?_eq_getElem (by omega)).trans (congrArg some hLast))
          rw [Nat.sub_add_cancel hPos] at hRun
          exact absurd hRun (hNone first)

end Runs

/-! ### The loop -/

/-- What the loop knows of the bits it has seen. -/
structure Scans (bits : List Bool) (scan : Scan) : Prop where
  intervals : ∀ interval, interval ∈ scan.intervals ↔ ∃ first last, (Run bits first last ∧ bits[last]? = some false) ∧
    interval = (toInt first, toInt last)
  start : ∀ first, Run bits first bits.length → scan.inInterval = true ∧ scan.intervalStart = toInt first
  inside : scan.inInterval = true → ∃ first, Run bits first bits.length

section Next

variable {bits : List Bool} {scan : Scan} (hScans : Scans bits scan)
include hScans

theorem Scans.not_run (hOut : ¬ scan.inInterval = true) (first : Nat) : ¬ Run bits first bits.length := fun hRun =>
  hOut (hScans.start first hRun).1

/-- A clear bit ends the interval that is open. -/
theorem Scans.mem_next_iff (bit : Bool) (interval : Int × Int) :
    interval ∈ (scan.next bits.length bit).intervals ↔ interval ∈ scan.intervals ∨
      ∃ first last, (bit = false ∧ last = bits.length ∧ Run bits first last) ∧ interval = (toInt first, toInt last) := by
  cases bit with
  | true => simp [Scan.next, apply_ite Scan.intervals]
  | false =>
    by_cases hInside : scan.inInterval = true
    · obtain ⟨first, hRun⟩ := hScans.inside hInside
      rw [Scan.next, if_pos hInside, if_neg (by decide), Finset.mem_insert, or_comm]
      refine or_congr_right ⟨fun hSame => ⟨first, _, ⟨rfl, rfl, hRun⟩, ?_⟩, ?_⟩
      · rw [hSame, (hScans.start first hRun).2]
      · rintro ⟨other, _, ⟨-, rfl, hOther⟩, hSame⟩
        rw [hSame, (hScans.start other hOther).2]
    · rw [Scan.next, if_neg hInside, if_neg (by decide), or_iff_left]
      rintro ⟨other, _, ⟨-, rfl, hOther⟩, -⟩
      exact hScans.not_run hInside other hOther

theorem scans_next (bit : Bool) : Scans (bits ++ [bit]) (scan.next bits.length bit) := by
  have hLength : (bits ++ [bit]).length = bits.length + 1 := by simp
  refine ⟨fun interval => ?_, fun first hRun => ?_, fun hIn => ?_⟩
  · simp only [closed_concat, or_and_right, exists_or, ← hScans.intervals, hScans.mem_next_iff]
  · rw [hLength, run_concat_end] at hRun
    obtain ⟨rfl, hRun | ⟨rfl, hNew⟩⟩ := hRun
    · obtain ⟨hInside, hStart⟩ := hScans.start first hRun
      simp [Scan.next, hInside, hStart]
    · have hOut : ¬ scan.inInterval = true := fun hInside => (hScans.inside hInside).elim hNew
      simp [Scan.next, hOut]
  · simp only [hLength, run_concat_end]
    cases bit with
    | true =>
      by_cases hInside : scan.inInterval = true
      · exact (hScans.inside hInside).imp fun first hRun => ⟨rfl, .inl hRun⟩
      · exact ⟨bits.length, rfl, .inr ⟨rfl, hScans.not_run hInside⟩⟩
    | false => simp [Scan.next, apply_ite Scan.inInterval] at hIn

end Next

theorem scans_scanned (bits : List Bool) : Scans bits (scanned bits) := by
  induction bits using List.reverseRecOn with
  | nil => exact ⟨by simp [scanned], fun first hRun => absurd hRun.lt (by simp), by simp [scanned]⟩
  | append_singleton bits bit ih =>
    have hNext : scanned (bits ++ [bit]) = (scanned bits).next bits.length bit := by
      simp [scanned, List.zipIdx_append]
    rw [hNext]
    exact scans_next ih bit

/-! ### Exactness -/

theorem toInt_le (index : Nat) : toInt index ≤ index ∧ toInt index < 2 ^ 31 := by
  rw [toInt, BitVec.toInt_eq_toNat_cond, BitVec.toNat_ofNat]
  split <;> omega

theorem toInt_of_lt {index : Nat} (hLt : index < 2 ^ 31) : toInt index = index := by
  rw [toInt, BitVec.toInt_eq_toNat_cond, BitVec.toNat_ofNat]
  split <;> omega

/-- The last bit is not set, and the intervals fit an `int`. -/
structure Extractable (bits : List Bool) : Prop where
  last : bits.getLast? ≠ some true
  fits : ∀ i : Nat, bits[i]? = some true → i + 1 < 2 ^ 31

variable {bits : List Bool}

theorem extractable_of_exact (hExact : Exact bits (scanned bits).intervals) : Extractable bits := by
  have hIntervals := (scans_scanned bits).intervals
  constructor
  · intro hLast
    obtain ⟨before, rfl⟩ := List.getLast?_eq_some_iff.mp hLast
    obtain ⟨interval, hMem, hLow, hHigh⟩ := (hExact.covers before.length).mpr ⟨_, rfl, by simp⟩
    obtain ⟨first, last, ⟨-, hClear⟩, hFound⟩ := (hIntervals interval).mp hMem
    have hLt := (List.getElem?_eq_some_iff.mp hClear).1
    have hLe := (toInt_le last).1
    rw [hFound] at hHigh
    simp only [List.length_append, List.length_singleton] at hLt
    omega
  · intro i hSet
    obtain ⟨interval, hMem, -, hHigh⟩ := (hExact.covers i).mpr ⟨i, rfl, hSet⟩
    obtain ⟨first, last, -, rfl⟩ := (hIntervals interval).mp hMem
    have hLt := (toInt_le last).2
    dsimp only at hHigh
    omega

/-- The maximal runs are those that the loop has ended. -/
theorem mem_intervals_iff (hGood : Extractable bits) (interval : Int × Int) :
    interval ∈ (scanned bits).intervals ↔
      ∃ first last : Nat, MaximalRun bits first last ∧ interval = (↑first, ↑last) := by
  rw [(scans_scanned bits).intervals]
  refine exists_congr fun first => exists_congr fun last => ?_
  have hFits (hRun : Run bits first last) : toInt first = first ∧ toInt last = last := by
    have hLt := hRun.lt
    have hLast := hGood.fits (last - 1) (hRun.set _ (by omega) (by omega))
    exact ⟨toInt_of_lt (by omega), toInt_of_lt (by omega)⟩
  constructor
  · rintro ⟨⟨hRun, hClear⟩, hSame⟩
    rw [(hFits hRun).1, (hFits hRun).2] at hSame
    exact ⟨⟨hRun, by simp [hClear]⟩, hSame⟩
  · rintro ⟨hRun, hSame⟩
    rw [(hFits hRun.toRun).1, (hFits hRun.toRun).2]
    refine ⟨⟨hRun.toRun, ?_⟩, hSame⟩
    have hLt : last < bits.length := by
      refine lt_of_le_of_ne hRun.toRun.last_le fun hEnd => hGood.last ?_
      have hFirst := hRun.lt
      rw [List.getLast?_eq_getElem?, ← hEnd]
      exact hRun.set _ (by omega) (by omega)
    have hRight := hRun.right
    rw [List.getElem?_eq_getElem hLt] at hRight ⊢
    simpa using hRight

theorem exact_of_extractable (hGood : Extractable bits) : Exact bits (scanned bits).intervals := by
  constructor
  · exact fun interval hMem => (mem_intervals_iff hGood interval).mp hMem
  · intro interval hMem other hOther hNe i hLow hHigh hIn
    obtain ⟨first, last, hRun, rfl⟩ := (mem_intervals_iff hGood interval).mp hMem
    obtain ⟨first', last', hRun', rfl⟩ := (mem_intervals_iff hGood other).mp hOther
    dsimp only at hLow hHigh hIn
    obtain ⟨rfl, rfl⟩ := hRun.unique hRun' (i := i.toNat) (by omega) (by omega)
    exact hNe rfl
  · intro i
    constructor
    · rintro ⟨interval, hMem, hLow, hHigh⟩
      obtain ⟨first, last, hRun, rfl⟩ := (mem_intervals_iff hGood interval).mp hMem
      dsimp only at hLow hHigh
      exact ⟨i.toNat, by omega, hRun.set _ (by omega) (by omega)⟩
    · rintro ⟨n, rfl, hSet⟩
      obtain ⟨first, hLe, hRun⟩ := exists_run hSet
      obtain ⟨last, hLast, hMaximal⟩ := hRun.exists_maximal
      exact ⟨_, (mem_intervals_iff hGood _).mpr ⟨first, last, hMaximal, rfl⟩, by dsimp only; omega, by dsimp only; omega⟩

/-- The intervals are exact if and only if the last bit is not set, and all bits are below `INT_MAX`. -/
theorem exact_iff (bits : VBitset) : Exact bits.bits (convertToIntervals bits) ↔ Extractable bits.bits :=
  ⟨extractable_of_exact, exact_of_extractable⟩

/-- A run that reaches the last bit is left out. -/
theorem last_run_lost : ¬ Exact [false, true] (convertToIntervals ⟨[false, true], by decide⟩) := by
  intro hExact
  obtain ⟨interval, hMem, -⟩ := (hExact.covers 1).mpr ⟨1, rfl, rfl⟩
  exact absurd hMem (by simp [convertToIntervals, scanned, Scan.next])

end RegisterIntervals
end Gensim.Translate
