import Gensim.BlockJIT.IR
import Gensim.Lib.StableSort
import Mathlib.Data.List.GetD
import Mathlib.Data.List.Induction
import Mathlib.Data.List.TakeWhile

/-! `IRSorter`: the buffer is sorted through an array of instruction indices.
`MergeSort` merges in place by rotations, below 200 entries it inserts;
`NopFilter` only moves deleted instructions to the end. Positions are into the
index array, keys are the blocks of the instructions the entries name. -/
namespace Gensim.BlockJIT.IRSorter

open StableSort

/-! ### Index arrays -/

def exchange (idxs : List Nat) (a b : Nat) : List Nat :=
  (idxs.set a (idxs.getD b 0)).set b (idxs.getD a 0)

section Keys
variable (key : Nat → Nat) (idxs : List Nat)

def keyAt (position : Nat) : Nat := key (idxs.getD position 0)

/-- The difference of two unsigned 32-bit keys, read as a signed one. -/
def compare (a b : Nat) : Int :=
  (BitVec.ofNat 32 (keyAt key idxs a) - BitVec.ofNat 32 (keyAt key idxs b)).toInt

/-! ### The merge sort -/

/-- First position of the `len` ones from `start` whose key is above that of
position `val`. -/
def upper (start len val : Nat) : Nat :=
  if h : 0 < len then
    let half := len / 2
    if compare key idxs val (start + half) < 0 then upper start half val
    else upper (start + half + 1) (len - half - 1) val
  else start
termination_by len

/-- First position of the `len` ones from `start` whose key is not below that of
position `val`. -/
def lower (start len val : Nat) : Nat :=
  if h : 0 < len then
    let half := len / 2
    if compare key idxs (start + half) val < 0 then lower (start + half + 1) (len - half - 1) val
    else lower start half val
  else start
termination_by len

end Keys

/-- The indices from `first` to `last`, both included, in reverse order. -/
def reverse (idxs : List Nat) (first last : Nat) : List Nat :=
  if first < last then reverse (exchange idxs first last) (first + 1) (last - 1) else idxs
termination_by last - first

/-- What stands from `mid` on comes first, by three reversals. -/
def rotate (idxs : List Nat) (first mid last : Nat) : List Nat :=
  reverse (reverse (reverse idxs first (mid - 1)) mid (last - 1)) first (last - 1)

/-- Each call is on fewer entries than the last, so `len1 + len2` calls deep is
deep enough. -/
def merge (key : Nat → Nat) : Nat → List Nat → (first pivot last len1 len2 : Nat) → List Nat
  | 0, idxs, _, _, _, _, _ => idxs
  | fuel + 1, idxs, first, pivot, last, len1, len2 =>
      if len1 = 0 ∨ len2 = 0 then idxs
      else if len1 + len2 = 2 then
        if compare key idxs pivot first < 0 then exchange idxs pivot first else idxs
      else
        let cut :=
          if len2 < len1 then
            let len11 := len1 / 2
            let secondCut := lower key idxs pivot (last - pivot) (first + len11)
            (len11, secondCut - pivot)
          else
            let len22 := len2 / 2
            let firstCut := upper key idxs first (pivot - first) (pivot + len22)
            (firstCut - first, len22)
        let firstCut := first + cut.1
        let secondCut := pivot + cut.2
        let newMid := firstCut + cut.2
        let idxs := rotate idxs firstCut pivot secondCut
        let idxs := merge key fuel idxs first firstCut newMid cut.1 cut.2
        merge key fuel idxs newMid secondCut last (len1 - cut.1) (len2 - cut.2)

/-- The inner loop of `insert_sort`: move an entry down to its place. -/
def sift (key : Nat → Nat) (first : Nat) : List Nat → Nat → List Nat
  | idxs, 0 => idxs
  | idxs, j + 1 =>
      if first < j + 1 then
        if compare key idxs (j + 1) j < 0 then sift key first (exchange idxs (j + 1) j) j else idxs
      else idxs

/-- The sort of short pieces: each index goes down to its place. -/
def insertSort (key : Nat → Nat) (idxs : List Nat) (first last : Nat) : List Nat :=
  if first + 1 < last then
    (List.range' (first + 1) (last - (first + 1))).foldl (sift key first) idxs
  else idxs

/-- The halves of a piece of 200 and more are sorted and merged in place. -/
def sort (key : Nat → Nat) (idxs : List Nat) (first last : Nat) : List Nat :=
  if last - first < 200 then insertSort key idxs first last
  else
    let middle := (first + last) / 2
    let idxs := sort key idxs first middle
    let idxs := sort key idxs middle last
    merge key (last - first) idxs first middle last (middle - first) (last - middle)
termination_by last - first

/-! ### The filter for deleted instructions -/

/-- Where the search for the next instruction that is not deleted stops. -/
def findReal (key : Nat → Nat) (idxs : List Nat) (fast : Nat) : Nat :=
  if h : fast < idxs.length then
    if keyAt key idxs fast ≠ nopBlock then fast else findReal key idxs (fast + 1)
  else fast
termination_by idxs.length - fast

/-- The first deleted instruction at `slow` or later changes places with the
next kept one, until there is none. -/
def nopFilterLoop (key : Nat → Nat) : Nat → List Nat → (slow fast : Nat) → List Nat
  | 0, idxs, _, _ => idxs
  | remaining + 1, idxs, slow, fast =>
      if keyAt key idxs slow = nopBlock then
        let fast := findReal key idxs (if fast ≤ slow then slow + 1 else fast)
        if idxs.length ≤ fast then idxs
        else nopFilterLoop key remaining (exchange idxs slow fast) (slow + 1) fast
      else nopFilterLoop key remaining idxs (slow + 1) fast

/-! ### Copying the buffer -/

/-- Number of entries that count up by one from `first`. -/
def findRunSize (first : Nat) : List Nat → Nat
  | [] => 0
  | i :: rest => if i = first then findRunSize (first + 1) rest + 1 else 0

/-- Copy the instructions in the order of the indices, run by run. -/
def copyRuns (insns : List IRInstruction) : List Nat → List IRInstruction
  | [] => []
  | i :: rest =>
      (insns.drop i).take (findRunSize (i + 1) rest + 1) ++
        copyRuns insns (rest.drop (findRunSize (i + 1) rest))
termination_by idxs => idxs.length

def blockAt (insns : List IRInstruction) (i : Nat) : Nat := (insns[i]?.map (·.irBlock)).getD nopBlock

def mergeSort (insns : List IRInstruction) : List IRInstruction :=
  copyRuns insns (sort (blockAt insns) (List.range insns.length) 0 insns.length)

def nopFilter (insns : List IRInstruction) : List IRInstruction :=
  copyRuns insns
    (nopFilterLoop (blockAt insns) insns.length (List.range insns.length) 0 1)

/-! ### Moving entries -/

theorem exchange_apart {pre mid post : List Nat} {x y a b : Nat} (ha : a = pre.length)
    (hb : b = pre.length + mid.length + 1) :
    exchange (pre ++ x :: (mid ++ y :: post)) a b = pre ++ y :: (mid ++ x :: post) := by
  subst ha hb
  have hFirst : (pre ++ x :: (mid ++ y :: post)).getD pre.length 0 = x := by simp [List.getD]
  have hSecond : (pre ++ x :: (mid ++ y :: post)).getD (pre.length + mid.length + 1) 0 = y := by
    rw [List.getD_append_right _ _ _ _ (by omega)]
    have hIndex : pre.length + mid.length + 1 - pre.length = mid.length + 1 := by omega
    simp [hIndex, List.getD]
  rw [exchange, hFirst, hSecond, List.set_append_right _ _ (Nat.le_refl _), Nat.sub_self,
    List.set_cons_zero, List.set_append_right _ _ (by omega)]
  have hIndex : pre.length + mid.length + 1 - pre.length = mid.length + 1 := by omega
  rw [hIndex, List.set_cons_succ, List.set_append_right _ _ (Nat.le_refl _), Nat.sub_self, List.set_cons_zero]

theorem exchange_comm (idxs : List Nat) (a b : Nat) : exchange idxs a b = exchange idxs b a := by
  by_cases h : a = b
  · rw [h]
  · rw [exchange, exchange, List.set_comm _ _ h]

theorem exchange_adjacent {pre post : List Nat} {x y a : Nat} (ha : a = pre.length) :
    exchange (pre ++ x :: y :: post) (a + 1) a = pre ++ y :: x :: post := by
  rw [exchange_comm]
  exact @exchange_apart pre [] post x y a (a + 1) ha (by simp [ha])

@[simp] theorem exchange_length (idxs : List Nat) (a b : Nat) : (exchange idxs a b).length = idxs.length := by
  simp [exchange]

theorem reverse_segment {pre seg post : List Nat} {first last : Nat} (hFirst : first = pre.length)
    (hLast : last = pre.length + seg.length - 1) :
    reverse (pre ++ (seg ++ post)) first last = pre ++ (seg.reverse ++ post) := by
  induction seg using List.bidirectionalRec generalizing pre post first last with
  | nil =>
    rw [reverse, if_neg (by simp only [List.length_nil] at hLast; omega)]
    rfl
  | singleton x =>
    rw [reverse, if_neg (by simp only [List.length_singleton] at hLast; omega)]
    rfl
  | cons_append x mid y ih =>
    have hLength : (x :: (mid ++ [y])).length = mid.length + 2 := by simp
    rw [reverse, if_pos (by omega)]
    have hShape : pre ++ (x :: (mid ++ [y]) ++ post) = pre ++ x :: (mid ++ y :: post) := by simp
    rw [hShape, exchange_apart hFirst (by omega)]
    have hInner : pre ++ y :: (mid ++ x :: post) = (pre ++ [y]) ++ (mid ++ x :: post) := by simp
    rw [hInner, ih (by simp [hFirst]) (by simp only [List.length_append, List.length_singleton]; omega)]
    simp

theorem rotate_segment {pre a b post : List Nat} {first mid last : Nat} (hFirst : first = pre.length)
    (hMid : mid = first + a.length) (hLast : last = mid + b.length) :
    rotate (pre ++ (a ++ (b ++ post))) first mid last = pre ++ (b ++ (a ++ post)) := by
  have hSecond : pre ++ (a.reverse ++ (b ++ post)) = (pre ++ a.reverse) ++ (b ++ post) := by simp
  have hWhole : (pre ++ a.reverse) ++ (b.reverse ++ post) = pre ++ ((a.reverse ++ b.reverse) ++ post) := by simp
  rw [rotate, reverse_segment hFirst (by omega), hSecond,
    reverse_segment (by simp only [List.length_append, List.length_reverse]; omega)
      (by simp only [List.length_append, List.length_reverse]; omega), hWhole,
    reverse_segment hFirst (by simp only [List.length_append, List.length_reverse]; omega)]
  simp

/-! ### Comparing keys -/

/-- The positions below a cut are low ones, and those from it on are not. -/
structure Cuts (low : Nat → Prop) (start stop cut : Nat) : Prop where
  start_le : start ≤ cut
  le_stop : cut ≤ stop
  below : ∀ p, start ≤ p → p < cut → low p
  above : ∀ p, cut ≤ p → p < stop → ¬ low p

namespace Cuts

variable {low : Nat → Prop} {start mid stop cut : Nat}

theorem of_right (hCuts : Cuts low (mid + 1) stop cut) (hStart : start ≤ mid)
    (hBelow : ∀ p, start ≤ p → p ≤ mid → low p) : Cuts low start stop cut where
  start_le := hStart.trans ((Nat.le_succ mid).trans hCuts.start_le)
  le_stop := hCuts.le_stop
  below := by
    intro p hp hLt
    rcases Nat.lt_or_ge mid p with hRight | hLeft
    · exact hCuts.below p hRight hLt
    · exact hBelow p hp hLeft
  above := hCuts.above

theorem of_left (hCuts : Cuts low start mid cut) (hStop : mid ≤ stop)
    (hAbove : ∀ p, mid ≤ p → p < stop → ¬ low p) : Cuts low start stop cut where
  start_le := hCuts.start_le
  le_stop := hCuts.le_stop.trans hStop
  below := hCuts.below
  above := by
    intro p hp hLt
    rcases Nat.lt_or_ge p mid with hLeft | hRight
    · exact hCuts.above p hp hLeft
    · exact hAbove p hRight hLt

end Cuts

section Search
variable {key : Nat → Nat} (hKey : ∀ i, key i < 2 ^ 31)
include hKey

/-- Keys below `2 ^ 31` are far enough from wrapping around. -/
theorem compare_neg_iff (idxs : List Nat) (a b : Nat) :
    compare key idxs a b < 0 ↔ keyAt key idxs a < keyAt key idxs b := by
  have ha : keyAt key idxs a < 2 ^ 31 := hKey _
  have hb : keyAt key idxs b < 2 ^ 31 := hKey _
  simp only [compare, BitVec.toInt_eq_toNat_cond, BitVec.toNat_sub, BitVec.toNat_ofNat]
  split <;> omega

/-- Positions whose keys do not decrease. -/
def Ascending (key : Nat → Nat) (idxs : List Nat) (start stop : Nat) : Prop :=
  ∀ p q, start ≤ p → p ≤ q → q < stop → keyAt key idxs p ≤ keyAt key idxs q

omit hKey in
theorem Ascending.mono {idxs : List Nat} {start stop first last : Nat} (hAscending : Ascending key idxs start stop)
    (hFirst : start ≤ first) (hLast : last ≤ stop) : Ascending key idxs first last :=
  fun p q hp hpq hq => hAscending p q (hFirst.trans hp) hpq (hq.trans_le hLast)

theorem lower_spec {idxs : List Nat} {start len val : Nat} (hAscending : Ascending key idxs start (start + len)) :
    Cuts (fun p => keyAt key idxs p < keyAt key idxs val) start (start + len) (lower key idxs start len val) := by
  induction len using Nat.strong_induction_on generalizing start with
  | _ len ih =>
    rw [lower]
    by_cases hLen : 0 < len
    swap
    · rw [dif_neg hLen]
      exact ⟨Nat.le_refl _, by omega, fun p _ _ => by omega, fun p _ _ => by omega⟩
    rw [dif_pos hLen]
    have hMid := compare_neg_iff hKey idxs (start + len / 2) val
    have hStop : start + len / 2 + 1 + (len - len / 2 - 1) = start + len := by omega
    dsimp only
    split
    · rename_i hNeg
      have hRest := ih _ (by omega) (hAscending.mono (by omega) hStop.le)
      rw [hStop] at hRest
      refine hRest.of_right (by omega) fun p hp hLeft => ?_
      exact lt_of_le_of_lt (hAscending p (start + len / 2) hp hLeft (by omega)) (hMid.mp hNeg)
    · rename_i hNeg
      have hGe := not_lt.mp (mt hMid.mpr hNeg)
      refine (ih _ (by omega) (hAscending.mono le_rfl (by omega))).of_left (by omega) fun p hRight hLt => ?_
      exact not_lt.mpr (hGe.trans (hAscending (start + len / 2) p (by omega) hRight hLt))

theorem upper_spec {idxs : List Nat} {start len val : Nat} (hAscending : Ascending key idxs start (start + len)) :
    Cuts (fun p => keyAt key idxs p ≤ keyAt key idxs val) start (start + len) (upper key idxs start len val) := by
  induction len using Nat.strong_induction_on generalizing start with
  | _ len ih =>
    rw [upper]
    by_cases hLen : 0 < len
    swap
    · rw [dif_neg hLen]
      exact ⟨Nat.le_refl _, by omega, fun p _ _ => by omega, fun p _ _ => by omega⟩
    rw [dif_pos hLen]
    have hMid := compare_neg_iff hKey idxs val (start + len / 2)
    have hStop : start + len / 2 + 1 + (len - len / 2 - 1) = start + len := by omega
    dsimp only
    split
    · rename_i hNeg
      refine (ih _ (by omega) (hAscending.mono le_rfl (by omega))).of_left (by omega) fun p hRight hLt => ?_
      exact not_le.mpr (lt_of_lt_of_le (hMid.mp hNeg) (hAscending (start + len / 2) p (by omega) hRight hLt))
    · rename_i hNeg
      have hLe := not_lt.mp (mt hMid.mpr hNeg)
      have hRest := ih _ (by omega) (hAscending.mono (by omega) hStop.le)
      rw [hStop] at hRest
      refine hRest.of_right (by omega) fun p hp hLeft => ?_
      exact (hAscending p (start + len / 2) hp hLeft (by omega)).trans hLe

omit hKey in
theorem keyAt_segment {pre seg post : List Nat} {p i : Nat} (hp : p = pre.length + i)
    (hi : i < seg.length) : keyAt key (pre ++ (seg ++ post)) p = key seg[i] := by
  rw [keyAt, List.getD_append_right _ _ _ _ (by omega), List.getD_append _ _ _ _ (by omega)]
  have hIndex : p - pre.length = i := by omega
  simp [hIndex, List.getD, hi]

omit hKey in
theorem ascending_of_sorted {pre seg post : List Nat} (h : Sorted key seg) :
    Ascending key (pre ++ (seg ++ post)) pre.length (pre.length + seg.length) := by
  intro p q hp hpq hq
  have hi : p - pre.length < seg.length := by omega
  have hj : q - pre.length < seg.length := by omega
  rw [keyAt_segment (by omega) hi, keyAt_segment (by omega) hj]
  rcases Nat.eq_or_lt_of_le hpq with rfl | hLt
  · exact Nat.le_refl _
  · exact List.pairwise_iff_getElem.mp h _ _ hi hj (by omega)

omit hKey in
theorem take_drop_of_cuts {pre seg post : List Nat} {low : Nat → Prop} {cut : Nat}
    (hCuts : Cuts (fun p => low (keyAt key (pre ++ (seg ++ post)) p)) pre.length (pre.length + seg.length) cut) :
    (∀ x ∈ seg.take (cut - pre.length), low (key x)) ∧ ∀ x ∈ seg.drop (cut - pre.length), ¬ low (key x) := by
  have hStart := hCuts.start_le
  constructor
  · intro x hMem
    obtain ⟨i, hi, rfl⟩ := List.mem_iff_getElem.mp hMem
    rw [List.length_take] at hi
    rw [List.getElem_take]
    have hPosition := hCuts.below (pre.length + i) (by omega) (by omega)
    rwa [keyAt_segment rfl (by omega)] at hPosition
  · intro x hMem
    obtain ⟨i, hi, rfl⟩ := List.mem_iff_getElem.mp hMem
    rw [List.length_drop] at hi
    rw [List.getElem_drop]
    have hPosition := hCuts.above (pre.length + (cut - pre.length + i)) (by omega) (by omega)
    rwa [keyAt_segment rfl (by omega)] at hPosition

theorem lower_cut {pre seg post : List Nat} {start len val : Nat} (hSorted : Sorted key seg)
    (hStart : start = pre.length) (hLen : len = seg.length) : let idxs := pre ++ (seg ++ post)
    let n := lower key idxs start len val - start
    n ≤ seg.length ∧ (∀ x ∈ seg.take n, key x < keyAt key idxs val) ∧ ∀ x ∈ seg.drop n, keyAt key idxs val ≤ key x := by
  intro idxs n
  subst hStart hLen
  have hCuts := @lower_spec key hKey idxs pre.length seg.length val (ascending_of_sorted hSorted)
  obtain ⟨hTake, hDrop⟩ := @take_drop_of_cuts key pre seg post (· < keyAt key idxs val) _ hCuts
  exact ⟨Nat.sub_le_iff_le_add'.mpr hCuts.le_stop, hTake, fun x hMem => not_lt.mp (hDrop x hMem)⟩

theorem upper_cut {pre seg post : List Nat} {start len val : Nat} (hSorted : Sorted key seg)
    (hStart : start = pre.length) (hLen : len = seg.length) : let idxs := pre ++ (seg ++ post)
    let n := upper key idxs start len val - start
    n ≤ seg.length ∧ (∀ x ∈ seg.take n, key x ≤ keyAt key idxs val) ∧ ∀ x ∈ seg.drop n, keyAt key idxs val < key x := by
  intro idxs n
  subst hStart hLen
  have hCuts := @upper_spec key hKey idxs pre.length seg.length val (ascending_of_sorted hSorted)
  obtain ⟨hTake, hDrop⟩ := @take_drop_of_cuts key pre seg post (· ≤ keyAt key idxs val) _ hCuts
  exact ⟨Nat.sub_le_iff_le_add'.mpr hCuts.le_stop, hTake, fun x hMem => not_le.mp (hDrop x hMem)⟩

/-! ### Merging -/

/-- How `merge` cuts its two runs. -/
structure Cut (key : Nat → Nat) (a b : List Nat) (n₁ n₂ : Nat) (bound : Nat) : Prop where
  left : n₁ ≤ a.length
  right : n₂ ≤ b.length
  smaller : n₁ + n₂ < a.length + b.length
  positive : 0 < n₁ + n₂
  below : ∀ x ∈ a.take n₁ ++ b.take n₂, key x ≤ bound
  above : ∀ x ∈ a.drop n₁ ++ b.drop n₂, bound ≤ key x
  apart : ∀ x ∈ b.take n₂, ∀ y ∈ a.drop n₁, key x ≠ key y

omit hKey in
/-- A sorted run is on either side of the key at any of its positions. -/
theorem sorted_around {seg : List Nat} (h : Sorted key seg) {n : Nat} (hn : n < seg.length) :
    (∀ x ∈ seg.take n, key x ≤ key seg[n]) ∧ ∀ x ∈ seg.drop n, key seg[n] ≤ key x := by
  have hSplit : seg = seg.take n ++ seg[n] :: seg.drop (n + 1) := by
    rw [← List.drop_eq_getElem_cons hn, List.take_append_drop]
  have hParts := h
  rw [hSplit, Sorted, List.pairwise_append, List.pairwise_cons] at hParts
  refine ⟨fun x hx => hParts.2.2 x hx _ List.mem_cons_self, fun x hx => ?_⟩
  rw [List.drop_eq_getElem_cons hn] at hx
  rcases List.mem_cons.mp hx with rfl | hx
  · exact Nat.le_refl _
  · exact hParts.2.1.1 x hx

/-- The cut in the middle of a longer left run. -/
theorem cut_lower {pre a b post : List Nat} {first pivot last : Nat} (ha : Sorted key a)
    (hb : Sorted key b) (hFirst : first = pre.length) (hPivot : pivot = first + a.length)
    (hLast : last = pivot + b.length) (hLong : b.length < a.length) (hRight : 0 < b.length) :
    ∃ bound, Cut key a b (a.length / 2)
      (lower key (pre ++ (a ++ (b ++ post))) pivot (last - pivot) (first + a.length / 2) - pivot) bound := by
  have hHalf : a.length / 2 < a.length := by omega
  have hShape : pre ++ (a ++ (b ++ post)) = (pre ++ a) ++ (b ++ post) := by simp
  have hSearch := @lower_cut key hKey (pre ++ a) b post pivot (last - pivot)
    (first + a.length / 2) hb (by simp [hPivot, hFirst]) (by omega)
  have hValue : keyAt key (pre ++ (a ++ (b ++ post))) (first + a.length / 2) =
      key a[a.length / 2] := keyAt_segment (by omega) hHalf
  rw [← hShape] at hSearch
  obtain ⟨hCount, hBelow, hAbove⟩ := hSearch
  obtain ⟨hLeft, hRest⟩ := sorted_around ha hHalf
  rw [hValue] at hBelow hAbove
  refine ⟨key a[a.length / 2], by omega, hCount, by omega, by omega, ?_, ?_, ?_⟩
  · intro x hx
    rcases List.mem_append.mp hx with hx | hx
    · exact hLeft x hx
    · exact (hBelow x hx).le
  · intro x hx
    rcases List.mem_append.mp hx with hx | hx
    · exact hRest x hx
    · exact hAbove x hx
  · intro x hx y hy
    exact ne_of_lt (lt_of_lt_of_le (hBelow x hx) (hRest y hy))

theorem cut_upper {pre a b post : List Nat} {first pivot : Nat} (ha : Sorted key a)
    (hb : Sorted key b) (hFirst : first = pre.length) (hPivot : pivot = first + a.length)
    (hShort : a.length ≤ b.length) (hMany : 2 < a.length + b.length) : ∃ bound, Cut key a b
      (upper key (pre ++ (a ++ (b ++ post))) first (pivot - first) (pivot + b.length / 2) - first)
      (b.length / 2) bound := by
  have hHalf : b.length / 2 < b.length := by omega
  have hShape : pre ++ (a ++ (b ++ post)) = (pre ++ a) ++ (b ++ post) := by simp
  have hSearch := @upper_cut key hKey pre a (b ++ post) first (pivot - first)
    (pivot + b.length / 2) ha hFirst (by omega)
  have hValue : keyAt key (pre ++ (a ++ (b ++ post))) (pivot + b.length / 2) = key b[b.length / 2] := by
    rw [hShape]
    exact keyAt_segment (by simp only [List.length_append]; omega) hHalf
  obtain ⟨hCount, hBelow, hAbove⟩ := hSearch
  obtain ⟨hLeft, hRest⟩ := sorted_around hb hHalf
  rw [hValue] at hBelow hAbove
  refine ⟨key b[b.length / 2], hCount, by omega, by omega, by omega, ?_, ?_, ?_⟩
  · intro x hx
    rcases List.mem_append.mp hx with hx | hx
    · exact hBelow x hx
    · exact hLeft x hx
  · intro x hx
    rcases List.mem_append.mp hx with hx | hx
    · exact (hAbove x hx).le
    · exact hRest x hx
  · intro x hx y hy
    exact ne_of_lt (lt_of_le_of_lt (hLeft x hx) (hAbove y hy))

omit hKey in
theorem sorted_take {seg : List Nat} (h : Sorted key seg) (n : Nat) : Sorted key (seg.take n) :=
  List.Pairwise.sublist (List.take_sublist n seg) h

omit hKey in
theorem sorted_drop {seg : List Nat} (h : Sorted key seg) (n : Nat) : Sorted key (seg.drop n) :=
  List.Pairwise.sublist (List.drop_sublist n seg) h

theorem merge_two {pre post : List Nat} {x y first pivot : Nat} (hFirst : first = pre.length)
    (hPivot : pivot = first + 1) : let idxs := pre ++ ([x] ++ ([y] ++ post))
    ∃ c, (if compare key idxs pivot first < 0 then exchange idxs pivot first else idxs) =
      pre ++ (c ++ post) ∧ StableSorted key c ([x] ++ [y]) := by
  intro idxs
  have hLeft : keyAt key idxs first = key x := by
    exact @keyAt_segment key pre [x] ([y] ++ post) first 0 hFirst (by simp)
  have hRight : keyAt key idxs pivot = key y := by
    have hShape : idxs = (pre ++ [x]) ++ ([y] ++ post) := by simp [idxs]
    rw [hShape]
    exact @keyAt_segment key (pre ++ [x]) [y] post pivot 0 (by simp [hPivot, hFirst]) (by simp)
  have hCompare := compare_neg_iff hKey idxs pivot first
  rw [hLeft, hRight] at hCompare
  by_cases hLess : key y < key x
  · rw [if_pos (hCompare.mpr hLess)]
    refine ⟨[y] ++ [x], ?_, ?_, ?_⟩
    · rw [hPivot]
      simpa [idxs] using @exchange_adjacent pre post x y first hFirst
    · simpa [Sorted] using hLess.le
    · apply sameClasses_swap
      intro u hu v hv
      rw [List.mem_singleton.mp hu, List.mem_singleton.mp hv]
      exact ne_of_lt hLess
  · rw [if_neg (mt hCompare.mp hLess)]
    exact ⟨[x] ++ [y], by simp [idxs], .refl (by simpa [Sorted] using hLess)⟩

theorem merge_spec {fuel : Nat} :
    ∀ {pre a b post : List Nat} {first pivot last len1 len2 : Nat}, Sorted key a → Sorted key b →
      first = pre.length → pivot = first + a.length → last = pivot + b.length →
      len1 = a.length → len2 = b.length → len1 + len2 ≤ fuel →
      ∃ c, merge key fuel (pre ++ (a ++ (b ++ post))) first pivot last len1 len2 =
        pre ++ (c ++ post) ∧ StableSorted key c (a ++ b) := by
  induction fuel with
  | zero =>
    intro pre a b post first pivot last len1 len2 ha hb hFirst hPivot hLast hLen1 hLen2 hFuel
    have hEmpty : a = [] ∧ b = [] := by constructor <;> (apply List.eq_nil_of_length_eq_zero; omega)
    rw [hEmpty.1, hEmpty.2]
    exact ⟨[], rfl, .refl List.Pairwise.nil⟩
  | succ fuel ih =>
    intro pre a b post first pivot last len1 len2 ha hb hFirst hPivot hLast hLen1 hLen2 hFuel
    rw [merge]
    by_cases hEmpty : len1 = 0 ∨ len2 = 0
    · rw [if_pos hEmpty]
      have hSorted : Sorted key (a ++ b) := by
        rcases hEmpty with hEmpty | hEmpty
        · rw [List.eq_nil_of_length_eq_zero (hLen1.symm.trans hEmpty)]
          exact hb
        · rw [List.eq_nil_of_length_eq_zero (hLen2.symm.trans hEmpty), List.append_nil]
          exact ha
      exact ⟨a ++ b, by simp, .refl hSorted⟩
    rw [if_neg hEmpty]
    by_cases hTwo : len1 + len2 = 2
    · rw [if_pos hTwo]
      obtain ⟨x, rfl⟩ := List.length_eq_one_iff.mp (by omega : a.length = 1)
      obtain ⟨y, rfl⟩ := List.length_eq_one_iff.mp (by omega : b.length = 1)
      exact merge_two hKey hFirst hPivot
    rw [if_neg hTwo]
    -- either way of cutting leaves four runs and a bound between the two halves
    have hCut : ∃ bound, Cut key a b (if len2 < len1 then
          (len1 / 2, lower key (pre ++ (a ++ (b ++ post))) pivot (last - pivot) (first + len1 / 2) - pivot)
        else (upper key (pre ++ (a ++ (b ++ post))) first (pivot - first) (pivot + len2 / 2) - first, len2 / 2)).1
        (if len2 < len1 then
          (len1 / 2, lower key (pre ++ (a ++ (b ++ post))) pivot (last - pivot) (first + len1 / 2) - pivot)
        else (upper key (pre ++ (a ++ (b ++ post))) first (pivot - first) (pivot + len2 / 2) - first,
          len2 / 2)).2 bound := by
      subst hLen1 hLen2
      split
      · exact cut_lower hKey ha hb hFirst hPivot hLast (by assumption) (by omega)
      · exact cut_upper hKey ha hb hFirst hPivot (by omega) (by omega)
    dsimp only
    generalize (if len2 < len1 then _ else _ : Nat × Nat) = cut at hCut ⊢
    obtain ⟨n₁, n₂⟩ := cut
    obtain ⟨bound, hCut⟩ := hCut
    have hLeft := hCut.left
    have hRight := hCut.right
    have hSmaller := hCut.smaller
    have hPositive := hCut.positive
    dsimp only at hLeft hRight hSmaller hPositive ⊢
    have hRuns : pre ++ (a ++ (b ++ post)) =
        (pre ++ a.take n₁) ++ (a.drop n₁ ++ (b.take n₂ ++ (b.drop n₂ ++ post))) := by
      conv_lhs => rw [← List.take_append_drop n₁ a, ← List.take_append_drop n₂ b]
      simp only [List.append_assoc]
    rw [hRuns, rotate_segment (by simp [hFirst]; omega) (by simp; omega) (by simp; omega),
      List.append_assoc]
    obtain ⟨c₁, hMerge₁, hSorted₁⟩ := @ih pre (a.take n₁) (b.take n₂)
      (a.drop n₁ ++ (b.drop n₂ ++ post)) first (first + n₁) (first + n₁ + n₂) n₁ n₂
      (sorted_take ha _) (sorted_take hb _) hFirst (by simp; omega) (by simp; omega)
      (by simp; omega) (by simp; omega) (by omega)
    have hLength := hSorted₁.classes.perm.length_eq
    rw [List.length_append, List.length_take, List.length_take] at hLength
    obtain ⟨c₂, hMerge₂, hSorted₂⟩ := @ih (pre ++ c₁) (a.drop n₁) (b.drop n₂) post
      (first + n₁ + n₂) (pivot + n₂) last (len1 - n₁) (len2 - n₂)
      (sorted_drop ha _) (sorted_drop hb _) (by simp; omega) (by simp; omega) (by simp; omega)
      (by simp; omega) (by simp; omega) (by omega)
    refine ⟨c₁ ++ c₂, ?_, ?_⟩
    · rw [hMerge₁, ← List.append_assoc pre, hMerge₂]
      simp
    · have hAll := hSorted₁.of_cuts hSorted₂ hCut.below hCut.above hCut.apart
      rwa [List.take_append_drop, List.take_append_drop] at hAll

/-! ### Inserting -/

theorem sift_spec {pre seg post : List Nat} {first j x : Nat} (h : Sorted key seg)
    (hFirst : first = pre.length) (hj : j = first + seg.length) :
    ∃ c, sift key first (pre ++ (seg ++ x :: post)) j = pre ++ (c ++ post) ∧ StableSorted key c (seg ++ [x]) := by
  induction seg using List.reverseRecOn generalizing post j with
  | nil =>
    refine ⟨[x], ?_, .refl (List.pairwise_singleton _ _)⟩
    have hHere : j = first := by simpa using hj
    cases j with
    | zero => rfl
    | succ j =>
      rw [sift, if_neg (by omega)]
      rfl
  | append_singleton init y ih =>
    rw [List.length_append, List.length_singleton] at hj
    obtain ⟨j, rfl⟩ : ∃ i, j = i + 1 := ⟨first + init.length, by omega⟩
    have hShape : pre ++ (init ++ [y] ++ x :: post) = (pre ++ init) ++ y :: x :: post := by simp
    have hLower : keyAt key (pre ++ (init ++ [y] ++ x :: post)) j = key y := by
      rw [hShape]
      exact @keyAt_segment key (pre ++ init) [y] (x :: post) j 0 (by simp; omega) (by simp)
    have hUpper : keyAt key (pre ++ (init ++ [y] ++ x :: post)) (j + 1) = key x := by
      have hLast : pre ++ (init ++ [y] ++ x :: post) = (pre ++ (init ++ [y])) ++ ([x] ++ post) := by simp
      rw [hLast]
      exact @keyAt_segment key (pre ++ (init ++ [y])) [x] post (j + 1) 0 (by simp; omega) (by simp)
    have hCompare := compare_neg_iff hKey (pre ++ (init ++ [y] ++ x :: post)) (j + 1) j
    rw [hLower, hUpper] at hCompare
    have hParts := List.pairwise_append.mp h
    rw [sift, if_pos (by omega)]
    by_cases hLess : key x < key y
    · rw [if_pos (hCompare.mpr hLess), hShape, exchange_adjacent (by simp; omega), List.append_assoc]
      obtain ⟨c, hSift, hSorted⟩ := @ih (y :: post) j hParts.1 (by omega)
      refine ⟨c ++ [y], by rw [hSift]; simp, ?_⟩
      have hJoined : StableSorted key (c ++ [y]) ((init ++ [x]) ++ [y]) := by
        refine hSorted.append (.refl (List.pairwise_singleton _ _)) ?_
        intro u hu v hv
        rw [List.mem_singleton.mp hv]
        rcases List.mem_append.mp hu with hu | hu
        · exact hParts.2.2 u hu y List.mem_cons_self
        · rw [List.mem_singleton.mp hu]
          exact hLess.le
      refine hJoined.of_sameClasses ?_
      rw [List.append_assoc, List.append_assoc]
      refine (SameClasses.refl init).append (sameClasses_swap fun u hu v hv => ?_)
      rw [List.mem_singleton.mp hu, List.mem_singleton.mp hv]
      exact ne_of_lt hLess
    · rw [if_neg (mt hCompare.mp hLess)]
      refine ⟨init ++ [y] ++ [x], by simp, .refl ?_⟩
      refine List.pairwise_append.mpr ⟨h, List.pairwise_singleton _ _, fun u hu v hv => ?_⟩
      rw [List.mem_singleton.mp hv]
      rcases List.mem_append.mp hu with hu | hu
      · exact (hParts.2.2 u hu y List.mem_cons_self).trans (by omega)
      · rw [List.mem_singleton.mp hu]
        omega

theorem foldl_sift_spec {pre done rest post : List Nat} {first start : Nat} (h : Sorted key done)
    (hFirst : first = pre.length) (hStart : start = first + done.length) :
    ∃ c, (List.range' start rest.length).foldl (sift key first) (pre ++ (done ++ (rest ++ post))) =
      pre ++ (c ++ post) ∧ StableSorted key c (done ++ rest) := by
  induction rest generalizing done start with
  | nil => exact ⟨done, rfl, by simpa using StableSorted.refl h⟩
  | cons x rest ih =>
    rw [List.length_cons, List.range'_succ, List.foldl_cons, List.cons_append]
    obtain ⟨d, hSift, hSorted⟩ := @sift_spec key hKey pre done (rest ++ post) first start x h hFirst hStart
    have hLength := hSorted.classes.perm.length_eq
    rw [List.length_append, List.length_singleton] at hLength
    rw [hSift]
    obtain ⟨c, hFold, hAll⟩ := @ih d (start + 1) hSorted.sorted (by omega)
    refine ⟨c, hFold, hAll.of_sameClasses ?_⟩
    simpa using hSorted.classes.append (SameClasses.refl rest)

theorem insertSort_spec {pre seg post : List Nat} {first last : Nat} (hFirst : first = pre.length)
    (hLast : last = first + seg.length) : ∃ c, insertSort key (pre ++ (seg ++ post)) first last = pre ++ (c ++ post) ∧
      StableSorted key c seg := by
  rw [insertSort]
  cases seg with
  | nil =>
    rw [if_neg (by simp only [List.length_nil] at hLast; omega)]
    exact ⟨[], rfl, .refl List.Pairwise.nil⟩
  | cons x rest =>
    rw [List.length_cons] at hLast
    have hFold := @foldl_sift_spec key hKey pre [x] rest post first (first + 1)
      (List.pairwise_singleton _ _) hFirst rfl
    split
    · have hCount : last - (first + 1) = rest.length := by omega
      rw [hCount]
      exact hFold
    · have hEmpty : rest = [] := List.eq_nil_of_length_eq_zero (by omega)
      subst hEmpty
      exact ⟨[x], rfl, .refl (List.pairwise_singleton _ _)⟩

theorem sort_spec {pre seg post : List Nat} {first last : Nat} (hFirst : first = pre.length)
    (hLast : last = first + seg.length) : ∃ c, sort key (pre ++ (seg ++ post)) first last = pre ++ (c ++ post) ∧
      StableSorted key c seg := by
  induction hSize : seg.length using Nat.strong_induction_on generalizing pre seg post first last with
  | _ size ih =>
    rw [sort]
    split
    · exact insertSort_spec hKey hFirst hLast
    · dsimp only
      have hMiddle : (first + last) / 2 = first + seg.length / 2 := by omega
      rw [hMiddle]
      have hHalves : seg = seg.take (seg.length / 2) ++ seg.drop (seg.length / 2) := (List.take_append_drop _ _).symm
      have hShape : pre ++ (seg ++ post) = pre ++
          (seg.take (seg.length / 2) ++ (seg.drop (seg.length / 2) ++ post)) := by
        rw [← List.append_assoc (seg.take _), List.take_append_drop]
      have hLeft : (seg.take (seg.length / 2)).length = seg.length / 2 := by
        rw [List.length_take]
        omega
      have hRight : (seg.drop (seg.length / 2)).length = seg.length - seg.length / 2 := by rw [List.length_drop]
      obtain ⟨a, hSortA, ha⟩ := @ih (seg.length / 2) (by omega) pre (seg.take (seg.length / 2))
        (seg.drop (seg.length / 2) ++ post) first (first + seg.length / 2) hFirst (by omega) hLeft
      have hLengthA := ha.classes.perm.length_eq
      rw [hShape, hSortA, ← List.append_assoc]
      obtain ⟨b, hSortB, hb⟩ := @ih (seg.length - seg.length / 2) (by omega) (pre ++ a)
        (seg.drop (seg.length / 2)) post (first + seg.length / 2) last
        (by rw [List.length_append]; omega) (by omega) hRight
      have hLengthB := hb.classes.perm.length_eq
      rw [hSortB, List.append_assoc]
      obtain ⟨c, hMerge, hc⟩ := @merge_spec key hKey (last - first) pre a b post first
        (first + seg.length / 2) last (first + seg.length / 2 - first)
        (last - (first + seg.length / 2)) ha.sorted hb.sorted hFirst (by omega) (by omega)
        (by omega) (by omega) (by omega)
      refine ⟨c, hMerge, hc.of_sameClasses ?_⟩
      conv_rhs => rw [hHalves]
      exact ha.classes.append hb.classes

end Search

/-! ### Filtering -/

section Filter
variable {key : Nat → Nat}

def isNopAt (key : Nat → Nat) (i : Nat) : Bool := key i = nopBlock

theorem findReal_eq {pre seg : List Nat} {fast : Nat} (hFast : fast = pre.length) :
    findReal key (pre ++ seg) fast = fast + (seg.takeWhile (isNopAt key)).length := by
  induction seg generalizing pre fast with
  | nil =>
    rw [findReal, dif_neg (by simp [hFast])]
    rfl
  | cons x rest ih =>
    have hHere : keyAt key (pre ++ x :: rest) fast = key x := by
      exact @keyAt_segment key pre [x] rest fast 0 hFast (by simp)
    rw [findReal, dif_pos (by simp [hFast]), hHere]
    by_cases hNop : key x = nopBlock
    · have hShape : pre ++ x :: rest = (pre ++ [x]) ++ rest := by simp
      rw [if_neg (by simpa using hNop), hShape, ih (by simp [hFast]), List.takeWhile_cons,
        if_pos (by simp [isNopAt, hNop]), List.length_cons]
      omega
    · rw [if_pos hNop, List.takeWhile_cons, if_neg (by simp [isNopAt, hNop])]
      rfl

/-- The filter between two iterations: kept instructions, deleted ones that were
passed over, and the rest. -/
structure Filtering (key : Nat → Nat) (idxs : List Nat) (slow fast : Nat)
    (done nops rest : List Nat) : Prop where
  shape : idxs = done ++ (nops ++ rest)
  slow_eq : slow = done.length
  fast_le : fast ≤ slow + max 1 nops.length
  real : ∀ x ∈ done, key x ≠ nopBlock
  nop : ∀ x ∈ nops, key x = nopBlock

variable {idxs done nops rest : List Nat} {slow fast : Nat}

theorem Filtering.filter_eq (h : Filtering key idxs slow fast done nops rest) :
    idxs.filter (fun i => !isNopAt key i) = done ++ rest.filter fun i => !isNopAt key i := by
  have hDone : done.filter (fun i => !isNopAt key i) = done := by
    rw [List.filter_eq_self]
    intro x hx
    simp [isNopAt, h.real x hx]
  have hNops : nops.filter (fun i => !isNopAt key i) = [] := by
    rw [List.filter_eq_nil_iff]
    intro x hx
    simp [isNopAt, h.nop x hx]
  rw [h.shape, List.filter_append, List.filter_append, hDone, hNops, List.nil_append]

/-- A deleted instruction at the slow position starts a run of them. -/
theorem Filtering.run (h : Filtering key idxs slow fast done nops rest) (hLength : slow < idxs.length)
    (hNop : keyAt key idxs slow = nopBlock) : ∃ n ns rest', Filtering key idxs slow fast done (n :: ns) rest' := by
  obtain ⟨rfl, rfl, hFast, hReal, hNops⟩ := h
  cases nops with
  | cons n ns => exact ⟨n, ns, rest, rfl, rfl, hFast, hReal, hNops⟩
  | nil =>
    cases rest with
    | nil => simp at hLength
    | cons x rest' =>
      have hHere : keyAt key (done ++ ([] ++ x :: rest')) done.length = key x := by
        exact @keyAt_segment key done [x] rest' done.length 0 rfl (by simp)
      refine ⟨x, [], rest', rfl, rfl, by simpa using hFast, hReal, fun y hy => ?_⟩
      rw [List.mem_singleton.mp hy, ← hHere, hNop]

/-- The search starts inside the run of deleted instructions and stops after
the ones that follow it. -/
theorem Filtering.findReal {idxs done ns rest : List Nat} {n slow fast start : Nat}
    (h : Filtering key idxs slow fast done (n :: ns) rest) (hStart : start = if fast ≤ slow then slow + 1 else fast) :
    IRSorter.findReal key idxs start = slow + 1 + ns.length + (rest.takeWhile (isNopAt key)).length := by
  obtain ⟨rfl, rfl, hFast, -, hNops⟩ := h
  have hBounds : done.length + 1 ≤ start ∧ start ≤ done.length + 1 + ns.length := by
    rw [List.length_cons] at hFast
    split at hStart <;> omega
  have hSplit : done ++ (n :: ns ++ rest) = (done ++ n :: ns.take (start - (done.length + 1))) ++
        (ns.drop (start - (done.length + 1)) ++ rest) := by
    conv_lhs => rw [← List.take_append_drop (start - (done.length + 1)) ns]
    simp only [List.append_assoc, List.cons_append]
  have hAll : ∀ x ∈ ns.drop (start - (done.length + 1)), isNopAt key x = true := by
    intro x hx
    simp [isNopAt, hNops x (List.mem_cons_of_mem _ (List.mem_of_mem_drop hx))]
  have hFront : start = (done ++ n :: ns.take (start - (done.length + 1))).length := by
    simp only [List.length_append, List.length_cons, List.length_take]
    omega
  rw [hSplit, findReal_eq hFront, List.takeWhile_append_of_pos hAll, List.length_append, List.length_drop]
  omega

/-- The next kept instruction takes the place of the first deleted one. -/
theorem Filtering.exchange {idxs done ns more rest : List Nat} {n r slow fast : Nat}
    (h : Filtering key idxs slow fast done (n :: ns) (more ++ r :: rest))
    (hMore : ∀ x ∈ more, key x = nopBlock) (hReal : key r ≠ nopBlock) :
    Filtering key (IRSorter.exchange idxs slow (slow + 1 + ns.length + more.length)) (slow + 1)
      (slow + 1 + ns.length + more.length) (done ++ [r]) (ns ++ more ++ [n]) rest := by
  obtain ⟨rfl, rfl, -, hDone, hNops⟩ := h
  have hShape : done ++ (n :: ns ++ (more ++ r :: rest)) = done ++ n :: ((ns ++ more) ++ r :: rest) := by simp
  rw [hShape, exchange_apart rfl (by rw [List.length_append]; omega)]
  refine ⟨by simp, by simp, ?_, fun x hx => ?_, fun x hx => ?_⟩
  · simp only [List.length_append, List.length_singleton]
    omega
  · rcases List.mem_append.mp hx with hx | hx
    · exact hDone x hx
    · rw [List.mem_singleton.mp hx]
      exact hReal
  · simp only [List.mem_append, List.mem_singleton] at hx
    rcases hx with (hx | hx) | rfl
    · exact hNops x (List.mem_cons_of_mem _ hx)
    · exact hMore x hx
    · exact hNops x List.mem_cons_self

/-- A kept instruction at the slow position stays where it is. -/
theorem Filtering.keep (h : Filtering key idxs slow fast done nops rest) (hLength : slow < idxs.length)
    (hReal : keyAt key idxs slow ≠ nopBlock) :
    ∃ x rest', Filtering key idxs (slow + 1) fast (done ++ [x]) [] rest' := by
  obtain ⟨rfl, rfl, hFast, hDone, hNops⟩ := h
  cases nops with
  | cons n ns =>
    have hHere : keyAt key (done ++ (n :: ns ++ rest)) done.length = key n := by
      exact @keyAt_segment key done [n] (ns ++ rest) done.length 0 rfl (by simp)
    exact absurd (hHere.trans (hNops n List.mem_cons_self)) hReal
  | nil =>
    cases rest with
    | nil => simp at hLength
    | cons x rest =>
      have hHere : keyAt key (done ++ ([] ++ x :: rest)) done.length = key x := by
        exact @keyAt_segment key done [x] rest done.length 0 rfl (by simp)
      refine ⟨x, rest, by simp, by simp, ?_, fun y hy => ?_, by simp⟩
      · simp only [List.length_nil] at hFast ⊢
        omega
      · rcases List.mem_append.mp hy with hy | hy
        · exact hDone y hy
        · rw [List.mem_singleton.mp hy, ← hHere]
          exact hReal

theorem filter_real_of_nop {more : List Nat} (h : ∀ x ∈ more, key x = nopBlock) :
    more.filter (fun i => !isNopAt key i) = [] := by
  rw [List.filter_eq_nil_iff]
  intro x hx
  simp [isNopAt, h x hx]

theorem nopFilterLoop_spec {remaining : Nat} : ∀ {idxs done nops rest : List Nat} {slow fast : Nat},
      Filtering key idxs slow fast done nops rest → remaining + slow = idxs.length →
      ∃ deleted, nopFilterLoop key remaining idxs slow fast = idxs.filter (fun i => !isNopAt key i) ++ deleted ∧
        ∀ x ∈ deleted, key x = nopBlock := by
  induction remaining with
  | zero =>
    intro idxs done nops rest slow fast h hLength
    rw [h.filter_eq]
    have hShape := h.shape
    have hDone := h.slow_eq
    have hEmpty : nops ++ rest = [] := by
      apply List.eq_nil_of_length_eq_zero
      rw [hShape, List.length_append] at hLength
      omega
    obtain ⟨rfl, rfl⟩ := List.append_eq_nil_iff.mp hEmpty
    exact ⟨[], by simpa [nopFilterLoop] using hShape, by simp⟩
  | succ remaining ih =>
    intro idxs done nops rest slow fast h hLength
    rw [nopFilterLoop]
    by_cases hNop : keyAt key idxs slow = nopBlock
    swap
    · rw [if_neg hNop]
      obtain ⟨x, rest', hNext⟩ := h.keep (by omega) hNop
      exact ih hNext (by omega)
    rw [if_pos hNop]
    dsimp only
    obtain ⟨n, ns, rest, hRun⟩ := h.run (by omega) hNop
    rw [hRun.findReal rfl]
    have hMore : ∀ x ∈ rest.takeWhile (isNopAt key), key x = nopBlock := by
      intro x hx
      simpa [isNopAt] using List.mem_takeWhile_imp hx
    have hSplit := (List.takeWhile_append_dropWhile : rest.takeWhile (isNopAt key) ++ _ = rest).symm
    have hCount := congrArg List.length hRun.shape
    simp only [List.length_append, List.length_cons, ← hRun.slow_eq] at hCount
    have hFilter := hRun.filter_eq
    cases hRest : rest.dropWhile (isNopAt key) with
    | nil =>
      rw [hRest, List.append_nil] at hSplit
      rw [if_pos (by rw [← hSplit]; omega), hFilter, hSplit, filter_real_of_nop hMore,
        List.append_nil]
      refine ⟨n :: ns ++ rest, hRun.shape, fun x hx => ?_⟩
      rcases List.mem_append.mp hx with hx | hx
      · exact hRun.nop x hx
      · exact hMore x (hSplit ▸ hx)
    | cons r rest' =>
      have hReal : key r ≠ nopBlock := by
        have hHead := List.head?_dropWhile_not (isNopAt key) rest
        rw [hRest] at hHead
        simpa [isNopAt] using hHead
      rw [hRest] at hSplit
      generalize rest.takeWhile (isNopAt key) = more at *
      subst hSplit
      simp only [List.length_append, List.length_cons] at hCount
      rw [if_neg (by omega)]
      have hNext := hRun.exchange hMore hReal
      obtain ⟨deleted, hLoop, hDeleted⟩ := ih hNext (by rw [exchange_length]; omega)
      refine ⟨deleted, ?_, hDeleted⟩
      rw [hLoop, hNext.filter_eq, hFilter, List.filter_append, filter_real_of_nop hMore,
        List.nil_append, List.filter_cons_of_pos (by simp [isNopAt, hReal])]
      simp

theorem exchange_perm {idxs : List Nat} {a b : Nat} (ha : a < idxs.length) (hb : b < idxs.length) :
    (exchange idxs a b).Perm idxs := by
  rw [exchange, List.getD_eq_getElem idxs 0 ha, List.getD_eq_getElem idxs 0 hb]
  exact List.set_set_perm ha hb

theorem nopFilterLoop_perm {remaining : Nat} {idxs : List Nat} (hLength : remaining + slow ≤ idxs.length) :
    (nopFilterLoop key remaining idxs slow fast).Perm idxs := by
  induction remaining generalizing idxs slow fast with
  | zero => exact .refl idxs
  | succ remaining ih =>
    rw [nopFilterLoop]
    dsimp only
    generalize findReal key idxs _ = fast
    split
    · split
      · exact .refl idxs
      · rename_i hFast
        have hSwap := exchange_perm (show slow < idxs.length by omega) (not_le.mp hFast)
        exact (ih (by rw [hSwap.length_eq]; omega)).trans hSwap
    · exact ih (by omega)

end Filter

/-! ### The sorted buffer -/

section Buffer
variable {insns : List IRInstruction}

theorem take_findRunSize (first : Nat) (idxs : List Nat) :
    idxs.take (findRunSize first idxs) = List.range' first (findRunSize first idxs) := by
  induction idxs generalizing first with
  | nil => rfl
  | cons i rest ih =>
    rw [findRunSize]
    split
    · rename_i hFirst
      rw [List.take_succ_cons, List.range'_succ, ih, hFirst]
    · rfl

theorem take_drop_eq_filterMap (insns : List IRInstruction) (start n : Nat) :
    (insns.drop start).take n = (List.range' start n).filterMap (insns[·]?) := by
  induction n generalizing start with
  | zero => simp
  | succ n ih =>
    rw [List.range'_succ]
    rcases Nat.lt_or_ge start insns.length with hLt | hGe
    · rw [List.drop_eq_getElem_cons hLt, List.take_succ_cons, ih,
        List.filterMap_cons_some (List.getElem?_eq_getElem hLt)]
    · have hNone : insns[start]? = none := List.getElem?_eq_none hGe
      rw [List.filterMap_cons_none hNone, ← ih, List.drop_eq_nil_of_le hGe, List.drop_eq_nil_of_le (by omega)]
      simp

/-- Copying run by run is copying entry by entry. -/
theorem copyRuns_eq (insns : List IRInstruction) (idxs : List Nat) :
    copyRuns insns idxs = idxs.filterMap (insns[·]?) := by
  induction hSize : idxs.length using Nat.strong_induction_on generalizing idxs with
  | _ size ih =>
    cases idxs with
    | nil => rw [copyRuns, List.filterMap_nil]
    | cons i rest =>
      rw [List.length_cons] at hSize
      rw [copyRuns, ih _ (by rw [List.length_drop]; omega) _ rfl, take_drop_eq_filterMap,
        List.range'_succ, ← take_findRunSize, ← List.filterMap_append, List.cons_append,
        List.take_append_drop]

theorem filterMap_range (insns : List IRInstruction) : (List.range insns.length).filterMap (insns[·]?) = insns := by
  rw [List.range_eq_range', ← take_drop_eq_filterMap, List.drop_zero, List.take_length]

theorem filter_filterMap_blockAt (idxs : List Nat) (p : Nat → Bool) :
    (idxs.filterMap (insns[·]?)).filter (fun insn => p insn.irBlock) =
      (idxs.filter fun i => p (blockAt insns i)).filterMap (insns[·]?) := by
  rw [List.filter_filterMap, List.filterMap_filter]
  congr 1
  funext i
  unfold blockAt
  cases hEntry : insns[i]? with
  | none => simp
  | some insn => simp [Option.filter]

theorem blockAt_lt (h : ∀ insn ∈ insns, insn.irBlock < 2 ^ 31) (i : Nat) : blockAt insns i < 2 ^ 31 := by
  unfold blockAt
  cases hEntry : insns[i]? with
  | none => decide
  | some insn => exact h insn (List.mem_of_getElem? hEntry)

/-- The merge sort is stable. -/
theorem mergeSort_spec (h : ∀ insn ∈ insns, insn.irBlock < 2 ^ 31) :
    StableSorted (·.irBlock) (mergeSort insns) insns := by
  obtain ⟨c, hSort, hSorted⟩ := @sort_spec (blockAt insns) (blockAt_lt h) []
    (List.range insns.length) [] 0 insns.length rfl (by simp)
  simp only [List.nil_append, List.append_nil] at hSort
  rw [mergeSort, hSort, copyRuns_eq]
  constructor
  · rw [Sorted, List.pairwise_filterMap]
    refine hSorted.sorted.imp ?_
    intro i j hLe x hx y hy
    simpa [blockAt, hx, hy] using hLe
  · intro k
    have hClass := hSorted.classes k
    rw [filter_filterMap_blockAt c (fun b => b = k), hClass,
      ← filter_filterMap_blockAt (List.range insns.length) (fun b => b = k), filterMap_range]

/-- The filter keeps the order of what is not deleted. -/
theorem nopFilter_spec (insns : List IRInstruction) :
    ∃ deleted, nopFilter insns = insns.filter (fun insn => insn.irBlock ≠ nopBlock) ++ deleted ∧
      ∀ insn ∈ deleted, insn.irBlock = nopBlock := by
  have hStart : Filtering (blockAt insns) (List.range insns.length) 0 1 [] []
      (List.range insns.length) := ⟨rfl, rfl, by simp, by simp, by simp⟩
  obtain ⟨deleted, hLoop, hDeleted⟩ := @nopFilterLoop_spec (blockAt insns) insns.length _ _ _ _ _ _ hStart (by simp)
  refine ⟨deleted.filterMap (insns[·]?), ?_, fun insn hMem => ?_⟩
  · have hReal := @filter_filterMap_blockAt insns (List.range insns.length) (fun b => b ≠ nopBlock)
    rw [filterMap_range] at hReal
    rw [nopFilter, hLoop, copyRuns_eq, List.filterMap_append, hReal]
    simp [isNopAt]
  · obtain ⟨i, hi, hEntry⟩ := List.mem_filterMap.mp hMem
    simpa [blockAt, hEntry] using hDeleted i hi

theorem nopFilter_perm (insns : List IRInstruction) : (nopFilter insns).Perm insns := by
  have hLoop : (nopFilterLoop (blockAt insns) insns.length (List.range insns.length) 0 1).Perm _ :=
    nopFilterLoop_perm (by simp)
  rw [nopFilter, copyRuns_eq]
  exact (hLoop.filterMap _).trans (.of_eq (filterMap_range insns))

end Buffer

end Gensim.BlockJIT.IRSorter
