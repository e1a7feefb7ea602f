import Gensim.Lib.Operations

/-! The set of small numbers that is kept as a bit for each. -/
namespace Gensim.Util

open Operations

/-- The backing store, in chunks of 64 bits. -/
abbrev Chunks := Nat → BitVec 64

/-- A `dense_set` for the numbers below its size, with an index type of 32 bits: `end` passes the size through
an `int`, and an index of 64 bits would not come back to a size of `2 ^ 31` or more. -/
structure DenseSet where
  sizeBits : Nat
  store : Chunks

namespace DenseSet

variable (d : DenseSet)

def chunkCount : Nat := 1 + d.sizeBits / 64

def storeEnd : Nat := d.sizeBits / 64

def mask (i : Nat) : BitVec 64 := BitVec.twoPow 64 (i % 64)

/-- Sizes are kept in 32 bits. -/
def new (sizeBits : Nat) : DenseSet := ⟨sizeBits % 2 ^ 32, fun _ => 0⟩

def insert (i : Nat) : DenseSet := { d with store := Function.update d.store (i / 64) (d.store (i / 64) ||| mask i) }

def erase (i : Nat) : DenseSet := { d with store := Function.update d.store (i / 64) (d.store (i / 64) &&& ~~~mask i) }

/-- The loops that go over all the chunks. -/
def replace (chunks : Chunks) : DenseSet :=
  { d with store := fun c => if c < d.chunkCount then chunks c else d.store c }

def insertAll (other : DenseSet) : DenseSet := d.replace fun c => d.store c ||| other.store c

def copy (other : DenseSet) : DenseSet := d.replace other.store

def clear : DenseSet := d.replace fun _ => 0

/-- The copy that `operator=` makes, of whole bytes. -/
def copyOf (other : DenseSet) : DenseSet :=
  ⟨other.sizeBits, fun c => ((other.store c).setWidth (8 * (1 + other.sizeBits / 8) - 64 * c)).setWidth 64⟩

def count (i : Nat) : Bool := d.store (i / 64) &&& mask i ≠ 0

/-- The loop of `last` from below a number. There is no result where an assertion fails, which it does when the
unsigned index has passed zero. -/
def lastBelow : Nat → Option Nat
  | 0 => none
  | i + 1 => if d.count i then some i else lastBelow i

def last : Option Nat := d.lastBelow d.sizeBits

/-! ### Iterators -/

structure Iterator where
  chunkPtr : Nat
  chunkCopy : BitVec 64
  counter : Nat

namespace Iterator

variable (it : Iterator)

/-- `next`, where the chunk has a bit or there is no further chunk. -/
def take : Iterator :=
  if it.chunkCopy ≠ 0 then
    let counter := it.counter / 64 * 64 + it.chunkCopy.ctz.toNat
    ⟨it.chunkPtr, it.chunkCopy &&& ~~~mask it.chunkCopy.ctz.toNat, if d.sizeBits ≤ counter then d.sizeBits else counter⟩
  else { it with counter := d.sizeBits }

/-- The loop over the chunks that are empty, for at most so many of them. -/
def skip : Nat → Iterator → Iterator
  | 0, it => it
  | chunks + 1, it =>
      if it.chunkCopy = 0 ∧ it.chunkPtr < d.storeEnd then
        skip chunks { it with chunkPtr := it.chunkPtr + 1, chunkCopy := d.store (it.chunkPtr + 1) }
      else it

/-- The recursive call finds a chunk with a bit, or the last one. -/
def next : Iterator :=
  if it.chunkCopy = 0 ∧ it.chunkPtr ≠ d.storeEnd then
    let skipped := skip d d.storeEnd it
    take d { skipped with counter := 64 * skipped.chunkPtr }
  else take d it

/-- What a loop sees up to the end, if it ends before so many elements. -/
def elements : Nat → Iterator → Option (List Nat)
  | 0, _ => none
  | steps + 1, it => if it.counter = d.sizeBits then some [] else (elements steps (next d it)).map (it.counter :: ·)

end Iterator

def begin : Iterator := Iterator.next d ⟨0, d.store 0, 0⟩

/-- What an iterator sees from `begin` to `end`. -/
def iteration : Option (List Nat) := Iterator.elements d (d.sizeBits + 1) d.begin

/-! ### Representation -/

def bit (store : Chunks) (i : Nat) : Bool := (store (i / 64)).getLsbD (i % 64)

/-- The set has exactly these members. -/
structure Represents (n : Nat) (members : Finset Nat) : Prop where
  size : d.sizeBits = n
  bits : ∀ i, bit d.store i = true ↔ i ∈ members
  lt : ∀ i ∈ members, i < n

variable {d} {n : Nat} {members : Finset Nat}

theorem getLsbD_mask {i b : Nat} : (mask i).getLsbD b = decide (i % 64 = b) := by
  rw [mask, BitVec.getLsbD_twoPow, decide_eq_true (Nat.mod_lt i (by decide)), Bool.true_and]

theorem getLsbD_and_not_mask (chunk : BitVec 64) (i j : Nat) :
    (chunk &&& ~~~mask i).getLsbD (j % 64) = true ↔ chunk.getLsbD (j % 64) = true ∧ i % 64 ≠ j % 64 := by
  rw [BitVec.getLsbD_and, BitVec.getLsbD_not, getLsbD_mask, decide_eq_true (Nat.mod_lt j (by decide)), Bool.true_and,
    Bool.and_eq_true, Bool.not_eq_true', decide_eq_false_iff_not]

theorem bit_update (store : Chunks) (i j : Nat) (chunk : BitVec 64) :
    bit (Function.update store (i / 64) chunk) j = if j / 64 = i / 64 then chunk.getLsbD (j % 64) else bit store j := by
  rw [bit, Function.update_apply]
  split <;> rfl

theorem Represents.count_eq (hRep : d.Represents n members) (i : Nat) : d.count i = decide (i ∈ members) := by
  have hPower : mask i ≠ 0 := fun hZero => by simpa [hZero] using getLsbD_mask (i := i) (b := i % 64)
  rw [count, ← Bool.decide_congr (hRep.bits i), mask, BitVec.and_twoPow, bit]
  congr 1
  split
  case isTrue hSet => simpa [hSet, mask] using hPower
  case isFalse hClear => simpa using hClear

theorem represents_new (size : Nat) : (new size).Represents (size % 2 ^ 32) ∅ := ⟨rfl, by simp [new, bit], by simp⟩

section

variable (hRep : d.Represents n members)
include hRep

theorem Represents.insert {i : Nat} (hLt : i < n) : (d.insert i).Represents n (Insert.insert i members) := by
  refine ⟨hRep.size, fun j => ?_, by simpa [hLt] using hRep.lt⟩
  rw [DenseSet.insert, bit_update, Finset.mem_insert, ← hRep.bits]
  split
  case isTrue hChunk =>
    have hSame : i % 64 = j % 64 ↔ j = i := by omega
    rw [BitVec.getLsbD_or, getLsbD_mask, ← hChunk, Bool.or_eq_true, decide_eq_true_eq, hSame, or_comm]
    rfl
  case isFalse hOther => rw [or_iff_right fun hSame : j = i => hOther (congrArg (· / 64) hSame)]

theorem Represents.erase (i : Nat) : (d.erase i).Represents n (members.erase i) := by
  refine ⟨hRep.size, fun j => ?_, fun j hMem => hRep.lt j (Finset.mem_of_mem_erase hMem)⟩
  rw [DenseSet.erase, bit_update, Finset.mem_erase, ← hRep.bits]
  split
  case isTrue hChunk =>
    have hSame : i % 64 ≠ j % 64 ↔ j ≠ i := by omega
    rw [getLsbD_and_not_mask, ← hChunk, hSame, and_comm]
    rfl
  case isFalse hOther => rw [and_iff_right fun hSame : j = i => hOther (congrArg (· / 64) hSame)]

/-- Chunks that have the bits of a set are all that counts. -/
theorem Represents.replace {chunks : Chunks} {others : Finset Nat} (hBits : ∀ i, bit chunks i = true ↔ i ∈ others)
    (hLt : ∀ i ∈ others, i < n) : (d.replace chunks).Represents n others := by
  refine ⟨hRep.size, fun i => ?_, hLt⟩
  rw [bit, DenseSet.replace, chunkCount, hRep.size]
  dsimp only
  split
  case isTrue => exact hBits i
  case isFalse hPast =>
    refine iff_of_false (fun hSet => hPast ?_) (fun hMem => hPast ?_)
    · have := hRep.lt i ((hRep.bits i).mp hSet)
      omega
    · have := hLt i hMem
      omega

end

section Other

variable {other : DenseSet} {others : Finset Nat} (hRep : d.Represents n members) (hOther : other.Represents n others)
include hRep hOther

theorem Represents.insertAll : (d.insertAll other).Represents n (members ∪ others) := by
  refine hRep.replace (fun i => ?_) fun i hMem => (Finset.mem_union.mp hMem).elim (hRep.lt i) (hOther.lt i)
  rw [Finset.mem_union, ← hRep.bits, ← hOther.bits, bit, BitVec.getLsbD_or, Bool.or_eq_true]
  rfl

theorem Represents.copy : (d.copy other).Represents n others := hRep.replace hOther.bits hOther.lt

end Other

theorem Represents.clear (hRep : d.Represents n members) : d.clear.Represents n ∅ :=
  hRep.replace (by simp [bit]) (by simp)

theorem Represents.copyOf (hRep : d.Represents n members) : (DenseSet.copyOf d).Represents n members := by
  refine ⟨hRep.size, fun i => ?_, hRep.lt⟩
  have hSize := hRep.size
  rw [← hRep.bits, bit, DenseSet.copyOf, BitVec.getLsbD_setWidth, BitVec.getLsbD_setWidth,
    decide_eq_true (Nat.mod_lt i (by decide)), Bool.true_and, Bool.and_eq_true, decide_eq_true_eq]
  refine and_iff_right_of_imp fun hSet => ?_
  have hLt := hRep.lt i ((hRep.bits i).mp hSet)
  omega

/-! ### The greatest member -/

theorem Represents.lastBelow_spec (hRep : d.Represents n members) (k : Nat) :
    d.lastBelow k = none ∧ (∀ i ∈ members, k ≤ i) ∨
      ∃ i, d.lastBelow k = some i ∧ i ∈ members ∧ ∀ j ∈ members, j < k → j ≤ i := by
  induction k with
  | zero => exact .inl ⟨rfl, fun i _ => Nat.zero_le i⟩
  | succ k ih =>
    rw [lastBelow, hRep.count_eq]
    by_cases hMem : k ∈ members
    · exact .inr ⟨k, by rw [decide_eq_true hMem, if_pos rfl], hMem, fun j _ => Nat.le_of_lt_succ⟩
    · rw [decide_eq_false hMem, if_neg Bool.false_ne_true]
      have hOther (i : Nat) (hIn : i ∈ members) : i ≠ k := fun hSame => hMem (hSame ▸ hIn)
      refine ih.imp (And.imp_right fun hNone i hIn => ?_) ?_
      · exact (hNone i hIn).lt_of_ne (hOther i hIn).symm
      · rintro ⟨i, hLast, hIn, hGreatest⟩
        exact ⟨i, hLast, hIn, fun j hJ hLt => hGreatest j hJ ((Nat.le_of_lt_succ hLt).lt_of_ne (hOther j hJ))⟩

/-- The greatest member is found, if there is one. -/
theorem Represents.last_spec (hRep : d.Represents n members) :
    d.last = none ∧ members = ∅ ∨ ∃ i, d.last = some i ∧ IsGreatest (members : Set Nat) i := by
  refine (hRep.lastBelow_spec d.sizeBits).imp (And.imp_right fun hNone => ?_) ?_
  · exact Finset.eq_empty_of_forall_notMem fun i hIn => absurd (hRep.lt i hIn) (not_lt.mpr (hRep.size ▸ hNone i hIn))
  · rintro ⟨i, hLast, hIn, hGreatest⟩
    exact ⟨i, hLast, hIn, fun j hJ => hGreatest j hJ (hRep.size ▸ hRep.lt j hJ)⟩

/-! ### Iteration -/

namespace Iterator

/-- An element is left for an iterator: in its chunk, or in a later one. -/
def Pending (d : DenseSet) (it : Iterator) (i : Nat) : Prop :=
  i / 64 = it.chunkPtr ∧ it.chunkCopy.getLsbD (i % 64) = true ∨ it.chunkPtr < i / 64 ∧ bit d.store i = true

instance (it : Iterator) (i : Nat) : Decidable (it.Pending d i) := inferInstanceAs (Decidable (_ ∨ _))

/-- What is left of a chunk was in the set. -/
structure Sound (d : DenseSet) (it : Iterator) : Prop where
  le : it.chunkPtr ≤ d.storeEnd
  copy : ∀ i, i / 64 = it.chunkPtr → it.chunkCopy.getLsbD (i % 64) = true → bit d.store i = true

/-- The next element is the least that is left. -/
structure Takes (d : DenseSet) (it after : Iterator) : Prop where
  pending : it.Pending d after.counter
  least : ∀ i, it.Pending d i → after.counter ≤ i
  rest : ∀ i, after.Pending d i ↔ it.Pending d i ∧ i ≠ after.counter
  sound : after.Sound d
  chunk : after.counter / 64 = after.chunkPtr

variable {it : Iterator}

theorem Sound.lt_of_pending (hSound : it.Sound d) (hRep : d.Represents n members) {i : Nat} (hPending : it.Pending d i) :
    i < n :=
  hRep.lt i ((hRep.bits i).mp (hPending.elim (fun hIn => hSound.copy i hIn.1 hIn.2) And.right))

/-- At the last chunk nothing is left once it is empty. -/
theorem Sound.not_pending (hSound : it.Sound d) (hRep : d.Represents n members) (hZero : it.chunkCopy = 0)
    (hEnd : it.chunkPtr = d.storeEnd) (i : Nat) : ¬ it.Pending d i := by
  intro hPending
  have hLt := hSound.lt_of_pending hRep hPending
  rcases hPending with ⟨-, hSet⟩ | ⟨hPast, -⟩
  · simp [hZero] at hSet
  · rw [hEnd, storeEnd, hRep.size] at hPast
    omega

theorem takes_take (hRep : d.Represents n members) (hSound : it.Sound d) (hChunk : it.counter / 64 = it.chunkPtr)
    (hSome : it.chunkCopy ≠ 0) : it.Takes d (it.take d) := by
  have hSet : it.chunkCopy.getLsbD it.chunkCopy.ctz.toNat = true := BitVec.getLsbD_true_ctz_of_ne_zero hSome
  have hBelow (b : Nat) (hMem : it.chunkCopy.getLsbD b = true) : it.chunkCopy.ctz.toNat ≤ b := by
    by_contra hLt
    rw [BitVec.getLsbD_false_of_lt_ctz (not_le.mp hLt)] at hMem
    cases hMem
  rw [take, if_pos hSome, hChunk]
  generalize it.chunkCopy.ctz.toNat = first at *
  have hFirst : first < 64 := BitVec.lt_of_getLsbD hSet
  have hDiv : (it.chunkPtr * 64 + first) / 64 = it.chunkPtr := by omega
  have hMod : (it.chunkPtr * 64 + first) % 64 = first := by omega
  have hPending : it.Pending d (it.chunkPtr * 64 + first) := .inl ⟨hDiv, by rwa [hMod]⟩
  have hLt := hSound.lt_of_pending hRep hPending
  dsimp only
  rw [if_neg (by rw [hRep.size]; exact not_le.mpr hLt)]
  -- The bits of the chunk that stay are those of the other elements.
  have hClear (i : Nat) (hIn : i / 64 = it.chunkPtr) : (it.chunkCopy &&& ~~~mask first).getLsbD (i % 64) = true ↔
        it.chunkCopy.getLsbD (i % 64) = true ∧ i ≠ it.chunkPtr * 64 + first := by
    have hSame : first % 64 ≠ i % 64 ↔ i ≠ it.chunkPtr * 64 + first := by omega
    rw [getLsbD_and_not_mask, hSame]
  refine ⟨hPending, fun i hLeft => ?_, fun i => ?_, ⟨hSound.le, fun i hIn hMem => ?_⟩, hDiv⟩
  · dsimp only
    rcases hLeft with ⟨hIn, hMem⟩ | ⟨hPast, -⟩
    · have := hBelow _ hMem
      omega
    · omega
  · have hLater (hPast : it.chunkPtr < i / 64) : i ≠ it.chunkPtr * 64 + first := by omega
    rw [Pending, Pending, and_congr_right (hClear i)]
    tauto
  · exact hSound.copy i hIn ((hClear i hIn).mp hMem).1

theorem skip_spec (chunks : Nat) (hSound : it.Sound d) (hLeft : d.storeEnd - it.chunkPtr ≤ chunks) :
    (skip d chunks it).Sound d ∧ (∀ i, (skip d chunks it).Pending d i ↔ it.Pending d i) ∧
      ((skip d chunks it).chunkCopy ≠ 0 ∨ (skip d chunks it).chunkPtr = d.storeEnd) := by
  have hLe := hSound.le
  induction chunks generalizing it with
  | zero => exact ⟨hSound, fun _ => Iff.rfl, .inr (by rw [skip]; omega)⟩
  | succ chunks ih =>
    rw [skip]
    split
    case isTrue hEmpty =>
      obtain ⟨hZero, hLt⟩ := hEmpty
      have hNext : Sound d { it with chunkPtr := it.chunkPtr + 1, chunkCopy := d.store (it.chunkPtr + 1) } :=
        ⟨hLt, fun i hIn hMem => by rwa [bit, hIn]⟩
      obtain ⟨hAfter, hPending, hEnd⟩ := ih hNext (by dsimp only; omega) hLt
      refine ⟨hAfter, fun i => (hPending i).trans ?_, hEnd⟩
      have hChunk : i / 64 = it.chunkPtr + 1 → (d.store (it.chunkPtr + 1)).getLsbD (i % 64) = bit d.store i :=
        fun hIn => by rw [bit, hIn]
      simp only [Pending, hZero, BitVec.ofNat_eq_ofNat, BitVec.getLsbD_zero, Bool.false_eq_true, and_false, false_or]
      grind
    case isFalse hStop =>
      refine ⟨hSound, fun _ => Iff.rfl, ?_⟩
      by_cases hZero : it.chunkCopy = 0
      · exact .inr (by have := not_and.mp hStop hZero; omega)
      · exact .inl hZero

theorem next_spec (hRep : d.Represents n members) (hSound : it.Sound d) (hChunk : it.counter / 64 = it.chunkPtr) :
    (it.next d).counter = n ∧ (∀ i, ¬ it.Pending d i) ∨ it.Takes d (it.next d) := by
  rw [next]
  split
  case isTrue =>
    obtain ⟨hSkipped, hPending, hEnd⟩ := skip_spec d.storeEnd hSound (Nat.sub_le ..)
    generalize skip d d.storeEnd it = skipped at *
    dsimp only
    by_cases hZero : skipped.chunkCopy = 0
    · refine .inl ⟨by rw [take, if_neg (not_not.mpr hZero), hRep.size], fun i hLeft => ?_⟩
      exact hSkipped.not_pending hRep hZero (hEnd.resolve_left (not_not.mpr hZero)) i ((hPending i).mpr hLeft)
    · have hTakes : Takes d { skipped with counter := 64 * skipped.chunkPtr } _ :=
        takes_take hRep ⟨hSkipped.le, hSkipped.copy⟩ (Nat.mul_div_cancel_left _ (by decide)) hZero
      refine .inr ⟨(hPending _).mp hTakes.pending, fun i hLeft => hTakes.least i ((hPending i).mpr hLeft), fun i => ?_,
        hTakes.sound, hTakes.chunk⟩
      exact (hTakes.rest i).trans (and_congr_left' (hPending i))
  case isFalse hStay =>
    by_cases hZero : it.chunkCopy = 0
    · refine .inl ⟨by rw [take, if_neg (not_not.mpr hZero), hRep.size], ?_⟩
      exact hSound.not_pending hRep hZero (not_not.mp (not_and.mp hStay hZero))
    · exact .inr (takes_take hRep hSound hChunk hZero)

end Iterator

/-- The least of the numbers that are left comes first among them. -/
theorem filter_range_eq_cons {p q : Nat → Prop} [DecidablePred p] [DecidablePred q] {c : Nat} (hMem : p c)
    (hLeast : ∀ i, p i → c ≤ i) (hRest : ∀ i, q i ↔ p i ∧ i ≠ c) (hLt : c < n) :
    (List.range n).filter (p ·) = c :: (List.range n).filter (q ·) := by
  have hSame (i : Nat) (hPast : i ≠ c) : p i ↔ q i := by rw [hRest, and_iff_left hPast]
  induction n with
  | zero => exact absurd hLt (Nat.not_lt_zero c)
  | succ n ih =>
    rw [List.range_succ, List.filter_append, List.filter_append]
    rcases (Nat.le_of_lt_succ hLt).lt_or_eq with hBelow | rfl
    · have hLast : [n].filter (p ·) = [n].filter (q ·) := List.filter_congr fun i hIn =>
        Bool.decide_congr (hSame i (List.mem_singleton.mp hIn ▸ hBelow.ne'))
      rw [ih hBelow, hLast, List.cons_append]
    · have hNone (r : Nat → Prop) [DecidablePred r] (hFrom : ∀ i, r i → p i) : (List.range c).filter (r ·) = [] :=
        List.filter_eq_nil_iff.mpr fun i hIn hR =>
          absurd (List.mem_range.mp hIn) (not_lt.mpr (hLeast i (hFrom i (of_decide_eq_true hR))))
      rw [hNone p fun _ => id, hNone q fun i hQ => ((hRest i).mp hQ).1]
      simp [hMem, hRest]

theorem Represents.elements_next (hRep : d.Represents n members) {it : Iterator} (hSound : it.Sound d)
    (hChunk : it.counter / 64 = it.chunkPtr) {steps : Nat}
    (hSteps : ((List.range n).filter (it.Pending d ·)).length < steps) :
    Iterator.elements d steps (it.next d) = some ((List.range n).filter (it.Pending d ·)) := by
  induction steps generalizing it with
  | zero => exact absurd hSteps (Nat.not_lt_zero _)
  | succ steps ih =>
    rw [Iterator.elements, hRep.size]
    rcases Iterator.next_spec hRep hSound hChunk with ⟨hEnd, hNone⟩ | hTakes
    · rw [if_pos hEnd, List.filter_eq_nil_iff.mpr fun i _ hLeft => hNone i (of_decide_eq_true hLeft)]
    · have hLt := hSound.lt_of_pending hRep hTakes.pending
      have hCons := filter_range_eq_cons hTakes.pending hTakes.least hTakes.rest hLt
      rw [hCons, List.length_cons] at hSteps
      rw [if_neg hLt.ne, ih hTakes.sound hTakes.chunk (Nat.lt_of_succ_lt_succ hSteps), hCons, Option.map_some]

/-- An iterator sees each member once, in increasing order. -/
theorem Represents.iteration_eq (hRep : d.Represents n members) :
    d.iteration = some ((List.range n).filter (· ∈ members)) := by
  have hStart (i : Nat) : Iterator.Pending d ⟨0, d.store 0, 0⟩ i ↔ i ∈ members := by
    rw [← hRep.bits, Iterator.Pending, bit]
    rcases Nat.eq_zero_or_pos (i / 64) with hZero | hPos
    · simp [hZero]
    · simp [hPos, hPos.ne']
  rw [iteration, begin, hRep.elements_next ⟨Nat.zero_le _, fun i hIn hMem => by rwa [bit, hIn]⟩ (Nat.zero_div 64)]
  · exact congrArg some (List.filter_congr fun i _ => Bool.decide_congr (hStart i))
  · rw [hRep.size]
    exact Nat.lt_succ_of_le ((List.length_filter_le ..).trans_eq List.length_range)

/-- What a set shows is what a finite set of the numbers below `n` shows. -/
structure Behaves (d : DenseSet) (n : Nat) (members : Finset Nat) : Prop where
  size : d.sizeBits = n
  count : ∀ i < n, d.count i = decide (i ∈ members)
  iteration : d.iteration = some ((List.range n).filter (· ∈ members))

theorem Represents.behaves (hRep : d.Represents n members) : d.Behaves n members :=
  ⟨hRep.size, fun i _ => hRep.count_eq i, hRep.iteration_eq⟩

end DenseSet

/-- What relates two families still does after a member of each is replaced. -/
theorem forall_update {α β : Type} (related : α → β → Prop) {first : Nat → α} {second : Nat → β}
    (hAll : ∀ name, related (first name) (second name)) (name : Nat) {a : α} {b : β} (hNew : related a b) (other : Nat) :
    related (Function.update first name a other) (Function.update second name b other) := by
  rcases eq_or_ne other name with rfl | hOther
  · simpa using hNew
  · simpa [hOther] using hAll other

/-- Sets are known by their names. -/
inductive DenseSetOperation where
  | insert (name i : Nat)
  | erase (name i : Nat)
  | insertAll (name other : Nat)
  | copy (name other : Nat)
  | assign (name other : Nat)
  | clear (name : Nat)
  | last (name : Nat)

/-- Sets of one size, and finite sets that are driven by the same calls. -/
structure DenseSets where
  sets : Nat → DenseSet
  reference : Nat → Finset Nat

namespace DenseSets

open DenseSet

variable (n : Nat) (s : DenseSets)

def new (size : Nat) : DenseSets := ⟨fun _ => .new size, fun _ => ∅⟩

def put (name : Nat) (d : DenseSet) (members : Finset Nat) : DenseSets :=
  ⟨Function.update s.sets name d, Function.update s.reference name members⟩

/-- An assignment to the set itself copies what was just cleared. -/
def next : DenseSetOperation → DenseSets
  | .insert name i => s.put name ((s.sets name).insert i) (Insert.insert i (s.reference name))
  | .erase name i => s.put name ((s.sets name).erase i) ((s.reference name).erase i)
  | .insertAll name other => s.put name ((s.sets name).insertAll (s.sets other)) (s.reference name ∪ s.reference other)
  | .copy name other => s.put name ((s.sets name).copy (s.sets other)) (s.reference other)
  | .assign name other =>
      s.put name (.copyOf (if name = other then (s.sets name).clear else s.sets other)) (s.reference other)
  | .clear name => s.put name (s.sets name).clear ∅
  | .last _ => s

def Valid : DenseSetOperation → Prop
  | .insert _ i => i < n
  | .erase _ i => i < n
  | _ => True

/-- The result of `last` is the greatest member, or the size when there is none. -/
def Answers : DenseSetOperation → Prop
  | .last name => ∃ result, (s.sets name).last = some result ∧
      (IsGreatest (s.reference name : Set Nat) result ∨ s.reference name = ∅ ∧ result = n)
  | _ => True

def Behaves : Prop := ∀ name, (s.sets name).Behaves n (s.reference name)

/-- Only empty sets are assigned to themselves, and the last member is not asked for where there is none. -/
def Tame : DenseSetOperation → Prop
  | .assign name other => name = other → s.reference name = ∅
  | .last name => s.reference name ≠ ∅
  | _ => True

def Represented : Prop := ∀ name, (s.sets name).Represents n (s.reference name)

variable {n s}

section

variable (hRep : s.Represented n)
include hRep

theorem Represented.put (name : Nat) {d : DenseSet} {members : Finset Nat} (hNew : d.Represents n members) :
    (s.put name d members).Represented n :=
  forall_update (Represents · n ·) hRep name hNew

theorem represented_next {op : DenseSetOperation} (hValid : Valid n op) (hTame : s.Tame op) :
    (s.next op).Represented n := by
  cases op with
  | insert name i => exact hRep.put name ((hRep name).insert hValid)
  | erase name i => exact hRep.put name ((hRep name).erase i)
  | insertAll name other => exact hRep.put name ((hRep name).insertAll (hRep other))
  | copy name other => exact hRep.put name ((hRep name).copy (hRep other))
  | assign name other =>
    refine hRep.put name ?_
    split
    case isTrue hSelf =>
      rw [← hSelf, hTame hSelf]
      exact (hRep name).clear.copyOf
    case isFalse => exact (hRep other).copyOf
  | clear name => exact hRep.put name (hRep name).clear
  | last name => exact hRep

/-- A set that is assigned to itself has no members any more. -/
theorem not_behaves_assign {name : Nat} (hSome : s.reference name ≠ ∅) : ¬ (s.next (.assign name name)).Behaves n := by
  intro hBehaves
  obtain ⟨i, hMem⟩ := Finset.nonempty_iff_ne_empty.mpr hSome
  have hCount := (hBehaves name).count i ((hRep name).lt i hMem)
  simp only [next, put, Function.update_self, if_true, ((hRep name).clear.copyOf).count_eq, decide_eq_true hMem] at hCount
  simp at hCount

theorem answers_last_iff (name : Nat) : s.Answers n (.last name) ↔ s.reference name ≠ ∅ := by
  rcases (hRep name).last_spec with ⟨hNone, hEmpty⟩ | ⟨i, hLast, hGreatest⟩
  · refine iff_of_false ?_ (not_not.mpr hEmpty)
    rintro ⟨result, hResult, -⟩
    rw [hNone] at hResult
    cases hResult
  · exact iff_of_true ⟨i, hLast, .inl hGreatest⟩ (Finset.nonempty_iff_ne_empty.mp ⟨i, hGreatest.1⟩)

theorem behaves_next_iff {op : DenseSetOperation} (hValid : Valid n op) :
    s.Answers n op ∧ (s.next op).Behaves n ↔ s.Tame op := by
  constructor
  · rintro ⟨hAnswers, hBehaves⟩
    cases op with
    | assign name other =>
      rintro rfl
      by_contra hSome
      exact not_behaves_assign hRep hSome hBehaves
    | last name => exact (answers_last_iff hRep name).mp hAnswers
    | _ => trivial
  · intro hTame
    refine ⟨?_, fun name => (represented_next hRep hValid hTame name).behaves⟩
    cases op with
    | last name => exact (answers_last_iff hRep name).mpr hTame
    | _ => trivial

end

theorem behaves_throughout_iff (size : Nat) (ops : List DenseSetOperation) :
    Throughout next (fun s op => Valid (size % 2 ^ 32) op ∧ s.Answers (size % 2 ^ 32) op ∧
      (s.next op).Behaves (size % 2 ^ 32)) (new size) ops ↔ Throughout next (fun s op => Valid (size % 2 ^ 32) op ∧ s.Tame op) (new size) ops := by
  have hNew : (new size).Represented (size % 2 ^ 32) := fun _ => represents_new size
  exact throughout_and_congr (Represented _) (fun _ _ hRep => behaves_next_iff hRep)
    (fun _ _ hRep => represented_next hRep) hNew ops

end DenseSets
end Gensim.Util
