import Gensim.Lib.Mappings

/-! The page pool: sets of 1024 pages from which runs of pages are handed out, returned and, when a
whole set is free again, given back to the host.

Pointers are numbers. A page set is known by the address of its pages, which no other set has while it
exists. The protection of the pages and the lock of the pool are left out. -/
namespace Gensim.Util.Pages

open Mappings

def kPageSize : Nat := 4096
def kNumPages : Nat := 1024
def kTotalSize : Nat := kPageSize * kNumPages

theorem kTotalSize_pos : 0 < kTotalSize := by decide

/-- The addresses of a run of pages. -/
def pagesAt (start numPages : Nat) : List Nat := List.range' start numPages kPageSize

structure FreePageSet where
  start : Nat
  numPages : Nat

namespace FreePageSet

def pages (region : FreePageSet) : List Nat := pagesAt region.start region.numPages

/-- `Coalesce(a, b)`. -/
def coalesce (a b : FreePageSet) : Option FreePageSet :=
  if a.start + kPageSize * a.numPages = b.start then some ⟨a.start, a.numPages + b.numPages⟩ else none

end FreePageSet

structure PageReference where
  parent : Nat
  data : Nat
  numPages : Nat

def PageReference.pages (reference : PageReference) : List Nat := pagesAt reference.data reference.numPages

/-! ## Page sets -/

/-- The first region that is large enough gives its first pages. -/
def takePages (numPages : Nat) : List FreePageSet → Option (Nat × List FreePageSet)
  | [] => none
  | region :: rest =>
      if numPages ≤ region.numPages then
        let left : FreePageSet := ⟨region.start + numPages * kPageSize, region.numPages - numPages⟩
        some (region.start, if left.numPages = 0 then rest else left :: rest)
      else (takePages numPages rest).map fun taken => (taken.1, region :: taken.2)

/-- One iteration of the loop of `Coalesce`: the first two neighbours that touch become one. -/
def coalesceFirst : List FreePageSet → Option (List FreePageSet)
  | a :: b :: rest =>
      match a.coalesce b with
      | some merged => some (merged :: rest)
      | none => (coalesceFirst (b :: rest)).map (a :: ·)
  | _ => none

theorem coalesceFirst_cases {a b : FreePageSet} {rest merged : List FreePageSet}
    (hMerge : coalesceFirst (a :: b :: rest) = some merged) :
    (a.start + kPageSize * a.numPages = b.start ∧ merged = ⟨a.start, a.numPages + b.numPages⟩ :: rest) ∨
      ∃ tail, coalesceFirst (b :: rest) = some tail ∧ merged = a :: tail := by
  rw [coalesceFirst, FreePageSet.coalesce] at hMerge
  split at hMerge
  case h_1 hTouch =>
    obtain ⟨hEnd, hMerged⟩ := Option.ite_none_right_eq_some.mp hTouch
    rw [← Option.some.inj hMerged] at hMerge
    exact .inl ⟨hEnd, (Option.some.inj hMerge).symm⟩
  case h_2 =>
    obtain ⟨tail, hTail, rfl⟩ := Option.map_eq_some_iff.mp hMerge
    exact .inr ⟨tail, hTail, rfl⟩

theorem coalesceFirst_length {regions merged : List FreePageSet} (hMerge : coalesceFirst regions = some merged) :
    merged.length < regions.length := by
  induction regions generalizing merged with
  | nil => cases hMerge
  | cons a regions ih =>
    cases regions with
    | nil => cases hMerge
    | cons b rest =>
      obtain ⟨-, rfl⟩ | ⟨tail, hTail, rfl⟩ := coalesceFirst_cases hMerge
      · simp
      · simpa using ih hTail

def coalesceAll (regions : List FreePageSet) : List FreePageSet :=
  match _h : coalesceFirst regions with
  | some merged => coalesceAll merged
  | none => regions
termination_by regions.length
decreasing_by exact coalesceFirst_length _h

structure PageSet where
  start : Nat
  freeRegions : List FreePageSet

namespace PageSet

def create (start : Nat) : PageSet := ⟨start, [⟨start, kNumPages⟩]⟩

def empty (set : PageSet) : Bool :=
  match set.freeRegions with
  | [region] => region.numPages = kNumPages
  | _ => false

def coalesce (set : PageSet) : PageSet :=
  if set.freeRegions.length < 2 then set
  else { set with freeRegions := coalesceAll (set.freeRegions.mergeSort fun a b => a.start ≤ b.start) }

/-- `CanAllocate` without leave to coalesce, as the pool asks. -/
def canAllocate (set : PageSet) (numPages : Nat) : Bool :=
  numPages ≤ kNumPages && set.freeRegions.any fun region => numPages ≤ region.numPages

/-- `Get` without leave to coalesce; no address where no region is large enough. -/
def get (set : PageSet) (numPages : Nat) : Option Nat × PageSet :=
  match takePages numPages set.freeRegions with
  | some (data, regions) => (some data, { set with freeRegions := regions })
  | none => (none, set)

/-- `Return`. -/
def giveBack (set : PageSet) (start numPages : Nat) : PageSet :=
  { set with freeRegions := set.freeRegions ++ [⟨start, numPages⟩] }

end PageSet

/-! ## The pool -/

/-- What the host decides, which may depend on the number of the call: where it maps the pages of a new
set, apart from those that are mapped, and the order in which the sets are walked after an insertion. -/
structure Host where
  mmap : Nat → List Nat → Nat
  mmap_apart : ∀ calls mapped, ∀ s ∈ mapped, Apart kTotalSize (mmap calls mapped) s
  insert : Nat → PageSet → List PageSet → List PageSet
  insert_perm : ∀ calls set sets, (insert calls set sets).Perm (set :: sets)

instance : Inhabited Host where
  default := {
    mmap := fun _ mapped => mapped.sum + kTotalSize
    mmap_apart := fun _ mapped s hMem => .inr (by have := List.le_sum_of_mem hMem; omega)
    insert := fun _ set sets => set :: sets
    insert_perm := fun _ _ _ => .refl _ }

structure PagePool where
  currSet : Option Nat := none
  pageSets : List PageSet := []

namespace PagePool

def starts (pool : PagePool) : List Nat := pool.pageSets.map PageSet.start

def update (pool : PagePool) (start : Nat) (change : PageSet → PageSet) : PagePool :=
  { pool with pageSets := modify PageSet.start start change pool.pageSets }

def current (pool : PagePool) : Option PageSet :=
  pool.currSet.bind fun start => pool.pageSets.find? fun set => set.start = start

def newSet (host : Host) (calls : Nat) (pool : PagePool) : PageSet := .create (host.mmap calls pool.starts)

def withNewSet (host : Host) (calls : Nat) (pool : PagePool) : PagePool :=
  { currSet := some (pool.newSet host calls).start
    pageSets := host.insert calls (pool.newSet host calls) pool.pageSets }

/-- The reference that `Allocate` returns for pages of a set; its data is null where the set has none. -/
def takeFrom (pool : PagePool) (set : PageSet) (numPages : Nat) : PageReference × PagePool :=
  (⟨set.start, (set.get numPages).1.getD 0, numPages⟩, pool.update set.start fun set => (set.get numPages).2)

def allocate (host : Host) (calls : Nat) (pool : PagePool) (numPages : Nat) : PageReference × PagePool :=
  match pool.current.filter fun set => set.canAllocate numPages with
  | some set => pool.takeFrom set numPages
  | none => (pool.withNewSet host calls).takeFrom (pool.newSet host calls) numPages

/-- One walk of `GC` over the sets, with the set that it deletes. -/
def sweep : List PageSet → List PageSet × Option Nat
  | [] => ([], none)
  | set :: rest =>
      if set.coalesce.empty then (rest, some set.start)
      else ((set.coalesce :: (sweep rest).1), (sweep rest).2)

theorem sweep_cases (sets : List PageSet) :
    (sweep sets = (sets.map PageSet.coalesce, none) ∧ ∀ set ∈ sets, set.coalesce.empty = false) ∨
      ∃ before set after, sets = before ++ set :: after ∧ set.coalesce.empty = true ∧
        sweep sets = (before.map PageSet.coalesce ++ after, some set.start) := by
  induction sets with
  | nil => exact .inl ⟨rfl, by simp⟩
  | cons set rest ih =>
    cases hEmpty : set.coalesce.empty with
    | true => exact .inr ⟨[], set, rest, rfl, hEmpty, by simp [sweep, hEmpty]⟩
    | false =>
      obtain ⟨hSweep, hNone⟩ | ⟨before, found, after, rfl, hFound, hSweep⟩ := ih
      · exact .inl ⟨by simp [sweep, hEmpty, hSweep], by simpa [hEmpty] using hNone⟩
      · exact .inr ⟨set :: before, found, after, rfl, hFound, by simp [sweep, hEmpty, hSweep]⟩

theorem sweep_length {sets left : List PageSet} {deleted : Nat} (hSweep : sweep sets = (left, some deleted)) :
    left.length < sets.length := by
  obtain ⟨hNone, -⟩ | ⟨before, set, after, rfl, -, hSome⟩ := sweep_cases sets
  · simp [hNone] at hSweep
  · obtain ⟨rfl, -⟩ := Prod.mk.inj (hSome.symm.trans hSweep)
    simp

def gc (pool : PagePool) : PagePool :=
  match _h : sweep pool.pageSets with
  | (sets, some deleted) => gc ⟨if pool.currSet = some deleted then none else pool.currSet, sets⟩
  | (sets, none) => { pool with pageSets := sets }
termination_by pool.pageSets.length
decreasing_by exact sweep_length _h

end PagePool

/-- A pool with the references that its clients hold. -/
structure Session where
  pool : PagePool := {}
  live : List PageReference := []
  calls : Nat := 0

inductive Operation
  | allocate (numPages : { n : Nat // 0 < n ∧ n < kNumPages })
  /-- The destruction of one of the live references. -/
  | destroy (index : Nat)
  | gc

def Session.next (host : Host) (session : Session) : Operation → Session
  | .allocate numPages =>
      let (reference, pool) := session.pool.allocate host session.calls numPages
      ⟨pool, reference :: session.live, session.calls + 1⟩
  | .destroy index =>
      match session.live[index]? with
      | some reference =>
          { session with
            pool := session.pool.update reference.parent fun set =>
              set.giveBack reference.data reference.numPages
            live := session.live.eraseIdx index }
      | none => session
  | .gc => { session with pool := session.pool.gc }

def Session.run (host : Host) (ops : List Operation) : Session := ops.foldl (Session.next host) {}

/-! ## Runs of pages -/

theorem pagesAt_append (start n m : Nat) :
    pagesAt start n ++ pagesAt (start + kPageSize * n) m = pagesAt start (n + m) :=
  List.range'_append

theorem mem_pagesAt {page start n : Nat} : page ∈ pagesAt start n ↔ ∃ i < n, page = start + kPageSize * i :=
  List.mem_range'

theorem start_mem_pagesAt {start n : Nat} (hSome : 0 < n) : start ∈ pagesAt start n :=
  mem_pagesAt.mpr ⟨0, hSome, by simp⟩

theorem pairwise_pagesAt (start n : Nat) : (pagesAt start n).Pairwise (· < ·) :=
  List.pairwise_lt_range' kPageSize (by simp [kPageSize])

/-- A run of pages of a set starts at one of the pages and ends inside. -/
theorem exists_of_pagesAt_subset {base total start n : Nat} (hSome : 0 < n)
    (hInside : ∀ page ∈ pagesAt start n, page ∈ pagesAt base total) :
    ∃ i, start = base + kPageSize * i ∧ i + n ≤ total := by
  obtain ⟨i, -, hStart⟩ := mem_pagesAt.mp (hInside start (start_mem_pagesAt hSome))
  obtain ⟨j, hJ, hLast⟩ := mem_pagesAt.mp
    (hInside (start + kPageSize * (n - 1)) (mem_pagesAt.mpr ⟨n - 1, by omega, rfl⟩))
  refine ⟨i, hStart, ?_⟩
  simp only [kPageSize] at hStart hLast
  omega

/-- Two runs of pages of one set without a common page do not overlap. -/
theorem apart_of_disjoint (base : Nat) {i j n m : Nat} (hN : 0 < n) (hM : 0 < m)
    (hDisjoint : (pagesAt (base + kPageSize * i) n).Disjoint (pagesAt (base + kPageSize * j) m)) :
    i + n ≤ j ∨ j + m ≤ i := by
  by_contra hOverlap
  rcases Nat.le_total i j with hLe | hLe
  · refine hDisjoint (mem_pagesAt.mpr ⟨j - i, by omega, ?_⟩) (start_mem_pagesAt hM)
    simp only [kPageSize]
    omega
  · refine hDisjoint (start_mem_pagesAt hN) (mem_pagesAt.mpr ⟨i - j, by omega, ?_⟩)
    simp only [kPageSize]
    omega

/-! ## What the operations on regions keep -/

variable {regions : List FreePageSet}

theorem exists_takePages {numPages : Nat} (hRoom : ∃ region ∈ regions, numPages ≤ region.numPages) :
    ∃ taken, takePages numPages regions = some taken := by
  induction regions with
  | nil => simp at hRoom
  | cons region rest ih =>
    rw [takePages]
    split
    case isTrue => exact ⟨_, rfl⟩
    case isFalse hSmall =>
      obtain ⟨taken, hTaken⟩ := ih (by simpa [hSmall] using hRoom)
      exact ⟨_, by rw [hTaken]; rfl⟩

/-- The pages of the regions are those that were taken and those of the regions left. -/
theorem takePages_spec {numPages data : Nat} {regions left : List FreePageSet}
    (hTake : takePages numPages regions = some (data, left)) (hSome : ∀ region ∈ regions, 0 < region.numPages) :
    (regions.flatMap FreePageSet.pages).Perm (pagesAt data numPages ++ left.flatMap FreePageSet.pages) ∧
      ∀ region ∈ left, 0 < region.numPages := by
  induction regions generalizing left with
  | nil => cases hTake
  | cons region rest ih =>
    obtain ⟨hFirst, hRest⟩ := List.forall_mem_cons.mp hSome
    rw [takePages] at hTake
    split at hTake
    case isTrue hLarge =>
      obtain ⟨rfl, rfl⟩ := Prod.mk.inj (Option.some.inj hTake)
      have hSplit := pagesAt_append region.start numPages (region.numPages - numPages)
      rw [Nat.add_sub_of_le hLarge, Nat.mul_comm] at hSplit
      split
      case isTrue hAll =>
        rw [show region.numPages - numPages = 0 from hAll] at hSplit
        refine ⟨.of_eq ?_, hRest⟩
        rw [List.flatMap_cons, FreePageSet.pages, ← hSplit, pagesAt.eq_1 _ 0, List.range'_zero, List.append_nil]
      case isFalse hLeft =>
        refine ⟨.of_eq ?_, List.forall_mem_cons.mpr ⟨Nat.pos_of_ne_zero hLeft, hRest⟩⟩
        rw [List.flatMap_cons, FreePageSet.pages, ← hSplit, List.append_assoc]
        rfl
    case isFalse =>
      obtain ⟨⟨data, tail⟩, hTail, hEq⟩ := Option.map_eq_some_iff.mp hTake
      obtain ⟨rfl, rfl⟩ := Prod.mk.inj hEq
      obtain ⟨hPages, hNonempty⟩ := ih hTail hRest
      refine ⟨?_, List.forall_mem_cons.mpr ⟨hFirst, hNonempty⟩⟩
      rw [List.flatMap_cons, List.flatMap_cons]
      refine (hPages.append_left _).trans ?_
      rw [← List.append_assoc, ← List.append_assoc]
      exact List.perm_append_comm.append_right _

/-- Coalescing two regions keeps the pages and does not bring a start out of order. -/
theorem coalesceFirst_spec {regions merged : List FreePageSet} (hMerge : coalesceFirst regions = some merged) :
    merged.flatMap FreePageSet.pages = regions.flatMap FreePageSet.pages ∧
      (merged.map FreePageSet.start).Sublist (regions.map FreePageSet.start) ∧
      ((∀ region ∈ regions, 0 < region.numPages) → ∀ region ∈ merged, 0 < region.numPages) := by
  induction regions generalizing merged with
  | nil => cases hMerge
  | cons a regions ih =>
    cases regions with
    | nil => cases hMerge
    | cons b rest =>
      obtain ⟨hEnd, rfl⟩ | ⟨tail, hTail, rfl⟩ := coalesceFirst_cases hMerge
      · refine ⟨?_, by simp, ?_⟩
        · simp only [List.flatMap_cons, FreePageSet.pages]
          rw [← List.append_assoc, ← hEnd, pagesAt_append]
        · intro hSome
          obtain ⟨hA, hRest⟩ := List.forall_mem_cons.mp hSome
          exact List.forall_mem_cons.mpr ⟨Nat.add_pos_left hA _, (List.forall_mem_cons.mp hRest).2⟩
      · obtain ⟨hPages, hStarts, hSome⟩ := ih hTail
        refine ⟨by rw [List.flatMap_cons, List.flatMap_cons, hPages], hStarts.cons_cons _, ?_⟩
        exact fun hAll => List.forall_mem_cons.mpr
          ⟨(List.forall_mem_cons.mp hAll).1, hSome (List.forall_mem_cons.mp hAll).2⟩

theorem coalesceAll_spec (regions : List FreePageSet) : coalesceFirst (coalesceAll regions) = none ∧
      (coalesceAll regions).flatMap FreePageSet.pages = regions.flatMap FreePageSet.pages ∧
      ((coalesceAll regions).map FreePageSet.start).Sublist (regions.map FreePageSet.start) ∧
      ((∀ region ∈ regions, 0 < region.numPages) → ∀ region ∈ coalesceAll regions, 0 < region.numPages) := by
  fun_induction coalesceAll regions with
  | case1 regions merged hMerge ih =>
    obtain ⟨hPages, hStarts, hSome⟩ := coalesceFirst_spec hMerge
    exact ⟨ih.1, ih.2.1.trans hPages, ih.2.2.1.trans hStarts, fun hAll => ih.2.2.2 (hSome hAll)⟩
  | case2 regions hLast => exact ⟨hLast, rfl, .refl _, id⟩

theorem not_touching_of_none {a b : FreePageSet} {rest : List FreePageSet}
    (hLast : coalesceFirst (a :: b :: rest) = none) : a.start + kPageSize * a.numPages ≠ b.start := by
  intro hEnd
  simp [coalesceFirst, FreePageSet.coalesce, hEnd] at hLast

/-- Regions of one set, by their starts: the pages are in order too. -/
theorem pairwise_pages_of_starts {base total : Nat} (hStarts : (regions.map FreePageSet.start).Pairwise (· ≤ ·))
    (hSome : ∀ region ∈ regions, 0 < region.numPages)
    (hPages : (regions.flatMap FreePageSet.pages).Perm (pagesAt base total)) :
    (regions.flatMap FreePageSet.pages).Pairwise (· < ·) := by
  have hNodup : (regions.flatMap FreePageSet.pages).Nodup :=
    hPages.nodup_iff.mpr ((pairwise_pagesAt base total).imp Nat.ne_of_lt)
  have hInside : ∀ region ∈ regions, ∃ i, region.start = base + kPageSize * i ∧ i + region.numPages ≤ total := by
    intro region hMem
    refine exists_of_pagesAt_subset (hSome region hMem) fun page hPage => ?_
    exact hPages.mem_iff.mp (List.mem_flatMap.mpr ⟨region, hMem, hPage⟩)
  refine List.pairwise_flatMap.mpr ⟨fun region _ => pairwise_pagesAt _ _, ?_⟩
  refine ((List.pairwise_map.mp hStarts).and (List.nodup_flatMap.mp hNodup).2).imp_of_mem ?_
  rintro a b hA hB ⟨hLe, hDisjoint⟩ x hX y hY
  obtain ⟨i, hStartA, -⟩ := hInside a hA
  obtain ⟨j, hStartB, -⟩ := hInside b hB
  obtain ⟨p, hP, rfl⟩ := mem_pagesAt.mp hX
  obtain ⟨q, -, rfl⟩ := mem_pagesAt.mp hY
  have hPosB := hSome b hB
  have hApart : i + a.numPages ≤ j ∨ j + b.numPages ≤ i := by
    refine apart_of_disjoint base (hSome a hA) hPosB ?_
    rw [← hStartA, ← hStartB]
    exact hDisjoint
  simp only [kPageSize] at hStartA hStartB ⊢
  omega

/-- Regions in order that make up a run of pages and of which no two touch are one region. -/
theorem eq_singleton_of_covering {base total : Nat} (hTotal : 0 < total)
    (hStarts : (regions.map FreePageSet.start).Pairwise (· ≤ ·)) (hSome : ∀ region ∈ regions, 0 < region.numPages)
    (hPages : (regions.flatMap FreePageSet.pages).Perm (pagesAt base total)) (hLast : coalesceFirst regions = none) :
    ∃ region, regions = [region] ∧ region.numPages = total := by
  have hEq : regions.flatMap FreePageSet.pages = pagesAt base total :=
    hPages.eq_of_pairwise (fun x y _ _ hXY hYX => absurd hXY (Nat.lt_asymm hYX))
      (pairwise_pages_of_starts hStarts hSome hPages) (pairwise_pagesAt base total)
  match regions with
  | [] =>
    have hLength := congrArg List.length hEq
    simp [pagesAt] at hLength
    omega
  | [region] => exact ⟨region, rfl, by simpa [FreePageSet.pages, pagesAt] using congrArg List.length hEq⟩
  | a :: b :: rest =>
    -- The page behind the first region is the first page of the second one.
    have hFirst : a.start = base := by
      have hHead := congrArg (fun pages : List Nat => pages[0]?) hEq
      simpa [FreePageSet.pages, pagesAt, hSome a (by simp), hTotal] using hHead
    have hSecond : some b.start = (pagesAt base total)[a.numPages]? := by
      have hB := hSome b (by simp)
      rw [← hEq, List.flatMap_cons, List.getElem?_append_right (by simp [FreePageSet.pages, pagesAt])]
      simp [FreePageSet.pages, pagesAt, hB]
    have hEnd : a.start + kPageSize * a.numPages = b.start := by
      obtain ⟨hLt, hAt⟩ := List.getElem?_eq_some_iff.mp hSecond.symm
      rw [← hAt, hFirst]
      simp [pagesAt]
    exact absurd hEnd (not_touching_of_none hLast)

/-! ## Page sets and the references into them -/

def references (live : List PageReference) (start : Nat) : List PageReference :=
  live.filter fun reference => reference.parent = start

variable {reference : PageReference}

theorem mem_references {live : List PageReference} {start : Nat} :
    reference ∈ references live start ↔ reference ∈ live ∧ reference.parent = start := by
  simp [references]

theorem references_cons_of_eq {start : Nat} (hParent : reference.parent = start) (live : List PageReference) :
    references (reference :: live) start = reference :: references live start :=
  List.filter_cons_of_pos (decide_eq_true hParent)

theorem references_cons_of_ne {start : Nat} (hParent : reference.parent ≠ start) (live : List PageReference) :
    references (reference :: live) start = references live start :=
  List.filter_cons_of_neg (by simpa using hParent)

/-- The free regions and the live references partition the pages of a set. -/
structure PageSet.Partitioned (set : PageSet) (live : List PageReference) : Prop where
  nonempty : ∀ region ∈ set.freeRegions, 0 < region.numPages
  pages : (set.freeRegions.flatMap FreePageSet.pages ++
    (references live set.start).flatMap PageReference.pages).Perm (pagesAt set.start kNumPages)

namespace PageSet

@[simp] theorem coalesce_start (set : PageSet) : set.coalesce.start = set.start := by
  rw [coalesce]
  split <;> rfl

theorem coalesce_spec (set : PageSet) : coalesceFirst set.coalesce.freeRegions = none ∧
      (set.coalesce.freeRegions.flatMap FreePageSet.pages).Perm (set.freeRegions.flatMap FreePageSet.pages) ∧
      (set.coalesce.freeRegions.map FreePageSet.start).Pairwise (· ≤ ·) ∧
      ((∀ region ∈ set.freeRegions, 0 < region.numPages) → ∀ region ∈ set.coalesce.freeRegions, 0 < region.numPages) := by
  rw [coalesce]
  split
  case isTrue hShort =>
    match hRegions : set.freeRegions with
    | [] => simp [coalesceFirst]
    | [_] => simp [coalesceFirst]
    | _ :: _ :: _ => simp [hRegions] at hShort
  case isFalse =>
    have hSorted := List.mergeSort_perm set.freeRegions fun a b => a.start ≤ b.start
    obtain ⟨hLast, hPages, hStarts, hSome⟩ := coalesceAll_spec (set.freeRegions.mergeSort fun a b => a.start ≤ b.start)
    refine ⟨hLast, ?_, ?_, fun hAll => hSome fun region hMem => hAll region (hSorted.mem_iff.mp hMem)⟩
    · exact (List.Perm.of_eq hPages).trans (hSorted.flatMap_right _)
    · refine List.Pairwise.sublist hStarts (List.pairwise_map.mpr ?_)
      have hOrder : (set.freeRegions.mergeSort fun a b => a.start ≤ b.start).Pairwise
          fun a b => decide (a.start ≤ b.start) = true :=
        List.pairwise_mergeSort (fun a b c hAB hBC => by simp at hAB hBC ⊢; omega)
          (fun a b => by simp; omega) set.freeRegions
      exact hOrder.imp of_decide_eq_true

namespace Partitioned

variable {set : PageSet} {live : List PageReference}

/-- Only the references into the set matter, in any order. -/
theorem congr (hSet : set.Partitioned live) {live' : List PageReference}
    (hSame : (references live' set.start).Perm (references live set.start)) : set.Partitioned live' where
  nonempty := hSet.nonempty
  pages := ((hSame.flatMap_right _).append_left _).trans hSet.pages

/-- A set without references that is free as a whole. -/
theorem create {start : Nat} (hNone : references live start = []) : (PageSet.create start).Partitioned live where
  nonempty := by simp [PageSet.create, kNumPages]
  pages := by simp [PageSet.create, hNone, FreePageSet.pages]

/-- `Get` makes free pages the pages of a new reference. -/
theorem get (hSet : set.Partitioned live) {numPages : Nat} (hRoom : set.canAllocate numPages = true) :
    (set.get numPages).2.Partitioned (⟨set.start, (set.get numPages).1.getD 0, numPages⟩ :: live) := by
  have hLarge : ∃ region ∈ set.freeRegions, numPages ≤ region.numPages := by
    simpa using ((Bool.and_eq_true _ _).mp hRoom).2
  obtain ⟨⟨data, left⟩, hTake⟩ := exists_takePages hLarge
  obtain ⟨hPages, hNonempty⟩ := takePages_spec hTake hSet.nonempty
  rw [PageSet.get, hTake]
  refine ⟨hNonempty, .trans ?_ hSet.pages⟩
  rw [references_cons_of_eq rfl, List.flatMap_cons, ← List.append_assoc]
  exact (List.perm_append_comm.trans hPages.symm).append_right _

/-- `Return` makes the pages of a reference free. -/
theorem giveBack {reference : PageReference} (hSet : set.Partitioned (reference :: live))
    (hParent : reference.parent = set.start) (hSome : 0 < reference.numPages) :
    (set.giveBack reference.data reference.numPages).Partitioned live := by
  refine ⟨?_, .trans (.of_eq ?_) hSet.pages⟩
  · simpa [PageSet.giveBack, or_imp, forall_and] using ⟨hSet.nonempty, hSome⟩
  · simp only [PageSet.giveBack, references_cons_of_eq hParent, List.flatMap_append, List.flatMap_cons,
      List.flatMap_nil, List.append_nil, List.append_assoc]
    rfl

theorem coalesce (hSet : set.Partitioned live) : set.coalesce.Partitioned live where
  nonempty := set.coalesce_spec.2.2.2 hSet.nonempty
  pages := by
    rw [coalesce_start]
    exact (set.coalesce_spec.2.1.append_right _).trans hSet.pages

/-- After coalescing, the set is empty exactly if no live reference points into it. -/
theorem coalesce_empty_iff (hSet : set.Partitioned live) (hLive : ∀ reference ∈ live, 0 < reference.numPages) :
    set.coalesce.empty = true ↔ references live set.start = [] := by
  have hPages := hSet.coalesce.pages
  rw [coalesce_start] at hPages
  constructor
  · intro hEmpty
    rw [PageSet.empty] at hEmpty
    split at hEmpty
    case h_1 region hRegions =>
      -- The region has all the pages, so none are left for a reference.
      have hAll : region.numPages = kNumPages := by simpa using hEmpty
      have hLength := hPages.length_eq
      rw [List.length_append, hRegions] at hLength
      simp only [List.flatMap_singleton, FreePageSet.pages, pagesAt, List.length_range', hAll,
        Nat.add_eq_left, List.length_eq_zero_iff, List.flatMap_eq_nil_iff] at hLength
      refine List.eq_nil_iff_forall_not_mem.mpr fun reference hMem => ?_
      have hNone := hLength reference hMem
      have hSome := hLive reference (mem_references.mp hMem).1
      simp only [PageReference.pages, pagesAt, List.range'_eq_nil_iff] at hNone
      omega
    case h_2 => cases hEmpty
  · intro hNone
    rw [hNone, List.flatMap_nil, List.append_nil] at hPages
    obtain ⟨hLast, -, hStarts, -⟩ := set.coalesce_spec
    obtain ⟨region, hRegions, hAll⟩ := eq_singleton_of_covering (by simp [kNumPages]) hStarts
      hSet.coalesce.nonempty hPages hLast
    rw [PageSet.empty, hRegions]
    simpa using hAll

end Partitioned

end PageSet

@[simp] theorem PageSet.get_start (set : PageSet) (numPages : Nat) : (set.get numPages).2.start = set.start := by
  rw [get]
  split <;> rfl

/-! ## The pool and all references -/

namespace PagePool

/-- What holds between the calls. -/
structure Consistent (pool : PagePool) (live : List PageReference) : Prop where
  apart : pool.starts.Pairwise (Apart kTotalSize)
  partitioned : ∀ set ∈ pool.pageSets, set.Partitioned live
  parents : ∀ reference ∈ live, reference.parent ∈ pool.starts
  nonempty : ∀ reference ∈ live, 0 < reference.numPages
  current : ∀ start, pool.currSet = some start → start ∈ pool.starts

theorem mem_starts {pool : PagePool} {start : Nat} : start ∈ pool.starts ↔ ∃ set ∈ pool.pageSets, set.start = start :=
  List.mem_map

theorem starts_update {pool : PagePool} {start : Nat} {change : PageSet → PageSet}
    (hStart : ∀ set, (change set).start = set.start) : (pool.update start change).starts = pool.starts :=
  map_start_modify fun set hThis => (hStart set).trans hThis

namespace Consistent

variable {pool : PagePool} {live live' : List PageReference}

section

variable (hPool : pool.Consistent live)
include hPool

/-- One page set changes with the references into it. -/
theorem update {start : Nat} {change : PageSet → PageSet} (hStart : ∀ set, (change set).start = set.start)
    (hChange : ∀ set ∈ pool.pageSets, set.start = start → (change set).Partitioned live')
    (hOthers : ∀ other, other ≠ start → (references live' other).Perm (references live other))
    (hParents : ∀ reference ∈ live', reference.parent ∈ pool.starts)
    (hNonempty : ∀ reference ∈ live', 0 < reference.numPages) : (pool.update start change).Consistent live' where
  apart := by
    rw [starts_update hStart]
    exact hPool.apart
  partitioned := by
    intro set hMem
    obtain ⟨old, hOld, hThis, rfl⟩ | ⟨hOld, hOther⟩ := mem_modify hMem
    · exact hChange old hOld hThis
    · exact (hPool.partitioned set hOld).congr (hOthers _ hOther)
  parents := by
    rw [starts_update hStart]
    exact hParents
  nonempty := hNonempty
  current := by
    rw [starts_update hStart]
    exact hPool.current

theorem eq_of_start_eq {set other : PageSet} (hSet : set ∈ pool.pageSets) (hOther : other ∈ pool.pageSets)
    (hSame : set.start = other.start) : set = other :=
  Mappings.eq_of_start_eq kTotalSize_pos hPool.apart hSet hOther hSame

theorem takeFrom {set : PageSet} (hSet : set ∈ pool.pageSets) {numPages : Nat} (hRoom : set.canAllocate numPages = true)
    (hSome : 0 < numPages) : (pool.takeFrom set numPages).2.Consistent ((pool.takeFrom set numPages).1 :: live) := by
  refine hPool.update (fun other => other.get_start numPages) ?_ ?_ ?_ ?_
  · intro other hOther hSame
    rw [hPool.eq_of_start_eq hOther hSet hSame]
    exact (hPool.partitioned set hSet).get hRoom
  · exact fun other hNe => .of_eq (references_cons_of_ne hNe.symm live)
  · exact List.forall_mem_cons.mpr ⟨mem_starts.mpr ⟨set, hSet, rfl⟩, hPool.parents⟩
  · exact List.forall_mem_cons.mpr ⟨hSome, hPool.nonempty⟩

theorem withNewSet (host : Host) (calls : Nat) : (pool.withNewSet host calls).Consistent live := by
  have hPerm := host.insert_perm calls (pool.newSet host calls) pool.pageSets
  have hStarts : (pool.withNewSet host calls).starts.Perm ((pool.newSet host calls).start :: pool.starts) :=
    hPerm.map PageSet.start
  have hFresh : ∀ start ∈ pool.starts, Apart kTotalSize (pool.newSet host calls).start start :=
    host.mmap_apart calls pool.starts
  have hNone : references live (pool.newSet host calls).start = [] := by
    refine List.eq_nil_iff_forall_not_mem.mpr fun reference hMem => ?_
    obtain ⟨hLive, hParent⟩ := mem_references.mp hMem
    exact (hFresh _ (hPool.parents reference hLive)).ne kTotalSize_pos hParent.symm
  refine ⟨?_, ?_, ?_, hPool.nonempty, ?_⟩
  · exact (hStarts.pairwise_iff Or.symm).mpr (List.pairwise_cons.mpr ⟨hFresh, hPool.apart⟩)
  · intro set hMem
    obtain rfl | hOld := List.mem_cons.mp (hPerm.mem_iff.mp hMem)
    · exact .create hNone
    · exact hPool.partitioned set hOld
  · exact fun reference hLive => hStarts.mem_iff.mpr (List.mem_cons_of_mem _ (hPool.parents reference hLive))
  · intro start hCurrent
    obtain rfl := Option.some.inj hCurrent
    exact hStarts.mem_iff.mpr List.mem_cons_self

theorem allocate (host : Host) (calls : Nat) {numPages : Nat} (hSome : 0 < numPages) (hLess : numPages < kNumPages) :
    (pool.allocate host calls numPages).2.Consistent ((pool.allocate host calls numPages).1 :: live) := by
  rw [PagePool.allocate]
  split
  case h_1 set hFound =>
    obtain ⟨hCurrent, hRoom⟩ := Option.filter_eq_some_iff.mp hFound
    obtain ⟨start, -, hFind⟩ := Option.bind_eq_some_iff.mp hCurrent
    exact hPool.takeFrom (List.mem_of_find?_eq_some hFind) hRoom hSome
  case h_2 =>
    refine (hPool.withNewSet host calls).takeFrom ?_ ?_ hSome
    · exact (host.insert_perm _ _ _).mem_iff.mpr List.mem_cons_self
    · simp [newSet, PageSet.create, PageSet.canAllocate, hLess.le]

theorem destroy {index : Nat} {reference : PageReference} (hIndex : live[index]? = some reference) :
    (pool.update reference.parent fun set => set.giveBack reference.data reference.numPages).Consistent
      (live.eraseIdx index) := by
  obtain ⟨hLt, hAt⟩ := List.getElem?_eq_some_iff.mp hIndex
  have hPerm : (reference :: live.eraseIdx index).Perm live := hAt ▸ List.getElem_cons_eraseIdx_perm hLt
  have hMem := List.forall_mem_cons.mp fun other hOther => hPool.nonempty other (hPerm.mem_iff.mp hOther)
  refine hPool.update (fun _ => rfl) ?_ ?_ ?_ hMem.2
  · intro set hSet hParent
    have hBefore := (hPool.partitioned set hSet).congr (hPerm.filter _)
    exact hBefore.giveBack hParent.symm hMem.1
  · intro other hNe
    exact (List.Perm.of_eq (references_cons_of_ne hNe.symm _).symm).trans (hPerm.filter _)
  · exact fun other hOther => hPool.parents other (hPerm.mem_iff.mp (List.mem_cons_of_mem _ hOther))

/-- Some sets are coalesced, and one to which no reference points is deleted. -/
theorem deleted {before after : List PageSet} {set : PageSet} (hSets : pool.pageSets = before ++ set :: after)
    (hNone : references live set.start = []) :
    (⟨if pool.currSet = some set.start then none else pool.currSet, before.map PageSet.coalesce ++ after⟩ :
      PagePool).Consistent live := by
  have hStarts : pool.starts = before.map PageSet.start ++ set.start :: after.map PageSet.start := by
    simp [starts, hSets]
  have hLeft : starts ⟨if pool.currSet = some set.start then none else pool.currSet,
      before.map PageSet.coalesce ++ after⟩ = before.map PageSet.start ++ after.map PageSet.start := by
    simp [starts, Function.comp_def]
  have hStays : ∀ start ∈ pool.starts, start ≠ set.start → start ∈ before.map PageSet.start ++ after.map PageSet.start := by
    intro start hMem hNe
    rw [hStarts] at hMem
    simpa [hNe] using hMem
  refine ⟨?_, ?_, ?_, hPool.nonempty, ?_⟩
  · rw [hLeft]
    refine List.Pairwise.sublist ?_ hPool.apart
    rw [hStarts]
    exact (List.sublist_cons_self _ _).append_left _
  · intro other hMem
    have hOld : ∀ old ∈ before ++ set :: after, old.Partitioned live := hSets ▸ hPool.partitioned
    obtain hBefore | hAfter := List.mem_append.mp hMem
    · obtain ⟨old, hMemOld, rfl⟩ := List.mem_map.mp hBefore
      exact (hOld old (List.mem_append_left _ hMemOld)).coalesce
    · exact hOld other (List.mem_append_right _ (List.mem_cons_of_mem _ hAfter))
  · intro reference hLive
    rw [hLeft]
    refine hStays _ (hPool.parents reference hLive) fun hParent => ?_
    exact List.eq_nil_iff_forall_not_mem.mp hNone reference (mem_references.mpr ⟨hLive, hParent⟩)
  · intro start hCurrent
    obtain ⟨hOther, hSame⟩ := Option.ite_none_left_eq_some.mp hCurrent
    rw [hLeft]
    refine hStays start (hPool.current start hSame) fun hEq => hOther ?_
    rw [hSame, hEq]

theorem coalesced : ({ pool with pageSets := pool.pageSets.map PageSet.coalesce } : PagePool).Consistent live := by
  have hStarts : starts { pool with pageSets := pool.pageSets.map PageSet.coalesce } = pool.starts := by
    simp [starts, Function.comp_def]
  refine ⟨hStarts ▸ hPool.apart, ?_, hStarts ▸ hPool.parents, hPool.nonempty, hStarts ▸ hPool.current⟩
  intro set hMem
  obtain ⟨old, hOld, rfl⟩ := List.mem_map.mp hMem
  exact (hPool.partitioned old hOld).coalesce

/-- A collection keeps exactly the sets into which a reference points. -/
theorem gc : pool.gc.Consistent live ∧ pool.gc.starts = pool.starts.filter fun start => references live start ≠ [] := by
  fun_induction PagePool.gc pool with
  | case1 pool sets deleted hSweep ih =>
    obtain ⟨hNone, -⟩ | ⟨before, set, after, hSets, hEmpty, hSome⟩ := sweep_cases pool.pageSets
    · simp [hNone] at hSweep
    · obtain ⟨rfl, hDeleted⟩ := Prod.mk.inj (hSome.symm.trans hSweep)
      obtain rfl := Option.some.inj hDeleted
      have hSet := hPool.partitioned set (by simp [hSets])
      have hNone := (hSet.coalesce_empty_iff hPool.nonempty).mp hEmpty
      obtain ⟨hAfter, hStarts⟩ := ih (hPool.deleted hSets hNone)
      refine ⟨hAfter, hStarts.trans ?_⟩
      simp [starts, hSets, Function.comp_def, hNone]
  | case2 pool sets hSweep =>
    obtain ⟨hNone, hKept⟩ | ⟨before, set, after, -, -, hSome⟩ := sweep_cases pool.pageSets
    · obtain ⟨rfl, -⟩ := Prod.mk.inj (hNone.symm.trans hSweep)
      refine ⟨hPool.coalesced, ?_⟩
      rw [List.filter_eq_self.mpr]
      · simp [starts, Function.comp_def]
      · intro start hMem
        obtain ⟨set, hSet, rfl⟩ := mem_starts.mp hMem
        have hIff := (hPool.partitioned set hSet).coalesce_empty_iff hPool.nonempty
        simpa [hKept set hSet] using hIff
    · simp [hSome] at hSweep

end

end Consistent

end PagePool

/-! ## Every sequence of calls -/

namespace Session

theorem consistent_next (host : Host) {session : Session} (hSession : session.pool.Consistent session.live)
    (op : Operation) : (session.next host op).pool.Consistent (session.next host op).live := by
  cases op with
  | allocate numPages => exact hSession.allocate host session.calls numPages.2.1 numPages.2.2
  | destroy index =>
    simp only [next]
    split
    case h_1 reference hIndex => exact hSession.destroy hIndex
    case h_2 => exact hSession
  | gc => exact hSession.gc.1

theorem consistent_run (host : Host) (ops : List Operation) : (run host ops).pool.Consistent (run host ops).live := by
  have hStart : ({} : Session).pool.Consistent ({} : Session).live := ⟨.nil, by simp, by simp, by simp, by simp⟩
  exact List.foldlRecOn (motive := fun session => session.pool.Consistent session.live) ops (next host) hStart
    fun session hSession op _ => consistent_next host hSession op

end Session

/-- The pages of one reference end before those of the other start. -/
def PageReference.Before (a b : PageReference) : Prop := a.data + kPageSize * a.numPages ≤ b.data

namespace PagePool.Consistent

variable {pool : PagePool} {live : List PageReference}

section

variable (hPool : pool.Consistent live)
include hPool

theorem inside {set : PageSet} (hSet : set ∈ pool.pageSets) {reference : PageReference} (hLive : reference ∈ live)
    (hParent : reference.parent = set.start) :
    ∃ i, reference.data = set.start + kPageSize * i ∧ i + reference.numPages ≤ kNumPages := by
  refine exists_of_pagesAt_subset (hPool.nonempty reference hLive) fun page hPage => ?_
  refine (hPool.partitioned set hSet).pages.mem_iff.mp (List.mem_append_right _ ?_)
  exact List.mem_flatMap.mpr ⟨reference, mem_references.mpr ⟨hLive, hParent⟩, hPage⟩

theorem pairwise_disjoint {set : PageSet} (hSet : set ∈ pool.pageSets) :
    live.Pairwise fun a b => a.parent = set.start → b.parent = set.start → a.pages.Disjoint b.pages := by
  have hNodup := (hPool.partitioned set hSet).pages.nodup_iff.mpr ((pairwise_pagesAt _ _).imp Nat.ne_of_lt)
  have hDisjoint := (List.nodup_flatMap.mp (List.nodup_append.mp hNodup).2.1).2
  exact (List.pairwise_filter.mp hDisjoint).imp fun hAB hA hB => hAB (decide_eq_true hA) (decide_eq_true hB)

theorem pairwise_before : live.Pairwise fun a b => a.Before b ∨ b.Before a := by
  refine List.pairwise_iff_getElem.mpr fun k l hK hL hLess => ?_
  obtain ⟨set, hSet, hParentA⟩ := mem_starts.mp (hPool.parents live[k] (List.getElem_mem hK))
  obtain ⟨other, hOther, hParentB⟩ := mem_starts.mp (hPool.parents live[l] (List.getElem_mem hL))
  obtain ⟨i, hA, hEndA⟩ := hPool.inside hSet (List.getElem_mem hK) hParentA.symm
  obtain ⟨j, hB, hEndB⟩ := hPool.inside hOther (List.getElem_mem hL) hParentB.symm
  by_cases hSame : set.start = other.start
  · -- In one set the pages are disjoint.
    have hApart : i + live[k].numPages ≤ j ∨ j + live[l].numPages ≤ i := by
      refine apart_of_disjoint set.start (hPool.nonempty _ (List.getElem_mem hK))
        (hPool.nonempty _ (List.getElem_mem hL)) ?_
      have hDisjoint := List.pairwise_iff_getElem.mp (hPool.pairwise_disjoint hSet) k l hK hL hLess
        hParentA.symm (hParentB.symm.trans hSame.symm)
      rw [← hA, hSame, ← hB]
      exact hDisjoint
    simp only [PageReference.Before, kPageSize] at hA hB ⊢
    omega
  · -- Two sets are mapped apart.
    have hApart : Apart kTotalSize set.start other.start :=
      hPool.apart.forall (mem_starts.mpr ⟨set, hSet, rfl⟩) (mem_starts.mpr ⟨other, hOther, rfl⟩) hSame
    simp only [PageReference.Before, Apart, kTotalSize, kPageSize, kNumPages] at hA hB hEndA hEndB hApart ⊢
    omega

end

end PagePool.Consistent

/-- The ranges of live references are disjoint and inside their set, the free regions and the live
references partition the pages of every set, and a collection deletes the sets without a reference. -/
theorem disjoint_pages (host : Host) (ops : List Operation) :
    let session := Session.run host ops
    session.live.Pairwise (fun a b => a.Before b ∨ b.Before a) ∧
      (∀ reference ∈ session.live, ∃ set ∈ session.pool.pageSets, reference.parent = set.start ∧
        set.start ≤ reference.data ∧ reference.data + kPageSize * reference.numPages ≤ set.start + kTotalSize) ∧
      (∀ set ∈ session.pool.pageSets, (set.freeRegions.flatMap FreePageSet.pages ++
        (references session.live set.start).flatMap PageReference.pages).Perm (pagesAt set.start kNumPages)) ∧
      ∀ set ∈ session.pool.pageSets, set.start ∉ session.pool.gc.starts ↔
        ∀ reference ∈ session.live, reference.parent ≠ set.start := by
  intro session
  have hPool := Session.consistent_run host ops
  refine ⟨hPool.pairwise_before, ?_, fun set hSet => (hPool.partitioned set hSet).pages, ?_⟩
  · intro reference hLive
    obtain ⟨set, hSet, hParent⟩ := PagePool.mem_starts.mp (hPool.parents reference hLive)
    obtain ⟨i, hData, hEnd⟩ := hPool.inside hSet hLive hParent.symm
    refine ⟨set, hSet, hParent.symm, ?_⟩
    simp only [kTotalSize, kPageSize, kNumPages] at hData hEnd ⊢
    omega
  · intro set hSet
    have hMem : set.start ∈ session.pool.starts := PagePool.mem_starts.mpr ⟨set, hSet, rfl⟩
    rw [show session.pool.gc.starts = _ from hPool.gc.2, List.mem_filter, and_iff_right hMem]
    simp [references, session]

end Gensim.Util.Pages
