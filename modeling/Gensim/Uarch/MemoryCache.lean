import Gensim.Lib.Operations

/-! The set-associative cache of the memory hierarchy, and the recency lists that a cache with the LRU policy
would follow. In the code a hit does not count as a use, so that the ways of all sets together are replaced in
turn; the accesses for which that comes to the same are found from the history alone. -/
namespace Gensim.Uarch

open Operations

inductive AddressType where
  | virtual | physical
  deriving DecidableEq

inductive ReplacementPolicy where
  | lru | mru | random
  deriving DecidableEq

/-- How a cache is laid out, such that it has a line in every way. -/
structure Geometry where
  size : BitVec 32
  ways : BitVec 8
  linesize : BitVec 8
  indexType : AddressType
  tagType : AddressType
  linesize_pos : 0 < linesize.toNat
  entriesPerWay_pos : 0 < size.toNat / linesize.toNat / ways.toNat

namespace Geometry

variable (g : Geometry)

def entriesPerWay : Nat := g.size.toNat / g.linesize.toNat / g.ways.toNat

theorem ways_pos : 0 < g.ways.toNat := by
  refine Nat.pos_of_ne_zero fun hZero => ?_
  have hEntries := g.entriesPerWay_pos
  rw [hZero, Nat.div_zero] at hEntries
  exact lt_irrefl _ hEntries

/-- The entries that `InvalidateWay` makes invalid: `cache[line * way]`. -/
def wayEntries (way : Nat) : List Nat := (List.range g.entriesPerWay).map (· * way)

/-- The entries that `Flush` makes invalid. -/
def flushEntries : List Nat := (List.range g.ways.toNat).flatMap g.wayEntries

end Geometry

/-- The addresses of an access. -/
structure Access where
  physAddr : BitVec 64
  virtAddr : BitVec 64

def Access.get (access : Access) : AddressType → Nat
  | .virtual => access.virtAddr.toNat
  | .physical => access.physAddr.toNat

namespace Geometry

variable (g : Geometry) (access : Access)

/-- The line that is accessed, by its number in the addresses that tags are taken from. -/
def line : Nat := access.get g.tagType / g.linesize.toNat

def index : Nat := access.get g.indexType / g.linesize.toNat % g.entriesPerWay

def tag : BitVec 32 := BitVec.ofNat 32 (g.line access / g.entriesPerWay)

/-- Where the line of a set is in a way. -/
def slot (set way : Nat) : Nat := set + g.entriesPerWay * way

theorem index_lt : g.index access < g.entriesPerWay := Nat.mod_lt _ g.entriesPerWay_pos

variable {g}

theorem slot_inj {set set' way way' : Nat} (hSet : set < g.entriesPerWay) (hSet' : set' < g.entriesPerWay) :
    g.slot set way = g.slot set' way' ↔ set = set' ∧ way = way' := by
  refine ⟨fun hSame => ?_, fun ⟨hSets, hWays⟩ => by rw [hSets, hWays]⟩
  have hMod := congrArg (· % g.entriesPerWay) hSame
  simp only [slot, Nat.add_mul_mod_self_left, Nat.mod_eq_of_lt hSet, Nat.mod_eq_of_lt hSet'] at hMod
  subst hMod
  exact ⟨rfl, Nat.eq_of_mul_eq_mul_left g.entriesPerWay_pos (Nat.add_left_cancel hSame)⟩

end Geometry

structure CacheEntry where
  valid : Bool
  tag : BitVec 32
  deriving DecidableEq

/-- The tag in an entry that is valid. -/
def CacheEntry.read (entry : CacheEntry) : Option (BitVec 32) := if entry.valid then some entry.tag else none

structure Associative where
  cache : Nat → CacheEntry
  wayAges : Nat → BitVec 8
  mru : BitVec 8

namespace Associative

def new : Associative where
  cache _ := ⟨false, 0⟩
  wayAges i := BitVec.ofNat 8 i
  mru := 0

variable (g : Geometry) (assoc : Associative) (access : Access)

/-- The way in which the line is found. -/
def hitWay : Option Nat :=
  (List.range g.ways.toNat).find? fun i =>
    (assoc.cache (g.slot (g.index access) i)).tag == g.tag access &&
      (assoc.cache (g.slot (g.index access) i)).valid

/-- The loop over the ages: the last way whose age is zero, or entry 0 if there is none. -/
def lruVictim : Nat :=
  (List.range g.ways.toNat).foldl
    (fun victim i => if assoc.wayAges i = 0 then g.slot (g.index access) i else victim) 0

def aged : Associative :=
  { assoc with
    wayAges := fun i =>
      if i < g.ways.toNat then
        if assoc.wayAges i = 0 then g.ways - 1 else assoc.wayAges i - 1
      else assoc.wayAges i }

/-- `!mru % ways` -/
def otherWay : Nat := (if assoc.mru = 0 then 1 else 0) % g.ways.toNat

/-- The entry that is replaced, and the ages after that. The number is what `random` returns. -/
def choose (draw : Nat) : ReplacementPolicy → Nat × Associative
  | .lru => (assoc.lruVictim g access, assoc.aged g)
  | .mru => (g.slot (g.index access) (assoc.otherWay g), { assoc with mru := BitVec.ofNat 8 (assoc.otherWay g) })
  | .random => (g.slot (g.index access) (draw % g.ways.toNat), assoc)

def isHit (rp : ReplacementPolicy) (draw : Nat) : Bool × Associative :=
  match assoc.hitWay g access with
  | some i => (true, { assoc with mru := BitVec.ofNat 8 i })
  | none =>
      let (victim, after) := assoc.choose g access draw rp
      (false, { after with cache := Function.update after.cache victim ⟨true, g.tag access⟩ })

/-- The entries of a list are made invalid. -/
def clear (entries : List Nat) : Associative :=
  { assoc with
    cache := entries.foldl
      (fun cache k => Function.update cache k { cache k with valid := false }) assoc.cache }

def flush : Associative := assoc.clear g.flushEntries

def invalidateLine (way line : Nat) : Associative := assoc.clear [line * way]

def invalidateWay (way : Nat) : Associative := assoc.clear (g.wayEntries way)

end Associative

/-! ### Recency -/

/-- For every set, the lines that were accessed since the last flush, the most recent one first. -/
abbrev Recency : Type := Nat → List Nat

namespace Recency

def new : Recency := fun _ => []

variable (g : Geometry) (recency : Recency) (access : Access)

def isHit : Bool := (recency (g.index access)).take g.ways.toNat |>.contains (g.line access)

def touch : Recency :=
  Function.update recency (g.index access)
    (g.line access :: (recency (g.index access)).filter (· ≠ g.line access))

end Recency

inductive Operation where
  | access (access : Access)
  | flush

/-- What comes after a history: lines are removed from the cache. -/
inductive Invalidation (g : Geometry) where
  | ofWay (way : Fin g.ways.toNat)
  | ofLine (way : Fin g.ways.toNat) (line : Fin g.entriesPerWay)

namespace Invalidation

variable {g : Geometry}

/-- The lines that are named. -/
def Names : Invalidation g → Nat → Nat → Prop
  | .ofWay named, _, way => way = named
  | .ofLine named line, set, way => set = line ∧ way = named

/-- The entries that the code makes invalid. -/
def entries : Invalidation g → List Nat
  | .ofWay way => g.wayEntries way
  | .ofLine way line => [line * way]

def perform (assoc : Associative) : Invalidation g → Associative
  | .ofWay way => assoc.invalidateWay g way
  | .ofLine way line => assoc.invalidateLine way line

end Invalidation

/-- An event of a cache with the LRU policy: a line that is not among the recent ones is fetched, or the cache
is flushed. -/
inductive Event where
  | fetch (set : Nat) (tag : BitVec 32)
  | flush

def Event.fetches : List Event → Nat
  | [] => 0
  | .fetch _ _ :: events => fetches events + 1
  | .flush :: events => fetches events

/-- The recency lists, and the events so far, the last one first. Nothing of the code comes in. -/
structure History where
  recency : Recency
  events : List Event

namespace History

def new : History := ⟨.new, []⟩

variable (g : Geometry) (history : History)

def next : Operation → History
  | .access access => ⟨history.recency.touch g access,
      if history.recency.isHit g access then history.events
      else .fetch (g.index access) (g.tag access) :: history.events⟩
  | .flush => ⟨.new, .flush :: history.events⟩

/-- What the events leave in a set and a way if each fetch goes to the next way, whatever its set, and a flush
reaches the entries `cache[line * way]` only. -/
def held : List Event → Nat → Nat → Option (BitVec 32)
  | [], _, _ => none
  | .fetch fetched tag :: events, set, way =>
      if fetched = set ∧ Event.fetches events % g.ways.toNat = way then some tag else held events set way
  | .flush :: events, set, way => if g.slot set way ∈ g.flushEntries then none else held events set way

/-- A line is held exactly if it is among the recent ones of its set. Lines are held by their tags of 32 bits. -/
def KeepsRecent : Operation → Prop
  | .access access => (∃ way < g.ways.toNat, held g history.events (g.index access) way = some (g.tag access)) ↔
      history.recency.isHit g access = true
  | .flush => True

/-- Of the entries that hold something, those that are made invalid are the ones that are named. -/
def InvalidatesNamed (invalidation : Invalidation g) : Prop :=
  ∀ set < g.entriesPerWay, ∀ way < g.ways.toNat, (held g history.events set way).isSome = true →
    (g.slot set way ∈ invalidation.entries ↔ invalidation.Names set way)

end History

/-- A cache with the LRU policy, beside the recency lists. -/
structure Compared where
  assoc : Associative
  history : History

namespace Compared

def new : Compared := ⟨.new, .new⟩

variable (g : Geometry) (both : Compared)

def next (op : Operation) : Compared where
  assoc :=
    match op with
    | .access access => (both.assoc.isHit g access .lru 0).2
    | .flush => both.assoc.flush g
  history := both.history.next g op

/-- The access hits exactly if its line is among the recent ones. -/
def HitsRight : Operation → Prop
  | .access access => (both.assoc.isHit g access .lru 0).1 = both.history.recency.isHit g access
  | .flush => True

instance (op : Operation) : Decidable (both.HitsRight g op) := by
  cases op <;> unfold HitsRight <;> infer_instance

/-- Exactly the lines that are named are invalid afterwards, and no tag is changed. -/
def RemovesNamed (invalidation : Invalidation g) : Prop :=
  ∀ set < g.entriesPerWay, ∀ way < g.ways.toNat,
    ((invalidation.perform both.assoc).cache (g.slot set way)).tag = (both.assoc.cache (g.slot set way)).tag ∧
      (((invalidation.perform both.assoc).cache (g.slot set way)).valid = true ↔
        (both.assoc.cache (g.slot set way)).valid = true ∧ ¬ invalidation.Names set way)

end Compared

/-- The accesses of a history hit as the recency lists say, and the lines that are named after it are removed. -/
def ImplementsLRU (g : Geometry) (ops : List Operation) (invalidation : Option (Invalidation g)) : Prop :=
  Throughout (Compared.next g) (Compared.HitsRight g) .new ops ∧
    ∀ last ∈ invalidation, (ops.foldl (Compared.next g) .new).RemovesNamed g last

/-! ### The entries -/

section Entries

variable {g : Geometry} {assoc : Associative} {access : Access} {events : List Event}

theorem cache_clear (assoc : Associative) (entries : List Nat) (k : Nat) : (assoc.clear entries).cache k =
      if k ∈ entries then { assoc.cache k with valid := false } else assoc.cache k := by
  suffices h : ∀ cache : Nat → CacheEntry, entries.foldl
      (fun cache k => Function.update cache k { cache k with valid := false }) cache k =
        if k ∈ entries then { cache k with valid := false } else cache k from h assoc.cache
  induction entries with
  | nil => exact fun _ => (if_neg List.not_mem_nil).symm
  | cons entry entries ih =>
    intro cache
    rw [List.foldl_cons, ih]
    by_cases hSame : k = entry
    · subst hSame
      simp
    · simp [hSame]

theorem read_clear (assoc : Associative) (entries : List Nat) (k : Nat) :
    ((assoc.clear entries).cache k).read = if k ∈ entries then none else (assoc.cache k).read := by
  rw [cache_clear]
  split <;> rfl

theorem isSome_hitWay : (assoc.hitWay g access).isSome = true ↔
      ∃ way < g.ways.toNat, (assoc.cache (g.slot (g.index access) way)).read = some (g.tag access) := by
  rw [Associative.hitWay, List.find?_isSome]
  refine exists_congr fun way => and_congr List.mem_range ?_
  unfold CacheEntry.read
  cases (assoc.cache (g.slot (g.index access) way)).valid <;> simp

theorem fst_isHit (assoc : Associative) (access : Access) :
    (assoc.isHit g access .lru 0).1 = (assoc.hitWay g access).isSome := by
  unfold Associative.isHit
  cases assoc.hitWay g access <;> rfl

/-- How long it takes until a way is replaced if the next one is `next`. -/
def turn (ways next way : Nat) : Nat := if next ≤ way then way - next else way + ways - next

/-- The code holds what the events leave, and its ages are those of ways that are replaced in turn. -/
structure Agrees (g : Geometry) (assoc : Associative) (events : List Event) : Prop where
  ages : ∀ way < g.ways.toNat,
    (assoc.wayAges way).toNat = turn g.ways.toNat (Event.fetches events % g.ways.toNat) way
  entries : ∀ set < g.entriesPerWay, ∀ way < g.ways.toNat,
    (assoc.cache (g.slot set way)).read = History.held g events set way

theorem agrees_new (g : Geometry) : Agrees g .new [] where
  ages way hWay := by
    have hWays := g.ways.isLt
    simp only [Associative.new, BitVec.toNat_ofNat, Event.fetches, Nat.zero_mod, turn, Nat.zero_le, if_true]
    omega
  entries _ _ _ _ := rfl

/-- The loop over the ways ends with the one whose age is zero. -/
theorem foldl_range_ite {α : Type*} {p : Nat → Prop} [DecidablePred p] (f : Nat → α) {n k : Nat} (hk : k < n)
    (hOnly : ∀ i < n, p i ↔ i = k) (a : α) :
    (List.range n).foldl (fun found i => if p i then f i else found) a = f k := by
  induction n with
  | zero => omega
  | succ n ih =>
    rw [List.range_succ, List.foldl_append, List.foldl_cons, List.foldl_nil]
    by_cases hLast : n = k
    · rw [if_pos ((hOnly n (by omega)).mpr hLast), hLast]
    · rw [if_neg (mt (hOnly n (by omega)).mp hLast)]
      exact ih (by omega) fun i hi => hOnly i (by omega)

theorem turn_eq_zero_iff {ways next way : Nat} (hNext : next < ways) :
    turn ways next way = 0 ↔ way = next := by
  unfold turn
  split <;> omega

theorem Agrees.age_eq_zero_iff (hAgrees : Agrees g assoc events) {way : Nat} (hWay : way < g.ways.toNat) :
    assoc.wayAges way = 0 ↔ way = Event.fetches events % g.ways.toNat := by
  rw [← turn_eq_zero_iff (Nat.mod_lt _ g.ways_pos), ← hAgrees.ages way hWay]
  exact BitVec.toNat_inj.symm

theorem Agrees.lruVictim_eq (hAgrees : Agrees g assoc events) (access : Access) :
    assoc.lruVictim g access = g.slot (g.index access) (Event.fetches events % g.ways.toNat) :=
  foldl_range_ite (g.slot (g.index access)) (Nat.mod_lt _ g.ways_pos) (fun _ => hAgrees.age_eq_zero_iff) 0

/-- After a fetch, the next way is the oldest. -/
theorem turn_fetch {ways fetches way : Nat} (hWay : way < ways) : turn ways ((fetches + 1) % ways) way =
      if way = fetches % ways then ways - 1 else turn ways (fetches % ways) way - 1 := by
  have hNext : fetches % ways < ways := Nat.mod_lt _ (by omega)
  have hSucc : (fetches + 1) % ways = if fetches % ways + 1 = ways then 0 else fetches % ways + 1 := by
    rw [← Nat.mod_add_mod]
    split
    · rename_i hWrap
      rw [hWrap, Nat.mod_self]
    · exact Nat.mod_eq_of_lt (by omega)
  rw [hSucc]
  unfold turn
  split_ifs <;> omega

section

variable (hAgrees : Agrees g assoc events)
include hAgrees

theorem Agrees.aged {set : Nat} {tag : BitVec 32} {way : Nat} (hWay : way < g.ways.toNat) :
    ((assoc.aged g).wayAges way).toNat =
      turn g.ways.toNat (Event.fetches (.fetch set tag :: events) % g.ways.toNat) way := by
  have hLess := (assoc.wayAges way).isLt
  have hWays := g.ways.isLt
  have hAge := hAgrees.ages way hWay
  rw [Event.fetches, turn_fetch hWay]
  simp only [Associative.aged, if_pos hWay, hAgrees.age_eq_zero_iff hWay]
  split
  · rw [BitVec.toNat_sub_of_le (by rw [BitVec.le_def]; simp; omega)]
    rfl
  · rename_i hNot
    have hPos := mt (turn_eq_zero_iff (Nat.mod_lt _ g.ways_pos)).mp hNot
    rw [BitVec.toNat_sub_of_le (by rw [BitVec.le_def]; simp; omega), hAge]
    rfl

theorem Agrees.fetch (hMiss : (assoc.hitWay g access).isSome = false) :
    Agrees g (assoc.isHit g access .lru 0).2 (.fetch (g.index access) (g.tag access) :: events) := by
  have hAfter : (assoc.isHit g access .lru 0).2 = { assoc.aged g with
      cache := Function.update assoc.cache (assoc.lruVictim g access) ⟨true, g.tag access⟩ } := by
    unfold Associative.isHit
    rw [Option.isSome_eq_false_iff.mp hMiss |> Option.isNone_iff_eq_none.mp]
    rfl
  rw [hAfter]
  refine ⟨fun way hWay => hAgrees.aged hWay, fun set hSet way hWay => ?_⟩
  dsimp only
  rw [hAgrees.lruVictim_eq, Function.update_apply, History.held]
  simp only [Geometry.slot_inj hSet (g.index_lt access)]
  by_cases hHere : set = g.index access ∧ way = Event.fetches events % g.ways.toNat
  · rw [if_pos hHere, if_pos ⟨hHere.1.symm, hHere.2.symm⟩]
    rfl
  · rw [if_neg hHere, if_neg fun h => hHere ⟨h.1.symm, h.2.symm⟩]
    exact hAgrees.entries set hSet way hWay

theorem Agrees.hit (hHit : (assoc.hitWay g access).isSome = true) :
    Agrees g (assoc.isHit g access .lru 0).2 events := by
  obtain ⟨way, hWay⟩ := Option.isSome_iff_exists.mp hHit
  unfold Associative.isHit
  rw [hWay]
  exact ⟨hAgrees.ages, hAgrees.entries⟩

theorem Agrees.flush : Agrees g (assoc.flush g) (.flush :: events) := by
  refine ⟨hAgrees.ages, fun set hSet way hWay => ?_⟩
  rw [Associative.flush, read_clear, hAgrees.entries set hSet way hWay]
  rfl

theorem Agrees.hitsRight_iff : (assoc.hitWay g access).isSome = true ↔
      ∃ way < g.ways.toNat, History.held g events (g.index access) way = some (g.tag access) := by
  rw [isSome_hitWay]
  refine exists_congr fun way => and_congr_right fun hWay => ?_
  rw [hAgrees.entries _ (g.index_lt access) way hWay]

end

end Entries

/-! ### Histories -/

section Histories

variable {g : Geometry} {both : Compared}

theorem hitsRight_iff (hAgrees : Agrees g both.assoc both.history.events) (op : Operation) :
    both.HitsRight g op ↔ both.history.KeepsRecent g op := by
  cases op with
  | access access =>
    rw [Compared.HitsRight, History.KeepsRecent, fst_isHit, Bool.eq_iff_iff, hAgrees.hitsRight_iff]
  | flush => exact Iff.rfl

theorem agrees_next (hAgrees : Agrees g both.assoc both.history.events) {op : Operation}
    (hRight : both.HitsRight g op) : Agrees g (both.next g op).assoc (both.next g op).history.events := by
  cases op with
  | access access =>
    change Agrees g (both.assoc.isHit g access .lru 0).2 (if _ then _ else _)
    have hSame : (both.assoc.hitWay g access).isSome = both.history.recency.isHit g access :=
      (fst_isHit both.assoc access).symm.trans hRight
    rw [← hSame]
    cases hHit : (both.assoc.hitWay g access).isSome with
    | true => exact hAgrees.hit hHit
    | false => exact hAgrees.fetch hHit
  | flush => exact hAgrees.flush

theorem perform_eq_clear (assoc : Associative) (invalidation : Invalidation g) :
    invalidation.perform assoc = assoc.clear invalidation.entries := by
  cases invalidation <;> rfl

theorem removesNamed_iff (hAgrees : Agrees g both.assoc both.history.events) (invalidation : Invalidation g) :
    both.RemovesNamed g invalidation ↔ both.history.InvalidatesNamed g invalidation := by
  refine forall₄_congr fun set hSet way hWay => ?_
  have hValid : (History.held g both.history.events set way).isSome = true ↔
      (both.assoc.cache (g.slot set way)).valid = true := by
    rw [← hAgrees.entries set hSet way hWay, CacheEntry.read]
    split <;> simp_all
  rw [perform_eq_clear, cache_clear, hValid]
  by_cases hCleared : g.slot set way ∈ invalidation.entries
  · rw [if_pos hCleared]
    simp [hCleared]
  · rw [if_neg hCleared]
    simp [hCleared]

theorem history_foldl (ops : List Operation) (both : Compared) :
    (ops.foldl (Compared.next g) both).history = ops.foldl (History.next g) both.history := by
  induction ops generalizing both with
  | nil => rfl
  | cons op ops ih => exact ih _

end Histories

/-- A history goes by the recency lists exactly if at every access the line is held, by its tag and with the
ways replaced in turn, when it is among the recent ones, and not otherwise; and lines are removed as they are
named exactly if those are the entries in use among the ones that the code computes. -/
theorem implementsLRU_iff (g : Geometry) (ops : List Operation) (invalidation : Option (Invalidation g)) :
    ImplementsLRU g ops invalidation ↔ Throughout (History.next g) (History.KeepsRecent g) .new ops ∧
      ∀ last ∈ invalidation, (ops.foldl (History.next g) .new).InvalidatesNamed g last := by
  have hThroughout : Throughout (Compared.next g) (Compared.HitsRight g) .new ops ↔
      Throughout (History.next g) (History.KeepsRecent g) .new (ops.map id) := by
    refine throughout_simulation id
      (fun both history => both.history = history ∧ Agrees g both.assoc history.events) ?_ ?_ ⟨rfl, agrees_new g⟩
    · rintro both _ op - ⟨rfl, hAgrees⟩
      exact hitsRight_iff hAgrees op
    · rintro both _ op - ⟨rfl, hAgrees⟩ hRight
      exact ⟨rfl, agrees_next hAgrees hRight⟩
  rw [List.map_id] at hThroughout
  rw [← hThroughout]
  refine and_congr_right fun hRight => ?_
  let InStep (both : Compared) : Prop := Agrees g both.assoc both.history.events
  have hAgrees : InStep (ops.foldl (Compared.next g) .new) :=
    foldl_of_throughout (fun both op hAgrees hRight => agrees_next hAgrees hRight) hRight (agrees_new g)
  have hHistory := history_foldl (g := g) ops .new
  refine forall₂_congr fun last _ => (removesNamed_iff hAgrees last).trans ?_
  rw [hHistory]
  rfl

/-! ### Caches with one way -/

/-- Each set holds the line that was accessed last, and that line belongs to the set. -/
def HoldsLast (g : Geometry) (history : History) : Prop :=
  ∀ set, match history.recency set with
    | [] => History.held g history.events set 0 = none
    | line :: _ => History.held g history.events set 0 = some (BitVec.ofNat 32 (line / g.entriesPerWay)) ∧
        line % g.entriesPerWay = set ∧ line / g.entriesPerWay < 2 ^ 32

section DirectMapped

variable {g : Geometry} (hWays : g.ways.toNat = 1) (hTypes : g.indexType = g.tagType) {history : History}
  {access : Access} (hFits : g.line access / g.entriesPerWay < 2 ^ 32)

include hWays hTypes hFits

theorem HoldsLast.keepsRecent (hLast : HoldsLast g history) : history.KeepsRecent g (.access access) := by
  have hSet : g.line access % g.entriesPerWay = g.index access := by rw [Geometry.index, hTypes, Geometry.line]
  have hHere := hLast (g.index access)
  rw [History.KeepsRecent, hWays, Recency.isHit, hWays]
  simp only [Nat.lt_one_iff, exists_eq_left]
  cases hRecency : history.recency (g.index access) with
  | nil =>
    rw [hRecency] at hHere
    simp [hHere]
  | cons line rest =>
    rw [hRecency] at hHere
    obtain ⟨hHeld, hMod, hLess⟩ := hHere
    rw [hHeld, Geometry.tag, Option.some.injEq, BitVec.toNat_eq, BitVec.toNat_ofNat, BitVec.toNat_ofNat,
      Nat.mod_eq_of_lt hLess, Nat.mod_eq_of_lt hFits]
    simp only [List.take_succ_cons, List.take_zero, List.contains_iff_mem, List.mem_singleton]
    refine ⟨fun hTags => ?_, fun hLines => by rw [hLines]⟩
    rw [← Nat.div_add_mod (g.line access) g.entriesPerWay, ← Nat.div_add_mod line g.entriesPerWay, hSet, hMod, hTags]

theorem HoldsLast.next (hLast : HoldsLast g history) : HoldsLast g (history.next g (.access access)) := by
  have hSet : g.line access % g.entriesPerWay = g.index access := by rw [Geometry.index, hTypes, Geometry.line]
  have hKeeps := hLast.keepsRecent hWays hTypes hFits
  rw [History.KeepsRecent, hWays] at hKeeps
  simp only [Nat.lt_one_iff, exists_eq_left] at hKeeps
  intro set
  simp only [History.next, Recency.touch]
  by_cases hHere : set = g.index access
  · subst hHere
    rw [Function.update_self]
    refine ⟨?_, hSet, hFits⟩
    split
    · rename_i hHit
      exact hKeeps.mpr hHit
    · rw [History.held, hWays, Nat.mod_one, if_pos ⟨rfl, rfl⟩]
      rfl
  · have hOld : History.held g (if history.recency.isHit g access then history.events
        else .fetch (g.index access) (g.tag access) :: history.events) set 0 = History.held g history.events set 0 := by
      split
      · rfl
      · rw [History.held, if_neg fun h => hHere h.1.symm]
    rw [Function.update_of_ne hHere, hOld]
    exact hLast set

end DirectMapped

/-- A cache with one way goes by the recency lists for all accesses whose tags fit, if it is not flushed. -/
theorem keepsRecent_directMapped {g : Geometry} (hWays : g.ways.toNat = 1) (hTypes : g.indexType = g.tagType)
    {accesses : List Access} (hFits : ∀ access ∈ accesses, g.line access / g.entriesPerWay < 2 ^ 32) :
    Throughout (History.next g) (History.KeepsRecent g) .new (accesses.map .access) := by
  have hAll : Throughout (History.next g) (fun _ _ => True) .new (accesses.map .access) :=
    throughout_of_forall (fun _ _ _ => trivial) _
  refine (throughout_congr_of_mem (HoldsLast g) (fun history op hMem hLast => ?_)
    (fun history op hMem hLast _ => ?_) (fun _ => rfl)).mp hAll
  · obtain ⟨access, hAccess, rfl⟩ := List.mem_map.mp hMem
    exact iff_of_true trivial (hLast.keepsRecent hWays hTypes (hFits access hAccess))
  · obtain ⟨access, hAccess, rfl⟩ := List.mem_map.mp hMem
    exact hLast.next hWays hTypes (hFits access hAccess)

/-- One set of two ways with lines of 32 bytes. -/
def twoWays : Geometry where
  size := 64
  ways := 2
  linesize := 32
  indexType := .physical
  tagType := .physical
  linesize_pos := by decide
  entriesPerWay_pos := by decide

/-- A line that was used again is replaced before the one that was not. -/
theorem hit_does_not_renew : ¬ ImplementsLRU twoWays
    ([0, 32, 0, 64, 0].map fun address => .access ⟨address, address⟩) none := by
  rintro ⟨hHits, -⟩
  revert hHits
  decide

end Gensim.Uarch
