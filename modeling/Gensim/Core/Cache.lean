import Mathlib.Tactic

/-! The two-way cache template `archsim::util::Cache`, at its default size. `try_cache_fetch` gives its
caller a pointer to a way: on a hit to the way `hitWay` names, and on a miss to the way that `fill`
tags with the key, where the caller is to store the value. -/
namespace Gensim.Core

variable {T U : Type*}

structure CacheEntry (T : Type*) where
  tags : Fin 2 → Nat
  ways : Fin 2 → T

structure Cache (T : Type*) where
  cache : Nat → CacheEntry T
  lru : Fin 2

namespace Cache

def size : Nat := 8192

/-- A cache as it is constructed: every tag is 1. -/
def new (empty : T) : Cache T := ⟨fun _ => ⟨fun _ => 1, fun _ => empty⟩, 0⟩

/-- The hash of an integer is the integer. -/
def index (key : Nat) : Nat := key &&& (size - 1)

variable (cache : Cache T) (key : Nat)

/-- The way that has the key. -/
def hitWay : Option (Fin 2) :=
  if (cache.cache (index key)).tags 0 = key then some 0
  else if (cache.cache (index key)).tags 1 = key then some 1
  else none

/-- The value a hit leads to. -/
def value (way : Fin 2) : T := (cache.cache (index key)).ways way

/-- A miss: the way whose turn it is gets the key, and the value that the caller stores. -/
def fill (value : T) : Cache T where
  cache := Function.update cache.cache (index key)
    ⟨Function.update (cache.cache (index key)).tags cache.lru key,
      Function.update (cache.cache (index key)).ways cache.lru value⟩
  lru := 1 - cache.lru

/-- The entries with other values under the same tags. -/
def map (f : T → U) : Cache U := ⟨fun i => ⟨(cache.cache i).tags, fun way => f ((cache.cache i).ways way)⟩, cache.lru⟩

/-- A fetch that finds the key, or fills a way for it. -/
def fetch (value : T) : Cache T :=
  match cache.hitWay key with
  | some _ => cache
  | none => cache.fill key value

variable {cache key}

@[simp] theorem hitWay_map (f : T → U) : (cache.map f).hitWay key = cache.hitWay key := rfl

@[simp] theorem value_map (f : T → U) (way : Fin 2) : (cache.map f).value key way = f (cache.value key way) := rfl

theorem fill_map (f : T → U) (value : T) : (cache.fill key value).map f = (cache.map f).fill key (f value) := by
  unfold fill map
  congr 1
  funext i
  by_cases hIndex : i = index key
  · subst hIndex
    simp only [Function.update_self]
    congr 1
    funext way
    exact Function.apply_update (fun _ => f) _ _ _ _
  · simp [Function.update_of_ne hIndex]

/-- A hit is a way that has the key, the first one if both do. -/
theorem hitWay_eq_some {way : Fin 2} (hHit : cache.hitWay key = some way) :
    (cache.cache (index key)).tags way = key := by
  unfold hitWay at hHit
  split at hHit
  next hTag => exact Option.some.inj hHit ▸ hTag
  next =>
    split at hHit
    next hTag => exact Option.some.inj hHit ▸ hTag
    next => cases hHit

theorem hitWay_eq_none (hMiss : cache.hitWay key = none) (way : Fin 2) : (cache.cache (index key)).tags way ≠ key := by
  unfold hitWay at hMiss
  split at hMiss
  · cases hMiss
  next hFirst =>
    split at hMiss
    · cases hMiss
    next hSecond =>
      fin_cases way
      · exact hFirst
      · exact hSecond

/-- What holds of every way before a miss, and of the way that is filled, holds of every way after. -/
theorem forall_fill {Good : Nat → Nat → T → Prop} {value : T} (hNew : Good (index key) key value)
    (hOld : ∀ i way, Good i ((cache.cache i).tags way) ((cache.cache i).ways way)) (i : Nat) (way : Fin 2) :
    Good i (((cache.fill key value).cache i).tags way) (((cache.fill key value).cache i).ways way) := by
  unfold fill
  by_cases hIndex : i = index key
  · subst hIndex
    simp only [Function.update_self]
    by_cases hWay : way = cache.lru
    · subst hWay
      simpa using hNew
    · simpa [Function.update_of_ne hWay] using hOld (index key) way
  · simpa [Function.update_of_ne hIndex] using hOld i way

/-- What holds of both values of an entry before a miss, and of the value that is filled, holds of
both after it. -/
theorem forall_value_fill {Good : T → Prop} {value : T} {other : Nat} (hNew : Good value)
    (hOld : ∀ way, Good (cache.value other way)) (way : Fin 2) : Good ((cache.fill key value).value other way) := by
  have hEntry (i : Nat) (way : Fin 2) (hIndex : i = index other) : Good ((cache.cache i).ways way) := hIndex ▸ hOld way
  have hNewEntry (_ : index key = index other) : Good value := hNew
  exact @forall_fill T cache key (fun i _ value => i = index other → Good value) value hNewEntry hEntry
    (index other) way rfl

end Cache

end Gensim.Core
