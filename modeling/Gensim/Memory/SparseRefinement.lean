import Gensim.Memory.SparseMemoryModel

/-! The sparse memory refines a byte array, but for the page whose number is the tag of the ways that
were never filled. -/
namespace Gensim.Memory.SparseMemoryModel

open Core Operations

variable {memory : SparseMemoryModel} {pages : Finset Nat} {page : Nat}

/-- The byte the memory has at an address. -/
def contents (memory : SparseMemoryModel) : ByteArray64 := fun address =>
  match memory.data address.getPageIndex with
  | some pointer => memory.heap pointer address.getPageOffset
  | none => 0

variable {address : Address} {pointer : Nat}

theorem contents_of_mapped (hData : memory.data address.getPageIndex = some pointer) :
    memory.contents address = memory.heap pointer address.getPageOffset := by
  rw [contents, hData]

theorem contents_of_unmapped (hData : memory.data address.getPageIndex = none) : memory.contents address = 0 := by
  rw [contents, hData]

/-- A way is as constructed, or has the pointer of the page it is tagged with. -/
def WayOk (data : Nat → Option Nat) (i tag : Nat) (value : Option Nat) : Prop :=
  tag = 1 ∧ value = none ∨ Cache.index tag = i ∧ value.isSome = true ∧ data tag = value

/-- The memory is coherent and has made no pages outside a set. -/
structure Coherent (pages : Finset Nat) (memory : SparseMemoryModel) : Prop where
  ways : ∀ i way, WayOk memory.data i ((memory.cache.cache i).tags way) ((memory.cache.cache i).ways way)
  first : (memory.data 1).isSome = true → ∀ way, (memory.cache.value 1 way).isSome = true
  known : ∀ page pointer, memory.data page = some pointer → pointer < memory.mapped
  inj : ∀ page other pointer, memory.data page = some pointer → memory.data other = some pointer →
    page = other
  within : ∀ page, (memory.data page).isSome = true → page ∈ pages
  budget : memory.pagesRemaining + (pages.filter fun page => (memory.data page).isSome = true).card =
    pageBudget

theorem coherent_new : Coherent pages new where
  ways _ _ := .inl ⟨rfl, rfl⟩
  first := nofun
  known _ _ := nofun
  inj _ _ _ := nofun
  within _ := nofun
  budget := by simp [new]

/-- The cache does not answer for the page with a way that was never filled. -/
def Answered (filled : Cache Bool) (page : Nat) : Prop :=
  page = 1 → ∀ way, filled.value 1 way = true

def filledWays (memory : SparseMemoryModel) : Cache Bool := memory.cache.map Option.isSome

/-- What a page look-up leaves of the memory: the page is there now, and the bytes are the same. -/
structure Found (pages : Finset Nat) (memory : SparseMemoryModel) (page pointer : Nat)
    (after : SparseMemoryModel) : Prop where
  coherent : Coherent pages after
  data : after.data page = some pointer
  contents : after.contents = memory.contents
  filled : after.filledWays = memory.filledWays.fetch page true

section

variable (hCoherent : Coherent pages memory)
include hCoherent

theorem contents_mapPage (hNone : memory.data page = none) : (memory.mapPage page).contents = memory.contents := by
  funext address
  unfold contents mapPage
  dsimp only
  rw [Function.update_apply]
  by_cases hPage : address.getPageIndex = page
  · simp [hPage, hNone]
  · rw [if_neg hPage]
    cases hData : memory.data address.getPageIndex with
    | none => rfl
    | some pointer =>
      have hOld : pointer ≠ memory.mapped := (hCoherent.known _ pointer hData).ne
      simp [Function.update_of_ne hOld]

theorem coherent_fill (hData : memory.data page = some pointer) :
    Coherent pages { memory with cache := memory.cache.fill page (some pointer) } where
  ways := Cache.forall_fill (.inr ⟨rfl, rfl, hData⟩) hCoherent.ways
  first hMapped := @Cache.forall_value_fill _ memory.cache page (fun value => value.isSome = true) _ 1 rfl
      (hCoherent.first hMapped)
  known := hCoherent.known
  inj := hCoherent.inj
  within := hCoherent.within
  budget := hCoherent.budget

/-- A miss on the page of the tag that unfilled ways have says that its ways are filled. -/
theorem filled_of_miss (hMiss : memory.cache.hitWay page = none) (hPage : page = 1) (way : Fin 2) :
    (memory.cache.value 1 way).isSome = true := by
  subst hPage
  rcases hCoherent.ways (Cache.index 1) way with ⟨hTag, -⟩ | ⟨-, hSome, -⟩
  · exact absurd hTag (Cache.hitWay_eq_none hMiss way)
  · exact hSome

end

theorem data_mapPage (memory : SparseMemoryModel) (page other : Nat) :
    (memory.mapPage page).data other = if other = page then some memory.mapped else memory.data other :=
  Function.update_apply ..

theorem filter_mapPage (hMem : page ∈ pages) (hNone : memory.data page = none) :
    (pages.filter fun page' => ((memory.mapPage page).data page').isSome = true).card =
      (pages.filter fun page' => (memory.data page').isSome = true).card + 1 := by
  have hOut : page ∉ pages.filter fun page' => (memory.data page').isSome = true := by simp [hNone]
  rw [← Finset.card_insert_of_notMem hOut]
  congr 1
  ext other
  simp only [Finset.mem_filter, Finset.mem_insert, data_mapPage]
  by_cases hOther : other = page
  · simp [hOther, hMem]
  · simp [hOther]

section

variable (hCoherent : Coherent pages memory)
include hCoherent

theorem coherent_mapPage (hMem : page ∈ pages) (hNone : memory.data page = none)
    (hMiss : memory.cache.hitWay page = none) (hLeft : memory.pagesRemaining ≠ 0) :
    Coherent pages (memory.mapPage page) where
  ways i way := by
    rcases hCoherent.ways i way with hNew | ⟨hIndex, hSome, hData⟩
    · exact .inl hNew
    · refine .inr ⟨hIndex, hSome, ?_⟩
      rw [data_mapPage, if_neg]
      · exact hData
      · intro hTag
        change (memory.cache.cache i).tags way = page at hTag
        rw [hTag, hNone] at hData
        change ((memory.cache.cache i).ways way).isSome = true at hSome
        rw [← hData] at hSome
        cases hSome
  first hMapped := by
    rw [data_mapPage] at hMapped
    split at hMapped
    next hPage =>
      have hFilled := filled_of_miss hCoherent hMiss hPage.symm
      exact hFilled
    next => exact hCoherent.first hMapped
  known other pointer hData := by
    rw [data_mapPage] at hData
    split at hData
    next => exact Option.some.inj hData ▸ Nat.lt_succ_self _
    next => exact Nat.lt_succ_of_lt (hCoherent.known other pointer hData)
  inj other another pointer hOther hAnother := by
    rw [data_mapPage] at hOther hAnother
    split at hOther <;> split at hAnother
    next hLeft hRight => exact hLeft.trans hRight.symm
    next => exact absurd (Option.some.inj hOther) (hCoherent.known _ _ hAnother).ne'
    next => exact absurd (Option.some.inj hAnother) (hCoherent.known _ _ hOther).ne'
    next => exact hCoherent.inj other another pointer hOther hAnother
  within other hSome := by
    rw [data_mapPage] at hSome
    split at hSome
    next hPage => exact hPage ▸ hMem
    next => exact hCoherent.within other hSome
  budget := by
    have hBudget := hCoherent.budget
    rw [filter_mapPage hMem hNone]
    change memory.pagesRemaining - 1 + _ = _
    omega

section

variable (hBudget : pages.card ≤ pageBudget)
include hBudget

/-- The budget lasts while the pages that are looked up are no more than it. -/
theorem pagesRemaining_ne_zero (hMem : page ∈ pages) (hNone : memory.data page = none) : memory.pagesRemaining ≠ 0 := by
  have hLess : (pages.filter fun page' => (memory.data page').isSome = true).card < pages.card := by
    refine Finset.card_lt_card (Finset.filter_ssubset.mpr ⟨page, hMem, ?_⟩)
    simp [hNone]
  have hTotal := hCoherent.budget
  omega

/-- The page is found where the page map is asked. -/
theorem getPage_of_miss (hMem : page ∈ pages) (hMiss : memory.cache.hitWay page = none) :
    ∃ pointer after, memory.getPage page = .ok (pointer, after) ∧ Found pages memory page pointer after := by
  have hFetch (value : Bool) : memory.filledWays.fetch page value = memory.filledWays.fill page value := by
    simp [Cache.fetch, filledWays, hMiss]
  cases hData : memory.data page with
  | some pointer =>
    refine ⟨pointer, _, ?_, coherent_fill hCoherent hData, hData, rfl, ?_⟩
    · simp [getPage, hMiss, getPageUncached, hData, bind, Except.bind]
    · rw [hFetch]
      exact Cache.fill_map ..
  | none =>
    have hLeft := pagesRemaining_ne_zero hCoherent hBudget hMem hData
    have hMapped : (memory.mapPage page).data page = some memory.mapped := by simp [data_mapPage]
    refine ⟨memory.mapped, _, ?_, coherent_fill (coherent_mapPage hCoherent hMem hData hMiss hLeft) hMapped, hMapped,
      contents_mapPage hCoherent hData, ?_⟩
    · simp [getPage, hMiss, getPageUncached, hData, hLeft, bind, Except.bind]
    · rw [hFetch]
      exact Cache.fill_map ..

theorem getPage_of_answered (hMem : page ∈ pages) (hAnswered : Answered memory.filledWays page) :
    ∃ pointer after, memory.getPage page = .ok (pointer, after) ∧ Found pages memory page pointer after := by
  cases hHit : memory.cache.hitWay page with
  | none => exact getPage_of_miss hCoherent hBudget hMem hHit
  | some way =>
    have hTag := Cache.hitWay_eq_some hHit
    have hSome : (memory.cache.value page way).isSome = true := by
      rcases hCoherent.ways (Cache.index page) way with ⟨hOne, -⟩ | ⟨-, hSome, -⟩
      · have hPage : page = 1 := hTag.symm.trans hOne
        have hFilled := hAnswered hPage way
        rwa [hPage]
      · exact hSome
    obtain ⟨pointer, hPointer⟩ := Option.isSome_iff_exists.mp hSome
    refine ⟨pointer, memory, ?_, hCoherent, ?_, rfl, ?_⟩
    · simp [getPage, hHit, hPointer]
    · rcases hCoherent.ways (Cache.index page) way with ⟨-, hNone⟩ | ⟨-, -, hData⟩
      · exact absurd (hPointer.symm.trans hNone) nofun
      · rw [hTag] at hData
        exact hData.trans hPointer
    · simp [Cache.fetch, filledWays, hHit]

end

/-- The cache hits a way that was never filled. -/
theorem getPage_of_not_answered (hAnswered : ¬ Answered memory.filledWays page) :
    memory.getPage page = .error .nullPointer := by
  obtain ⟨rfl, hUnfilled⟩ := Classical.not_imp.mp hAnswered
  obtain ⟨way, hWay⟩ := not_forall.mp hUnfilled
  have hUnmapped : memory.data 1 = none := by
    cases hData : memory.data 1 with
    | none => rfl
    | some pointer => exact absurd (hCoherent.first (by simp [hData]) way) hWay
  cases hHit : memory.cache.hitWay 1 with
  | none => exact absurd (filled_of_miss hCoherent hHit rfl way) hWay
  | some hit =>
    have hTag := Cache.hitWay_eq_some hHit
    have hNone : memory.cache.value 1 hit = none := by
      rcases hCoherent.ways (Cache.index 1) hit with ⟨-, hNone⟩ | ⟨-, -, hData⟩
      · exact hNone
      · rw [hTag, hUnmapped] at hData
        exact hData.symm
    simp [getPage, hHit, hNone]

end

/-! ## An access within a page -/

variable {address : Address} {readable : Address → Bool}

/-- An access ends in the page it starts in. -/
def InPage (part : Address × Access) : Prop :=
  part.1.getPageOffset + part.2.size ≤ Address.pageSize

theorem coherent_store (hCoherent : Coherent pages memory) (pointer offset : Nat) (bytes : List Byte) :
    Coherent pages (memory.store pointer offset bytes) :=
  ⟨hCoherent.ways, hCoherent.first, hCoherent.known, hCoherent.inj, hCoherent.within, hCoherent.budget⟩

/-- An address in a page that has `offset` before it, by its distance to another one. -/
theorem toNat_sub_of_samePage {other : Address} (hIndex : other.getPageIndex = address.getPageIndex)
    (hLe : address.getPageOffset ≤ other.getPageOffset) :
    (other - address).toNat = other.getPageOffset - address.getPageOffset := by
  have hOther := other.toNat_eq
  have hAddress := address.toNat_eq
  rw [BitVec.toNat_sub_of_le]
  · rw [hOther, hAddress, hIndex]
    omega
  · rw [BitVec.le_def, hOther, hAddress, hIndex]
    omega

/-- An address that an access within a page reaches is in that page, not before the first one. -/
theorem samePage_of_reached {other : Address} {size : Nat}
    (hInPage : address.getPageOffset + size ≤ Address.pageSize) (hLt : (other - address).toNat < size) :
    other.getPageIndex = address.getPageIndex ∧ address.getPageOffset ≤ other.getPageOffset := by
  have hOther : address + BitVec.ofNat 64 (other - address).toNat = other := by
    rw [BitVec.ofNat_toNat, BitVec.setWidth_eq, BitVec.add_comm, BitVec.sub_add_cancel]
  have hReach : address.getPageOffset + (other - address).toNat < Address.pageSize := by omega
  have hIndex := Address.getPageIndex_add hReach
  have hOffset := Address.getPageOffset_add hReach
  rw [hOther] at hIndex hOffset
  exact ⟨hIndex, hOffset ▸ Nat.le_add_right ..⟩

variable {bytes : List Byte}

theorem contents_store (hCoherent : Coherent pages memory) (hData : memory.data address.getPageIndex = some pointer)
    (hInPage : address.getPageOffset + bytes.length ≤ Address.pageSize) :
    (memory.store pointer address.getPageOffset bytes).contents = memory.contents.after address (.write bytes) := by
  funext other
  change _ = (bytes[(other - address).toNat]?).getD (memory.contents other)
  have hSame (found : Option Nat) (hOther : memory.data other.getPageIndex = found) :
      (memory.store pointer address.getPageOffset bytes).data other.getPageIndex = found := hOther
  by_cases hPage : other.getPageIndex = address.getPageIndex
  · have hOther : memory.data other.getPageIndex = some pointer := hPage ▸ hData
    rw [contents_of_mapped hOther, contents_of_mapped (hSame _ hOther), store]
    simp only [Function.update_self]
    by_cases hLe : address.getPageOffset ≤ other.getPageOffset
    · rw [if_pos hLe, toNat_sub_of_samePage hPage hLe]
    · have hOut : bytes.length ≤ (other - address).toNat := by
        by_contra hLt
        exact hLe (samePage_of_reached hInPage (not_le.mp hLt)).2
      rw [if_neg hLe, List.getElem?_eq_none hOut, Option.getD_none]
  · have hOut : bytes.length ≤ (other - address).toNat := by
      by_contra hLt
      exact hPage (samePage_of_reached hInPage (not_le.mp hLt)).1
    rw [List.getElem?_eq_none hOut, Option.getD_none]
    cases hOther : memory.data other.getPageIndex with
    | none => exact (contents_of_unmapped (hSame _ hOther)).trans (contents_of_unmapped hOther).symm
    | some p =>
      have hNe : p ≠ pointer := fun hEq => hPage (hCoherent.inj _ _ pointer (hEq ▸ hOther) hData)
      rw [contents_of_mapped hOther, contents_of_mapped (hSame _ hOther), store]
      simp only [Function.update_of_ne hNe]

theorem load_eq {pointer size : Nat} (hData : memory.data address.getPageIndex = some pointer)
    (hInPage : address.getPageOffset + size ≤ Address.pageSize) :
    memory.load pointer address.getPageOffset size = memory.contents.expected address (.read size) := by
  refine List.map_congr_left fun i hMem => ?_
  have hReach : address.getPageOffset + i < Address.pageSize := by
    have hLt := List.mem_range.mp hMem
    omega
  rw [contents_of_mapped (Address.getPageIndex_add hReach ▸ hData), Address.getPageOffset_add hReach]

/-! ## Accesses one after the other -/

/-- What an access gives: the status, the bytes read and the memory after it. -/
abbrev Outcome := Except Fault (Nat × List Byte × SparseMemoryModel)

/-- The memory next to the byte array it stands for. -/
abbrev State := SparseMemoryModel × ByteArray64

variable (run : SparseMemoryModel → Address → Access → Outcome) (s : State) (op : Address × Access)

def advance : State :=
  (match run s.1 op.1 op.2 with
    | .ok (_, _, after) => after
    | .error _ => s.1, s.2.after op.1 op.2)

/-- The access returns 0, and a read the bytes of the array. -/
def Right : Prop := ∃ after, run s.1 op.1 op.2 = .ok (0, s.2.expected op.1 op.2, after)

/-- The memory and the cache of which ways are filled, along with the byte array. -/
def Related (pages : Finset Nat) (s : State) (filled : Cache Bool) : Prop :=
  Coherent pages s.1 ∧ s.1.contents = s.2 ∧ s.1.filledWays = filled

theorem related_new : Related pages (new, fun _ => 0) (Cache.new false) := ⟨coherent_new, rfl, rfl⟩

variable {run s op} {after : SparseMemoryModel}

theorem advance_of_ok {status : Nat} (hRun : run s.1 op.1 op.2 = .ok (status, bytes, after)) :
    advance run s op = (after, s.2.after op.1 op.2) := by
  rw [advance, hRun]

/-- What the memory is asked for within a page. -/
structure Asked (readable : Address → Bool) (pages : Finset Nat) (op : Address × Access) : Prop where
  inPage : InPage op
  mem : op.1.getPageIndex ∈ pages
  readable : ∀ size, op.2 = .read size → readable op.1 = true

section

variable (hAsked : Asked readable pages op)
include hAsked

theorem accessPage_of_found (hPage : memory.getPage op.1.getPageIndex = .ok (pointer, after))
    (hFound : Found pages memory op.1.getPageIndex pointer after) :
    ∃ final, memory.accessPage readable op.1 op.2 = .ok (0, memory.contents.expected op.1 op.2, final) ∧
      Related pages (final, memory.contents.after op.1 op.2) (memory.filledWays.fetch op.1.getPageIndex true) := by
  obtain ⟨address, access⟩ := op
  cases access with
  | write bytes =>
    refine ⟨after.store pointer address.getPageOffset bytes, ?_, coherent_store hFound.coherent .., ?_, hFound.filled⟩
    · simp only [accessPage, hPage, bind, Except.bind, ByteArray64.expected]
    · rw [← hFound.contents]
      exact contents_store hFound.coherent hFound.data hAsked.inPage
  | read size =>
    refine ⟨after, ?_, hFound.coherent, hFound.contents, hFound.filled⟩
    have hLoad : after.load pointer address.getPageOffset size =
        after.contents.expected address (.read size) := load_eq hFound.data hAsked.inPage
    rw [← hFound.contents]
    simp only [accessPage, if_pos (hAsked.readable size rfl), hPage, bind, Except.bind, hLoad]

theorem accessPage_of_error (hPage : memory.getPage op.1.getPageIndex = .error .nullPointer) :
    memory.accessPage readable op.1 op.2 = .error .nullPointer := by
  obtain ⟨address, access⟩ := op
  cases access with
  | write bytes => simp only [accessPage, hPage, bind, Except.bind]
  | read size => simp only [accessPage, if_pos (hAsked.readable size rfl), hPage, bind, Except.bind]

/-- Within a page an access is right exactly when the cache answers for the page. -/
theorem right_part_iff {filled : Cache Bool} (hBudget : pages.card ≤ pageBudget) (hRelated : Related pages s filled) :
    Right (accessPage readable) s op ↔ Answered filled op.1.getPageIndex := by
  obtain ⟨hCoherent, hContents, hFilled⟩ := hRelated
  constructor
  · intro ⟨after, hRight⟩
    by_contra hAnswered
    rw [← hFilled] at hAnswered
    rw [accessPage_of_error hAsked (getPage_of_not_answered hCoherent hAnswered)] at hRight
    cases hRight
  · intro hAnswered
    rw [← hFilled] at hAnswered
    obtain ⟨pointer, after, hPage, hFound⟩ := getPage_of_answered hCoherent hBudget hAsked.mem hAnswered
    obtain ⟨final, hFinal, -⟩ := accessPage_of_found hAsked hPage hFound
    exact ⟨final, hContents ▸ hFinal⟩

theorem related_advance_part {filled : Cache Bool} (hBudget : pages.card ≤ pageBudget)
    (hRelated : Related pages s filled) (hRight : Right (accessPage readable) s op) :
    Related pages (advance (accessPage readable) s op) (filled.fetch op.1.getPageIndex true) := by
  have hAnswered := (right_part_iff hAsked hBudget hRelated).mp hRight
  obtain ⟨hCoherent, hContents, hFilled⟩ := hRelated
  rw [← hFilled] at hAnswered ⊢
  obtain ⟨pointer, after, hPage, hFound⟩ := getPage_of_answered hCoherent hBudget hAsked.mem hAnswered
  obtain ⟨final, hFinal, hAfter⟩ := accessPage_of_found hAsked hPage hFound
  rw [advance_of_ok hFinal, ← hContents]
  exact hAfter

end

/-! ## An access as its parts -/

/-- The bytes that reads one after the other return. -/
def expectedOf (array : ByteArray64) : List (Address × Access) → List Byte
  | [] => []
  | part :: rest => array.expected part.1 part.2 ++ expectedOf (array.after part.1 part.2) rest

theorem length_of_accessPage (array : ByteArray64)
    (hRun : memory.accessPage readable op.1 op.2 = .ok (0, bytes, after)) :
    bytes.length = (array.expected op.1 op.2).length := by
  obtain ⟨address, access⟩ := op
  cases access with
  | write data =>
    simp only [accessPage, bind, Except.bind] at hRun
    split at hRun
    · cases hRun
    · cases hRun
      rfl
  | read size =>
    simp only [accessPage, bind, Except.bind] at hRun
    split at hRun
    · split at hRun
      · cases hRun
      · cases hRun
        simp [load, ByteArray64.expected]
    · cases hRun

variable {ops : List (Address × Access)}

/-- The parts are right, each in the state that the ones before it lead to, when the bytes together
are. -/
theorem accessParts_right_iff {s : State} :
    (∃ after, accessParts readable ops s.1 = .ok (0, expectedOf s.2 ops, after)) ↔
      Throughout (advance (accessPage readable)) (Right (accessPage readable)) s ops := by
  induction ops generalizing s with
  | nil => simp [accessParts, expectedOf]
  | cons op ops ih =>
    rw [throughout_cons, ← ih]
    constructor
    · intro ⟨after, hRun⟩
      cases hFirst : s.1.accessPage readable op.1 op.2 with
      | error fault =>
        simp only [accessParts, hFirst, bind, Except.bind] at hRun
        cases hRun
      | ok result =>
        obtain ⟨status, bytes, middle⟩ := result
        simp only [accessParts, hFirst, bind, Except.bind] at hRun
        split at hRun
        next hStatus => exact absurd (congrArg Prod.fst (Except.ok.inj hRun)) hStatus
        next hStatus =>
          obtain rfl := not_not.mp hStatus
          split at hRun
          · cases hRun
          next final hRest =>
            obtain ⟨status, more, final⟩ := final
            simp only [Except.ok.injEq, Prod.mk.injEq, expectedOf] at hRun
            obtain ⟨rfl, hBytes, -⟩ := hRun
            obtain ⟨rfl, rfl⟩ := List.append_inj hBytes (length_of_accessPage s.2 hFirst)
            rw [advance_of_ok hFirst]
            exact ⟨⟨middle, hFirst⟩, final, hRest⟩
    · intro ⟨⟨middle, hFirst⟩, after, hRest⟩
      rw [advance_of_ok hFirst] at hRest
      refine ⟨after, ?_⟩
      simp only [accessParts, hFirst, bind, Except.bind, expectedOf, hRest, ne_eq, not_true_eq_false, if_false]

theorem accessParts_advance {s : State}
    (hRight : Throughout (advance (accessPage readable)) (Right (accessPage readable)) s ops) :
    ∃ bytes, accessParts readable ops s.1 = .ok (0, bytes, (ops.foldl (advance (accessPage readable)) s).1) := by
  induction ops generalizing s with
  | nil => exact ⟨[], rfl⟩
  | cons op ops ih =>
    obtain ⟨⟨middle, hFirst⟩, hRest⟩ := hRight
    obtain ⟨bytes, hRun⟩ := ih hRest
    rw [advance_of_ok hFirst] at hRun
    refine ⟨s.2.expected op.1 op.2 ++ bytes, ?_⟩
    rw [List.foldl_cons, advance_of_ok hFirst]
    simp only [accessParts, hFirst, bind, Except.bind, hRun, ne_eq, not_true_eq_false, if_false]

theorem foldl_advance_snd (ops : List (Address × Access)) (s : State) :
    (ops.foldl (advance run) s).2 = ops.foldl (fun array op => array.after op.1 op.2) s.2 := by
  induction ops generalizing s with
  | nil => rfl
  | cons op ops ih => exact ih _

theorem expectedOf_reads (array : ByteArray64) (address : Address) (indices : List Nat) :
    expectedOf array (indices.map fun i => (address + BitVec.ofNat 64 i, .read 1)) =
      indices.map fun i => array (address + BitVec.ofNat 64 i) := by
  induction indices with
  | nil => rfl
  | cons i indices ih =>
    simp only [List.map_cons, expectedOf, ByteArray64.after, ih]
    simp [ByteArray64.expected]

theorem expectedOf_writes (array : ByteArray64) (hWrites : ∀ op ∈ ops, ∃ bytes, op.2 = .write bytes) :
    expectedOf array ops = [] := by
  induction ops generalizing array with
  | nil => rfl
  | cons op ops ih =>
    obtain ⟨bytes, hWrite⟩ := hWrites op List.mem_cons_self
    rw [expectedOf, ih _ fun op hMem => hWrites op (List.mem_cons_of_mem _ hMem), hWrite]
    rfl

theorem expectedOf_bytewise (array : ByteArray64) (address : Address) (access : Access) :
    expectedOf array (bytewise address access) = array.expected address access := by
  cases access with
  | write bytes =>
    refine expectedOf_writes array fun op hMem => ?_
    obtain ⟨i, hLt, rfl⟩ := List.mem_mapIdx.mp hMem
    exact ⟨_, rfl⟩
  | read size => exact expectedOf_reads array address _

/-- A byte written after those before it. -/
theorem after_concat (array : ByteArray64) (address : Address) (byte : Byte) (hLength : bytes.length < 2 ^ 64) :
    (array.after address (.write bytes)).after (address + BitVec.ofNat 64 bytes.length) (.write [byte]) =
      array.after address (.write (bytes ++ [byte])) := by
  funext other
  simp only [ByteArray64.after]
  by_cases hAt : (other - address).toNat = bytes.length
  · have hOther : other = address + BitVec.ofNat 64 bytes.length := by
      rw [← hAt, BitVec.ofNat_toNat, BitVec.setWidth_eq, BitVec.add_comm, BitVec.sub_add_cancel]
    rw [hAt, ← hOther, BitVec.sub_self]
    simp
  · have hApart : other - (address + BitVec.ofNat 64 bytes.length) ≠ 0#64 := by
      intro hZero
      have hOther := BitVec.sub_add_cancel other (address + BitVec.ofNat 64 bytes.length)
      rw [hZero, BitVec.zero_add] at hOther
      rw [← hOther, BitVec.add_comm, BitVec.add_sub_cancel, BitVec.toNat_ofNat, Nat.mod_eq_of_lt hLength] at hAt
      exact hAt rfl
    have hPositive : [byte].length ≤ (other - (address + BitVec.ofNat 64 bytes.length)).toNat :=
      Nat.one_le_iff_ne_zero.mpr fun hZero => hApart (BitVec.eq_of_toNat_eq hZero)
    rw [List.getElem?_eq_none hPositive, Option.getD_none]
    rcases Nat.lt_or_ge (other - address).toNat bytes.length with hLt | hGe
    · rw [List.getElem?_append_left hLt]
    · have hEnd : (bytes ++ [byte]).length ≤ (other - address).toNat := by
        rw [List.length_append]
        exact Nat.succ_le_of_lt (lt_of_le_of_ne hGe (Ne.symm hAt))
      rw [List.getElem?_eq_none hEnd, List.getElem?_eq_none hGe]

theorem foldl_after_writes (array : ByteArray64) (address : Address) (hLength : bytes.length < 2 ^ 64) :
    (bytewise address (.write bytes)).foldl (fun array op => array.after op.1 op.2) array =
      array.after address (.write bytes) := by
  induction bytes using List.reverseRecOn with
  | nil => rfl
  | append_singleton bytes byte ih =>
    have hLess : bytes.length < 2 ^ 64 := by
      rw [List.length_append] at hLength
      exact Nat.lt_of_succ_lt hLength
    have hBefore := ih hLess
    rw [bytewise] at hBefore ⊢
    rw [List.mapIdx_concat, List.foldl_append, hBefore]
    exact after_concat array address byte hLess

theorem foldl_after_bytewise (array : ByteArray64) {access : Access} (hSize : access.size < 2 ^ 31) :
    (bytewise address access).foldl (fun array op => array.after op.1 op.2) array =
      array.after address access := by
  cases access with
  | write bytes => exact foldl_after_writes array address (lt_trans hSize (by decide))
  | read size =>
    rw [bytewise, List.foldl_map]
    exact List.foldl_fixed' (fun _ => rfl) _

/-- An access that does not cross into another page ends in its own. -/
theorem inPage_of_not_crosses {op : Address × Access} (hSize : op.2.size < 2 ^ 31)
    (hCrosses : ¬ crossesPage op.1 op.2.size = true) : InPage op := by
  obtain ⟨address, access⟩ := op
  have hBase : (address + BitVec.ofNat 64 access.size - 1).pageBase = address.pageBase := by
    simpa [crossesPage] using hCrosses
  have hLt := address.isLt
  have hOffset := address.getPageOffset_lt
  have hOne : (1 : Address).toNat = 1 := rfl
  have hNat := congrArg BitVec.toNat hBase
  rw [Address.toNat_pageBase, Address.toNat_pageBase] at hNat
  unfold InPage
  rw [Address.getPageOffset_eq] at hOffset ⊢
  simp only [Address.getPageIndex, BitVec.toNat_sub, BitVec.toNat_add, BitVec.toNat_ofNat,
    hOne, Address.pageSize] at hNat hOffset hSize ⊢
  omega

theorem inPage_of_mem_parts {op part : Address × Access} (hSize : op.2.size < 2 ^ 31)
    (hMem : part ∈ parts op.1 op.2) : InPage part := by
  have hByte (hOne : part.2.size = 1) : InPage part := by
    rw [InPage, hOne]
    exact part.1.getPageOffset_lt
  unfold parts at hMem
  split at hMem
  next hCrosses =>
    obtain ⟨address, access⟩ := op
    cases access with
    | write bytes =>
      obtain ⟨i, hLt, rfl⟩ := List.mem_mapIdx.mp hMem
      exact hByte rfl
    | read size =>
      obtain ⟨i, hLt, rfl⟩ := List.mem_map.mp hMem
      exact hByte rfl
  next hCrosses => exact List.mem_singleton.mp hMem ▸ inPage_of_not_crosses hSize hCrosses

theorem expectedOf_parts (array : ByteArray64) (op : Address × Access) :
    expectedOf array (parts op.1 op.2) = array.expected op.1 op.2 := by
  unfold parts
  split
  next => exact expectedOf_bytewise ..
  next => exact List.append_nil _

theorem foldl_after_parts (array : ByteArray64) {op : Address × Access} (hSize : op.2.size < 2 ^ 31) :
    (parts op.1 op.2).foldl (fun array op => array.after op.1 op.2) array = array.after op.1 op.2 := by
  unfold parts
  split
  next => exact foldl_after_bytewise array hSize
  next => rfl

theorem right_iff_parts (s : State) (op : Address × Access) : Right (access readable) s op ↔
      Throughout (advance (accessPage readable)) (Right (accessPage readable)) s (parts op.1 op.2) := by
  rw [← accessParts_right_iff, expectedOf_parts]
  rfl

theorem advance_eq_parts {s : State} {op : Address × Access} (hSize : op.2.size < 2 ^ 31)
    (hRight : Right (access readable) s op) :
    advance (access readable) s op = (parts op.1 op.2).foldl (advance (accessPage readable)) s := by
  obtain ⟨bytes, hRun⟩ := accessParts_advance ((right_iff_parts s op).mp hRight)
  rw [advance_of_ok hRun, ← foldl_after_parts s.2 hSize, ← foldl_advance_snd]

/-- A run of accesses is the run of their parts. -/
theorem throughout_parts (hSizes : ∀ op ∈ ops, op.2.size < 2 ^ 31) (s : State) :
    Throughout (advance (access readable)) (Right (access readable)) s ops ↔
      Throughout (advance (accessPage readable)) (Right (accessPage readable)) s
        (ops.flatMap fun op => parts op.1 op.2) := by
  refine @throughout_flatMap State (Address × Access) _ _ ops s (Address × Access) _ _ (fun op => parts op.1 op.2) ?_ ?_
  · exact fun s op _ => right_iff_parts s op
  · exact fun s op hMem hRight => advance_eq_parts (hSizes op hMem) hRight

/-- The pages that an access looks up. -/
def lookups (op : Address × Access) : List Nat :=
  (parts op.1 op.2).map fun part => part.1.getPageIndex

instance (filled : Cache Bool) (page : Nat) : Decidable (Answered filled page) :=
  inferInstanceAs (Decidable (page = 1 → ∀ way, filled.value 1 way = true))

/-- The reads of a list of accesses are within readable mappings. -/
def Readable (readable : Address → Bool) (ops : List (Address × Access)) : Prop :=
  ∀ op ∈ ops, ∀ size, op.2 = .read size →
    ∀ i < max size 1, readable (op.1 + BitVec.ofNat 64 i) = true

theorem readable_of_mem_parts (hReadable : Readable readable ops) {op part : Address × Access} (hOp : op ∈ ops)
    (hMem : part ∈ parts op.1 op.2) {size : Nat} (hRead : part.2 = .read size) : readable part.1 = true := by
  obtain ⟨address, access⟩ := op
  have hAt := hReadable _ hOp
  unfold parts at hMem
  split at hMem
  next hCrosses =>
    cases access with
    | write bytes =>
      obtain ⟨i, hLt, rfl⟩ := List.mem_mapIdx.mp hMem
      cases hRead
    | read total =>
      obtain ⟨i, hLt, rfl⟩ := List.mem_map.mp hMem
      exact hAt total rfl i (lt_of_lt_of_le (List.mem_range.mp hLt) (le_max_left ..))
  next hCrosses =>
    obtain rfl := List.mem_singleton.mp hMem
    have hFirst := hAt size hRead 0 (lt_of_lt_of_le Nat.zero_lt_one (le_max_right ..))
    rwa [BitVec.add_zero] at hFirst

/-- Sparse memory is a byte array exactly when its cache is never asked for page 1 while a way of the
entry of that page was not yet filled, the ways being filled by the pages looked up before. -/
theorem byteArray_iff (readable : Address → Bool) (ops : List (Address × Access))
    (hSizes : ∀ op ∈ ops, op.2.size < 2 ^ 31) (hReadable : Readable readable ops)
    (hBudget : (ops.flatMap lookups).toFinset.card ≤ pageBudget) :
    Throughout (advance (access readable)) (Right (access readable)) (new, fun _ => 0) ops ↔
      Throughout (fun filled page => filled.fetch page true) Answered (Cache.new false)
        (ops.flatMap lookups) := by
  have hAsked : ∀ part ∈ ops.flatMap (fun op => parts op.1 op.2),
      Asked readable (ops.flatMap lookups).toFinset part := by
    intro part hMem
    obtain ⟨op, hOp, hPart⟩ := List.mem_flatMap.mp hMem
    refine ⟨inPage_of_mem_parts (hSizes op hOp) hPart, ?_,
      fun size => readable_of_mem_parts hReadable hOp hPart⟩
    exact List.mem_toFinset.mpr (List.mem_flatMap.mpr ⟨op, hOp, List.mem_map_of_mem hPart⟩)
  have hLookups : ops.flatMap lookups =
      (ops.flatMap fun op => parts op.1 op.2).map fun part => part.1.getPageIndex :=
    (List.map_flatMap ..).symm
  rw [throughout_parts hSizes, hLookups]
  refine throughout_simulation _ (Related (ops.flatMap lookups).toFinset) ?_ ?_ related_new
  · exact fun s filled part hMem hRelated => right_part_iff (hAsked part hMem) hBudget hRelated
  · exact fun s filled part hMem hRelated =>
      related_advance_part (hAsked part hMem) hBudget hRelated

/-- The entry of page 1 is filled by two other pages before a write that crosses out of page 1. -/
theorem byteArray_iff_filledFirst :
    Throughout (advance (access fun _ => true)) (Right (access fun _ => true)) (new, fun _ => 0)
      [(0x2001000, .read 1), (0x4001000, .write [5]), (0x1ffe, .write [1, 2, 3, 4]), (0x1fff, .read 2)] :=
  (byteArray_iff (fun _ => true)
    [(0x2001000, .read 1), (0x4001000, .write [5]), (0x1ffe, .write [1, 2, 3, 4]), (0x1fff, .read 2)]
    (by decide) (fun _ _ _ _ _ _ => rfl) (by decide)).mpr (by decide)

/-- The first access is a read in page 1, which hits a way that was never filled. -/
theorem lowPage_faults :
    new.access (fun _ => true) 0x1000 (.read 1) = .error .nullPointer ∧
      ¬ Throughout (advance (access fun _ => true)) (Right (access fun _ => true)) (new, fun _ => 0)
        [(0x1000, .read 1)] := by
  have hFault : new.access (fun _ => true) 0x1000 (.read 1) = .error .nullPointer := rfl
  refine ⟨hFault, fun ⟨⟨after, hRight⟩, _⟩ => ?_⟩
  exact absurd (hFault.symm.trans hRight) nofun

end Gensim.Memory.SparseMemoryModel
