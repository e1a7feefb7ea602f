import Gensim.Core.Address

/-! Strings that are written to the memory of the guest and read back. -/
namespace Gensim.Core

/-- A memory interface that behaves as an array of bytes. -/
structure ByteInterface (σ : Type) where
  contents : σ → Address → BitVec 8
  read8 : σ → Address → BitVec 8 × σ
  write8 : σ → Address → BitVec 8 → σ
  read8_value : ∀ s a, (read8 s a).1 = contents s a
  contents_read8 : ∀ s a, contents (read8 s a).2 = contents s
  contents_write8 : ∀ s a value, contents (write8 s a value) = Function.update (contents s) a value

/-- The memory of the host, with a string that ends before the first zero. -/
structure HostString where
  host : Address → BitVec 8
  data : Address
  length : Nat
  ne_zero : ∀ i, i < length → host (data + BitVec.ofNat 64 i) ≠ 0
  terminated : host (data + BitVec.ofNat 64 length) = 0

namespace ByteInterface

variable {σ : Type} (interface : ByteInterface σ) (host : Address → BitVec 8)

/-- The loop of `WriteString`, for at most so many bytes. -/
def writeString : Nat → σ → Address → Address → Option σ
  | 0, _, _, _ => none
  | steps + 1, s, address, data =>
      let s := interface.write8 s address (host data)
      if host (data + 1) = 0 then some s else writeString steps s (address + 1) (data + 1)

/-- What `ReadString` puts into a buffer of a size. -/
def readString : Nat → σ → Address → List (BitVec 8) × σ
  | 0, s, _ => ([], s)
  | maxSize + 1, s, address =>
      let read := interface.read8 s address
      if read.1 = 0 then ([read.1], read.2)
      else
        let rest := readString maxSize read.2 (address + 1)
        (read.1 :: rest.1, rest.2)

def writeBytes : Nat → σ → Address → Address → σ
  | 0, s, _, _ => s
  | n + 1, s, address, data => writeBytes n (interface.write8 s address (host data)) (address + 1) (data + 1)

variable {interface host}

theorem add_succ (a : Address) (i : Nat) : a + 1 + BitVec.ofNat 64 i = a + BitVec.ofNat 64 (i + 1) := by
  rw [BitVec.add_assoc, Nat.add_comm i 1, BitVec.ofNat_add]
  rfl

/-- The loop writes up to the first zero behind the start. -/
theorem writeString_eq {n steps : Nat} {s : σ} {address data : Address}
    (hNonzero : ∀ i, 0 < i → i ≤ n → host (data + BitVec.ofNat 64 i) ≠ 0)
    (hZero : host (data + BitVec.ofNat 64 (n + 1)) = 0) : interface.writeString host steps s address data =
      if n < steps then some (interface.writeBytes host (n + 1) s address data) else none := by
  induction steps generalizing n s address data with
  | zero => simp [writeString]
  | succ steps ih =>
    rw [writeString]
    cases n with
    | zero =>
      rw [if_pos (show host (data + 1) = 0 from hZero), if_pos (Nat.succ_pos steps)]
      rfl
    | succ n =>
      have hFirst : host (data + 1) ≠ 0 := hNonzero 1 (by omega) (by omega)
      have hRest := @ih n (interface.write8 s address (host data)) (address + 1) (data + 1) ?_ ?_
      · simp only [if_neg hFirst, hRest, Nat.add_lt_add_iff_right]
        rfl
      · intro i hPos hLe
        rw [add_succ]
        exact hNonzero (i + 1) (by omega) (by omega)
      · rw [add_succ]
        exact hZero

theorem toNat_sub_add_one {a b : Address} (hNe : b ≠ a) : (b - (a + 1)).toNat + 1 = (b - a).toNat := by
  have hValue : b.toNat ≠ a.toNat := fun hSame => hNe (BitVec.eq_of_toNat_eq hSame)
  have hA := a.isLt
  have hB := b.isLt
  simp only [BitVec.toNat_sub, BitVec.toNat_add, BitVec.ofNat_eq_ofNat, BitVec.toNat_ofNat]
  omega

/-- The bytes that were written, by their distance from the first one. -/
theorem contents_writeBytes {n : Nat} (hBound : n ≤ 2 ^ 64) (s : σ) (address data b : Address) :
    interface.contents (interface.writeBytes host n s address data) b =
      if (b - address).toNat < n then host (data + (b - address)) else interface.contents s b := by
  induction n generalizing s address data with
  | zero => simp [writeBytes]
  | succ n ih =>
    rw [writeBytes, ih (by omega), interface.contents_write8]
    by_cases hFirst : b = address
    · subst hFirst
      have hLast : (b - (b + 1)).toNat = 2 ^ 64 - 1 := by
        simp only [BitVec.toNat_sub, BitVec.toNat_add, BitVec.ofNat_eq_ofNat, BitVec.toNat_ofNat]
        omega
      rw [if_neg (by omega), if_pos (by simp), Function.update_self]
      simp
    · have hDistance := toNat_sub_add_one hFirst
      have hSame : data + 1 + (b - (address + 1)) = data + (b - address) := by bv_omega
      rw [Function.update_of_ne hFirst, hSame, ← hDistance]
      simp only [Nat.add_lt_add_iff_right]

theorem readString_succ (maxSize : Nat) (s : σ) (a : Address) :
    (interface.readString (maxSize + 1) s a).1 = interface.contents s a ::
      if interface.contents s a = 0 then [] else (interface.readString maxSize (interface.read8 s a).2 (a + 1)).1 := by
  rw [readString, ← interface.read8_value]
  dsimp only
  split <;> rfl

/-- A string is read exactly if it is in memory, with its terminator. -/
theorem readString_eq_iff {n maxSize : Nat} (hRoom : n < maxSize) {s : σ} {a : Address} {text : Nat → BitVec 8}
    (hNonzero : ∀ i, i < n → text i ≠ 0) (hZero : text n = 0) :
    (interface.readString maxSize s a).1 = (List.range (n + 1)).map text ↔
      ∀ i, i ≤ n → interface.contents s (a + BitVec.ofNat 64 i) = text i := by
  induction maxSize generalizing n s a text with
  | zero => omega
  | succ maxSize ih =>
    rw [readString_succ, List.range_succ_eq_map, List.map_cons, List.map_map, List.cons.injEq]
    cases n with
    | zero =>
      have hAddress : a + BitVec.ofNat 64 0 = a := by simp
      simp only [Nat.le_zero, forall_eq, hAddress, hZero, List.range_zero, List.map_nil]
      exact and_iff_left_of_imp fun hFirst => if_pos hFirst
    | succ n =>
      have hRest := @ih n (by omega) (interface.read8 s a).2 (a + 1) (text ∘ Nat.succ)
        (fun i hLt => hNonzero (i + 1) (by omega)) hZero
      simp only [interface.contents_read8, add_succ] at hRest
      constructor
      · rintro ⟨hFirst, hTail⟩ i hLe
        rw [hFirst, if_neg (hNonzero 0 (by omega))] at hTail
        cases i with
        | zero => simpa using hFirst
        | succ i => exact hRest.mp hTail i (by omega)
      · intro hAll
        have hFirst : interface.contents s a = text 0 := by simpa using hAll 0 (by omega)
        refine ⟨hFirst, ?_⟩
        rw [hFirst, if_neg (hNonzero 0 (by omega))]
        exact hRest.mpr fun i hLe => hAll (i + 1) (by omega)

end ByteInterface

namespace HostString

variable (text : HostString)

def byte (i : Nat) : BitVec 8 := text.host (text.data + BitVec.ofNat 64 i)

theorem length_lt : text.length < 2 ^ 64 := by
  by_contra hLong
  have hWrap : BitVec.ofNat 64 (text.length - 2 ^ 64) = BitVec.ofNat 64 text.length := by
    apply BitVec.eq_of_toNat_eq
    rw [BitVec.toNat_ofNat, BitVec.toNat_ofNat]
    omega
  have hZero := text.terminated
  rw [← hWrap] at hZero
  exact text.ne_zero _ (by omega) hZero

/-- Behind the first byte there is a zero again: the terminator, unless it is the first byte itself. -/
theorem exists_zero : ∃ n, n < 2 ^ 64 ∧ text.byte (n + 1) = 0 ∧ ∀ i, 0 < i → i ≤ n → text.byte i ≠ 0 := by
  have hSome : ∃ n, n < 2 ^ 64 ∧ text.byte (n + 1) = 0 := by
    have hLength := text.length_lt
    rcases Nat.eq_zero_or_pos text.length with hEmpty | hPos
    · have hAround : text.byte (2 ^ 64 - 1 + 1) = text.byte text.length := by
        rw [hEmpty]
        rfl
      exact ⟨2 ^ 64 - 1, by decide, hAround.trans text.terminated⟩
    · refine ⟨text.length - 1, by omega, ?_⟩
      rw [Nat.sub_add_cancel hPos]
      exact text.terminated
  classical
  refine ⟨Nat.find hSome, (Nat.find_spec hSome).1, (Nat.find_spec hSome).2, fun i hPos hLe hZero => ?_⟩
  have hLt := (Nat.find_spec hSome).1
  refine Nat.find_min hSome (show i - 1 < Nat.find hSome by omega) ⟨by omega, ?_⟩
  rwa [Nat.sub_add_cancel hPos]

variable {σ : Type} (interface : ByteInterface σ) (s : σ) (a : Address)

/-- Writing the string changes no byte but those of the string and its terminator, and it is read back from there. -/
def RoundTrips : Prop :=
  ∃ steps t, interface.writeString text.host steps s a text.data = some t ∧
    (∀ b, text.length < (b - a).toNat → interface.contents t b = interface.contents s b) ∧
    ∀ maxSize, text.length < maxSize →
      (interface.readString maxSize t a).1 = (List.range (text.length + 1)).map text.byte

variable {text interface s a}

theorem contents_written {n i : Nat} (hBound : n ≤ 2 ^ 64) (hLt : i < 2 ^ 64) :
    interface.contents (interface.writeBytes text.host n s a text.data) (a + BitVec.ofNat 64 i) =
      if i < n then text.byte i else interface.contents s (a + BitVec.ofNat 64 i) := by
  have hDistance : a + BitVec.ofNat 64 i - a = BitVec.ofNat 64 i := by bv_omega
  rw [ByteInterface.contents_writeBytes hBound, hDistance, BitVec.toNat_ofNat, Nat.mod_eq_of_lt hLt]
  rfl

/-- The loop writes `n + 1` bytes, of which the first are the string. -/
theorem roundTrips_iff_bytes {n : Nat} (hBound : n < 2 ^ 64) (hZero : text.byte (n + 1) = 0)
    (hNonzero : ∀ i, 0 < i → i ≤ n → text.byte i ≠ 0) : text.RoundTrips interface s a ↔
      (∀ i, n < i → i ≤ text.length → interface.contents s (a + BitVec.ofNat 64 i) = text.byte i) ∧
        ∀ i, text.length < i → i ≤ n → interface.contents s (a + BitVec.ofNat 64 i) = text.byte i := by
  have hWrite (steps : Nat) := @ByteInterface.writeString_eq σ interface text.host n steps s a text.data hNonzero hZero
  have hLength := text.length_lt
  have hRead {t : σ} {maxSize : Nat} (hRoom : text.length < maxSize) :=
    @ByteInterface.readString_eq_iff σ interface _ _ hRoom t a text.byte text.ne_zero text.terminated
  constructor
  · rintro ⟨steps, t, hRun, hFrame, hBack⟩
    rw [hWrite] at hRun
    split at hRun
    case isFalse => cases hRun
    case isTrue hSteps =>
      obtain rfl := Option.some.inj hRun
      constructor
      · intro i hPast hLe
        have hByte := (hRead (Nat.lt_succ_self _)).mp (hBack _ (Nat.lt_succ_self _)) i hLe
        rwa [contents_written (by omega) (by omega), if_neg (by omega)] at hByte
      · intro i hLt hLe
        have hDistance : (a + BitVec.ofNat 64 i - a).toNat = i := by
          rw [show a + BitVec.ofNat 64 i - a = BitVec.ofNat 64 i by bv_omega, BitVec.toNat_ofNat]
          exact Nat.mod_eq_of_lt (by omega)
        have hByte := hFrame (a + BitVec.ofNat 64 i) (by rwa [hDistance])
        rw [contents_written (by omega) (by omega), if_pos (by omega)] at hByte
        exact hByte.symm
  · rintro ⟨hEnd, hPast⟩
    refine ⟨n + 1, _, (hWrite _).trans (if_pos (Nat.lt_succ_self n)), fun b hLt => ?_, fun maxSize hRoom => ?_⟩
    · have hAddress : b = a + BitVec.ofNat 64 (b - a).toNat := by
        rw [BitVec.ofNat_toNat, BitVec.setWidth_eq]
        bv_omega
      rw [hAddress, contents_written (by omega) (b - a).isLt]
      split
      case isTrue hLe => exact (hPast _ hLt (by omega)).symm
      case isFalse => rfl
    · refine (hRead hRoom).mpr fun i hLe => ?_
      rw [contents_written (by omega) (by omega)]
      split
      case isTrue => rfl
      case isFalse hLast => exact hEnd i (by omega) hLe

/-- A string that is not empty comes back exactly if its terminator is in memory already. For an empty one the bytes
behind its terminator have to be there, up to the next zero. -/
theorem string_roundTrips_iff (text : HostString) (interface : ByteInterface σ) (s : σ) (a : Address) :
    text.RoundTrips interface s a ↔
      (0 < text.length → interface.contents s (a + BitVec.ofNat 64 text.length) = 0) ∧
        (text.length = 0 → ∀ i, 0 < i → (∀ j, 0 < j → j ≤ i → text.byte j ≠ 0) →
          interface.contents s (a + BitVec.ofNat 64 i) = text.byte i) := by
  obtain ⟨n, hBound, hZero, hNonzero⟩ := text.exists_zero
  have hLast : text.byte text.length = 0 := text.terminated
  rw [roundTrips_iff_bytes hBound hZero hNonzero]
  refine and_congr ⟨fun hEnd hPos => ?_, fun hEnd i hLt hLe => ?_⟩
    ⟨fun hPast hEmpty i hPos hAll => ?_, fun hPast i hLt hLe => ?_⟩
  · have hLt : n < text.length := by
      by_contra hLe
      exact hNonzero text.length hPos (by omega) hLast
    rw [hEnd text.length hLt le_rfl, hLast]
  · have hSame : i = text.length := by
      by_contra hNe
      exact text.ne_zero (n + 1) (by omega) hZero
    rw [hSame, hEnd (by omega), hLast]
  · have hLe : i ≤ n := by
      by_contra hLt
      exact hAll (n + 1) (by omega) (by omega) hZero
    exact hPast i (by omega) hLe
  · have hEmpty : text.length = 0 := by
      by_contra hPos
      exact hNonzero text.length (by omega) (by omega) hLast
    exact hPast hEmpty i (by omega) fun j hPos hLeJ => hNonzero j hPos (by omega)

end HostString

/-- The memory itself, as an interface. -/
def ByteInterface.array : ByteInterface (Address → BitVec 8) where
  contents memory := memory
  read8 memory a := (memory a, memory)
  write8 memory a value := Function.update memory a value
  read8_value _ _ := rfl
  contents_read8 _ _ := rfl
  contents_write8 _ _ _ := rfl

/-- The string `a`. -/
def HostString.letter : HostString where
  host p := if p = 0 then 0x61 else 0
  data := 0
  length := 1
  ne_zero i hLt := by
    obtain rfl : i = 0 := by omega
    decide
  terminated := by decide

/-- The terminator of a string is not written. -/
theorem terminator_not_written : ¬ HostString.letter.RoundTrips .array (fun _ => 0xff) 0x1000 := by
  rintro ⟨steps, t, hRun, -, hBack⟩
  cases steps with
  | zero => cases hRun
  | succ steps =>
      cases hRun
      exact absurd (hBack 2 (by decide)) (by decide)

end Gensim.Core
