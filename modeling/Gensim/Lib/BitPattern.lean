import Mathlib.Data.Nat.Bitwise
import Mathlib.Data.List.Basic
import Mathlib.Tactic

/-! Bit strings with don't-care positions, and the words they match.  Positions count from
the most significant bit, as a bit string is written. -/

/-- One position of a bit string. -/
inductive BitChar
  | zero
  | one
  | any
deriving DecidableEq, Repr

namespace BitPattern

variable {n : Nat}

def ofBool (b : Bool) : BitChar := if b then .one else .zero

def admits : BitChar → Bool → Bool
  | .zero, b => !b
  | .one, b => b
  | .any, _ => true

/-- The bits of `w` from position `start` on are those that the bit string asks for. -/
def matchesFrom (w : BitVec n) : Nat → List BitChar → Bool
  | _, [] => true
  | start, c :: rest => admits c (w.getMsbD start) && matchesFrom w (start + 1) rest

/-- The low `len` bits of a value, written out. -/
def constant : Nat → BitVec n → List BitChar
  | 0, _ => []
  | len + 1, v => ofBool (v.getLsbD len) :: constant len v

@[simp]
theorem admits_ofBool (a b : Bool) : admits (ofBool a) b = (b == a) := by
  cases a <;> cases b <;> rfl

theorem ofBool_injective {a b : Bool} (h : ofBool a = ofBool b) : a = b := by
  cases a <;> cases b <;> first | rfl | cases h

@[simp]
theorem length_constant (len : Nat) (v : BitVec n) : (constant len v).length = len := by
  induction len with
  | zero => rfl
  | succ len ih => simp [constant, ih]

theorem matchesFrom_append (w : BitVec n) (start : Nat) (a b : List BitChar) :
    matchesFrom w start (a ++ b) = (matchesFrom w start a && matchesFrom w (start + a.length) b) := by
  induction a generalizing start with
  | nil => simp [matchesFrom]
  | cons c a ih =>
    simp only [List.cons_append, matchesFrom, ih, List.length_cons, Bool.and_assoc]
    rw [Nat.add_assoc, Nat.add_comm 1]

theorem matchesFrom_of_all_any (w : BitVec n) (start : Nat) {a : List BitChar}
    (hAny : ∀ c ∈ a, c = .any) : matchesFrom w start a = true := by
  induction a generalizing start with
  | nil => rfl
  | cons c a ih =>
    obtain rfl := hAny _ List.mem_cons_self
    simpa [matchesFrom, admits] using ih _ fun c hMem => hAny c (List.mem_cons_of_mem _ hMem)

@[simp]
theorem matchesFrom_replicate_any (w : BitVec n) (start len : Nat) :
    matchesFrom w start (List.replicate len .any) = true :=
  matchesFrom_of_all_any w start fun _ hMem => List.eq_of_mem_replicate hMem

theorem matchesFrom_constant (w v : BitVec n) (start len : Nat) : matchesFrom w start (constant len v) = true ↔
      ∀ i < len, w.getMsbD (start + (len - 1 - i)) = v.getLsbD i := by
  induction len generalizing start with
  | zero => simp [constant, matchesFrom]
  | succ len ih =>
    simp only [constant, matchesFrom, admits_ofBool, Bool.and_eq_true, beq_iff_eq, ih]
    constructor
    · rintro ⟨hTop, hRest⟩ i hi
      rcases Nat.lt_succ_iff_lt_or_eq.mp hi with hLow | rfl
      · rw [← hRest i hLow]
        congr 1
        omega
      · simpa using hTop
    · intro h
      refine ⟨by simpa using h len (by omega), fun i hi => ?_⟩
      rw [← h i (by omega)]
      congr 1
      omega

theorem constant_eq_iff {len : Nat} {a b : BitVec n} :
    constant len a = constant len b ↔ ∀ i < len, a.getLsbD i = b.getLsbD i := by
  induction len with
  | zero => simp [constant]
  | succ len ih =>
    simp only [constant, List.cons.injEq, ih]
    constructor
    · rintro ⟨hTop, hRest⟩ i hi
      rcases Nat.lt_succ_iff_lt_or_eq.mp hi with hLow | rfl
      · exact hRest i hLow
      · exact ofBool_injective hTop
    · intro h
      exact ⟨by rw [h len (by omega)], fun i hi => h i (by omega)⟩

theorem constant_injective {len : Nat} {a b : BitVec n} (ha : a.toNat < 2 ^ len)
    (hb : b.toNat < 2 ^ len) (h : constant len a = constant len b) : a = b := by
  apply BitVec.eq_of_getLsbD_eq
  intro i _
  by_cases hi : i < len
  · exact constant_eq_iff.mp h i hi
  · have hPow : 2 ^ len ≤ 2 ^ i := Nat.pow_le_pow_right (by decide) (by omega)
    rw [BitVec.getLsbD, BitVec.getLsbD, Nat.testBit_lt_two_pow (by omega),
      Nat.testBit_lt_two_pow (by omega)]

theorem constant_add (p q : Nat) (v : BitVec n) : constant (p + q) v = constant p (v >>> q) ++ constant q v := by
  induction p with
  | zero => simp [constant]
  | succ p ih => simp [constant, Nat.succ_add, ih, Nat.add_comm q p]

/-- The `len` bits of a word from position `start` on. -/
def field (w : BitVec n) (start len : Nat) : BitVec n := (w <<< start) >>> (n - len)

theorem getLsbD_field {w : BitVec n} {start len i : Nat} (hRange : start + len ≤ n)
    (hi : i < len) : (field w start len).getLsbD i = w.getMsbD (start + (len - 1 - i)) := by
  have hLow : ¬ n - len + i < start := by omega
  rw [field, BitVec.getLsbD_ushiftRight, BitVec.getLsbD_shiftLeft, BitVec.getMsbD]
  simp only [show n - len + i < n by omega, hLow, show start + (len - 1 - i) < n by omega,
    decide_true, decide_false, Bool.not_false, Bool.true_and]
  congr 1
  omega

theorem field_lt {w : BitVec n} {start len : Nat} (hLen : len ≤ n) : (field w start len).toNat < 2 ^ len := by
  rw [field, BitVec.toNat_ushiftRight, Nat.shiftRight_eq_div_pow]
  apply Nat.div_lt_of_lt_mul
  rw [← Nat.pow_add, Nat.sub_add_cancel hLen]
  exact (w <<< start).isLt

/-- Comparing a field with a value matches the value written out. -/
theorem field_eq_iff {w v : BitVec n} {start len : Nat} (hRange : start + len ≤ n) (hValue : v.toNat < 2 ^ len) :
    field w start len = v ↔ matchesFrom w start (constant len v) = true := by
  rw [matchesFrom_constant]
  constructor
  · rintro rfl i hi
    exact (getLsbD_field hRange hi).symm
  · intro h
    apply constant_injective (field_lt (by omega)) hValue
    exact constant_eq_iff.mpr fun i hi => (getLsbD_field hRange hi).trans (h i hi)

end BitPattern
