import Mathlib.Logic.Function.Basic
import Gensim.BlockJIT.Word
import Gensim.Lib.ByteStore

/-! The part of the x86-64 processor that the lowerings use: sixteen registers, a byte store
and the arithmetic flags. -/
namespace Gensim.BlockJIT.X86

open ByteStore

inductive Gpr
  | rax | rcx | rdx | rbx | rsp | rbp | rsi | rdi
  | r8 | r9 | r10 | r11 | r12 | r13 | r14 | r15
  deriving DecidableEq, Repr

/-- The state that the lowered code works on: registers of 64 bits, memory and
the flags that it reads. -/
structure Machine where
  regs : Gpr → Nat
  mem : Store
  carry : Bool
  zero : Bool
  sign : Bool
  overflow : Bool

/-- A register and a displacement, which is never negative here. -/
structure Address where
  base : Gpr
  displacement : Nat
  deriving DecidableEq, Repr

/-- What an instruction can read: an immediate, a register or memory. -/
inductive Source
  | imm (value : Nat)
  | reg (r : Gpr)
  | mem (address : Address)
  deriving DecidableEq, Repr

inductive AluOp
  | add | adc | sub | sbb
  deriving DecidableEq, Repr

/-- Condition codes by their mnemonic suffix. -/
inductive Condition
  | o | b | z | s
  deriving DecidableEq, Repr

/-- The instructions that the lowerings of the flags emit, with their sizes in
bytes and the operands in the order of the encoder, source first. -/
inductive Insn
  | mov (size : Nat) (src : Source) (dst : Gpr)
  | store (size : Nat) (src : Source) (dst : Address)
  | alu (op : AluOp) (size : Nat) (src : Source) (dst : Gpr)
  | test (size : Nat) (a b : Gpr)
  | stc
  | setcc (condition : Condition) (dst : Address)
  deriving DecidableEq, Repr

namespace Machine

def read (m : Machine) (r : Gpr) (size : Nat) : Nat := m.regs r % 2 ^ bits size

/-- A 32-bit write clears the upper half, narrower ones keep the rest of the register. -/
def write (m : Machine) (r : Gpr) (size value : Nat) : Machine :=
  let value := value % 2 ^ bits size
  let kept := if size = 4 ∨ size = 8 then 0 else m.regs r / 2 ^ bits size * 2 ^ bits size
  { m with regs := Function.update m.regs r (kept + value) }

def address (m : Machine) (a : Address) : Nat := (m.regs a.base + a.displacement) % 2 ^ 64

def source (m : Machine) (size : Nat) : Source → Nat
  | .imm value => value % 2 ^ bits size
  | .reg r => m.read r size
  | .mem a => load m.mem (m.address a) size

def storeAt (m : Machine) (a : Address) (size value : Nat) : Machine :=
  { m with mem := store m.mem (m.address a) size value }

def condition (m : Machine) : Condition → Bool
  | .o => m.overflow
  | .b => m.carry
  | .z => m.zero
  | .s => m.sign

/-- Zero and sign flag of a result. -/
def setResult (m : Machine) (w : Word) : Machine :=
  { m with zero := w.value = 0, sign := 2 ^ (bits w.size - 1) ≤ w.value }

/-- All four flags, from the exact unsigned and signed results. -/
def setArithmetic (m : Machine) (size : Nat) (unsigned signed : Int) : Machine :=
  let r : Word := ⟨ofSigned size unsigned, size⟩
  ({ m with
      carry := unsigned < 0 ∨ 2 ^ bits size ≤ unsigned
      overflow := signed ≠ toSigned r } : Machine).setResult r

/-- The result and the flags, from the sum or difference as unsigned and as
signed numbers. The carry comes in for `adc` and `sbb` only. -/
def alu (m : Machine) (op : AluOp) (size : Nat) (src : Source) (dst : Gpr) : Machine :=
  let a : Word := ⟨m.read dst size, size⟩
  let b : Word := ⟨m.source size src, size⟩
  let c : Int := ofBool m.carry
  let (unsigned, signed) : Int × Int :=
    match op with
    | .add => (a.value + b.value, toSigned a + toSigned b)
    | .adc => (a.value + b.value + c, toSigned a + toSigned b + c)
    | .sub => (a.value - b.value, toSigned a - toSigned b)
    | .sbb => (a.value - b.value - c, toSigned a - toSigned b - c)
  (m.write dst size (ofSigned size unsigned)).setArithmetic size unsigned signed

theorem read_write_self (m : Machine) (r : Gpr) (size value : Nat) :
    (m.write r size value).read r size = value % 2 ^ bits size := by
  simp only [read, write, Function.update_self]
  split <;> simp

/-- One instruction. Of these only `alu`, `test` and `stc` change flags. -/
def exec (m : Machine) : Insn → Machine
  | .mov size src dst => m.write dst size (m.source size src)
  | .store size src dst => m.storeAt dst size (m.source size src)
  | .alu op size src dst => m.alu op size src dst
  | .test size a b =>
      ({ m with carry := false, overflow := false } : Machine).setResult
        ⟨m.read a size &&& m.read b size, size⟩
  | .stc => { m with carry := true }
  | .setcc condition dst => m.storeAt dst 1 (ofBool (m.condition condition))

def run (m : Machine) (code : List Insn) : Machine := code.foldl exec m

@[simp]
theorem run_nil (m : Machine) : m.run [] = m := rfl

@[simp]
theorem run_cons (m : Machine) (insn : Insn) (code : List Insn) : m.run (insn :: code) = (m.exec insn).run code := rfl

theorem run_append (m : Machine) (first second : List Insn) :
    m.run (first ++ second) = (m.run first).run second := List.foldl_append

end Machine

end Gensim.BlockJIT.X86
