import Gensim.Lib.ByteStore
import Gensim.Memory.RegionBasedMemoryModel

/-! The stack that a user program starts with. -/
namespace Gensim.Abi

open ByteStore Memory.GuestAddress

/-- The bytes of a string before its NUL. -/
abbrev CString := { bytes : List (BitVec 8) // 0 ∉ bytes }

/-- What the stack is made from: the options, `environ`, the arguments of the guest, what is known of the
binary, and the stack pointer to start with. -/
structure StackSettings where
  is64BitBinary : Bool
  platformName : CString
  targetBinary : CString
  /-- The real path of the target binary. -/
  realPath : CString
  environ : List CString
  argv : List CString
  hwcap : Nat
  hwcap2 : Nat
  phdrLocation : Nat
  phentsize : Nat
  phnum : Nat
  entryPoint : Nat
  top : Nat

structure UserStack where
  sp : Nat
  memory : Store

namespace UserStack

variable (stack : UserStack)

/-- Writes to memory are taken to succeed. -/
def writeBytes (memory : Store) (addr : Nat) (bytes : List (BitVec 8)) : Store := fun asked =>
  if addr ≤ asked ∧ asked < addr + bytes.length then bytes.getD (asked - addr) 0 else memory asked

/-- `PUSH` and `PUSHB`, of a word of so many bytes. -/
def push (size value : Nat) : UserStack :=
  let sp := sub stack.sp size
  ⟨sp, store stack.memory sp size value⟩

/-- `PUSHSTR`. -/
def pushString (string : CString) : UserStack :=
  let sp := sub stack.sp (string.val.length + 1)
  ⟨sp, writeBytes stack.memory sp (string.val ++ [0])⟩

/-- `ALIGN_STACK`. -/
def align (v : Nat) : UserStack := { stack with sp := sub stack.sp (stack.sp % v) }

/-- The loop over the arguments of the guest: the strings and their addresses. -/
def pushArguments : List CString → UserStack → List Nat × UserStack
  | [], stack => ([], stack)
  | string :: rest, stack =>
      let pushed := stack.pushString string
      let others := pushArguments rest pushed
      (pushed.sp :: others.1, others.2)

/-- The loop over the environment, which begins with the last string. -/
def pushEnvironment : List CString → UserStack → List Nat × UserStack
  | [], stack => ([], stack)
  | string :: rest, stack =>
      let others := pushEnvironment rest stack
      let pushed := others.2.pushString string
      (pushed.sp :: others.1, pushed)

/-- `WRITE_STACK` for some words. -/
def writeWords (size : Nat) : List Nat → Nat → Store → Store
  | [], _, memory => memory
  | word :: rest, sp, memory => writeWords size rest (add sp size) (store memory sp size word)

end UserStack

namespace StackSettings

variable (settings : StackSettings)

def entrySize : Nat := if settings.is64BitBinary then 8 else 4

/-- The string for `_`, which names the binary. -/
def underscore : CString :=
  ⟨0x5f :: 0x3d :: settings.targetBinary.val, by
    have := settings.targetBinary.property
    simp_all⟩

/-- The strings of the environment as they are pushed: only the first byte is looked at. -/
def environment : List CString :=
  settings.environ.map fun string => if string.val.head? = some 0x5f then settings.underscore else string

/-- The stack with its strings, and where they are. -/
structure Strings where
  stack : UserStack
  platformPtr : Nat
  argvPtrs : List Nat
  envpPtrs : List Nat
  randomPtr : Nat

def pushStrings (memory : Store) : Strings :=
  let platform := UserStack.pushString ⟨settings.top, memory⟩ settings.platformName
  let path := (platform.push settings.entrySize 0).pushString settings.realPath
  let environment := UserStack.pushEnvironment settings.environment path
  let arguments := UserStack.pushArguments settings.argv environment.2
  let random := (fun stack => UserStack.push stack 1 0x1f)^[16] arguments.2
  ⟨random.align 16, platform.sp, path.sp :: arguments.1, environment.1, random.sp⟩

def auxvEntries (strings : Strings) : List (Nat × Nat) :=
  [(33, 0x7fff00000000), (16, settings.hwcap), (6, 4096), (3, settings.phdrLocation), (4, settings.phentsize),
    (5, settings.phnum), (17, 0x64), (9, settings.entryPoint), (11, 1000), (12, 1000), (13, 1000), (14, 1000),
    (25, strings.randomPtr)] ++
  (if settings.hwcap2 ≠ 0 then [(26, settings.hwcap2)] else []) ++
  [(31, strings.argvPtrs.headD 0), (15, strings.platformPtr), (0, 0)]

/-- The words from the stack pointer on. -/
def words (strings : Strings) : List Nat :=
  strings.argvPtrs.length :: (strings.argvPtrs ++ 0 :: (strings.envpPtrs ++ 0 ::
    (settings.auxvEntries strings).flatMap fun entry => [entry.1, entry.2]))

/-- The stack pointer that is left and the memory. The number of items is multiplied as a `uint32_t`. -/
def prepareStack (memory : Store) : UserStack :=
  let strings := settings.pushStrings memory
  let auxv := settings.entrySize * (2 * (settings.auxvEntries strings).length)
  let items := (strings.argvPtrs.length + 1) + (strings.envpPtrs.length + 1) + 1
  let below := sub (sub strings.stack.sp auxv) (items * settings.entrySize % 2 ^ 32)
  let sp := below - below % 16
  ⟨sp, UserStack.writeWords settings.entrySize (settings.words strings) sp strings.stack.memory⟩

/-! ### What the stack is for -/

/-- The string is in memory, with its NUL. -/
def HasString (memory : Store) (addr : Nat) (string : CString) : Prop :=
  (∀ i (h : i < string.val.length), memory (addr + i) = string.val[i]) ∧ memory (addr + string.val.length) = 0

/-- The name of a string of the environment, before the equals sign. -/
def name (string : CString) : List (BitVec 8) := string.val.takeWhile (· ≠ 0x3d)

/-- The strings of the environment that the program is to see. -/
def expectedEnvironment : List CString :=
  settings.environ.map fun string => if name string = [0x5f] then settings.underscore else string

/-- From an index on there are the addresses of the strings and a NULL, with the strings from `finish` on. -/
def HasVector (stack : UserStack) (index finish : Nat) (strings : List CString) : Prop :=
  (∀ i (h : i < strings.length),
    finish ≤ load stack.memory (stack.sp + settings.entrySize * (index + i)) settings.entrySize ∧
    HasString stack.memory (load stack.memory (stack.sp + settings.entrySize * (index + i)) settings.entrySize)
      strings[i]) ∧
  load stack.memory (stack.sp + settings.entrySize * (index + strings.length)) settings.entrySize = 0

/-- The stack of a program with these arguments and this environment, with an auxiliary vector of `n` entries
before the last. -/
structure WellFormed (stack : UserStack) (environment : List CString) (n : Nat) : Prop where
  aligned : stack.sp % 16 = 0
  argc : load stack.memory stack.sp settings.entrySize = settings.argv.length + 1
  argv : settings.HasVector stack 1
    (stack.sp + settings.entrySize * (settings.argv.length + environment.length + 2 * n + 6))
    (settings.realPath :: settings.argv)
  envp : settings.HasVector stack (settings.argv.length + 3)
    (stack.sp + settings.entrySize * (settings.argv.length + environment.length + 2 * n + 6)) environment
  auxv : ∀ i < n, load stack.memory
    (stack.sp + settings.entrySize * (settings.argv.length + environment.length + 4 + 2 * i)) settings.entrySize ≠ 0
  last : load stack.memory
      (stack.sp + settings.entrySize * (settings.argv.length + environment.length + 4 + 2 * n)) settings.entrySize = 0 ∧
    load stack.memory
      (stack.sp + settings.entrySize * (settings.argv.length + environment.length + 5 + 2 * n)) settings.entrySize = 0

/-- The bytes that the stack takes at most. -/
def need : Nat :=
  settings.platformName.val.length + 1 + settings.entrySize + (settings.realPath.val.length + 1) +
    (settings.environment.map fun string => string.val.length + 1).sum +
    (settings.argv.map fun string => string.val.length + 1).sum + 16 + 15 +
    settings.entrySize * (settings.argv.length + settings.environ.length + 38) + 15

/-- There is room below the first stack pointer, which a word can hold, and the number of bytes of the items is
one of 32 bits. -/
structure Fits : Prop where
  room : settings.need ≤ settings.top
  word : settings.top < 256 ^ settings.entrySize
  items : settings.entrySize * (settings.argv.length + settings.environ.length + 4) < 2 ^ 32

/-! ### Strings -/

theorem hasString_unique {memory : Store} {addr : Nat} {first second : CString} (hFirst : HasString memory addr first)
    (hSecond : HasString memory addr second) : first = second := by
  -- the longer string would have a NUL among its bytes
  have hLength {first second : CString} (hFirst : HasString memory addr first) (hSecond : HasString memory addr second) :
      ¬ first.val.length < second.val.length := by
    intro hLt
    have hByte := hSecond.1 first.val.length hLt
    rw [hFirst.2] at hByte
    exact second.property (List.mem_of_getElem hByte.symm)
  have hSame : first.val.length = second.val.length := by
    have := hLength hFirst hSecond
    have := hLength hSecond hFirst
    omega
  refine Subtype.ext (List.ext_getElem hSame fun i hi hi' => ?_)
  rw [← hFirst.1 i hi, hSecond.1 i hi']

end StackSettings

open StackSettings

namespace UserStack

variable {stack next last : UserStack} {string : CString} {addr : Nat}

/-- The stack has grown downwards, and what was on it is as before. -/
structure Extends (stack next : UserStack) : Prop where
  below : next.sp ≤ stack.sp
  kept : ∀ asked, stack.sp ≤ asked → next.memory asked = stack.memory asked

theorem Extends.trans (hFirst : stack.Extends next) (hSecond : next.Extends last) : stack.Extends last where
  below := hSecond.below.trans hFirst.below
  kept := fun asked hLe => (hSecond.kept asked (hFirst.below.trans hLe)).trans (hFirst.kept asked hLe)

/-- A string is on the stack, at an address below a bound. -/
structure Holds (stack : UserStack) (bound addr : Nat) (string : CString) : Prop where
  above : stack.sp ≤ addr
  bounded : addr < bound
  string : HasString stack.memory addr string

theorem Extends.holds {bound : Nat} (hExtends : stack.Extends next) (hHolds : stack.Holds bound addr string) :
    next.Holds bound addr string where
  above := hExtends.below.trans hHolds.above
  bounded := hHolds.bounded
  string := by
    obtain ⟨hAbove, -, hBytes, hLast⟩ := hHolds
    refine ⟨fun i hi => ?_, ?_⟩
    · rw [hExtends.kept _ (by omega), hBytes i hi]
    · rw [hExtends.kept _ (by omega), hLast]

theorem extends_push {size value : Nat} (hRoom : size ≤ stack.sp) (hSpace : stack.sp < space) :
    (stack.push size value).sp = stack.sp - size ∧ stack.Extends (stack.push size value) := by
  have hPushed : stack.push size value = ⟨stack.sp - size, store stack.memory (stack.sp - size) size value⟩ := by
    rw [push, sub_of_le hRoom hSpace]
  rw [hPushed]
  exact ⟨rfl, ⟨Nat.sub_le _ _, fun asked hLe => store_apply_of_ge (by omega)⟩⟩

theorem writeBytes_apply (memory : Store) (addr : Nat) (bytes : List (BitVec 8)) (asked : Nat) :
    writeBytes memory addr bytes asked =
      if addr ≤ asked ∧ asked < addr + bytes.length then bytes.getD (asked - addr) 0 else memory asked := rfl

theorem extends_pushString {bound : Nat} (hRoom : string.val.length + 1 ≤ stack.sp) (hSpace : stack.sp < space)
    (hBound : stack.sp ≤ bound) :
    (stack.pushString string).sp = stack.sp - (string.val.length + 1) ∧ stack.Extends (stack.pushString string) ∧
      (stack.pushString string).Holds bound (stack.pushString string).sp string := by
  have hPushed : stack.pushString string = ⟨stack.sp - (string.val.length + 1),
      writeBytes stack.memory (stack.sp - (string.val.length + 1)) (string.val ++ [0])⟩ := by
    rw [pushString, sub_of_le hRoom hSpace]
  have hLength : (string.val ++ [0]).length = string.val.length + 1 := List.length_append
  rw [hPushed]
  refine ⟨rfl, ⟨Nat.sub_le _ _, fun asked hLe => ?_⟩, ⟨le_rfl, by dsimp only; omega, fun i hi => ?_, ?_⟩⟩
  · dsimp only
    rw [writeBytes_apply, hLength, if_neg (by omega)]
  · dsimp only
    rw [writeBytes_apply, hLength, if_pos (by omega), Nat.add_sub_cancel_left, List.getD_eq_getElem?_getD,
      List.getElem?_append_left hi, List.getElem?_eq_getElem hi, Option.getD_some]
  · dsimp only
    rw [writeBytes_apply, hLength, if_pos (by omega), Nat.add_sub_cancel_left]
    simp

/-- The bytes of some strings and their NULs. -/
def total (strings : List CString) : Nat := (strings.map fun string => string.val.length + 1).sum

theorem extends_pushArguments {strings : List CString} {bound : Nat} (hRoom : total strings ≤ stack.sp)
    (hSpace : stack.sp < space) (hBound : stack.sp ≤ bound) :
    (pushArguments strings stack).2.sp = stack.sp - total strings ∧ stack.Extends (pushArguments strings stack).2 ∧
      List.Forall₂ ((pushArguments strings stack).2.Holds bound) (pushArguments strings stack).1 strings := by
  induction strings generalizing stack with
  | nil => exact ⟨rfl, ⟨le_rfl, fun _ _ => rfl⟩, .nil⟩
  | cons string rest ih =>
    rw [total, List.map_cons, List.sum_cons, ← total] at hRoom ⊢
    obtain ⟨hSp, hExtends, hHolds⟩ := @extends_pushString stack string bound (by omega) hSpace hBound
    obtain ⟨hRestSp, hRest, hStrings⟩ := @ih (stack.pushString string) (by omega) (by omega) (by omega)
    rw [pushArguments]
    exact ⟨by dsimp only; omega, hExtends.trans hRest, .cons (hRest.holds hHolds) hStrings⟩

theorem extends_pushEnvironment {strings : List CString} {bound : Nat} (hRoom : total strings ≤ stack.sp)
    (hSpace : stack.sp < space) (hBound : stack.sp ≤ bound) :
    (pushEnvironment strings stack).2.sp = stack.sp - total strings ∧ stack.Extends (pushEnvironment strings stack).2 ∧
      List.Forall₂ ((pushEnvironment strings stack).2.Holds bound) (pushEnvironment strings stack).1 strings := by
  induction strings with
  | nil => exact ⟨rfl, ⟨le_rfl, fun _ _ => rfl⟩, .nil⟩
  | cons string rest ih =>
    rw [total, List.map_cons, List.sum_cons, ← total] at hRoom ⊢
    obtain ⟨hRestSp, hRest, hStrings⟩ := ih (by omega)
    obtain ⟨hSp, hExtends, hHolds⟩ :=
      @extends_pushString (pushEnvironment rest stack).2 string bound (by omega) (by omega) (by omega)
    rw [pushEnvironment]
    exact ⟨by dsimp only; omega, hRest.trans hExtends, .cons hHolds (hStrings.imp fun _ _ => hExtends.holds)⟩

theorem extends_iterate_push {value : Nat} (n : Nat) (hRoom : n ≤ stack.sp) (hSpace : stack.sp < space) :
    ((fun stack => push stack 1 value)^[n] stack).sp = stack.sp - n ∧
      stack.Extends ((fun stack => push stack 1 value)^[n] stack) := by
  induction n with
  | zero => exact ⟨rfl, ⟨le_rfl, fun _ _ => rfl⟩⟩
  | succ n ih =>
    obtain ⟨hSp, hExtends⟩ := ih (by omega)
    rw [Function.iterate_succ_apply']
    obtain ⟨hPushSp, hPush⟩ := @extends_push ((fun stack => push stack 1 value)^[n] stack) 1 value (by omega) (by omega)
    exact ⟨by omega, hExtends.trans hPush⟩

theorem extends_align (hSpace : stack.sp < space) :
    (stack.align 16).sp = stack.sp - stack.sp % 16 ∧ stack.Extends (stack.align 16) := by
  have hAligned : stack.align 16 = ⟨stack.sp - stack.sp % 16, stack.memory⟩ := by
    rw [align, sub_of_le (Nat.mod_le _ _) hSpace]
  rw [hAligned]
  exact ⟨rfl, ⟨Nat.sub_le _ _, fun _ _ => rfl⟩⟩

/-! ### Vectors -/

theorem writeWords_apply {size : Nat} {words : List Nat} {sp : Nat} (memory : Store)
    (hRoom : sp + size * words.length < space) {asked : Nat} (hOutside : asked < sp ∨ sp + size * words.length ≤ asked) :
    writeWords size words sp memory asked = memory asked := by
  induction words generalizing sp memory with
  | nil => rfl
  | cons word rest ih =>
    rw [List.length_cons, Nat.mul_succ] at hRoom hOutside
    rw [writeWords, add_of_lt (by omega), ih _ (by omega) (by omega)]
    rcases hOutside with hBelow | hAbove
    · exact store_apply_of_lt hBelow
    · exact store_apply_of_ge (by omega)

theorem load_writeWords {size : Nat} {words : List Nat} {sp : Nat} (memory : Store)
    (hRoom : sp + size * words.length < space) {i : Nat} (hi : i < words.length) :
    load (writeWords size words sp memory) (sp + size * i) size = words[i] % 256 ^ size := by
  induction words generalizing sp memory i with
  | nil => exact absurd hi (Nat.not_lt_zero i)
  | cons word rest ih =>
    rw [List.length_cons, Nat.mul_succ] at hRoom
    have hNext : add sp size = sp + size := add_of_lt (by omega)
    cases i with
    | zero =>
      rw [writeWords, hNext, Nat.mul_zero, Nat.add_zero]
      rw [load_congr fun asked hLe hLt => writeWords_apply _ (by omega) (.inl (by omega)), load_store_self]
      rfl
    | succ i =>
      rw [writeWords, hNext, Nat.mul_succ, show sp + (size * i + size) = sp + size + size * i by omega,
        ih _ (by omega) (by simpa using hi)]
      rfl

end UserStack

namespace StackSettings

open UserStack

variable {settings : StackSettings} {memory : Store}

theorem entrySize_cases (settings : StackSettings) : settings.entrySize = 8 ∨ settings.entrySize = 4 := by
  rw [entrySize]
  split_ifs <;> simp

/-- The strings are on the stack, with room for the vectors below. -/
structure Strings.Ready (settings : StackSettings) (strings : Strings) : Prop where
  aligned : strings.stack.sp % 16 = 0
  room : settings.entrySize * (settings.argv.length + settings.environ.length + 38) + 15 ≤ strings.stack.sp
  space : strings.stack.sp < space
  argv : List.Forall₂ (strings.stack.Holds (256 ^ settings.entrySize)) strings.argvPtrs
    (settings.realPath :: settings.argv)
  envp : List.Forall₂ (strings.stack.Holds (256 ^ settings.entrySize)) strings.envpPtrs settings.environment

theorem ready_pushStrings (hFits : settings.Fits) (memory : Store) :
    Strings.Ready settings (settings.pushStrings memory) := by
  obtain ⟨hRoom, hWord, -⟩ := hFits
  rw [need, ← total, ← total] at hRoom
  have hSpace : settings.top < space := by
    obtain hSize | hSize := settings.entrySize_cases
    · rwa [hSize] at hWord
    · rw [hSize] at hWord
      exact hWord.trans (by decide)
  let platform := UserStack.pushString ⟨settings.top, memory⟩ settings.platformName
  let zero := platform.push settings.entrySize 0
  let path := zero.pushString settings.realPath
  let environment := UserStack.pushEnvironment settings.environment path
  let arguments := UserStack.pushArguments settings.argv environment.2
  let random := (fun stack => UserStack.push stack 1 0x1f)^[16] arguments.2
  obtain ⟨hPlatformSp, -, -⟩ := @extends_pushString ⟨settings.top, memory⟩ settings.platformName
    (256 ^ settings.entrySize) (by dsimp only; omega) hSpace hWord.le
  change platform.sp = settings.top - _ at hPlatformSp
  obtain ⟨hZeroSp, -⟩ := @extends_push platform settings.entrySize 0 (by omega) (by omega)
  change zero.sp = _ at hZeroSp
  obtain ⟨hPathSp, -, hPath⟩ := @extends_pushString zero settings.realPath (256 ^ settings.entrySize)
    (by omega) (by omega) (by omega)
  change path.sp = _ at hPathSp
  obtain ⟨hEnvSp, hEnv, hEnvStrings⟩ := @extends_pushEnvironment path settings.environment (256 ^ settings.entrySize)
    (by omega) (by omega) (by omega)
  change environment.2.sp = _ at hEnvSp
  obtain ⟨hArgsSp, hArgs, hArgsStrings⟩ := @extends_pushArguments environment.2 settings.argv
    (256 ^ settings.entrySize) (by omega) (by omega) (by omega)
  change arguments.2.sp = _ at hArgsSp
  obtain ⟨hRandomSp, hRandom⟩ := @extends_iterate_push arguments.2 0x1f 16 (by omega) (by omega)
  change random.sp = _ at hRandomSp
  obtain ⟨hAlignSp, hAlign⟩ := @extends_align random (by omega)
  have hLast := hRandom.trans hAlign
  have hStack : (settings.pushStrings memory).stack = random.align 16 := rfl
  refine ⟨?_, ?_, ?_, ?_, ?_⟩
  · rw [hStack]
    omega
  · rw [hStack]
    omega
  · rw [hStack]
    omega
  · exact .cons ((hEnv.trans (hArgs.trans hLast)).holds hPath) (hArgsStrings.imp fun _ _ => hLast.holds)
  · exact hEnvStrings.imp fun _ _ => (hArgs.trans hLast).holds

/-! ### The finished stack -/

variable {strings : Strings}

theorem length_words : (settings.words strings).length =
    strings.argvPtrs.length + strings.envpPtrs.length + 2 * (settings.auxvEntries strings).length + 3 := by
  have hPairs : ((settings.auxvEntries strings).flatMap fun entry => [entry.1, entry.2]).length =
      2 * (settings.auxvEntries strings).length := by
    simp [List.length_flatMap, Nat.mul_comm]
  simp only [words, List.length_cons, List.length_append, hPairs]
  omega

/-- The auxiliary vector is ended by the first entry without an id. -/
theorem exists_auxvEntries (settings : StackSettings) (strings : Strings) : ∃ entries : List (Nat × Nat),
    settings.auxvEntries strings = entries ++ [(0, 0)] ∧ entries.length ≤ 16 ∧ ∀ entry ∈ entries, 0 < entry.1 ∧ entry.1 < 256 := by
  refine ⟨(settings.auxvEntries strings).dropLast, ?_, ?_, ?_⟩ <;> rw [auxvEntries] <;> split_ifs <;> simp

section

variable (hFits : settings.Fits)
include hFits

/-- The words go below the strings. -/
theorem prepareStack_spec (memory : Store) : let strings := settings.pushStrings memory
    let stack := settings.prepareStack memory
    stack.sp % 16 = 0 ∧ stack.sp + settings.entrySize * (settings.words strings).length ≤ strings.stack.sp ∧
      stack.memory = writeWords settings.entrySize (settings.words strings) stack.sp strings.stack.memory := by
  intro strings stack
  obtain ⟨-, hRoom, hSpace, hArgv, hEnvp⟩ : Strings.Ready settings strings := ready_pushStrings hFits memory
  have hItems := hFits.items
  have hArgc : strings.argvPtrs.length = settings.argv.length + 1 := hArgv.length_eq
  have hEnvc : strings.envpPtrs.length = settings.environ.length := by
    rw [hEnvp.length_eq, environment, List.length_map]
  have hAuxv : (settings.auxvEntries strings).length ≤ 17 := by
    obtain ⟨entries, hEntries, hLength, -⟩ := exists_auxvEntries settings strings
    rw [hEntries, List.length_append]
    exact Nat.succ_le_succ hLength
  let auxv := settings.entrySize * (2 * (settings.auxvEntries strings).length)
  let items := (strings.argvPtrs.length + 1) + (strings.envpPtrs.length + 1) + 1
  have hBelow : sub (sub strings.stack.sp auxv) (items * settings.entrySize % 2 ^ 32) =
      strings.stack.sp - auxv - items * settings.entrySize := by
    have hLe : auxv + items * settings.entrySize ≤ strings.stack.sp ∧ items * settings.entrySize < 2 ^ 32 := by
      dsimp only [auxv, items]
      rw [hArgc, hEnvc]
      obtain hSize | hSize := settings.entrySize_cases <;> rw [hSize] at hRoom hItems ⊢ <;> omega
    rw [Nat.mod_eq_of_lt hLe.2, sub_of_le (by omega) hSpace, sub_of_le (by omega) (by omega)]
  have hSp : stack.sp = (strings.stack.sp - auxv - items * settings.entrySize) -
      (strings.stack.sp - auxv - items * settings.entrySize) % 16 := by
    rw [← hBelow]
    rfl
  refine ⟨by omega, ?_, rfl⟩
  rw [length_words, hSp]
  dsimp only [auxv, items]
  rw [hArgc, hEnvc]
  obtain hSize | hSize := settings.entrySize_cases <;> rw [hSize] at hRoom ⊢ <;> omega

/-- The words of the finished stack. -/
theorem load_word (memory : Store) {i word : Nat}
    (hWord : (settings.words (settings.pushStrings memory))[i]? = some word)
    (hSmall : word < 256 ^ settings.entrySize) :
    load (settings.prepareStack memory).memory ((settings.prepareStack memory).sp + settings.entrySize * i)
      settings.entrySize = word := by
  obtain ⟨-, hRoom, hMemory⟩ := prepareStack_spec hFits memory
  obtain ⟨hi, hGet⟩ := List.getElem?_eq_some_iff.mp hWord
  have hSpace := (ready_pushStrings hFits memory).space
  rw [hMemory, load_writeWords _ (by omega) hi, hGet, Nat.mod_eq_of_lt hSmall]

/-- The strings are where they were before the words were written. -/
theorem hasString_prepareStack (memory : Store) {bound addr : Nat} {string : CString}
    (hHolds : (settings.pushStrings memory).stack.Holds bound addr string) :
    HasString (settings.prepareStack memory).memory addr string := by
  obtain ⟨-, hRoom, hMemory⟩ := prepareStack_spec hFits memory
  have hSpace := (ready_pushStrings hFits memory).space
  obtain ⟨hAbove, -, hBytes, hLast⟩ := hHolds
  rw [hMemory]
  refine ⟨fun i hi => ?_, ?_⟩
  · rw [writeWords_apply _ (by omega) (.inr (by omega)), hBytes i hi]
  · rw [writeWords_apply _ (by omega) (.inr (by omega)), hLast]

/-- The addresses of some strings among the words, with a NULL behind them. -/
theorem hasVector_of_words (memory : Store) {before ptrs after : List Nat}
    (hWords : settings.words (settings.pushStrings memory) = before ++ (ptrs ++ 0 :: after)) {list : List CString}
    (hPtrs : List.Forall₂ ((settings.pushStrings memory).stack.Holds (256 ^ settings.entrySize)) ptrs list) :
    settings.HasVector (settings.prepareStack memory) before.length
      ((settings.prepareStack memory).sp + settings.entrySize * (settings.words (settings.pushStrings memory)).length)
      list := by
  obtain ⟨-, hRoom, -⟩ := prepareStack_spec hFits memory
  have hLength := hPtrs.length_eq
  refine ⟨fun i hi => ?_, ?_⟩
  · have hHolds := List.Forall₂.get hPtrs (by omega) hi
    have hWord : (settings.words (settings.pushStrings memory))[before.length + i]? = some (ptrs.get ⟨i, by omega⟩) := by
      rw [hWords, List.getElem?_append_right (by omega), Nat.add_sub_cancel_left, List.getElem?_append_left (by omega)]
      simp
    rw [load_word hFits memory hWord hHolds.bounded]
    exact ⟨hRoom.trans hHolds.above, hasString_prepareStack hFits memory hHolds⟩
  · refine load_word hFits memory ?_ (Nat.pow_pos (by decide))
    rw [hWords, List.getElem?_append_right (by omega), Nat.add_sub_cancel_left, ← hLength,
      List.getElem?_append_right le_rfl, Nat.sub_self]
    rfl

end

theorem getElem?_pairs (entries : List (Nat × Nat)) (i : Nat) :
    (entries.flatMap fun entry => [entry.1, entry.2])[2 * i]? = entries[i]?.map (·.1) ∧
      (entries.flatMap fun entry => [entry.1, entry.2])[2 * i + 1]? = entries[i]?.map (·.2) := by
  induction entries generalizing i with
  | nil => simp
  | cons entry entries ih =>
    cases i with
    | zero => simp
    | succ i => simpa [Nat.mul_succ] using ih i

/-- The stack is the one for the strings as they are pushed. -/
theorem wellFormed_environment (hFits : settings.Fits) (memory : Store) :
    ∃ n, settings.WellFormed (settings.prepareStack memory) settings.environment n := by
  obtain ⟨-, -, -, hArgv, hEnvp⟩ := ready_pushStrings hFits memory
  obtain ⟨hAligned, -, -⟩ := prepareStack_spec hFits memory
  obtain ⟨entries, hEntries, -, hIds⟩ := exists_auxvEntries settings (settings.pushStrings memory)
  generalize hStrings : settings.pushStrings memory = strings at *
  have hArgc : strings.argvPtrs.length = settings.argv.length + 1 := hArgv.length_eq
  have hEnvc := hEnvp.length_eq
  have hLength : (settings.words strings).length =
      settings.argv.length + settings.environment.length + 2 * entries.length + 6 := by
    rw [length_words, hArgc, hEnvc, hEntries, List.length_append, List.length_singleton]
    omega
  -- the vectors one after the other
  have hWords : settings.words strings = [strings.argvPtrs.length] ++ (strings.argvPtrs ++ 0 :: (strings.envpPtrs ++ 0 ::
      (settings.auxvEntries strings).flatMap fun entry => [entry.1, entry.2])) := rfl
  have hEnvWords : settings.words strings = (strings.argvPtrs.length :: (strings.argvPtrs ++ [0])) ++
      (strings.envpPtrs ++ 0 :: (settings.auxvEntries strings).flatMap fun entry => [entry.1, entry.2]) := by
    simp [hWords]
  have hAuxWord (i : Nat) : (settings.words strings)[settings.argv.length + settings.environment.length + 4 + i]? =
      ((settings.auxvEntries strings).flatMap fun entry => [entry.1, entry.2])[i]? := by
    have hSplit : settings.words strings = (strings.argvPtrs.length :: (strings.argvPtrs ++ 0 :: (strings.envpPtrs ++ [0]))) ++
        (settings.auxvEntries strings).flatMap fun entry => [entry.1, entry.2] := by
      simp [hWords]
    have hBefore : (strings.argvPtrs.length :: (strings.argvPtrs ++ 0 :: (strings.envpPtrs ++ [0]))).length =
        settings.argv.length + settings.environment.length + 4 := by
      simp only [List.length_cons, List.length_append, List.length_nil, hArgc, hEnvc]
      omega
    rw [hSplit, ← hBefore, List.getElem?_append_right (by omega), Nat.add_sub_cancel_left]
  have hPow : 256 < 256 ^ settings.entrySize ∧ settings.argv.length + 1 < 256 ^ settings.entrySize := by
    have hItems := hFits.items
    obtain hSize | hSize := settings.entrySize_cases <;> rw [hSize] at hItems ⊢ <;> omega
  have hLast : (settings.auxvEntries strings)[entries.length]? = some (0, 0) := by simp [hEntries]
  subst hStrings
  refine ⟨entries.length, ⟨hAligned, ?_, ?_, ?_, fun i hi => ?_, ?_, ?_⟩⟩
  · have hFirst := load_word hFits memory (i := 0) rfl (hArgc ▸ hPow.2)
    rwa [Nat.mul_zero, Nat.add_zero, hArgc] at hFirst
  · rw [← hLength]
    exact hasVector_of_words hFits memory hWords hArgv
  · have hVector := hasVector_of_words hFits memory hEnvWords hEnvp
    rwa [hLength, List.length_cons, List.length_append, List.length_singleton, hArgc] at hVector
  · have hMem : entries[i] ∈ entries := List.getElem_mem hi
    have hWord : (settings.words (settings.pushStrings memory))[settings.argv.length + settings.environment.length + 4 +
        2 * i]? = some entries[i].1 := by
      rw [hAuxWord, (getElem?_pairs _ i).1, hEntries, List.getElem?_append_left hi, List.getElem?_eq_getElem hi]
      rfl
    rw [load_word hFits memory hWord ((hIds _ hMem).2.trans hPow.1)]
    exact (hIds _ hMem).1.ne'
  · refine load_word hFits memory ?_ (by omega)
    rw [hAuxWord, (getElem?_pairs _ _).1, hLast]
    rfl
  · refine load_word hFits memory ?_ (by omega)
    rw [show settings.argv.length + settings.environment.length + 5 + 2 * entries.length =
      settings.argv.length + settings.environment.length + 4 + (2 * entries.length + 1) by omega, hAuxWord,
      (getElem?_pairs _ _).2, hLast]
    rfl

theorem environment_eq_iff : settings.environment = settings.expectedEnvironment ↔
    ∀ string ∈ settings.environ, string.val.head? = some 0x5f → name string = [0x5f] := by
  have hName : name settings.underscore = [0x5f] := by simp [name, underscore]
  rw [environment, expectedEnvironment, List.map_inj_left]
  refine forall₂_congr fun string _ => ?_
  constructor
  · intro hSame hHead
    by_contra hOther
    rw [if_pos hHead, if_neg hOther] at hSame
    exact hOther (hSame ▸ hName)
  · intro hOnly
    by_cases hHead : string.val.head? = some 0x5f
    · rw [if_pos hHead, if_pos (hOnly hHead)]
    · have hOther : name string ≠ [0x5f] := by
        intro hSame
        obtain ⟨rest, hRest⟩ : name string <+: string.val := List.takeWhile_prefix _
        rw [← hRest, hSame] at hHead
        exact hHead rfl
      rw [if_neg hHead, if_neg hOther]

/-- Where there is room, the stack is well formed exactly if of the strings of the environment only one whose
name is `_` begins with this byte. -/
theorem wellFormed_iff_names (settings : StackSettings) (memory : Store) (hFits : settings.Fits) :
    (∃ n, settings.WellFormed (settings.prepareStack memory) settings.expectedEnvironment n) ↔
      ∀ string ∈ settings.environ, string.val.head? = some 0x5f → name string = [0x5f] := by
  rw [← environment_eq_iff]
  obtain ⟨n, hActual⟩ := wellFormed_environment hFits memory
  constructor
  · rintro ⟨m, hExpected⟩
    have hLength : settings.environment.length = settings.expectedEnvironment.length := by
      simp [environment, expectedEnvironment]
    refine List.ext_getElem hLength fun i hi hi' => ?_
    exact hasString_unique (hActual.envp.1 i hi).2 (hExpected.envp.1 i hi').2
  · intro hSame
    exact ⟨n, hSame ▸ hActual⟩

/-- A program without arguments, with one string in its environment. -/
def sample (string : CString) : StackSettings where
  is64BitBinary := false
  platformName := ⟨[0x76], by decide⟩
  targetBinary := ⟨[0x61], by decide⟩
  realPath := ⟨[0x2f, 0x61], by decide⟩
  environ := [string]
  argv := []
  hwcap := 0
  hwcap2 := 0
  phdrLocation := 0x10034
  phentsize := 32
  phnum := 1
  entryPoint := 0x10054
  top := 0x40010000

/-- The string `A=`. -/
theorem wellFormed_sample :
    ∃ n, (sample ⟨[0x41, 0x3d], by decide⟩).WellFormed ((sample ⟨[0x41, 0x3d], by decide⟩).prepareStack fun _ => 0)
      (sample ⟨[0x41, 0x3d], by decide⟩).expectedEnvironment n :=
  (wellFormed_iff_names (sample ⟨[0x41, 0x3d], by decide⟩) (fun _ => 0) ⟨by decide, by decide, by decide⟩).mpr
    (by decide)

/-- The string `_X=` is lost. -/
theorem not_wellFormed_sample :
    ¬ ∃ n, (sample ⟨[0x5f, 0x58, 0x3d], by decide⟩).WellFormed
      ((sample ⟨[0x5f, 0x58, 0x3d], by decide⟩).prepareStack fun _ => 0)
      (sample ⟨[0x5f, 0x58, 0x3d], by decide⟩).expectedEnvironment n := by
  rintro ⟨m, hExpected⟩
  have hFits : (sample ⟨[0x5f, 0x58, 0x3d], by decide⟩).Fits := ⟨by decide, by decide, by decide⟩
  obtain ⟨n, hActual⟩ := wellFormed_environment hFits fun _ => 0
  have hSame := hasString_unique (hActual.envp.1 0 (by decide)).2 (hExpected.envp.1 0 (by decide)).2
  exact absurd hSame (by decide)

end StackSettings

end Gensim.Abi
