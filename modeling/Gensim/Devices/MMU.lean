import Gensim.Core.Address

/-! What a memory management unit is asked, and what it answers. -/
namespace Gensim.Devices

open Core

/-- The ring and the kind of an access. -/
structure AccessInfo where
  ring : Nat
  write : Bool
  fetch : Bool
  deriving DecidableEq

inductive TranslateResult where
  | ok | faultSection | faultPage | faultOther
  | accessDomainSection | accessDomainPage | accessPermissionSection | accessPermissionPage
  deriving DecidableEq

/-- The number of a result, which is what an access that fails returns. -/
def TranslateResult.rc : TranslateResult → Nat
  | .ok => 0
  | .faultSection => 1
  | .faultPage => 2
  | .faultOther => 3
  | .accessDomainSection => 4
  | .accessDomainPage => 5
  | .accessPermissionSection => 6
  | .accessPermissionPage => 7

theorem TranslateResult.rc_eq_zero_iff {result : TranslateResult} : result.rc = 0 ↔ result = .ok := by
  cases result <;> decide

structure PageInfo where
  physAddr : Address
  mask : Address
  present : Bool
  userCanRead : Bool
  userCanWrite : Bool
  userCanExecute : Bool
  kernelCanRead : Bool
  kernelCanWrite : Bool
  kernelCanExecute : Bool

namespace PageInfo

/-- The constructor sets all fields but those for execution. -/
def new (userCanExecute kernelCanExecute : Bool) : PageInfo :=
  ⟨0, 0, false, false, false, userCanExecute, false, false, kernelCanExecute⟩

variable (pi : PageInfo)

def setAll (userCanRead userCanWrite kernelCanRead kernelCanWrite : Bool) : PageInfo :=
  { pi with userCanRead, userCanWrite, kernelCanRead, kernelCanWrite }

/-- Whether the page is there, and can be read or written in the ring. -/
def permits (ring : Nat) (write : Bool) : Bool :=
  pi.present &&
    if ring = 0 then (if write then pi.userCanWrite else pi.userCanRead)
    else if write then pi.kernelCanWrite else pi.kernelCanRead

/-- The frame of the page, with the bits of an address that are under its mask. -/
def combine (address : Address) : Address := (pi.physAddr &&& ~~~pi.mask) ||| (address &&& pi.mask)

end PageInfo

end Gensim.Devices
