import Painting.Core.Memory
import Painting.Fs.Descriptors

/-!
# The device tree

`parseDtb` of `dtb.c` walks the structure block that the firmware leaves in memory.  Each round of a
loop and each call takes one unit of fuel.  The output is left out, and with it the names of the
properties, which are only printed.

The value that is read for a node whose text property is `memory` may be a null pointer.
-/

namespace Painting.Dtb

open Painting.Memory (Mem load)
open Painting.Descriptors (strncmp cstring)

def fdtBeginNode : ℕ := 1
def fdtEndNode : ℕ := 2
def fdtProp : ℕ := 3
def fdtNop : ℕ := 4
def fdtEnd : ℕ := 9

/-! ## Words -/

def swapChar (mem : Mem) (a b : ℕ) : Mem :=
  Function.update (Function.update mem a (mem b)) b (mem a)

/-- `endianBigToLittle` of `words` words. -/
def endianBigToLittle (mem : Mem) (bin : ℕ) : ℕ → Mem
  | 0 => mem
  | words + 1 =>
      let mem := swapChar mem bin (bin + 3)
      let mem := swapChar mem (bin + 1) (bin + 2)
      endianBigToLittle mem (bin + 4) words

/-- `readBigEndian32`: the bytes at `p` from the last to the first. -/
def readBigEndian32 (mem : Mem) (p : ℕ) : ℕ := load (fun i => mem (p + (3 - i))) 0 4

/-- `readBigEndian64`. -/
def readBigEndian64 (mem : Mem) (p : ℕ) : ℕ := load (fun i => mem (p + (7 - i))) 0 8

/-- `FOURROUNDUP`. -/
def fourRoundUp (sz : ℕ) : ℕ := (sz + 4 - 1) / 4 * 4

/-- `struct MemInfo`. -/
structure MemInfo where
  start : ℕ
  size : ℕ

/-- The pointer that a parser returns and `memInfo`, or where it stops. -/
inductive Parsed
  | done (node : ℕ) (memInfo : MemInfo)
  | assertFailed
  | nullRead
  | outOfFuel

def Parsed.andThen : Parsed → (ℕ → MemInfo → Parsed) → Parsed
  | .done node memInfo, next => next node memInfo
  | .assertFailed, _ => .assertFailed
  | .nullRead, _ => .nullRead
  | .outOfFuel, _ => .outOfFuel

/-! ## Nodes -/

section Nodes

variable (mem : Mem)

/-- The loops over `FDT_NOP`. -/
def skipNops : ℕ → ℕ → Option ℕ
  | 0, _ => none
  | fuel + 1, node =>
      if readBigEndian32 mem node = fdtNop then skipNops fuel (node + 4) else some node

/-- The end of the string at `s`. -/
def stringEnd : ℕ → ℕ → Option ℕ
  | 0, _ => none
  | fuel + 1, s => if mem s ≠ 0 then stringEnd fuel (s + 1) else some s

/-- The lengths whose values are printed as numbers. -/
def IsNumber (len : ℕ) : Prop := len = 4 ∨ len = 8 ∨ len = 16 ∨ len = 32

instance (len : ℕ) : Decidable (IsNumber len) := inferInstanceAs (Decidable (_ ∨ _))

/-- The loop over a run of properties, with `nodeStr` and `value`. -/
def propLoop : ℕ → ℕ → Option ℕ → Option ℕ → Option (ℕ × Option ℕ × Option ℕ)
  | 0, _, _, _ => none
  | fuel + 1, node, nodeStr, value =>
      if readBigEndian32 mem node = fdtProp then
        let node := node + 4
        let len := readBigEndian32 mem node
        let node := node + 4 + 4
        let (nodeStr, value) :=
          if IsNumber len then (nodeStr, some node) else (some node, value)
        (skipNops mem fuel (fourRoundUp (node + len))).bind fun node =>
          propLoop fuel node nodeStr value
      else some (node, nodeStr, value)

/-- What `strncmp` takes for `memory`. -/
def IsMemory (nodeStr : ℕ) : Prop :=
  strncmp (fun i => mem (nodeStr + i)) (cstring "memory".toList) 7 = 0

instance (nodeStr : ℕ) : Decidable (IsMemory mem nodeStr) := inferInstanceAs (Decidable (_ = _))

/-- What follows a run of properties. -/
def readMemory (nodeStr value : Option ℕ) (node : ℕ) (memInfo : MemInfo) : Parsed :=
  match nodeStr with
  | none => .done node memInfo
  | some nodeStr =>
      if IsMemory mem nodeStr then
        match value with
        | none => .nullRead
        | some value =>
            .done node ⟨readBigEndian64 mem value, readBigEndian64 mem (value + 8)⟩
      else .done node memInfo

/-- The loop of `parseFdtNode` over the properties. -/
def scanProps : ℕ → ℕ → MemInfo → Parsed
  | 0, _, _ => .outOfFuel
  | fuel + 1, node, memInfo =>
      (skipNops mem fuel node).elim .outOfFuel fun node =>
        if readBigEndian32 mem node = fdtProp then
          (propLoop mem fuel node none none).elim .outOfFuel fun (node, nodeStr, value) =>
            (readMemory mem nodeStr value node memInfo).andThen (scanProps fuel)
        else .done node memInfo

mutual

/-- `parseFdtNode`. -/
def parseFdtNode : ℕ → ℕ → MemInfo → Parsed
  | 0, _, _ => .outOfFuel
  | fuel + 1, node, memInfo =>
      (skipNops mem fuel node).elim .outOfFuel fun node =>
        if readBigEndian32 mem node ≠ fdtBeginNode then .assertFailed
        else
          (stringEnd mem fuel (node + 4)).elim .outOfFuel fun stop =>
            (scanProps mem fuel (fourRoundUp (stop + 1)) memInfo).andThen (childLoop fuel)

/-- The loop of `parseFdtNode` over the subnodes. -/
def childLoop : ℕ → ℕ → MemInfo → Parsed
  | 0, _, _ => .outOfFuel
  | fuel + 1, node, memInfo =>
      if readBigEndian32 mem node ≠ fdtEndNode then
        (parseFdtNode fuel node memInfo).andThen fun node memInfo =>
          (skipNops mem fuel node).elim .outOfFuel fun node => childLoop fuel node memInfo
      else .done (node + 4) memInfo

end

/-- The loop of `parseDtb`. -/
def dtbLoop : ℕ → ℕ → MemInfo → Parsed
  | 0, _, _ => .outOfFuel
  | fuel + 1, node, memInfo =>
      (parseFdtNode mem fuel node memInfo).andThen fun node memInfo =>
        if readBigEndian32 mem node ≠ fdtEnd then dtbLoop fuel node memInfo
        else .done node memInfo

end Nodes

/-- The words of `struct FDTHeader`. -/
def headerWords : ℕ := 10

/-- `off_dt_struct`, after the header has been converted. -/
def offDtStruct (mem : Mem) (dtbEntry : ℕ) : ℕ := load mem (dtbEntry + 8) 4

/-- `parseDtb`, with `memInfo` 0 at boot. -/
def parseDtb (mem : Mem) (dtbEntry fuel : ℕ) : Parsed :=
  let mem := endianBigToLittle mem dtbEntry headerWords
  dtbLoop mem fuel (dtbEntry + offDtStruct mem dtbEntry) ⟨0, 0⟩

end Painting.Dtb
