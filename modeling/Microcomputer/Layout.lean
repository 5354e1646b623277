/-!
# Sizes, places and rates

The numbers that the parts of the machine share: how large the memories are, where the stack starts, how
fast the clock goes and which line of the input register it is.
-/

namespace Microcomputer

/-! ## The control store -/

/-- The number of opcodes. -/
def opcodeCount : Nat := 256

/-- The number of cycles that an instruction has words for. -/
def cycleCount : Nat := 16

/-- The number of words in the control store. -/
def storeSize : Nat := 32768

/-- The bit of an opcode that selects the flag bank. -/
def flagBankBit : UInt8 := 0x80

/-! ## Memory -/

/-- The number of bytes of a page. -/
def pageSize : Nat := 256

/-- The number of pages. -/
def pageCount : Nat := 256

/-- The number of bytes of memory. -/
def memorySize : Nat := pageSize * pageCount

/-- The number of bytes of the bootstrap region, the lowest of the memory. -/
def bootSize : Nat := 2048

/-- Where the stack starts. -/
def stackAddress : UInt16 := 0xF000

/-! ## Time -/

/-- Cycles a second. -/
def frequency : Nat := 1000000

/-- Milliseconds of an interval. -/
def interval : Nat := 125

/-- Cycles of an interval. -/
def intervalTicks : Nat := frequency * interval / 1000

/-- Milliseconds of half a period of the clock line. -/
def clockInterval : Nat := 125

/-- Cycles of half a period of the clock line. -/
def clockTicks : Nat := frequency * clockInterval / 1000

/-! ## The input register -/

/-- The clock line. -/
def InputLines.clockBit : UInt8 := 0x10

end Microcomputer
