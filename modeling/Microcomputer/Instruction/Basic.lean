import Microcomputer.Instruction.Operand

/-!
# The instruction set

Every instruction has a form: its mnemonic, its first opcode and its arguments. Register arguments are
fields of the opcode, so an instruction owns a block of opcodes; together the blocks cover all 256.
-/

namespace Microcomputer

/-- The instructions, one for each mnemonic and row of arguments. -/
inductive Instruction where
  -- control
  | nop
  | halt
  -- logic and shifts, on flag bank 0
  | not
  | andReg
  | orReg
  | xorReg
  | shl
  | shr
  | andImm
  | orImm
  | xorImm
  -- arithmetic, on flag bank 1
  | inc
  | incCarry
  | dec
  | decCarry
  | addReg
  | addCarryReg
  | subReg
  | subCarryReg
  | addImm
  | addCarryImm
  | subImm
  | subCarryImm
  -- moves between registers
  | movReg
  | movImm
  | clr
  | swap
  | xchgReg
  | xchgRegFinish
  | xchgMem
  -- input and output
  | input
  | outReg
  | outImm
  -- memory
  | ld
  | stReg
  | stImm
  | stpImm
  | ldp
  | stpReg
  | gpLow
  | gpHigh
  | pairOffsetLow
  | pairOffsetHigh
  | loadPairOffset
  | storePairOffset
  -- comparison and jumps
  | cmpReg
  | cmpImm
  | jmp
  | je
  | jne
  | jg
  | jge
  | jl
  | jle
  -- the stack
  | rstsp
  | pushReg
  | pop
  | pushImm
  -- loops
  | loope
  | loopz
  -- calls and frames
  | call
  | ret
  | retImm
  | enter
  | leave
  | alloc
  | free
  | ldf
  | stfReg
  | stfImm
  | gpfLow
  | gpfHigh
deriving DecidableEq, Repr

namespace Instruction

/-- What an instruction looks like: its name, its mnemonic, the first opcode of its block and its
arguments in the order in which their bytes follow the opcode. -/
structure Form where
  name : String
  mnemonic : String
  opcode : UInt8
  kinds : List OperandKind
deriving DecidableEq, Repr

/-- The table of forms. -/
def form : Instruction → Form
  -- control
  | nop => ⟨"Nop", "nop", 0x00, []⟩
  | halt => ⟨"Halt", "halt", 0xFF, []⟩
  -- logic and shifts, on flag bank 0
  | not => ⟨"Not", "not", 0x24, [.abxy]⟩
  | andReg => ⟨"AndReg", "and", 0x28, [.ab, .abxy]⟩
  | orReg => ⟨"OrReg", "or", 0x30, [.ab, .abxy]⟩
  | xorReg => ⟨"XorReg", "xor", 0x38, [.ab, .abxy]⟩
  | shl => ⟨"Shl", "shl", 0x4C, [.abxy]⟩
  | shr => ⟨"Shr", "shr", 0x50, [.abxy]⟩
  | andImm => ⟨"AndImm", "and", 0x40, [.imm, .abxy]⟩
  | orImm => ⟨"OrImm", "or", 0x44, [.imm, .abxy]⟩
  | xorImm => ⟨"XorImm", "xor", 0x48, [.imm, .abxy]⟩
  -- arithmetic, on flag bank 1
  | inc => ⟨"Inc", "inc", 0x80, [.abxy]⟩
  | incCarry => ⟨"IncCarry", "incc", 0x84, [.abxy]⟩
  | dec => ⟨"Dec", "dec", 0x88, [.abxy]⟩
  | decCarry => ⟨"DecCarry", "decc", 0x8C, [.abxy]⟩
  | addReg => ⟨"AddReg", "add", 0x90, [.ab, .abxy]⟩
  | addCarryReg => ⟨"AddCarryReg", "addc", 0x98, [.ab, .abxy]⟩
  | subReg => ⟨"SubReg", "sub", 0xA0, [.ab, .abxy]⟩
  | subCarryReg => ⟨"SubCarryReg", "subc", 0xA8, [.ab, .abxy]⟩
  | addImm => ⟨"AddImm", "add", 0xB0, [.imm, .abxy]⟩
  | addCarryImm => ⟨"AddCarryImm", "addc", 0xB4, [.imm, .abxy]⟩
  | subImm => ⟨"SubImm", "sub", 0xB8, [.imm, .abxy]⟩
  | subCarryImm => ⟨"SubCarryImm", "subc", 0xBC, [.imm, .abxy]⟩
  -- moves between registers
  | movReg => ⟨"MovReg", "mov", 0xD0, [.abxy, .abxy]⟩
  | movImm => ⟨"MovImm", "mov", 0xCC, [.imm, .abxy]⟩
  | clr => ⟨"Clr", "clr", 0x54, [.abxy]⟩
  | swap => ⟨"Swap", "swap", 0x58, [.abxy]⟩
  | xchgReg => ⟨"XchgReg", "xchg.1", 0x60, [.abxy, .abxy]⟩
  | xchgRegFinish => ⟨"XchgRegFinish", "xchg.2", 0x5C, [.abxy]⟩
  | xchgMem => ⟨"XchgMem", "xchg", 0x18, [.addr, .abxy]⟩
  -- input and output
  | input => ⟨"In", "in", 0xF0, [.abxy]⟩
  | outReg => ⟨"OutReg", "out", 0xF4, [.abxy]⟩
  | outImm => ⟨"OutImm", "out", 0x03, [.imm]⟩
  -- memory
  | ld => ⟨"Ld", "ld", 0xE4, [.addr, .abxy]⟩
  | stReg => ⟨"StReg", "st", 0xEC, [.abxy, .addr]⟩
  | stImm => ⟨"StImm", "st", 0x02, [.imm, .addr]⟩
  | stpImm => ⟨"StpImm", "stp", 0x01, [.imm]⟩
  | ldp => ⟨"Ldp", "ldp", 0xE0, [.abxy]⟩
  | stpReg => ⟨"StpReg", "stp", 0xE8, [.abxy]⟩
  | gpLow => ⟨"GpLow", "gp.1", 0x0E, [.addr]⟩
  | gpHigh => ⟨"GpHigh", "gp.2", 0x0F, []⟩
  | pairOffsetLow => ⟨"PairOffsetLow", "po.1", 0x0A, [.imm]⟩
  | pairOffsetHigh => ⟨"PairOffsetHigh", "po.2", 0x0B, []⟩
  | loadPairOffset => ⟨"LoadPairOffset", "ldpo.3", 0x08, [.ab]⟩
  | storePairOffset => ⟨"StorePairOffset", "stpo.3", 0x0C, [.ab]⟩
  -- comparison and jumps
  | cmpReg => ⟨"CmpReg", "cmp", 0xC0, [.ab, .abxy]⟩
  | cmpImm => ⟨"CmpImm", "cmp", 0xC8, [.imm, .abxy]⟩
  | jmp => ⟨"Jmp", "jmp", 0xF8, [.addr]⟩
  | je => ⟨"Je", "je", 0xF9, [.addr]⟩
  | jne => ⟨"Jne", "jne", 0xFA, [.addr]⟩
  | jg => ⟨"Jg", "jg", 0xFB, [.addr]⟩
  | jge => ⟨"Jge", "jge", 0xFC, [.addr]⟩
  | jl => ⟨"Jl", "jl", 0xFD, [.addr]⟩
  | jle => ⟨"Jle", "jle", 0xFE, [.addr]⟩
  -- the stack
  | rstsp => ⟨"Rstsp", "rstsp", 0x04, []⟩
  | pushReg => ⟨"PushReg", "push", 0x78, [.abxy]⟩
  | pop => ⟨"Pop", "pop", 0x7C, [.abxy]⟩
  | pushImm => ⟨"PushImm", "push", 0x21, [.imm]⟩
  -- loops
  | loope => ⟨"Loope", "loope", 0x10, [.imm, .abxy, .addr]⟩
  | loopz => ⟨"Loopz", "loopz", 0x14, [.abxy, .addr]⟩
  -- calls and frames
  | call => ⟨"Call", "call", 0x05, [.addr]⟩
  | ret => ⟨"Ret", "ret", 0x06, []⟩
  | retImm => ⟨"RetImm", "ret", 0x1E, [.imm]⟩
  | enter => ⟨"Enter", "enter", 0x1F, []⟩
  | leave => ⟨"Leave", "leave", 0x20, []⟩
  | alloc => ⟨"Alloc", "alloc", 0x1C, [.imm]⟩
  | free => ⟨"Free", "free", 0x1D, [.imm]⟩
  | ldf => ⟨"Ldf", "ldf", 0x70, [.imm, .abxy]⟩
  | stfReg => ⟨"StfReg", "stf", 0x74, [.abxy, .imm]⟩
  | stfImm => ⟨"StfImm", "stf", 0x07, [.imm, .imm]⟩
  | gpfLow => ⟨"GpfLow", "gpf.1", 0x22, [.imm]⟩
  | gpfHigh => ⟨"GpfHigh", "gpf.2", 0x23, []⟩

instance : Vocabulary Instruction where
  members :=
    [nop, halt, not, andReg, orReg, xorReg, shl, shr, andImm, orImm, xorImm, inc, incCarry, dec,
      decCarry, addReg, addCarryReg, subReg, subCarryReg, addImm, addCarryImm, subImm, subCarryImm,
      movReg, movImm, clr, swap, xchgReg, xchgRegFinish, xchgMem, input, outReg, outImm, ld, stReg,
      stImm, stpImm, ldp, stpReg, gpLow, gpHigh, pairOffsetLow, pairOffsetHigh, loadPairOffset,
      storePairOffset, cmpReg, cmpImm, jmp, je, jne, jg, jge, jl, jle, rstsp, pushReg, pop, pushImm,
      loope, loopz, call, ret, retImm, enter, leave, alloc, free, ldf, stfReg, stfImm, gpfLow, gpfHigh]
  name i := i.form.name
  label i := i.form.name

/-! ## What the form tells -/

/-- The word that an instruction is written with. -/
def mnemonic (i : Instruction) : String :=
  i.form.mnemonic

/-- The first opcode of the block. -/
def opcode (i : Instruction) : UInt8 :=
  i.form.opcode

/-- The arguments. -/
def kinds (i : Instruction) : List OperandKind :=
  i.form.kinds

/-- The number of opcodes in the block. -/
def blockWidth (i : Instruction) : Nat :=
  OperandKind.blockWidth i.kinds

/-- The number of bytes of an encoded instruction, its opcode included. -/
def size (i : Instruction) : Nat :=
  i.kinds.foldr (fun kind n => kind.size + n) 1

/-- The opcode lies in the block. -/
def owns (i : Instruction) (opcode : UInt8) : Bool :=
  i.opcode ≤ opcode && opcode.toNat < i.opcode.toNat + i.blockWidth

/-- The instruction whose block an opcode lies in. -/
def decode (opcode : UInt8) : Option Instruction :=
  (Vocabulary.members : List Instruction).find? (·.owns opcode)

end Instruction

end Microcomputer
