import Microcomputer.Microcode.Routine

/-!
# The microcode table

The routines of all instructions, by group. Every routine starts with the fetch of its opcode and ends
with a word that ends the instruction. Where a flag decides, an instruction has one routine for each
value of the flag; the flags are looked at anew in every cycle, so an instruction may change from one
variant to the other between two steps. Every step has the line that it is authored on.
-/

namespace Microcomputer.Microcode

open Control (Word Source Sink)
open Control.Word (transfer arith logical)

/-! ## Words -/

/-- The opcode under PC goes to I. -/
def fetch : Word := transfer .ram .i

/-- PC moves on by one. -/
def stepPc : Word := transfer .abxy .pcPlus

/-- PC moves on by one and the instruction ends. -/
def advance : Word := transfer .abxy .advancePcResetCycle

/-- The instruction ends with PC where it is. -/
def finish : Word := transfer .abxy .resetCycle

/-- T goes to the register in the low field of the opcode. -/
def keepResult : Word := transfer .t .abxy

/-- The byte under PC goes to D. -/
def loadD : Word := transfer .ram .d

/-- The low half of a pair. -/
def low (w : Word) : Word := w.withSide .low

/-- The high half of a pair. -/
def high (w : Word) : Word := w.withSide .high

/-! ## Lines -/

/-- The file that the table is authored in. -/
def tableFile : String := "ucode/src/table.rs"

/-- Steps that are authored on a line of the table and those after it. -/
def linesFrom (line : Nat) (words : List Word) : List Step :=
  (words.zipIdx line).map fun (word, line) => { word, origin := { file := tableFile, line } }

/-- Steps that are authored once and are there a number of times. -/
def repeated (count : Nat) (steps : List Step) : List Step :=
  (List.replicate count steps).flatten

/-! ## Variants -/

/-- One routine for all flags. -/
def always (i : Instruction) (steps : List Step) : List Routine :=
  [{ instruction := i, steps }]

/-- One routine for each value of the carry. -/
def perCarry (i : Instruction) (steps : Bool → List Step) : List Routine :=
  [false, true].map fun carry =>
    { instruction := i, carry := .ofFlag carry, steps := steps carry }

/-- One routine for each value of the zero flag. -/
def perZero (i : Instruction) (steps : Bool → List Step) : List Routine :=
  [false, true].map fun zero =>
    { instruction := i, zero := .ofFlag zero, steps := steps zero }

/-- One routine for each value of both flags. -/
def perFlags (i : Instruction) (steps : Bool → Bool → List Step) : List Routine :=
  [false, true].flatMap fun carry =>
    [false, true].map fun zero =>
      { instruction := i, carry := .ofFlag carry, zero := .ofFlag zero, steps := steps carry zero }

/-- A fixed carry in makes one routine, the carry of the flags one for each value. -/
def withCarryIn (i : Instruction) (carryIn : Option Bool) (steps : Bool → List Step) : List Routine :=
  match carryIn with
  | some carry => always i (steps carry)
  | none => perCarry i steps

/-! ## Logic and shifts -/

/-- Routines of the logic functions and the shifts. A shift to the right is eight rotations to the left
through the carry, the first with nothing shifted in. -/
def logicRoutines : List Routine :=
  always .not (linesFrom 103 [fetch, logical .abxy .ab .notA, keepResult, advance]) ++
  [(Instruction.andReg, Alu.Logic.and), (.orReg, .or), (.xorReg, .xor)].flatMap (fun (i, f) =>
    always i (linesFrom 111 [fetch, logical .abxy .ab f, keepResult, advance])) ++
  [(Instruction.andImm, Alu.Logic.and), (.orImm, .or), (.xorImm, .xor)].flatMap (fun (i, f) =>
    always i (linesFrom 120 [fetch, stepPc, loadD, logical .abxy .d f, keepResult, advance])) ++
  always .shl (linesFrom 130 [fetch, arith .abxy .ab .aPlusA false, keepResult, advance]) ++
  perCarry .shr fun carry =>
    linesFrom 138 [fetch, arith .abxy .ab .aPlusA false] ++
      repeated 7 (linesFrom 141 [arith .t .ab .aPlusA carry]) ++ linesFrom 143 [keepResult, advance]

/-! ## Arithmetic -/

/-- Routines of the functions of one register. -/
def unaryRoutines : List Routine :=
  [(Instruction.inc, Alu.Arith.a, some true), (.incCarry, .a, none),
    (.dec, .aMinusOne, some false), (.decCarry, .aMinusOne, none)].flatMap fun (i, f, carryIn) =>
    withCarryIn i carryIn fun carry =>
      linesFrom 165 [fetch, arith .abxy .ab f carry, keepResult, advance]

/-- Routines of the functions of a register and another register or a byte. -/
def binaryRoutines : List Routine :=
  [(Instruction.addReg, Instruction.addImm, Alu.Arith.aPlusB, some false),
    (.addCarryReg, .addCarryImm, .aPlusB, none),
    (.subReg, .subImm, .aMinusBMinusOne, some true),
    (.subCarryReg, .subCarryImm, .aMinusBMinusOne, none)].flatMap fun (reg, imm, f, carryIn) =>
    withCarryIn reg carryIn (fun carry =>
      linesFrom 178 [fetch, arith .abxy .ab f carry, keepResult, advance]) ++
    withCarryIn imm carryIn fun carry =>
      linesFrom 184 [fetch, stepPc, loadD, arith .abxy .d f carry, keepResult, advance]

/-- Routines of arithmetic. -/
def arithmeticRoutines : List Routine :=
  unaryRoutines ++ binaryRoutines

/-! ## Moves between registers -/

/-- Routines of moves. A swap of nibbles is four times a shift to the left with the bit that fell out
added. -/
def moveRoutines : List Routine :=
  always .movReg (linesFrom 208 [fetch, transfer .abxy .abxy, advance]) ++
  always .movImm (linesFrom 214 [fetch, stepPc, transfer .ram .abxy, advance]) ++
  always .clr (linesFrom 221 [fetch, logical .abxy .ab .zero, keepResult, advance]) ++
  perCarry .swap (fun carry =>
    linesFrom 229 [fetch, arith .abxy .ab .aPlusA false, arith .t .ab .a carry] ++
      repeated 3 (linesFrom 233 [arith .t .ab .aPlusA false, arith .t .ab .a carry]) ++
      linesFrom 236 [keepResult, advance]) ++
  always .xchgReg (linesFrom 241 [fetch, transfer .abxy .d, transfer .abxy .abxy, advance]) ++
  always .xchgRegFinish (linesFrom 248 [fetch, transfer .d .abxy, advance]) ++
  always .xchgMem (linesFrom 254
    [fetch, stepPc, low (transfer .ram .ma), stepPc, high (transfer .ram .ma),
      (transfer .ram .d).withPointer .ma, (transfer .abxy .ram).withPointer .ma,
      transfer .d .abxy, advance])

/-! ## Input and output -/

/-- Routines for input and output. -/
def inputOutputRoutines : List Routine :=
  always .input (linesFrom 268 [fetch, transfer .input .abxy, advance]) ++
  always .outReg (linesFrom 274 [fetch, transfer .abxy .out, advance]) ++
  always .outImm (linesFrom 280 [fetch, stepPc, transfer .ram .out, advance])

/-! ## Memory -/

/-- Routines of memory. The low bits of the opcodes of the two halves of `gp` and of the pair offset
name X and Y. -/
def memoryRoutines : List Routine :=
  [(Instruction.ld, transfer .ram .abxy), (.stReg, transfer .abxy .ram)].flatMap (fun (i, access) =>
    always i (linesFrom 293
      [fetch, stepPc, low (transfer .ram .ma), stepPc, high (transfer .ram .ma),
        access.withPointer .ma, advance])) ++
  always .stImm (linesFrom 304
    [fetch, stepPc, loadD, stepPc, low (transfer .ram .ma), stepPc, high (transfer .ram .ma),
      (transfer .d .ram).withPointer .ma, advance]) ++
  always .stpImm (linesFrom 316 [fetch, stepPc, loadD, (transfer .d .ram).withPointer .xy, advance]) ++
  always .ldp (linesFrom 324 [fetch, (transfer .ram .abxy).withPointer .xy, advance]) ++
  always .stpReg (linesFrom 330 [fetch, (transfer .abxy .ram).withPointer .xy, advance]) ++
  always .gpLow (linesFrom 337 [fetch, stepPc, transfer .ram .abxy, stepPc, loadD, advance]) ++
  always .gpHigh (linesFrom 346 [fetch, transfer .d .abxy, advance]) ++
  always .pairOffsetLow (linesFrom 352
    [fetch, stepPc, loadD, arith .abxy .d .aPlusB false, low (transfer .t .ma), advance]) ++
  perCarry .pairOffsetHigh (fun carry => linesFrom 361
    [fetch, arith .abxy .ab .a carry, high (transfer .t .ma), advance]) ++
  always .loadPairOffset (linesFrom 368 [fetch, (transfer .ram .abxy).withPointer .ma, advance]) ++
  always .storePairOffset (linesFrom 374 [fetch, (transfer .abxy .ram).withPointer .ma, advance])

/-! ## Comparison and jumps -/

/-- PC takes the address after the opcode. -/
def jumpWords : List Word :=
  [fetch, stepPc, loadD, stepPc, high (transfer .ram .pc), low (transfer .d .pc), finish]

/-- PC skips the address after the opcode. -/
def skipWords : List Word :=
  [fetch, stepPc, stepPc, advance]

/-- The conditional jumps, with the flags after a comparison of a source and a register that they jump
under: the carry is set where the register is not below the source. -/
def conditions : List (Instruction × (Bool → Bool → Bool)) :=
  [(.je, fun _ zero => zero), (.jne, fun _ zero => !zero), (.jg, fun carry _ => !carry),
    (.jge, fun carry zero => !carry || zero), (.jl, fun carry zero => carry && !zero),
    (.jle, fun carry _ => carry)]

/-- Routines of comparison and of jumps. -/
def jumpRoutines : List Routine :=
  always .cmpReg (linesFrom 382 [fetch, arith .abxy .ab .aMinusBMinusOne true, advance]) ++
  always .cmpImm (linesFrom 388 [fetch, stepPc, loadD, arith .abxy .d .aMinusBMinusOne true, advance]) ++
  always .jmp (linesFrom 620 jumpWords) ++
  conditions.flatMap fun (i, taken) => perFlags i fun carry zero =>
    if taken carry zero then linesFrom 620 jumpWords else linesFrom 411 skipWords

/-! ## The stack -/

/-- Routines of the stack. -/
def stackRoutines : List Routine :=
  always .rstsp (linesFrom 424
    [fetch, logical .d .ab .zero, low (transfer .t .sp), high (transfer .t .sp), advance]) ++
  always .pushReg (linesFrom 432
    [fetch, (transfer .abxy .ram).withPointer .sp, transfer .abxy .spPlus, advance]) ++
  always .pop (linesFrom 439
    [fetch, transfer .abxy .spMinus, (transfer .ram .abxy).withPointer .sp, advance]) ++
  always .pushImm (linesFrom 446
    [fetch, stepPc, loadD, (transfer .d .ram).withPointer .sp, transfer .abxy .spPlus, advance])

/-! ## Loops -/

/-- A loop leaves, or it reads the address. -/
def branchSteps (leave : Bool) : List Step :=
  if leave then linesFrom 461 [stepPc, stepPc, advance] else linesFrom 465 [stepPc, loadD, stepPc]

/-- The end of a loop instruction: it leaves, or it jumps to the address and steps the register. The
step can change the zero flag, so both variants have the same words after the branch. -/
def loopSteps (leave : Bool) (step : Word) : List Step :=
  branchSteps leave ++
    linesFrom 469 [high (transfer .ram .pc), low (transfer .d .pc), step, keepResult, finish]

/-- Routines of the loops. -/
def loopRoutines : List Routine :=
  perZero .loope (fun zero =>
    linesFrom 477 [fetch, stepPc, loadD, arith .abxy .d .aMinusBMinusOne true] ++
      loopSteps zero (arith .abxy .ab .a true)) ++
  perZero .loopz fun zero =>
    linesFrom 485 [fetch, logical .d .ab .zero, transfer .t .d, arith .abxy .d .aMinusBMinusOne true] ++
      loopSteps zero (arith .abxy .ab .aMinusOne false)

/-! ## Calls and frames -/

/-- PC is taken from the stack. -/
def popPc : List Step :=
  linesFrom 630
    [transfer .abxy .spMinus, (high (transfer .ram .pc)).withPointer .sp,
      transfer .abxy .spMinus, (low (transfer .ram .pc)).withPointer .sp]

/-- MA becomes BP and the byte after the opcode added. -/
def frameAddress (carry : Bool) : List Step :=
  linesFrom 638
    [stepPc, loadD, arith .bp .low .aPlusB false, low (transfer .t .ma),
      arith .bp .high .a carry, high (transfer .t .ma)]

/-- Routines of calls and returns. -/
def callRoutines : List Routine :=
  always .call (linesFrom 495
    [fetch, stepPc, loadD, stepPc,
      (low (transfer .pc .ram)).withPointer .sp, transfer .abxy .spPlus,
      (high (transfer .pc .ram)).withPointer .sp, transfer .abxy .spPlus,
      high (transfer .ram .pc), low (transfer .d .pc), finish]) ++
  always .ret (linesFrom 509 [fetch] ++ popPc ++ linesFrom 511 [advance]) ++
  perCarry .retImm fun carry =>
    linesFrom 515 [fetch, stepPc, loadD] ++ popPc ++
      linesFrom 519
        [arith .sp .low .aMinusBMinusOne true, low (transfer .t .sp),
          arith .sp .high .aMinusOne carry, high (transfer .t .sp), advance]

/-- Routines of stack frames. The opcode under PC is also the size of the frame. -/
def frameRoutines : List Routine :=
  perCarry .enter (fun carry => linesFrom 528
    [fetch, (low (transfer .bp .ram)).withPointer .sp, transfer .abxy .spPlus,
      (high (transfer .bp .ram)).withPointer .sp, transfer .abxy .spPlus, loadD,
      arith .sp .low .aMinusBMinusOne false, low (transfer .t .bp),
      arith .sp .high .aMinusOne carry, high (transfer .t .bp), advance]) ++
  perCarry .leave fun carry => linesFrom 542
    [fetch, loadD, arith .bp .low .aPlusB false, low (transfer .t .sp),
      arith .bp .high .a carry, high (transfer .t .sp),
      transfer .abxy .spMinus, (high (transfer .ram .bp)).withPointer .sp,
      transfer .abxy .spMinus, (low (transfer .ram .bp)).withPointer .sp, advance]

/-- Routines of stack space. -/
def spaceRoutines : List Routine :=
  [(Instruction.alloc, Alu.Arith.aPlusB, Alu.Arith.a, false),
    (.free, .aMinusBMinusOne, .aMinusOne, true)].flatMap fun (i, lowF, highF, carryIn) =>
    perCarry i fun carry => linesFrom 560
      [fetch, stepPc, loadD, arith .sp .low lowF carryIn, low (transfer .t .sp),
        arith .sp .high highF carry, high (transfer .t .sp), advance]

/-- Routines of the cells of a frame. For the frame address in X and Y the low byte goes to the
register and the high byte waits in D for the second half. -/
def frameCellRoutines : List Routine :=
  [(Instruction.ldf, transfer .ram .abxy), (.stfReg, transfer .abxy .ram)].flatMap (fun (i, access) =>
    perCarry i fun carry =>
      linesFrom 576 [fetch] ++ frameAddress carry ++ linesFrom 578 [access.withPointer .ma, advance]) ++
  perCarry .stfImm (fun carry =>
    linesFrom 584 [fetch] ++ frameAddress carry ++
      linesFrom 586 [stepPc, loadD, (transfer .d .ram).withPointer .ma, advance]) ++
  perCarry .gpfLow (fun carry => linesFrom 594
    [fetch, stepPc, loadD, arith .bp .low .aPlusB false, keepResult,
      arith .bp .high .a carry, transfer .t .d, advance]) ++
  always .gpfHigh (linesFrom 605 [fetch, transfer .d .abxy, advance])

/-- Routines of calls and frames. -/
def functionRoutines : List Routine :=
  callRoutines ++ frameRoutines ++ spaceRoutines ++ frameCellRoutines

/-! ## All routines -/

/-- The routine that stays at its own opcode. -/
def haltRoutines : List Routine :=
  always .halt (linesFrom 613 [fetch, finish])

/-- The routine of every opcode that no other one claims. -/
def noOperation : Routine where
  instruction := .nop
  steps := linesFrom 45 [fetch, advance]

/-- The microcode table. -/
def table : List Routine :=
  logicRoutines ++ arithmeticRoutines ++ moveRoutines ++ inputOutputRoutines ++ memoryRoutines ++
    jumpRoutines ++ stackRoutines ++ loopRoutines ++ functionRoutines ++ haltRoutines

end Microcomputer.Microcode
