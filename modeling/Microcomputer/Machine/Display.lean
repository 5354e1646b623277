import Microcomputer.Machine.Run

/-!
# Showing the machine

One line for the state of the machine, and one for a cycle.
-/

namespace Microcomputer

/-- The state of a machine on one line, in hexadecimal. -/
def Machine.describe (m : Machine) : String :=
  "cycle:" ++ Text.hex 1 m.cycle.toNat ++ " i:" ++ Text.hexByte m.i ++
    " pc:" ++ Text.hex 4 m.pc.value.toNat ++ " sp:" ++ Text.hex 4 m.sp.value.toNat ++
    " bp:" ++ Text.hex 4 m.bp.value.toNat ++ " ma:" ++ Text.hex 4 m.ma.value.toNat ++
    " abxy:[" ++ ", ".intercalate (m.regs.toList.map Text.hexByte) ++ "]" ++
    " d:" ++ Text.hexByte m.d ++ " t:" ++ Text.hexByte m.t ++
    " in:" ++ Text.hexByte m.input ++ " out:" ++ Text.hexByte m.out ++
    " flags:[" ++ m.flags.bank0.describe ++ " " ++ m.flags.bank1.describe ++ "]"

/-- A cycle of a machine on one line; the word counter is shown as it is after the word was read. -/
def Cycle.describe (c : Cycle) (m : Machine) : String :=
  Text.hex 5 c.address.val ++ " " ++ m.countCycle.describe ++ " " ++ c.word.describe ++
    " ar:" ++ Text.hexByte c.primary ++ " b:" ++ Text.hexByte c.side ++
    " addr:" ++ Text.hex 4 c.target.toNat

end Microcomputer
