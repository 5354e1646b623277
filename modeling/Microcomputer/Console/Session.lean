import Microcomputer.Alu.Byte
import Microcomputer.Console.Arguments
import Microcomputer.Machine.Display
import Microcomputer.Microcode.Annotation

/-!
# Carrying out a command

A command reads and writes files and leaves a report: what it prints, what it logs and its exit code.
An error is reported with the step that failed and its cause.
-/

namespace Microcomputer.Console

open Control (Store)

/-! ## Reports -/

/-- What a command prints, on the standard output and on the standard error. -/
structure Transcript where
  output : String := ""
  errors : String := ""
deriving DecidableEq, Repr

/-- A line on the standard output. -/
def Transcript.print (t : Transcript) (line : String) : Transcript :=
  { t with output := t.output ++ line ++ "\n" }

/-- A line on the standard error. -/
def Transcript.warn (t : Transcript) (line : String) : Transcript :=
  { t with errors := t.errors ++ line ++ "\n" }

/-- A line of the log of a target, if the target is logged. -/
def Transcript.log (t : Transcript) (isLogged : Bool) (target line : String) : Transcript :=
  if isLogged then t.warn ("[" ++ target ++ "]: " ++ line) else t

/-- The end of a command. -/
structure Report where
  code : UInt32
  transcript : Transcript
deriving DecidableEq, Repr

/-- The command was carried out. -/
def Report.success (t : Transcript) : Report where
  code := 0
  transcript := t

/-- A step of the command failed for a cause. -/
def Report.failure (t : Transcript) (context cause : String) : Report where
  code := 1
  transcript := (((t.warn ("Error: " ++ context)).warn "").warn "Caused by:").warn ("    " ++ cause)

/-- A path, or two, as they are named in messages. -/
def quote (path : String) : String := "`" ++ path ++ "`"

/-! ## Commands -/

/-- The log of the generation of the control store. -/
def logGeneration (targets : LogTargets) (t : Transcript) : Transcript :=
  if targets.ucode then Microcode.journal.foldl (fun t line => t.log true "ucode" line) t else t

/-- What the console shows of a running machine: outputs, and the machine after every update if asked
for. -/
def observer (targets : LogTargets) (step : Bool) : Observer Transcript where
  cycle m c t := if targets.sim then t.log true "sim" (c.describe m) else t
  output value t :=
    let line := "out " ++ Text.hexByte value
    (t.log targets.sim "sim" line).print line
  update m t := if step then t.print m.describe else t

variable {m : Type → Type} [Monad m] (files : FileSystem m)

/-- Generates the control store and writes its banks. -/
def generate (targets : LogTargets) (out0 out1 : String) (print : Bool) : m Report := do
  let t := logGeneration targets {}
  match Microcode.generate with
  | .error e => return .failure t "control store generation failed" e.message
  | .ok builder =>
    let t := if print then { t with output := t.output ++ builder.listing.render } else t
    match ← builder.store.writeFiles files out0 out1 with
    | .error e =>
      return .failure t ("could not write " ++ quote out0 ++ " and " ++ quote out1) e.message
    | .ok () =>
      let t := t.log targets.ucode "ucode" builder.store.describe
      return .success (t.warn ("wrote " ++ quote out0 ++ " and " ++ quote out1))

/-- The control store of a run, from files or from the microcode table. -/
def obtainStore (targets : LogTargets) (banks : Option (String × String)) :
    m (Except Report (Store × Transcript)) := do
  match banks with
  | some (path0, path1) =>
    match ← Store.readFiles files path0 path1 with
    | .error e =>
      return .error (.failure {} ("could not load " ++ quote path0 ++ " and " ++ quote path1) e.message)
    | .ok store => return .ok (store, {})
  | none =>
    let t := logGeneration targets {}
    match Microcode.generate with
    | .error e => return .error (.failure t "control store generation failed" e.message)
    | .ok builder => return .ok (builder.store, t)

/-- Runs a machine from its first instruction on. Input is latched after that instruction, and the
machine is shown after every instruction or at the end. -/
def runMachine (targets : LogTargets) (ticks : Nat) (step : Bool) (input : Option UInt8)
    (machine : Machine) (t : Transcript) : Transcript :=
  let o := observer targets step
  let first := machine.step o t
  let started := match input with
    | some value => first.machine.setInput value
    | none => first.machine
  if step then (Machine.stepUntil o ticks started first.seen).2
  else
    let last := started.run o (ticks - started.ticks) first.seen
    last.seen.print last.machine.describe

/-- Runs a bootstrap image. -/
def run (targets : LogTargets) (boot : String) (banks : Option (String × String)) (ticks : Nat)
    (step : Bool) (input : Option UInt8) : m Report := do
  match ← obtainStore files targets banks with
  | .error report => return report
  | .ok (store, t) =>
    match ← Boot.read files boot with
    | .error e => return .failure t ("could not load " ++ quote boot) e.message
    | .ok image =>
      let t := t.log targets.sim "sim" "reset"
      match (Machine.ofStore store).loadBoot image with
      | .error e => return { code := 1, transcript := t.warn ("Error: " ++ e.message) }
      | .ok machine => return .success (runMachine targets ticks step input machine t)

/-- Evaluates one function of the arithmetic logic unit. -/
def evaluate (a b : UInt8) (select : Nibble) (logic carry : Bool) : Report :=
  let result := Alu.byte a b select logic carry
  .success (Transcript.print {} (Text.hexByte result.value ++
    " carry:" ++ Text.decimal result.carry.toNat ++ " zero:" ++ Text.decimal result.zero.toNat))

/-- Carries out a command. -/
def Invocation.perform (i : Invocation) : m Report :=
  match i.command with
  | .generate out0 out1 print => generate files i.targets out0 out1 print
  | .run boot banks ticks step input => run files i.targets boot banks ticks step input
  | .evaluate a b select logic carry => return evaluate a b select logic carry

/-! ## The program -/

/-- How the program is called. -/
def usageText : String :=
  "Microcode control store generator and simulator.\n\n" ++
  "Usage: app [--log <ucode,sim>] <COMMAND>\n\n" ++
  "Commands:\n" ++
  "  ucode [--out0 <OUT0>] [--out1 <OUT1>] [--print]\n" ++
  "  run <BIOS> [--urom0 <UROM0> --urom1 <UROM1>] [--ticks <TICKS>] [--step] [--input <INPUT>]\n" ++
  "  alu <A> <B> <SELECT> [--logic] [--carry]\n" ++
  "  help\n"

/-- The report of a command line that is not carried out. -/
def Stop.report : Stop → Report
  | help => .success { output := usageText }
  | version => .success { output := "app 0.1.0\n" }
  | usage => { code := 2, transcript := { errors := usageText } }

/-- What the program does with its arguments. -/
def execute (args : List String) : m Report :=
  match Invocation.ofArguments args with
  | .error stop => return stop.report
  | .ok i => i.perform files

end Microcomputer.Console
