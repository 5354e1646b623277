import Microcomputer.Alu.Function
import Microcomputer.Layout
import Microcomputer.Text.Numeral

/-!
# The command line

A command line is options for logging, the name of a command, and the options and operands of the
command. Options are long, a value stands after an equals sign or in the next argument, and after two
dashes all arguments are operands. An option is given once, but for the one for logging.
-/

namespace Microcomputer.Console

/-- Why a command line is not carried out. -/
inductive Stop where
  | help
  | version
  | usage
deriving DecidableEq, Repr

/-! ## Arguments -/

/-- One argument by its dashes. -/
inductive Argument where
  | separator
  | long (name : String) (attached : Option String)
  | short (letters : List Char)
  | operand (text : String)
deriving DecidableEq, Repr

/-- The kind of an argument. A single dash is an operand. -/
def Argument.ofString (text : String) : Argument :=
  match text.toList with
  | ['-', '-'] => separator
  | '-' :: '-' :: cs =>
    match cs.span (· != '=') with
    | (name, []) => long (String.ofList name) none
    | (name, _ :: value) => long (String.ofList name) (some (String.ofList value))
  | '-' :: c :: cs => short (c :: cs)
  | _ => operand text

/-- The text of an operand. -/
def Argument.text? : Argument → Option String
  | operand text => some text
  | _ => none

/-! ## Options of a command -/

/-- The values that an option or an operand takes. -/
abbrev ValueRule := String → Bool

/-- An option that a command knows; a flag has no rule for values. -/
structure OptionRule where
  name : String
  value? : Option ValueRule := none

/-- The options and operands of a command that were read so far, the operands from the last one on. -/
structure Scan where
  values : List (String × String) := []
  flags : List String := []
  operands : List String := []
deriving DecidableEq, Repr

namespace Scan

/-- The value of an option. -/
def value? (s : Scan) (name : String) : Option String :=
  (s.values.find? fun entry => entry.1 == name).map Prod.snd

/-- Whether a flag is there. -/
def flag (s : Scan) (name : String) : Bool :=
  s.flags.contains name

/-- An option gets a value that its rule takes, and only once. -/
def addValue (s : Scan) (name : String) (rule : ValueRule) (value : String) : Except Stop Scan :=
  if rule value && (s.value? name).isNone then .ok { s with values := (name, value) :: s.values }
  else .error .usage

/-- A flag is set, and only once. -/
def addFlag (s : Scan) (name : String) : Except Stop Scan :=
  if s.flag name then .error .usage else .ok { s with flags := name :: s.flags }

/-- An operand gets a value that the next rule for operands takes. -/
def addOperand (s : Scan) (rules : List ValueRule) (value : String) : Except Stop Scan :=
  match rules[s.operands.length]? with
  | some rule => if rule value then .ok { s with operands := value :: s.operands } else .error .usage
  | none => .error .usage

end Scan

/-- Reads options and operands by their rules. Every argument is checked when it is read, so a fault
goes before a call for help that comes later. -/
def scan (options : List OptionRule) (operands : List ValueRule) (s : Scan) :
    List String → Except Stop Scan
  | [] => .ok s
  | arg :: rest =>
    match Argument.ofString arg with
    | .separator => rest.foldlM (fun s value => s.addOperand operands value) s
    | .operand value => do
      scan options operands (← s.addOperand operands value) rest
    | .short letters => .error (if letters.head? = some 'h' then .help else .usage)
    | .long name attached =>
      match options.find? fun rule => rule.name == name with
      | none => .error (if name = "help" ∧ attached = none then .help else .usage)
      | some option =>
        match option.value?, attached, rest with
        | none, none, rest => do
          scan options operands (← s.addFlag name) rest
        | none, some _, _ => .error .usage
        | some rule, some value, rest => do
          scan options operands (← s.addValue name rule value) rest
        | some _, none, [] => .error .usage
        | some rule, none, next :: rest =>
          match (Argument.ofString next).text? with
          | some value => do
            scan options operands (← s.addValue name rule value) rest
          | none => .error .usage

/-! ## Values -/

/-- A byte, in decimal or after `0x` in hexadecimal. -/
def byte? (text : String) : Option UInt8 :=
  match text.toList with
  | '0' :: 'x' :: cs => Text.hexByte? cs
  | cs => (Text.numeralBelow? 10 256 cs).map UInt8.ofNat

/-- A number of ticks, below 2^64. -/
def ticks? (text : String) : Option Nat :=
  Text.numeralBelow? 10 UInt64.size text.toList

/-- Select lines, 0 to 15 in decimal; a minus sign may stand before zero. -/
def select? (text : String) : Option Nibble :=
  match text.toList with
  | '-' :: cs => ((Text.unsigned? 10 cs).filter (· = 0)).map (BitVec.ofNat 4)
  | cs => (Text.numeralBelow? 10 16 cs).map (BitVec.ofNat 4)

/-- A path, which is not empty. -/
def path? (text : String) : Option String :=
  if text = "" then none else some text

/-! ## Commands -/

/-- What the program is asked to do. -/
inductive Command where
  | generate (out0 out1 : String) (print : Bool)
  | run (boot : String) (banks : Option (String × String)) (ticks : Nat) (step : Bool)
      (input : Option UInt8)
  | evaluate (a b : UInt8) (select : Nibble) (logic carry : Bool)
deriving DecidableEq, Repr

/-- The names of the files that the two banks are written to. -/
def bankFiles : String × String := ("urom0.bin", "urom1.bin")

/-- The value of an option, if given, in the form that the option takes. -/
def Scan.optional {α : Type} (s : Scan) (read? : String → Option α) (name : String) : Option α :=
  (s.value? name).bind read?

/-- An option whose values are those that can be read. -/
def OptionRule.of {α : Type} (name : String) (read? : String → Option α) : OptionRule where
  name := name
  value? := some fun text => (read? text).isSome

/-- Reads the arguments of the command that generates the control store. -/
def readGenerate (args : List String) : Except Stop Command := do
  let s ← scan [.of "out0" path?, .of "out1" path?, { name := "print" }] [] {} args
  return .generate ((s.optional path? "out0").getD bankFiles.1)
    ((s.optional path? "out1").getD bankFiles.2) (s.flag "print")

/-- Reads the arguments of the command that runs a bootstrap image. Banks are given both or not at
all. -/
def readRun (args : List String) : Except Stop Command := do
  let s ← scan [.of "urom0" path?, .of "urom1" path?, .of "ticks" ticks?, { name := "step" },
    .of "input" byte?] [fun text => (path? text).isSome] {} args
  let ticks := (s.optional ticks? "ticks").getD intervalTicks
  let input := s.optional byte? "input"
  match s.operands, s.optional path? "urom0", s.optional path? "urom1" with
  | [boot], none, none => return .run boot none ticks (s.flag "step") input
  | [boot], some path0, some path1 => return .run boot (some (path0, path1)) ticks (s.flag "step") input
  | _, _, _ => .error .usage

/-- Reads the arguments of the command that evaluates one function. -/
def readEvaluate (args : List String) : Except Stop Command := do
  let isByte (text : String) := (byte? text).isSome
  let isSelect (text : String) := (select? text).isSome
  let s ← scan [{ name := "logic" }, { name := "carry" }] [isByte, isByte, isSelect] {} args
  match s.operands with
  | [select, b, a] =>
    match byte? a, byte? b, select? select with
    | some a, some b, some select => return .evaluate a b select (s.flag "logic") (s.flag "carry")
    | _, _, _ => .error .usage
  | _ => .error .usage

/-- The commands by name. -/
def readCommand (name : String) (args : List String) : Except Stop Command :=
  match name with
  | "ucode" => readGenerate args
  | "run" => readRun args
  | "alu" => readEvaluate args
  | "help" => .error (if args.all isTopic && args.length ≤ 1 then .help else .usage)
  | _ => .error .usage
where
  isTopic (name : String) : Bool := name == "ucode" || name == "run" || name == "alu" || name == "help"

/-! ## The whole line -/

/-- What is logged. -/
structure LogTargets where
  ucode : Bool := false
  sim : Bool := false
deriving DecidableEq, Repr

/-- The log targets with those of a list separated by commas added. -/
def LogTargets.add? (targets : LogTargets) (text : String) : Option LogTargets :=
  (text.splitOn ",").foldlM (fun targets name =>
    match name with
    | "ucode" => some { targets with ucode := true }
    | "sim" => some { targets with sim := true }
    | _ => none) targets

/-- A command, and what is logged meanwhile. -/
structure Invocation where
  targets : LogTargets
  command : Command
deriving DecidableEq, Repr

/-- Reads a command line after some options for logging. -/
def readLine (targets : LogTargets) : List String → Except Stop Invocation
  | [] => .error .usage
  | arg :: rest =>
    match Argument.ofString arg with
    | .operand name => return { targets, command := ← readCommand name rest }
    | .separator => .error .usage
    | .short letters =>
      match letters.head? with
      | some 'h' => .error .help
      | some 'V' => .error .version
      | _ => .error .usage
    | .long "log" (some value) =>
      match targets.add? value with
      | some targets => readLine targets rest
      | none => .error .usage
    | .long "log" none =>
      match rest with
      | [] => .error .usage
      | next :: rest =>
        match (Argument.ofString next).text?.bind targets.add? with
        | some targets => readLine targets rest
        | none => .error .usage
    | .long "help" none => .error .help
    | .long "version" none => .error .version
    | .long _ _ => .error .usage

/-- Reads a command line. -/
def Invocation.ofArguments (args : List String) : Except Stop Invocation :=
  readLine {} args

end Microcomputer.Console
