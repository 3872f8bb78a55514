import BinaryMachine.Program

/-!
The words of a command line and the request that they make.  A setting takes a
value, in the same word or as the next one; a switch takes none.  Every setting
and every switch but the one for more logging may be given once.

The flags `-h`, `--help`, `-V` and `--version` are left out: they have a text printed
and run no program.  So are the log lines, of which `-v` and `-vv` ask for more.
-/

namespace BinaryMachine.CommandLine

/-! ## Settings and switches -/

inductive Setting where
  | program
  | builtin
  | tape
  | instructions
  | initial
  | separator
  | maxSteps
  deriving DecidableEq, Repr

inductive Switch where
  | stdin
  | list
  | debug
  | json
  /-- Read like every other switch, as often as it is given, and then dropped: all it
  could change are the log lines. -/
  | verbose
  deriving DecidableEq, Repr

inductive Flag where
  | setting (setting : Setting)
  | switch (switch : Switch)
  deriving DecidableEq, Repr

def Flag.ofLong? : String → Option Flag
  | "program" => some (setting .program)
  | "builtin" => some (setting .builtin)
  | "tape" => some (setting .tape)
  | "instructions" => some (setting .instructions)
  | "initial" => some (setting .initial)
  | "separator" => some (setting .separator)
  | "max-steps" => some (setting .maxSteps)
  | "stdin" => some (switch .stdin)
  | "list" => some (switch .list)
  | "debug" => some (switch .debug)
  | "json" => some (switch .json)
  | "verbose" => some (switch .verbose)
  | _ => none

def Flag.ofShort? : Char → Option Flag
  | 'p' => some (setting .program)
  | 'b' => some (setting .builtin)
  | 't' => some (setting .tape)
  | 'i' => some (setting .instructions)
  | 's' => some (setting .separator)
  | 'm' => some (setting .maxSteps)
  | 'l' => some (switch .list)
  | 'd' => some (switch .debug)
  | 'v' => some (switch .verbose)
  | _ => none

/-! ## Words -/

inductive Item where
  | given (setting : Setting) (value : String)
  | on (switch : Switch)
  deriving DecidableEq, Repr

/-- What one word says, and the setting whose value the next word has to be. -/
structure Word where
  items : List Item
  awaits : Option Setting
  deriving DecidableEq, Repr

def readLong? (body : List Char) : Option Word :=
  let name := String.ofList (body.takeWhile (· != '='))
  match Flag.ofLong? name, body.dropWhile (· != '=') with
  | some (.switch switch), [] => some ⟨[.on switch], none⟩
  | some (.setting setting), [] => some ⟨[], some setting⟩
  | some (.setting setting), _ :: value =>
      some ⟨[.given setting (String.ofList value)], none⟩
  | _, _ => none

/-- What stands behind one dash: switches, and last of all perhaps a setting
with or without its value. -/
def readShort? : List Char → Option Word
  | [] => some ⟨[], none⟩
  | c :: rest =>
      match Flag.ofShort? c, rest with
      | some (.switch switch), rest =>
          (readShort? rest).map fun word => { word with items := .on switch :: word.items }
      | some (.setting setting), [] => some ⟨[], some setting⟩
      | some (.setting setting), '=' :: value =>
          some ⟨[.given setting (String.ofList value)], none⟩
      | some (.setting setting), value =>
          some ⟨[.given setting (String.ofList value)], none⟩
      | none, _ => none

def readWord? (word : String) : Option Word :=
  match word.toList with
  | '-' :: '-' :: body => readLong? body
  | '-' :: c :: rest => readShort? (c :: rest)
  | _ => none

/-- A single dash is an ordinary value. -/
def startsOption (word : String) : Bool :=
  match word.toList with
  | '-' :: _ :: _ => true
  | _ => false

/-- Two dashes end the options; no other words may follow them. -/
def readWords? : List String → Option (List Item)
  | [] => some []
  | word :: rest =>
      if word = "--" then
        if rest.isEmpty then some [] else none
      else
        match readWord? word, rest with
        | some ⟨items, none⟩, rest => (readWords? rest).map (items ++ ·)
        | some ⟨items, some setting⟩, value :: rest =>
            if startsOption value then
              none
            else
              (readWords? rest).map (items ++ .given setting value :: ·)
        | _, _ => none

/-! ## Options -/

structure Options where
  program : Option String
  builtin : Option String
  tape : Option String
  instructions : Option String
  initial : Option StateId
  separator : Option String
  maxSteps : Option Nat
  stdin : Bool
  list : Bool
  debug : Bool
  json : Bool
  deriving DecidableEq, Repr

def readCount? (text : String) : Option Nat :=
  let digits :=
    match text.toList with
    | '+' :: digits => digits
    | digits => digits
  if digits = [] ∨ digits.all Char.isDigit = false then
    none
  else
    let count := Nat.ofDigitChars 10 digits 0
    if count < UInt64.size then some count else none

def valueOf? (items : List Item) (setting : Setting) : Option (Option String) :=
  let values := items.filterMap fun
    | .given other value => if other = setting then some value else none
    | .on _ => none
  match values with
  | [] => some none
  | [value] => some (some value)
  | _ => none

/-- Whether a switch is on that was given at most once. -/
def isOn? (items : List Item) (switch : Switch) : Option Bool :=
  match items.count (.on switch) with
  | 0 => some false
  | 1 => some true
  | _ => none

/-- Reads the value of a setting, which has to be readable if it is given. -/
def readValue? {α : Type} (read : String → Option α) : Option String → Option (Option α)
  | none => some none
  | some text => (read text).map some

def Options.ofItems? (items : List Item) : Option Options := do
  return {
    program := ← valueOf? items .program
    builtin := ← valueOf? items .builtin
    tape := ← valueOf? items .tape
    instructions := ← valueOf? items .instructions
    initial := ← readValue? StateId.ofText? (← valueOf? items .initial)
    separator := ← valueOf? items .separator
    maxSteps := ← readValue? readCount? (← valueOf? items .maxSteps)
    stdin := ← isOn? items .stdin
    list := ← isOn? items .list
    debug := ← isOn? items .debug
    json := ← isOn? items .json }

/-- At most one source is named and at most one form of the history asked for. -/
def Options.isConsistent (o : Options) : Bool :=
  decide (o.program.isSome.toNat + o.stdin.toNat + o.builtin.isSome.toNat +
    o.instructions.isSome.toNat ≤ 1) && !(o.debug && o.json)

/-! ## Requests -/

inductive Source where
  | file (path : String)
  | input
  | builtin (name : String)
  | inline (program : Program)
  /-- No source is named; standard input is taken if something is piped into it. -/
  | unnamed
  deriving DecidableEq, Repr

inductive Display where
  | plain
  | debug
  | json
  deriving DecidableEq, Repr

inductive Request where
  | list
  | run (source : Source) (bound : Nat) (display : Display)
  deriving DecidableEq, Repr

/-- The number of steps after which a run is stopped if nothing else is said. -/
def defaultBound : Nat := 10000

/-- Instructions on one line are separated as such lists usually are. -/
def inferSeparator (instructions : String) : String :=
  if '\n' ∉ instructions.toList ∧ ';' ∈ instructions.toList then
    inlineSeparator
  else
    defaultSeparator

namespace Options

/-- Instructions need an initial id. -/
def source? (o : Options) : Option Source :=
  match o.program, o.stdin, o.builtin, o.instructions with
  | some path, _, _, _ => some (.file path)
  | none, true, _, _ => some .input
  | none, false, some name, _ => some (.builtin name)
  | none, false, none, some instructions =>
      o.initial.map fun initialId => .inline {
        name := "command line"
        tape := o.tape.getD ""
        instructions
        initialId
        separator := o.separator.getD (inferSeparator instructions) }
  | none, false, none, none => some .unnamed

def display (o : Options) : Display :=
  if o.json then .json else if o.debug then .debug else .plain

def request? (o : Options) : Option Request := do
  let source ← o.source?
  return if o.list then .list else .run source (o.maxSteps.getD defaultBound) o.display

end Options

/-- The request that a command line makes.  An empty command line makes none, and
neither does one that asks for help or for the version. -/
def readRequest? (words : List String) : Option Request := do
  let items ← readWords? words
  let options ← Options.ofItems? items
  if items.isEmpty || !options.isConsistent then
    none
  else
    options.request?

end BinaryMachine.CommandLine
