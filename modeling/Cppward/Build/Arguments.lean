namespace Cppward.Build

open String (ofList)

/-!
# Arguments of the command

The command takes switches, a file, and arguments for the program that is built.  A switch may be
written short or long, a long one may be abbreviated, and its value may be attached to it.
-/

variable (t : Intake) (s : String) (sw : Switch)

inductive Switch where
  | help
  | exeName
  | compileOnly
  | doNotExecute
  | noStandard
  | noRefs
  | includeDirs
  deriving DecidableEq, Repr

/-- How many values a switch takes. -/
inductive Takes where
  | nothing
  | one
  | any
  deriving DecidableEq, Repr

namespace Switch

def all : List Switch :=
  [.help, .exeName, .compileOnly, .doNotExecute, .noStandard, .noRefs, .includeDirs]

def spellings : Switch → List String
  | .help => ["-h", "--help"]
  | .exeName => ["-o", "--exename"]
  | .compileOnly => ["-m", "--compileonly"]
  | .doNotExecute => ["--donotexecute"]
  | .noStandard => ["--_nostandardlibmacros"]
  | .noRefs => ["--_norefs"]
  | .includeDirs => ["-I", "--include"]

def takes : Switch → Takes
  | .exeName => .one
  | .includeDirs => .any
  | _ => .nothing

def ofSpelling? : Option Switch := all.find? (·.spellings.contains s)

/-- The long spellings that start with a text, with their switches. -/
def abbreviated (start : String) : List (Switch × String) :=
  all.flatMap fun sw =>
    (sw.spellings.filter fun s => start.toList.isPrefixOf s.toList).map fun s => (sw, s)

end Switch

/-- Why arguments are not accepted. -/
inductive Refusal where
  /-- Help is asked for. -/
  | help
  | ambiguous (word : String) (spellings : List String)
  | strayValue (sw : Switch) (value : String)
  | missingValue (sw : Switch)
  | missingFile
  | unknown (words : List String)
  deriving DecidableEq, Repr

/-- An argument by its role. -/
inductive Word where
  | value (text : String)
  /-- Two dashes: only values follow. -/
  | divider
  | switch (sw : Switch) (spelling : String) (attached : Option String)
  /-- Something that looks like a switch and is none. -/
  | unknown (text : String)
  deriving DecidableEq, Repr

namespace Word

def isValue : Word → Bool
  | .value _ => true
  | _ => false

/-- The argument may start a switch. -/
def isSwitch : Word → Bool
  | .switch .. | .unknown _ => true
  | _ => false

/-- The argument as it was written, for values and the divider. -/
def text : Word → String
  | .value t | .unknown t => t
  | .divider => "--"
  | .switch _ spelling _ => spelling

end Word

/-- Splits a text at its first equals sign. -/
def splitEquals : Option (String × String) :=
  match s.toList.span (· != '=') with
  | (_, []) => none
  | (head, _ :: tail) => some (ofList head, ofList tail)

/-- A text that is a negative number. -/
def isNegativeNumber : Bool :=
  match s.toList with
  | '-' :: cs =>
    match cs.span (· != '.') with
    | (digits, []) => !digits.isEmpty && digits.all Char.isDigit
    | (whole, _ :: part) => whole.all Char.isDigit && !part.isEmpty && part.all Char.isDigit
  | _ => false

/-- The role of an argument in front of the divider. -/
def readWord : Except Refusal Word :=
  match s.toList with
  | '-' :: c :: rest =>
    match Switch.ofSpelling? s with
    | some sw => .ok (.switch sw s none)
    | none =>
      match (splitEquals s).bind fun (spelling, v) =>
          (Switch.ofSpelling? spelling).map fun sw => (sw, spelling, v) with
      | some (sw, spelling, v) => .ok (.switch sw spelling (some v))
      | none =>
        let candidates : List (Switch × String × Option String) :=
          if c == '-' then
            match splitEquals s with
            | some (start, v) => (Switch.abbreviated start).map fun (sw, t) => (sw, t, some v)
            | none => (Switch.abbreviated s).map fun (sw, t) => (sw, t, none)
          else
            let spelling := ofList ['-', c]
            ((Switch.ofSpelling? spelling).map fun sw =>
              (sw, spelling, some (ofList rest))).toList
        match candidates with
        | [(sw, spelling, v)] => .ok (.switch sw spelling v)
        | _ :: _ :: _ => .error (.ambiguous s (candidates.map (·.2.1)))
        | [] =>
          if isNegativeNumber s || s.toList.contains ' ' then .ok (.value s) else .ok (.unknown s)
  | _ => .ok (.value s)

def readWords : List String → Except Refusal (List Word)
  | [] => .ok []
  | s :: rest =>
    if s == "--" then .ok (.divider :: rest.map .value)
    else do return (← readWord s) :: (← readWords rest)

structure Arguments where
  file : String := ""
  programArgs : List String := []
  exeName : Option String := none
  compileOnly : Bool := false
  doNotExecute : Bool := false
  noStandard : Bool := false
  includeDirs : List String := []
  deriving Repr

/-- Reading of arguments. -/
structure Intake where
  arguments : Arguments := {}
  /-- The file has been read, and with it the arguments for the program. -/
  hasFile : Bool := false
  /-- Words that belong nowhere. -/
  left : List String := []

namespace Intake

/-- Does what a switch says. -/
def apply (values : List String) : Except Refusal Intake :=
  let a := t.arguments
  match sw with
  | .help => .error .help
  | .exeName => .ok { t with arguments := { a with exeName := values.head? } }
  | .compileOnly => .ok { t with arguments := { a with compileOnly := true } }
  | .doNotExecute => .ok { t with arguments := { a with doNotExecute := true } }
  | .noStandard => .ok { t with arguments := { a with noStandard := true } }
  | .noRefs => .ok t
  | .includeDirs => .ok { t with arguments := { a with includeDirs := values } }

def applyAll (switches : List Switch) : Except Refusal Intake :=
  switches.foldlM (fun t sw => t.apply sw []) t

/-- Takes a switch that has no value attached, and its values from the words behind it. -/
def takeValues (rest : List Word) : Except Refusal (Intake × List Word) :=
  match sw.takes with
  | .nothing => do return (← t.apply sw [], rest)
  | .one =>
    match rest with
    | .value v :: rest => do return (← t.apply sw [v], rest)
    | _ => .error (.missingValue sw)
  | .any => do
    return (← t.apply sw ((rest.takeWhile Word.isValue).map Word.text), rest.dropWhile Word.isValue)

/-- Takes a switch with a text attached: its value or, behind a short switch without values, further
    short switches.  `earlier` are the switches in front of it. -/
def takeAttached (t : Intake) (rest : List Word) :
    (earlier : List Switch) → Switch → (short : Bool) → List Char →
    Except Refusal (Intake × List Word)
  | earlier, sw, short, cs =>
    match sw.takes with
    | .nothing =>
      match short, cs with
      | true, c :: cs =>
        match Switch.ofSpelling? (ofList ['-', c]), cs with
        | none, _ => .error (.strayValue sw (ofList (c :: cs)))
        | some next, [] => do (← t.applyAll (earlier ++ [sw])).takeValues next rest
        | some next, c' :: cs => takeAttached t rest (earlier ++ [sw]) next true (c' :: cs)
      | _, cs => .error (.strayValue sw (ofList cs))
    | _ => do
      let t ← t.applyAll earlier
      return (← t.apply sw [ofList cs], rest)

/-- Takes a run of values.  The first one is the file, and the others are for the program; a second
    run belongs nowhere.  The first divider in each of the two parts is dropped. -/
def takeRun (run : List Word) : Intake :=
  if t.hasFile then { t with left := t.left ++ run.map Word.text }
  else
    let lead := run.takeWhile (!·.isValue)
    match run.dropWhile (!·.isValue) with
    | [] => { t with left := t.left ++ run.map Word.text }
    | file :: rest =>
      let trail := rest.takeWhile (· == .divider)
      let first := ((lead ++ file :: trail).map Word.text).erase "--"
      let others := ((rest.drop trail.length).map Word.text).erase "--"
      { t with
        hasFile := true
        arguments :=
          { t.arguments with file := first.headD "", programArgs := others } }

def takeAll : (fuel : Nat) → Intake → List Word → Except Refusal Intake
  | 0, t, _ => .ok t
  | _, t, [] => .ok t
  | fuel + 1, t, word :: rest =>
    match word with
    | .unknown s => takeAll fuel { t with left := t.left ++ [s] } rest
    | .switch sw _ none => do
      let (t, rest) ← t.takeValues sw rest
      takeAll fuel t rest
    | .switch sw spelling (some v) => do
      let short := spelling.toList[1]? != some '-'
      let (t, rest) ← t.takeAttached rest [] sw short v.toList
      takeAll fuel t rest
    | _ =>
      let run := (word :: rest).takeWhile (!·.isSwitch)
      takeAll fuel (t.takeRun run) ((word :: rest).dropWhile (!·.isSwitch))

end Intake

def Arguments.parse (args : List String) : Except Refusal Arguments := do
  let words ← readWords args
  let t ← Intake.takeAll (words.length + 1) {} words
  if !t.hasFile then
    throw .missingFile
  if !t.left.isEmpty then
    throw (.unknown t.left)
  return t.arguments

/-- How the command is used. -/
def usage : String :=
  "usage: ceto [-h] [-o EXENAME] [-m] [--donotexecute] [--_nostandardlibmacros]\n" ++
  "            [--_norefs] [-I [INCLUDE ...]]\n" ++
  "            filename [args ...]\n"

/-- The spellings of a switch, as messages show them. -/
def Switch.shown : String := "/".intercalate sw.spellings

def Refusal.message : Refusal → String
  | .help => ""
  | .ambiguous word spellings =>
    "ambiguous option: " ++ word ++ " could match " ++ ", ".intercalate spellings
  | .strayValue sw v => "argument " ++ sw.shown ++ ": ignored explicit argument '" ++ v ++ "'"
  | .missingValue sw => "argument " ++ sw.shown ++ ": expected one argument"
  | .missingFile => "the following arguments are required: filename, args"
  | .unknown words => "unrecognized arguments: " ++ " ".intercalate words

def Refusal.report : Refusal → String
  | .help => ""
  | r => usage ++ "ceto: error: " ++ r.message ++ "\n"

/-- The code that the command ends with. -/
def Refusal.exitCode : Refusal → Int
  | .help => 0
  | _ => 2

end Cppward.Build
