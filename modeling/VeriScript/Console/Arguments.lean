import VeriScript.Session.Options
import VeriScript.Text.Lines
import VeriScript.Text.Numeral
import VeriScript.Text.Quoted

/-!
# Command line arguments

* `Flag` — the options; a long option may be cut short as long as it stays the only one, short options may be
  joined, and a value may stand in the same word or in the next.
* `Arguments` — what a command line says.
* `parseArguments` — read a command line (`create_arg_parser`).
-/

namespace VeriScript.Console

inductive Flag where
  | help
  | interactive
  | parse
  | debug
  | verbosity
  | showPosition
  | summary
  | summaryFormat
  | noColor
  | version
  deriving DecidableEq, Repr

/-- The spellings of the options. -/
def flagNames : List (String × Flag) :=
  [("-h", .help), ("--help", .help), ("-i", .interactive), ("--interactive", .interactive),
   ("--parse", .parse), ("--debug", .debug), ("-v", .verbosity), ("--verbosity", .verbosity),
   ("--show-position", .showPosition), ("-s", .summary), ("--summary", .summary),
   ("-f", .summaryFormat), ("--summary-format", .summaryFormat), ("--no-color", .noColor),
   ("--version", .version)]

namespace Flag

/-- All spellings of an option. -/
def label (f : Flag) : String :=
  String.intercalate "/" ((flagNames.filter (·.2 == f)).map (·.1))

/-- The option is followed by a value. -/
def takesValue : Flag → Bool
  | .verbosity | .summary | .summaryFormat => true
  | _ => false

end Flag

/-- The names of the verbosities, from none on. -/
def verbosityNames : List String := ["silent", "error", "warn", "info", "debug"]

/-- The names of the formats of a summary. -/
def formatNames : List String := ["pretty", "json"]

structure Arguments where
  script : Option String
  interactive : Bool
  parse : Bool
  debug : Bool
  verbosity : Nat
  showPosition : Bool
  summary : Option String
  format : SummaryFormat
  noColor : Bool
  deriving DecidableEq, Repr

/-- An empty command line. -/
def Arguments.empty : Arguments := ⟨none, false, false, false, 3, false, none, .pretty, false⟩

inductive UsageError where
  | ambiguous (word : String) (candidates : List String)
  | missingValue (flag : Flag)
  | unwantedValue (flag : Flag) (value : String)
  | badChoice (flag : Flag) (value : String) (choices : List String)
  | unrecognized (words : List String)
  deriving DecidableEq, Repr

def UsageError.message : UsageError → String
  | .ambiguous word candidates =>
    "ambiguous option: " ++ word ++ " could match " ++ String.intercalate ", " candidates
  | .missingValue flag => "argument " ++ flag.label ++ ": expected one argument"
  | .unwantedValue flag value =>
    "argument " ++ flag.label ++ ": ignored explicit argument " ++ Text.treeText value
  | .badChoice flag value choices =>
    "argument " ++ flag.label ++ ": invalid choice: " ++ Text.treeText value ++ " (choose from " ++
      String.intercalate ", " (choices.map Text.treeText) ++ ")"
  | .unrecognized words => "unrecognized arguments: " ++ String.intercalate " " words

/-- What a command line asks for. -/
inductive Invocation where
  | help
  | version
  | usage (e : UsageError)
  | run (args : Arguments)
  deriving Repr

/-! ## Words -/

/-- What follows an option in the same word. -/
inductive Attached where
  | nothing
  /-- A value behind an equals sign. -/
  | value (s : String)
  /-- A value or more options, without anything between. -/
  | letters (cs : List Char)
  deriving Repr

/-- What a word is. -/
inductive Word where
  | plain (s : String)
  /-- Two dashes: only plain words follow. -/
  | dashes
  | flag (f : Flag) (attached : Attached)
  | unknown (s : String)
  deriving Repr

/-- The two parts of a word around its first equals sign. -/
def splitEquals (word : String) : Option (String × String) :=
  let cs := word.toList
  if cs.contains '=' then
    some (String.ofList (cs.takeWhile (· != '=')), String.ofList ((cs.dropWhile (· != '=')).drop 1))
  else none

/-- A negative number: digits behind a dash, perhaps with a point among or before them. -/
def isNegativeNumber (cs : List Char) : Bool :=
  match cs with
  | '-' :: rest =>
    let isDigit (c : Char) : Bool := (Text.decimalDigit? c).isSome
    let whole := rest.takeWhile isDigit
    match rest.dropWhile isDigit with
    | [] => !whole.isEmpty
    | '.' :: fraction => !fraction.isEmpty && fraction.all isDigit
    | _ => false
  | _ => false

/-- The options that a word starting with a single dash may begin with. -/
def shortMatches (cs : List Char) : List (String × Word) :=
  flagNames.filterMap fun (name, f) =>
    if name.toList == cs.take 2 then some (name, .flag f (.letters (cs.drop 2))) else none

/-- The options that a word starting with two dashes may be short for. -/
def longMatches (word : String) : List (String × Word) :=
  let (start, attached) := match splitEquals word with
    | some (start, value) => (start, Attached.value value)
    | none => (word, .nothing)
  flagNames.filterMap fun (name, f) =>
    if start.toList.isPrefixOf name.toList then some (name, .flag f attached) else none

/-- The option that a text spells in full. -/
def exactFlag? (name : String) : Option Flag :=
  (flagNames.find? (·.1 == name)).map (·.2)

/-- What a word is that spells no option in full. -/
def classifyOther (word : String) : Except UsageError Word :=
  let cs := word.toList
  match (if cs.drop 1 |>.head? |>.any (· == '-') then longMatches word else shortMatches cs) with
  | [(_, w)] => .ok w
  | [] => if isNegativeNumber cs || cs.contains ' ' then .ok (.plain word) else .ok (.unknown word)
  | candidates => .error (.ambiguous word (candidates.map (·.1)))

/-- What a word is. -/
def classify (word : String) : Except UsageError Word :=
  match word.toList with
  | '-' :: _ :: _ =>
    match exactFlag? word with
    | some f => .ok (.flag f .nothing)
    | none =>
      match (splitEquals word).bind fun (name, value) => (exactFlag? name).map (·, value) with
      | some (f, value) => .ok (.flag f (.value value))
      | none => classifyOther word
  | _ => .ok (.plain word)

/-- What the words of a command line are. -/
def classifyAll : List String → Except UsageError (List Word)
  | [] => .ok []
  | "--" :: words => .ok (.dashes :: words.map .plain)
  | word :: words => do
    let w ← classify word
    let ws ← classifyAll words
    return w :: ws

/-! ## Options -/

/-- The options of a word: those that are complete, the one that wants the next word as its value, and
joined letters that are no options. -/
structure FlagWord where
  flags : List (Flag × String)
  next : Option Flag
  unknown : Option String
  deriving Repr

/-- An option that nothing is attached to. -/
def Flag.alone (f : Flag) : FlagWord :=
  if f.takesValue then ⟨[], some f, none⟩ else ⟨[(f, "")], none, none⟩

/-- An option with a value behind an equals sign. -/
def Flag.withValue (f : Flag) (value : String) : Except UsageError FlagWord :=
  if f.takesValue then .ok ⟨[(f, value)], none, none⟩ else .error (.unwantedValue f value)

/-- An option with letters attached: its value, or more options. -/
def Flag.withLetters : Flag → List Char → Except UsageError FlagWord
  | f, [] => .ok f.alone
  | f, c :: cs =>
    if f.takesValue then f.withValue (String.ofList (c :: cs))
    else if c = '-' then .error (.unwantedValue f (String.ofList (c :: cs)))
    else match exactFlag? (String.ofList ['-', c]) with
      | some g => do
        let rest ← if cs.head? = some '=' then g.withValue (String.ofList (cs.drop 1)) else g.withLetters cs
        return { rest with flags := (f, "") :: rest.flags }
      | none => .ok ⟨[(f, "")], none, some (String.ofList ('-' :: c :: cs))⟩

/-- The options of a word. -/
def Flag.options (f : Flag) : Attached → Except UsageError FlagWord
  | .nothing => .ok f.alone
  | .value s => f.withValue s
  | .letters cs => f.withLetters cs

/-- Reading a command line stops early. -/
inductive Stop where
  | help
  | version
  | usage (e : UsageError)
  deriving Repr

/-- What an option says. -/
def Arguments.apply (args : Arguments) (f : Flag) (value : String) : Except Stop Arguments :=
  match f with
  | .help => .error .help
  | .version => .error .version
  | .interactive => .ok { args with interactive := true }
  | .parse => .ok { args with parse := true }
  | .debug => .ok { args with debug := true }
  | .showPosition => .ok { args with showPosition := true }
  | .noColor => .ok { args with noColor := true }
  | .summary => .ok { args with summary := some value }
  | .verbosity =>
    match verbosityNames.findIdx? (· == value) with
    | some n => .ok { args with verbosity := n }
    | none => .error (.usage (.badChoice f value verbosityNames))
  | .summaryFormat =>
    if value = "pretty" then .ok { args with format := .pretty }
    else if value = "json" then .ok { args with format := .json }
    else .error (.usage (.badChoice f value formatNames))

def Arguments.applyAll (args : Arguments) (flags : List (Flag × String)) : Except Stop Arguments :=
  flags.foldlM (fun args e => args.apply e.1 e.2) args

/-! ## Command lines -/

/-- What has been read of a command line. -/
structure Progress where
  args : Arguments
  /-- The place of the script has been taken, if only by two dashes at the end. -/
  scriptTaken : Bool
  extras : List String

/-- Words that are no options: the first one is the script, and two dashes next to it belong to it; all
others are too many. -/
def Progress.takePlain (p : Progress) (word : String) : Progress :=
  if p.scriptTaken then { p with extras := p.extras ++ [word] }
  else { p with args := { p.args with script := some word }, scriptTaken := true }

/-- Read words one after another. -/
def readWords : List Word → Progress → Except Stop Progress
  | [], p => .ok p
  | .plain s :: .dashes :: rest, p =>
    if p.scriptTaken then readWords (.dashes :: rest) (p.takePlain s) else readWords rest (p.takePlain s)
  | .plain s :: rest, p => readWords rest (p.takePlain s)
  | .dashes :: rest, p =>
    readWords rest (if p.scriptTaken then p.takePlain "--" else p)
  | .unknown s :: rest, p => readWords rest { p with extras := p.extras ++ [s] }
  | .flag f attached :: rest, p => do
    let word ← (f.options attached).mapError .usage
    let p := { p with extras := p.extras ++ word.unknown.toList }
    match word.next with
    | none => readWords rest { p with args := ← p.args.applyAll word.flags }
    | some g =>
      match rest with
      | .plain v :: rest => readWords rest { p with args := ← p.args.applyAll (word.flags ++ [(g, v)]) }
      | _ => .error (.usage (.missingValue g))

/-- Read a command line. -/
def parseArguments (words : List String) : Invocation :=
  match classifyAll words with
  | .error e => .usage e
  | .ok ws =>
    match readWords ws ⟨.empty, false, []⟩ with
    | .error .help => .help
    | .error .version => .version
    | .error (.usage e) => .usage e
    | .ok p => if p.extras.isEmpty then .run p.args else .usage (.unrecognized p.extras)

/-! ## Texts -/

/-- How the program is used. -/
def usageText : String :=
  "usage: vsl [-h] [-i] [--parse] [--debug] [-v \x7bsilent,error,warn,info,debug\x7d]\n" ++
  "           [--show-position] [-s FILE] [-f \x7bpretty,json\x7d] [--no-color]\n" ++
  "           [--version]\n" ++
  "           [script]\n"

/-- The options explained. -/
def helpText : String :=
  usageText ++ "\n" ++ Text.joinLines
  ["VSL - a scripting language for driving verification tasks",
   "",
   "positional arguments:",
   "  script                VSL script file to execute",
   "",
   "options:",
   "  -h, --help            show this help message and exit",
   "  -i, --interactive     Start interactive mode (after running the script, if",
   "                        given)",
   "  --parse               Parse file and show the syntax tree",
   "  --debug               Trace evaluation and type checking",
   "  -v \x7bsilent,error,warn,info,debug\x7d, --verbosity \x7bsilent,error,warn,info,debug\x7d",
   "                        Output level (default: info)",
   "  --show-position       Prefix script output with the position of the",
   "                        statement printing it",
   "  -s FILE, --summary FILE",
   "                        Write a verification summary to FILE",
   "  -f \x7bpretty,json\x7d, --summary-format \x7bpretty,json\x7d",
   "                        Format of the verification summary (default: pretty)",
   "  --no-color            Disable ANSI colors in printed terms",
   "  --version             show program's version number and exit",
   "",
   "Examples:",
   "  vsl script.vsl                 # Run a script",
   "  vsl -i                         # Interactive mode",
   "  vsl --parse script.vsl         # Parse and show the syntax tree",
   "  vsl -s summary.json -f json script.vsl",
   "                                      # Run and write a JSON summary",
   "  vsl -v debug script.vsl        # Run with all output",
   "        ",
   ""]

/-- What a wrong command line is answered with. -/
def UsageError.report (e : UsageError) : String :=
  usageText ++ "vsl: error: " ++ e.message ++ "\n"

end VeriScript.Console
