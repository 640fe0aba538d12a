import PsiCalculus.CommandLine.Options
import PsiCalculus.Json.Encode
import PsiCalculus.Pipeline
import PsiCalculus.Text.Blank

/-! # Running a command

`CommandLine.answer` says what a command prints and how it ends, given its arguments, its standard
input and the texts of the files it may read. What was printed before an error stays printed.
-/

namespace PsiCalculus.CommandLine

/-- How a command ends. -/
inductive Ending where
  | success
  /-- The file with the expression has no text. -/
  | unreadable (file : String) (fault : ReadFault)
  | failed (error : Error)
  | misused (reason : String)
  deriving DecidableEq

/-- What a command prints, and how it ends. -/
structure Report where
  output : String
  /-- A JSON value printed after the output. -/
  dump : Option Json := none
  ending : Ending

/-! ## Colours -/

/-- The ways a text is coloured. -/
inductive Paint where
  | boldGreen
  | boldBlue
  | green
  | cyan
  | red
  deriving DecidableEq, Repr

/-- The terminal's code for a paint. -/
def Paint.code : Paint → String
  | boldGreen => "1;32"
  | boldBlue => "1;34"
  | green => "32"
  | cyan => "36"
  | red => "31"

/-- The text in a paint, if there are colours. -/
def paint (color : Bool) (p : Paint) (text : String) : String :=
  if color then "\x1b[" ++ p.code ++ "m" ++ text ++ "\x1b[0m" else text

namespace Ending

/-- The exit code of an ending. -/
def exitCode : Ending → Nat
  | success => 0
  | unreadable _ _ => 1
  | failed error => if error.aborts then 101 else 1
  | misused _ => 2

/-- What an ending prints as an error. -/
def errorText (color : Bool) : Ending → String
  | success => ""
  | unreadable file fault =>
    paint color .red "Error" ++ ": Failed to read file '" ++ file ++ "': " ++ fault.message ++ "\n"
  | failed error =>
    if error.aborts then "panic"
    else paint color .red error.kind ++ ": " ++ error.message ++ "\n"
  | misused reason => "error: " ++ reason ++ "\n"

end Ending

/-! ## Printing -/

/-- Computations that print. -/
abbrev Printing := ExceptT Error (StateM String)

/-- Prints a text. -/
def say (text : String) : Printing Unit :=
  modify (· ++ text)

/-- Prints a title in a paint, underlined. -/
def sayTitle (color : Bool) (p : Paint) (title : String) (width : Nat) : Printing Unit :=
  say (paint color p title ++ "\n" ++ Context.repeated width "=" ++ "\n")

/-- Prints a labelled value. -/
def sayField (color : Bool) (p : Paint) (label value : String) : Printing Unit :=
  say (paint color p label ++ ": " ++ value ++ "\n")

/-- Prints the listing of a context. -/
def sayContext (color : Bool) (title : String) (c : Context) : Printing Unit := do
  sayTitle color .boldGreen title 50
  say (c.render ++ "\n")

/-- Prints what is about to be done. -/
def sayHeader (color : Bool) (source : String) (stage : Stage) : Printing Unit := do
  sayTitle color .boldBlue "Mathematics of Arrays Compiler" 30
  say "\n"
  sayField color .green "Input" (Text.trim source)
  sayField color .green "Stage" stage.title
  say "\n"

/-- Prints the costs. -/
def sayFlops (color : Bool) (shaped : Context) (reduced : Option Context) : Printing Unit := do
  sayField color .cyan "Flops (shaped)" (toString (← liftExcept shaped.flops))
  if let some reduced := reduced then
    sayField color .cyan "Flops (reduced)" (toString (← liftExcept reduced.flops))
  say "\n"

/-- What a stage is listed as. -/
def listingTitle : Stage → String
  | .shape => "Shaped"
  | .dnf => "Reduced"
  | .onf | .python => "Lowered"

/-! ## Commands -/

/-- The options of the compilation: those of the configuration unless the command overrides them. -/
def Options.configure (o : Options) (config : Config) : Config :=
  { config with
    guards := config.guards && !o.noGuards
    maxRewrites := o.maxRewrites.getD config.maxRewrites }

/-- The reduced form, if the stage gets to it. -/
def reduceFor (color : Bool) (o : Options) (stage : Stage) (config : Config) (shaped : Context) :
    Printing (Option Context) := do
  if stage = .shape then return none
  else
    if o.verbose then sayContext color "Shaped" shaped
    return some (← liftExcept (shaped.reduce config.maxRewrites))

/-- The form that the last stage leaves. -/
def lowerFor (color : Bool) (o : Options) (stage : Stage) (config : Config) (shaped : Context)
    (reduced : Option Context) : Printing Context := do
  match reduced with
  | none => return shaped
  | some reduced =>
    if stage = .dnf then return reduced
    else
      if o.verbose then sayContext color "Reduced" reduced
      liftExcept (reduced.lower config.guards)

/-- Compiles a source up to the stage asked for, and prints; a JSON dump is returned instead. -/
def run (color : Bool) (o : Options) (config : Except Error Config) (source : String) :
    Printing (Option Json) := do
  let config := o.configure (← liftExcept config)
  let stage := o.stage.getD .python
  if o.verbose then sayHeader color source stage
  let parsed ← liftExcept (Context.parse source)
  if o.verbose then sayContext color "Parsed" parsed
  let shaped ← liftExcept parsed.inferShapes
  let reduced ← reduceFor color o stage config shaped
  let last ← lowerFor color o stage config shaped reduced
  if o.flops then sayFlops color shaped reduced
  if o.json then return some last.toJson
  else if stage = .python then
    if o.verbose then
      sayContext color "Lowered" last
      sayTitle color .boldGreen "Python" 50
    say (← liftExcept (Python.program config.functionName config.literals last))
    return none
  else
    sayContext color (listingTitle stage) last
    return none

/-- The texts of files. -/
abbrev Files := String → Except ReadFault String

/-- The options that the configuration file gives, or the default ones. -/
def loadConfig (files : Files) : Option String → Except Error Config
  | none => .ok {}
  | some file =>
    match files file with
    | .ok text => Config.parse text
    | .error fault => .error (.config (.unreadable file fault))

/-- What is to be compiled: the expression of the command, or the text of its file, or else the
standard input. -/
def Options.source (o : Options) (input : String) (files : Files) : Except Ending String :=
  match o.expression, o.file with
  | some expression, _ => .ok expression
  | none, some file =>
    match files file with
    | .ok text => .ok text
    | .error fault => .error (.unreadable file fault)
  | none, none => .ok input

/-- The files that a command reads. -/
def Options.reads (o : Options) : List String :=
  (if o.expression.isSome then [] else o.file.toList) ++ o.config.toList

/-- The report of a command that compiles. -/
def report (color : Bool) (input : String) (files : Files) (o : Options) : Report :=
  match o.source input files with
  | .error ending => { output := "", ending }
  | .ok source =>
    match (run color o (loadConfig files o.config) source).run "" with
    | (.ok dump, output) => { output, dump, ending := .success }
    | (.error e, output) => { output, ending := .failed e }

/-- The version of the command. -/
def versionText : String := "moac 0.1.0\n"

/-- The help of the command. -/
def helpText : String :=
  "Compiles Mathematics of Arrays expressions to Python loop nests\n\n"
    ++ "Usage: moac [OPTIONS] [EXPR]\n\n"
    ++ "Arguments:\n  [EXPR]  expression to compile, e.g. \"A ^ <3 4> + B ^ <3 4>\"\n\n"
    ++ "Options:\n"
    ++ "  -f, --file <FILE>        read the expression from a file\n"
    ++ "      --stage <STAGE>      last stage to run: shape, dnf, onf or python [default: python]\n"
    ++ "  -j, --json               print the last stage as JSON\n"
    ++ "      --no-conditions      omit the checks of argument shapes\n"
    ++ "      --max-iterations <N> rewrites allowed at one node during reduction\n"
    ++ "  -c, --config <FILE>      load options from a JSON file\n"
    ++ "      --flops              report flop counts before and after reduction\n"
    ++ "  -v, --verbose            list every stage\n"
    ++ "  -h, --help               print help\n"
    ++ "  -V, --version            print version\n"

/-- What a command prints and how it ends. -/
def answer (color : Bool) (arguments : List String) (input : String) (files : Files) : Report :=
  match Invocation.parse arguments with
  | .run options => report color input files options
  | .help => { output := helpText, ending := .success }
  | .version => { output := versionText, ending := .success }
  | .misuse reason => { output := "", ending := .misused reason }

/-- All that a command prints as its output. -/
def Report.printed (r : Report) : String :=
  r.output ++ match r.dump with
    | some value => value.pretty ++ "\n"
    | none => ""

end PsiCalculus.CommandLine
