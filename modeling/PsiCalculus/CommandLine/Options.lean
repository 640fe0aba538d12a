import PsiCalculus.Text.Decimal

/-! # Command line options

What the arguments of a command ask for. Options come in any order, before or after the expression,
and each at most once. A value stands after its option, after an equals sign, or, for the one-letter
form, right behind the letter; letters without values may be joined. After `--` nothing is an
option. `Invocation.parse` reads the arguments from left to right and stops at the first one that is
wrong, or that asks for help or for the version.
-/

namespace PsiCalculus.CommandLine

/-- The last stage to run. -/
inductive Stage where
  | shape
  | dnf
  | onf
  | python
  deriving DecidableEq, Repr

namespace Stage

/-- The word for a stage. -/
def ofWord? : String → Option Stage
  | "shape" => some shape
  | "dnf" => some dnf
  | "onf" => some onf
  | "python" => some python
  | _ => none

/-- The name of a stage. -/
def title : Stage → String
  | shape => "Shape"
  | dnf => "Dnf"
  | onf => "Onf"
  | python => "Python"

end Stage

/-- Options without a value. -/
inductive Switch where
  | json
  | noGuards
  | flops
  | verbose
  | help
  | version
  deriving DecidableEq, Repr

/-- Options with a value. -/
inductive Setting where
  | file
  | stage
  | maxRewrites
  | config
  deriving DecidableEq, Repr

/-- What is asked for. -/
structure Options where
  expression : Option String := none
  file : Option String := none
  stage : Option Stage := none
  maxRewrites : Option Nat := none
  config : Option String := none
  json : Bool := false
  noGuards : Bool := false
  flops : Bool := false
  verbose : Bool := false
  deriving DecidableEq, Repr

/-- What a list of arguments comes to. -/
inductive Invocation where
  | run (options : Options)
  | help
  | version
  /-- The arguments are wrong, for the reason given. -/
  | misuse (reason : String)
  deriving DecidableEq, Repr

/-- What an argument leads to: more arguments, a value that has to follow, or an end. -/
inductive Step where
  | go (options : Options)
  | await (options : Options) (setting : Setting)
  | stop (invocation : Invocation)
  deriving DecidableEq, Repr

/-- An option, by its kind. -/
inductive Name where
  | switch (switch : Switch)
  | setting (setting : Setting)
  deriving DecidableEq, Repr

/-- The option of a word after two dashes. -/
def Name.ofWord? : String → Option Name
  | "file" => some (.setting .file)
  | "stage" => some (.setting .stage)
  | "max-iterations" => some (.setting .maxRewrites)
  | "config" => some (.setting .config)
  | "json" => some (.switch .json)
  | "no-conditions" => some (.switch .noGuards)
  | "flops" => some (.switch .flops)
  | "verbose" => some (.switch .verbose)
  | "help" => some (.switch .help)
  | "version" => some (.switch .version)
  | _ => none

/-- The option of a letter after one dash. -/
def Name.ofLetter? : Char → Option Name
  | 'f' => some (.setting .file)
  | 'c' => some (.setting .config)
  | 'j' => some (.switch .json)
  | 'v' => some (.switch .verbose)
  | 'h' => some (.switch .help)
  | 'V' => some (.switch .version)
  | _ => none

namespace Options

/-- Refuses the arguments. -/
def misuse (reason : String) : Step :=
  .stop (.misuse reason)

/-- Turns on an option that is `on` already or not. -/
def once (on : Bool) (options : Options) : Step :=
  if on then misuse "an option is given more than once" else .go options

/-- Turns on an option without a value. -/
def turnOn (o : Options) : Switch → Step
  | .json => once o.json { o with json := true }
  | .noGuards => once o.noGuards { o with noGuards := true }
  | .flops => once o.flops { o with flops := true }
  | .verbose => once o.verbose { o with verbose := true }
  | .help => .stop .help
  | .version => .stop .version

/-- Gives an option its value. -/
def set (o : Options) (value : String) : Setting → Step
  | .file => once o.file.isSome { o with file := some value }
  | .config => once o.config.isSome { o with config := some value }
  | .stage =>
    match Stage.ofWord? value with
    | some stage => once o.stage.isSome { o with stage := some stage }
    | none => misuse ("no stage is called '" ++ value ++ "'")
  | .maxRewrites =>
    match Text.word? value.toList with
    | some n => once o.maxRewrites.isSome { o with maxRewrites := some n }
    | none => misuse ("'" ++ value ++ "' is no number")

/-- Takes an argument that is no option: the expression. -/
def positional (o : Options) (argument : String) : Step :=
  if o.expression.isSome then misuse ("unexpected argument '" ++ argument ++ "'")
  else .go { o with expression := some argument }

/-- Takes letters after one dash. A letter whose option has a value takes the rest as its value. -/
def letters (o : Options) : List Char → Step
  | [] => .go o
  | c :: rest =>
    match Name.ofLetter? c with
    | none => misuse ("unexpected argument '-" ++ c.toString ++ "'")
    | some (.switch switch) =>
      match o.turnOn switch with
      | .go o => letters o rest
      | other => other
    | some (.setting setting) =>
      match rest with
      | [] => .await o setting
      | '=' :: value => o.set (String.ofList value) setting
      | value => o.set (String.ofList value) setting

/-- Takes a word after two dashes, and the value after its equals sign, if it has one. -/
def word (o : Options) (name : String) (value : Option String) : Step :=
  match Name.ofWord? name, value with
  | none, _ => misuse ("unexpected argument '--" ++ name ++ "'")
  | some (.switch switch), none => o.turnOn switch
  | some (.switch _), some _ => misuse ("'--" ++ name ++ "' takes no value")
  | some (.setting setting), none => .await o setting
  | some (.setting setting), some value => o.set value setting

/-- Whether an argument is an option by its form. A single dash is none. -/
def isOption (argument : List Char) : Bool :=
  argument.head? = some '-' && argument ≠ ['-']

/-- Takes one argument. -/
def take (o : Options) (argument : String) : Step :=
  match argument.toList with
  | '-' :: '-' :: rest =>
    let name := rest.takeWhile (· ≠ '=')
    let value := match rest.dropWhile (· ≠ '=') with
      | _ :: value => some (String.ofList value)
      | [] => none
    o.word (String.ofList name) value
  | '-' :: c :: rest => o.letters (c :: rest)
  | _ => o.positional argument

end Options

namespace Invocation

/-- Takes arguments none of which is an option. -/
def parsePlain (o : Options) : List String → Invocation
  | [] => .run o
  | argument :: rest =>
    match o.positional argument with
    | .go o => parsePlain o rest
    | .await o _ => .run o
    | .stop invocation => invocation

/-- Takes arguments, the first of which is the value of `pending` if that is an option. -/
def parseFrom (o : Options) (pending : Option Setting) : List String → Invocation
  | [] => if pending.isSome then .misuse "an option lacks its value" else .run o
  | argument :: rest =>
    let step := match pending with
      | some setting =>
        if Options.isOption argument.toList then Options.misuse "an option lacks its value"
        else o.set argument setting
      | none => o.take argument
    if pending.isNone && argument = "--" then parsePlain o rest
    else match step with
      | .go o => parseFrom o none rest
      | .await o setting => parseFrom o (some setting) rest
      | .stop invocation => invocation

/-- What a list of arguments comes to. -/
def parse (arguments : List String) : Invocation :=
  parseFrom {} none arguments

end Invocation

end PsiCalculus.CommandLine
