import PsiCalculus.CommandLine.Report

/-! # The command

Reads what the arguments name, asks for the report, prints it.
-/

open PsiCalculus PsiCalculus.CommandLine

/-- A system's error code, which some calls give with its sign turned. -/
def unsignedCode (code : UInt32) : Nat :=
  min code.toNat (0 - code).toNat

/-- Why a file could not be read. -/
def readFault (e : IO.Error) : ReadFault :=
  match e with
  | .noFileOrDirectory .. => .notFound
  | .permissionDenied .. => .denied
  | .inappropriateType _ code _ => if unsignedCode code = 20 then .notDirectory else .isDirectory
  | .invalidArgument _ code _ =>
    if unsignedCode code = 36 then .nameTooLong else .other (toString e)
  | _ => .other (toString e)

/-- The text of a file, or why it has none. -/
def readText (file : String) : IO (Except ReadFault String) := do
  try
    let bytes ← IO.FS.readBinFile file
    match String.fromUTF8? bytes with
    | some text => return .ok text
    | none => return .error .notText
  catch e => return .error (readFault e)

/-- Whether the output is coloured: when that is forced, or when it goes to a terminal that does not
refuse. -/
def wantsColor : IO Bool := do
  match ← IO.getEnv "CLICOLOR_FORCE", ← IO.getEnv "NO_COLOR" with
  | some value, _ => if value ≠ "0" then return true else (← IO.getStdout).isTty
  | none, some _ => return false
  | none, none => (← IO.getStdout).isTty

/-- Runs the command. -/
def main (arguments : List String) : IO UInt32 := do
  let color ← wantsColor
  let (input, texts) ← match Invocation.parse arguments with
    | .run options => do
      let texts ← options.reads.mapM fun file => do return (file, ← readText file)
      let input ←
        if options.expression.isNone && options.file.isNone then (← IO.getStdin).readToEnd
        else pure ""
      pure (input, texts)
    | _ => pure ("", [])
  let files : Files := fun file => (texts.lookup file).getD (.error .notFound)
  let report := answer color arguments input files
  (← IO.getStdout).putStr report.printed
  (← IO.getStderr).putStr (report.ending.errorText color)
  return report.ending.exitCode.toUInt32
