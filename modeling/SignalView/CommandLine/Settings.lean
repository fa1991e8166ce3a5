import SignalView.Compilation
import SignalView.CommandLine.Destination

/-!
# Settings from arguments

Arguments are read in order, and the first that asks for help, asks for the version or cannot be
understood ends the reading. A later option wins over an earlier one of its kind, while a second
input is a misuse.
-/

namespace SignalView

/-! ## Misuse -/

inductive UsageError where
  | missingValue (option : Bytes)
  | notANumber (value : Bytes)
  | indentOutOfRange
  | unknownFormat (value : Bytes)
  | unknownLexerMode (value : Bytes)
  | unknownOption (argument : Bytes)
  | severalInputs (argument : Bytes)
  | noInput
  deriving DecidableEq, Repr

namespace UsageError

def quoted (text : Bytes) : Bytes := bytes "'" ++ text ++ bytes "'"

def message : UsageError → Bytes
  | .missingValue option => option ++ bytes " requires an argument"
  | .notANumber value => bytes "--indent expects a number, got " ++ quoted value
  | .indentOutOfRange => bytes "--indent must be between 0 and 8"
  | .unknownFormat value => bytes "Unknown module format " ++ quoted value
  | .unknownLexerMode value => bytes "Unknown lexer mode " ++ quoted value
  | .unknownOption argument => bytes "Unknown option: " ++ argument
  | .severalInputs argument => bytes "Multiple input files: " ++ argument
  | .noInput => bytes "No input file specified."

/-- What to do instead, where there is something to say. -/
def hint : UsageError → Bytes
  | .unknownFormat _ => bytes "Use esm or commonjs."
  | .unknownLexerMode _ => bytes "Use strict, collect or resilient."
  | .unknownOption _ => bytes "Run with --help to see the available options."
  | .noInput => bytes "Usage: psrc <file.psr> [options]"
  | _ => []

end UsageError

/-! ## Settings -/

structure Settings where
  input : Bytes := []
  destination : Destination := .besideInput
  debug : Bool := false
  strict : Bool := false
  collectErrors : Bool := false
  /-- The tokens are listed, and nothing is compiled. -/
  listTokens : Bool := false
  verbose : Bool := false
  useTabs : Bool := false
  indentWidth : Nat := 2
  format : ModuleFormat := .esm
  lexerMode : LexerMode := .strict
  /-- Empty for the default runtime. -/
  runtimeModule : Bytes := []
  deriving DecidableEq, Repr

def Settings.compilation (settings : Settings) : Compilation.Options where
  strict := settings.strict
  collectErrors := settings.collectErrors
  lexerMode := settings.lexerMode
  fileName := settings.input
  indent := if settings.useTabs then [9] else List.replicate settings.indentWidth 32
  format := settings.format
  runtimeModule :=
    if settings.runtimeModule.isEmpty then ViewProgram.defaultRuntime else settings.runtimeModule

/-! ## Options -/

/-- The number at the front of a text: white space, a sign and digits, with anything behind them.
There must be a digit, and the number must fit into 32 bits. -/
def leadingInt? (text : Bytes) : Option Int :=
  let text := text.dropWhile Byte.isSpace
  let isNegative := text.head? == some (byte '-')
  let unsigned := if isNegative || text.head? == some (byte '+') then text.drop 1 else text
  let digits := unsigned.takeWhile Byte.isDigit
  let magnitude : Int := Bytes.toNat 10 digits
  let value := if isNegative then -magnitude else magnitude
  if digits.isEmpty || value < -0x80000000 || 0x80000000 ≤ value then none else some value

/-- An option that stands alone. -/
inductive Flag where
  | debug | strict | collectErrors | tokens | verbose | tabs
  deriving DecidableEq, Repr

namespace Flag

def name : Flag → Bytes
  | .debug => bytes "--debug"
  | .strict => bytes "--strict"
  | .collectErrors => bytes "--collect-errors"
  | .tokens => bytes "--tokens"
  | .verbose => bytes "--verbose"
  | .tabs => bytes "--tabs"

def ofName? (text : Bytes) : Option Flag :=
  [Flag.debug, .strict, .collectErrors, .tokens, .verbose, .tabs].find? (·.name == text)

def set (settings : Settings) : Flag → Settings
  | .debug => { settings with debug := true }
  | .strict => { settings with strict := true }
  | .collectErrors => { settings with collectErrors := true }
  | .tokens => { settings with listTokens := true }
  | .verbose => { settings with verbose := true }
  | .tabs => { settings with useTabs := true }

end Flag

/-- An option whose value is the argument after it. -/
inductive ValueOption where
  | out | indent | moduleFormat | lexerMode | runtime
  deriving DecidableEq, Repr

namespace ValueOption

def names : ValueOption → List Bytes
  | .out => [bytes "--out", bytes "-o"]
  | .indent => [bytes "--indent"]
  | .moduleFormat => [bytes "--module"]
  | .lexerMode => [bytes "--lexer-mode"]
  | .runtime => [bytes "--runtime"]

def ofName? (text : Bytes) : Option ValueOption :=
  [ValueOption.out, .indent, .moduleFormat, .lexerMode, .runtime].find? (·.names.contains text)

def set (settings : Settings) (value : Bytes) : ValueOption → Except UsageError Settings
  | .out => .ok { settings with destination := .ofArgument value }
  | .indent =>
    match leadingInt? value with
    | none => .error (.notANumber value)
    | some width =>
      if width < 0 || 8 < width then .error .indentOutOfRange
      else .ok { settings with indentWidth := width.toNat }
  | .moduleFormat =>
    match ModuleFormat.ofName? value with
    | none => .error (.unknownFormat value)
    | some format => .ok { settings with format := format }
  | .lexerMode =>
    match LexerMode.ofName? value with
    | none => .error (.unknownLexerMode value)
    | some mode => .ok { settings with lexerMode := mode }
  | .runtime => .ok { settings with runtimeModule := value }

end ValueOption

/-! ## Reading arguments -/

/-- What ends the reading of arguments before there are settings to act on. -/
inductive Interruption where
  | help
  | version
  | misuse (cause : UsageError)
  deriving DecidableEq, Repr

namespace Settings

def isHelp (argument : Bytes) : Bool := argument == bytes "--help" || argument == bytes "-h"

def isVersion (argument : Bytes) : Bool := argument == bytes "--version" || argument == bytes "-v"

/-- Takes an argument that is no option known. A dash alone is an input. -/
def takeInput (settings : Settings) (argument : Bytes) : Except UsageError Settings :=
  if argument.head? == some (byte '-') && argument != bytes "-" then
    .error (.unknownOption argument)
  else if settings.input.isEmpty then .ok { settings with input := argument }
  else .error (.severalInputs argument)

/-- The settings after the arguments that are left. -/
def read (settings : Settings) : List Bytes → Except Interruption Settings
  | [] => if settings.input.isEmpty then .error (.misuse .noInput) else .ok settings
  | argument :: rest =>
    if isHelp argument then .error .help
    else if isVersion argument then .error .version
    else
      match ValueOption.ofName? argument with
      | some option =>
        match rest with
        | [] => .error (.misuse (.missingValue argument))
        | value :: rest =>
          match option.set settings value with
          | .ok settings => settings.read rest
          | .error cause => .error (.misuse cause)
      | none =>
        match Flag.ofName? argument with
        | some flag => (flag.set settings).read rest
        | none =>
          match settings.takeInput argument with
          | .ok settings => settings.read rest
          | .error cause => .error (.misuse cause)

def ofArguments (arguments : List Bytes) : Except Interruption Settings := read {} arguments

end Settings

end SignalView
