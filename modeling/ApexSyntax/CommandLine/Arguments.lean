-- The arguments of the command line. They are read from left to right; the first
-- fault ends the reading, but a value that an option waits for, and an option that
-- is given twice, is only found out when the next argument is understood.
namespace ApexSyntax.CommandLine

/-! ## Commands -/

structure CheckOptions where
  path : Option String := none
  extensions : List String := []
  output : Option String := none
  noProject : Bool := false
  quiet : Bool := false
  deriving DecidableEq, Repr

inductive Command where
  | version
  | check (options : CheckOptions)
  deriving DecidableEq, Repr

/-- Why there is no command to run. -/
inductive NoCommand where
  /-- Help was asked for. -/
  | help
  /-- The version of the program was asked for. -/
  | version
  /-- There are no arguments, so help is shown. -/
  | helpInstead
  | unknownArgument
  | unknownCommand
  | missingValue
  /-- An option that may be given once was given again. -/
  | repeated
  /-- A flag was given a value. -/
  | valueForFlag
  deriving DecidableEq, Repr

/-- Asking for help or the version is no fault. -/
def NoCommand.exitCode : NoCommand → Nat
  | help => 0
  | version => 0
  | _ => 2

/-! ## The form of an argument -/

inductive Form where
  /-- Two dashes: all that follows are plain values. -/
  | endOfOptions
  /-- A name behind two dashes, with the value behind its equals sign. -/
  | long (name : String) (value : Option String)
  /-- The first letter behind one dash. -/
  | short (letter : Char)
  | plain (text : String)
  deriving DecidableEq, Repr

def formOf (arg : String) : Form :=
  match arg.toList with
  | ['-', '-'] => .endOfOptions
  | '-' :: '-' :: rest =>
    let name := String.ofList (rest.takeWhile (· ≠ '='))
    match rest.dropWhile (· ≠ '=') with
    | [] => .long name none
    | _ :: value => .long name (some (String.ofList value))
  | '-' :: letter :: _ => .short letter
  | _ => .plain arg

/-- A flag that is given without a value. -/
def withoutValue (value : Option String) (reading : Except NoCommand α) :
    Except NoCommand α :=
  if value.isSome then .error .valueForFlag else reading

/-! ## The arguments of a check -/

/-- The options that take a value. -/
inductive ValueOption where
  | extensions
  | output
  deriving DecidableEq, Repr

/-- The options so far, and an option that waits to be settled, with its value if
that was read. -/
structure Reading where
  options : CheckOptions := {}
  waiting : Option (ValueOption × Option String) := none
  deriving DecidableEq, Repr

namespace Reading

/-- The items between commas. -/
def splitAtCommas : List Char → List (List Char)
  | [] => [[]]
  | c :: rest =>
    if c = ',' then [] :: splitAtCommas rest
    else
      match splitAtCommas rest with
      | [] => [[c]]
      | item :: items => (c :: item) :: items

/-- Gives an option its value. Extensions add up; there is one output. -/
def assign (o : CheckOptions) (option : ValueOption) (value : String) :
    Except NoCommand CheckOptions :=
  match option with
  | .extensions =>
    .ok { o with extensions :=
      o.extensions ++ (splitAtCommas value.toList).map String.ofList }
  | .output => if o.output.isSome then .error .repeated else .ok { o with output := some value }

/-- The options with the waiting one settled. -/
def settle (r : Reading) : Except NoCommand CheckOptions :=
  match r.waiting with
  | none => .ok r.options
  | some (_, none) => .error .missingValue
  | some (option, some value) => assign r.options option value

def setFlag (isSet : Bool) (o : CheckOptions) : Except NoCommand CheckOptions :=
  if isSet then .error .repeated else .ok o

/-- Reads a value that belongs to no option: the path. -/
def plainValue (r : Reading) (text : String) : Except NoCommand Reading :=
  if r.options.path.isSome then .error .unknownArgument
  else r.settle.map fun o => { options := { o with path := some text } }

def valueOption (r : Reading) (option : ValueOption) : Option String → Except NoCommand Reading
  | none => r.settle.map fun o => { options := o, waiting := some (option, none) }
  | some value => r.settle.bind fun o => (assign o option value).map fun o => { options := o }

/-- Reads an argument that is no end of options. -/
def next (r : Reading) : Form → Except NoCommand Reading
  | .long "help" value => withoutValue value (r.settle.bind fun _ => .error .help)
  | .long "quiet" value =>
    withoutValue value <| r.settle.bind fun o =>
      (setFlag o.quiet { o with quiet := true }).map fun o => { options := o }
  | .long "no-project" value =>
    withoutValue value <| r.settle.bind fun o =>
      (setFlag o.noProject { o with noProject := true }).map fun o => { options := o }
  | .long "ext" value => r.valueOption .extensions value
  | .long "output" value => r.valueOption .output value
  | .long _ _ => .error .unknownArgument
  | .short 'h' => r.settle.bind fun _ => .error .help
  | .short _ => .error .unknownArgument
  | .plain text =>
    match r.waiting with
    | some (option, none) => .ok { r with waiting := some (option, some text) }
    | _ => r.plainValue text
  | .endOfOptions => .ok r

/-- Reads the arguments behind the end of options. -/
def plainValues (r : Reading) : List String → Except NoCommand CheckOptions
  | [] => r.settle
  | arg :: rest => (r.plainValue arg).bind fun r => r.plainValues rest

def all (r : Reading) : List String → Except NoCommand CheckOptions
  | [] => r.settle
  | arg :: rest =>
    match formOf arg with
    | .endOfOptions => r.plainValues rest
    | form => (r.next form).bind fun r => r.all rest

end Reading

/-! ## The first argument -/

/-- The names of the commands. -/
def commandNames : List String := ["version", "check", "help"]

/-- Help on a command: at most one name follows. -/
def helpOn : List String → NoCommand
  | [] => .help
  | [name] => if commandNames.contains name then .help else .unknownCommand
  | _ => .unknownCommand

/-- The version command takes no arguments. -/
def versionArguments : List String → Except NoCommand Command
  | [] => .ok .version
  | arg :: rest =>
    match formOf arg with
    | .endOfOptions => if rest = [] then .ok .version else .error .unknownArgument
    | .long "help" value => withoutValue value (.error .help)
    | .short 'h' => .error .help
    | _ => .error .unknownArgument

/-- The command of some arguments. -/
def parse : List String → Except NoCommand Command
  | [] => .error .helpInstead
  | "version" :: rest => versionArguments rest
  | "check" :: rest => (Reading.all {} rest).map .check
  | "help" :: rest => .error (helpOn rest)
  | arg :: rest =>
    match formOf arg with
    | .endOfOptions =>
      match rest with
      | [] => .error .helpInstead
      | name :: _ =>
        .error (if commandNames.contains name then .unknownArgument else .unknownCommand)
    | .long "help" value => withoutValue value (.error .help)
    | .long "version" value => withoutValue value (.error .version)
    | .long _ _ => .error .unknownArgument
    | .short 'h' => .error .help
    | .short 'V' => .error .version
    | .short _ => .error .unknownArgument
    | .plain _ => .error .unknownCommand

end ApexSyntax.CommandLine
