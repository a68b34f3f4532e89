/-! # Options of the command line -/

namespace Script

/-- What the command line asks for: a script to run, or a conversation if there is none. -/
structure Options where
  script : Option String := none
  debug : Bool := false
  verbose : Bool := false
deriving DecidableEq, Repr

/-- Why a command line gives no options: it is wrong in some way, or asks for a text only. -/
inductive OptionsError where
  | unknownArgument
  | repeatedFlag
  | unneededValue
  | emptyScript
  | help
  | version
deriving DecidableEq, Repr

namespace OptionsError

/-- What the program tells its caller. -/
def exitCode : OptionsError → Nat
  | help | version => 0
  | _ => 2

end OptionsError

inductive Flag where
  | debug
  | verbose
  | help
  | version
deriving DecidableEq, Repr

namespace Flag

def ofLetter? : Char → Option Flag
  | 'd' => some debug
  | 'v' => some verbose
  | 'h' => some help
  | 'V' => some version
  | _ => none

def ofWord? : String → Option Flag
  | "debug" => some debug
  | "verbose" => some verbose
  | "help" => some help
  | "version" => some version
  | _ => none

end Flag

namespace Options

/-- The name of the script is looked at when the next flag is taken, and at the end. -/
def settle (o : Options) : Except OptionsError Options :=
  if o.script == some "" then .error .emptyScript else .ok o

/-- Takes a flag, which can be given only once. -/
def take (o : Options) (flag : Flag) : Except OptionsError Options := do
  let o ← o.settle
  match flag with
  | .debug => if o.debug then .error .repeatedFlag else .ok { o with debug := true }
  | .verbose => if o.verbose then .error .repeatedFlag else .ok { o with verbose := true }
  | .help => .error .help
  | .version => .error .version

/-- Takes flags that are written as letters after one dash. -/
def takeLetters (o : Options) (letters : List Char) : Except OptionsError Options :=
  letters.foldlM (fun o c =>
    match Flag.ofLetter? c with
    | some flag => o.take flag
    | none => .error .unknownArgument) o

/-- Takes a flag that is written as a word after two dashes. No flag has a value. -/
def takeWord (o : Options) (word : List Char) : Except OptionsError Options :=
  match Flag.ofWord? (String.ofList (word.takeWhile (· != '='))) with
  | some flag => if word.contains '=' then .error .unneededValue else o.take flag
  | none => .error .unknownArgument

/-- Takes the name of the script, of which there is at most one. -/
def takeScript (o : Options) (name : String) : Except OptionsError Options :=
  match o.script with
  | some _ => .error .unknownArgument
  | none => .ok { o with script := some name }

/-- Reads arguments from left to right. After two dashes alone, and only then, `plain` holds and
dashes mean nothing. -/
def readFrom (o : Options) (plain : Bool) : List String → Except OptionsError Options
  | [] => o.settle
  | arg :: rest =>
    if plain then do (← o.takeScript arg).readFrom true rest
    else
      match arg.toList with
      | ['-', '-'] => o.readFrom true rest
      | '-' :: '-' :: word => do (← o.takeWord word).readFrom false rest
      | '-' :: c :: letters => do (← o.takeLetters (c :: letters)).readFrom false rest
      | _ => do (← o.takeScript arg).readFrom false rest

/-- Reads a command line. -/
def read (args : List String) : Except OptionsError Options := ({} : Options).readFrom false args

end Options

end Script
