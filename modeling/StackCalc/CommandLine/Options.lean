/-
The command line.

Arguments are taken from left to right and the first one that is wrong decides; asking for
the version ends the reading at once, so nothing after it can be wrong.  An option can be
given only once.  What cannot stand together is looked at when all arguments are known.

The expression after the option for it is taken as it is, even when it looks like an
option.  Other options take a value only if it does not.
-/
import StackCalc.Report.Render

namespace StackCalc.CommandLine

/-- A form of a program that can be shown instead of running it. -/
inductive Stage where
  | tree
  | polish
  | code
deriving DecidableEq, Repr

/-- The stage of a name, which is exact. -/
def Stage.ofName? (name : String) : Option Stage :=
  if name = "ast" then some .tree
  else if name = "npn" then some .polish
  else if name = "bytecode" then some .code
  else none

/-- What the arguments ask for. -/
structure Options where
  file : Option String := none
  eval : Option String := none
  emit : Option Stage := none
  explain : Option String := none
  trace : Bool := false
  json : Bool := false
  text : Bool := false
  ansi : Bool := false
  listErrors : Bool := false
deriving DecidableEq, Repr

/-- Why the arguments lead to no run. -/
inductive Stop where
  | usage
  | version
  | help
deriving DecidableEq, Repr

namespace Options

/-- Sets an option that has a value. -/
def setOnce {α : Type} (current : Option α) (value : α) : Except Stop (Option α) :=
  match current with
  | none => .ok (some value)
  | some _ => .error .usage

/-- Sets an option that has none. -/
def setFlag (current : Bool) : Except Stop Bool :=
  if current then .error .usage else .ok true

def setFile (o : Options) (path : String) : Except Stop Options :=
  if path = "" then .error .usage
  else (setOnce o.file path).map fun file => { o with file := file }

def setEval (o : Options) (source : String) : Except Stop Options :=
  (setOnce o.eval source).map fun eval => { o with eval := eval }

def setExplain (o : Options) (code : String) : Except Stop Options :=
  (setOnce o.explain code).map fun explain => { o with explain := explain }

def setEmit (o : Options) (name : String) : Except Stop Options :=
  match Stage.ofName? name with
  | none => .error .usage
  | some stage => (setOnce o.emit stage).map fun emit => { o with emit := emit }

/-- Sets the option without a value that has the given long name. -/
def setNamed (o : Options) (name : String) : Except Stop Options :=
  if name = "trace" then (setFlag o.trace).map fun b => { o with trace := b }
  else if name = "json" then (setFlag o.json).map fun b => { o with json := b }
  else if name = "text" then (setFlag o.text).map fun b => { o with text := b }
  else if name = "ansi" then (setFlag o.ansi).map fun b => { o with ansi := b }
  else if name = "list-errors" then (setFlag o.listErrors).map fun b => { o with listErrors := b }
  else if name = "version" then .error .version
  else if name = "help" then .error .help
  else .error .usage

/-- Sets the option with a value that has the given long name. -/
def setValued (o : Options) (name value : String) : Except Stop Options :=
  if name = "eval" then o.setEval value
  else if name = "explain" then o.setExplain value
  else if name = "emit" then o.setEmit value
  else .error .usage

/-- The ways an argument can be read before the options end. -/
inductive Argument where
  | endOfOptions
  | positional (text : String)
  /-- A long option, with the value after its equals sign if it has one. -/
  | long (name : String) (value : Option String)
  /-- A short option, with the characters that stand directly after it. -/
  | short (name : Char) (rest : List Char)
deriving DecidableEq, Repr

/-- How an argument is to be read: a lone dash is no option. -/
def Argument.ofString (s : String) : Argument :=
  match s.toList with
  | '-' :: '-' :: [] => .endOfOptions
  | '-' :: '-' :: cs =>
    match cs.dropWhile (· != '=') with
    | [] => .long (String.ofList cs) none
    | _ :: value => .long (String.ofList (cs.takeWhile (· != '='))) (some (String.ofList value))
  | '-' :: c :: cs => .short c cs
  | _ => .positional s

/-- The argument cannot be the value of an option, except of the one that takes any. -/
def looksLikeOption (s : String) : Bool :=
  match s.toList with
  | '-' :: _ :: _ => true
  | _ => false

/-- The value of `-e` when it stands in the same argument: one equals sign may precede
it. -/
def attached : List Char → String
  | '=' :: cs => String.ofList cs
  | cs => String.ofList cs

/-- Reads the arguments after the end of the options. -/
def readPositional (o : Options) : List String → Except Stop Options
  | [] => .ok o
  | a :: rest => do readPositional (← o.setFile a) rest

/-- Reads arguments on top of what is known. -/
def read (o : Options) : List String → Except Stop Options
  | [] => .ok o
  | a :: rest =>
    match Argument.ofString a with
    | .endOfOptions => readPositional o rest
    | .positional path => do read (← o.setFile path) rest
    | .long name (some value) => do read (← o.setValued name value) rest
    | .long name none =>
      if name = "eval" then
        match rest with
        | [] => .error .usage
        | value :: rest => do read (← o.setEval value) rest
      else if name = "explain" ∨ name = "emit" then
        match rest with
        | [] => .error .usage
        | value :: rest =>
          if looksLikeOption value then .error .usage
          else do read (← o.setValued name value) rest
      else do read (← o.setNamed name) rest
    | .short c cs =>
      if c = 'e' then
        match cs, rest with
        | [], [] => .error .usage
        | [], value :: rest => do read (← o.setEval value) rest
        | cs, rest => do read (← o.setEval (attached cs)) rest
      else if c = 'V' then .error .version
      else if c = 'h' then .error .help
      else .error .usage

/-- The options that cannot stand together: an expression with a file, and two formats. -/
def conflicting (o : Options) : Bool :=
  (o.eval.isSome && o.file.isSome) || (o.json && o.text) || (o.json && o.ansi) || (o.text && o.ansi)

/-- The options that the arguments give. -/
def ofArguments (args : List String) : Except Stop Options := do
  let o ← read {} args
  if o.conflicting then .error .usage else .ok o

/-- The format of reports.  Without a choice, a terminal gets colour. -/
def format (o : Options) (terminal : Bool) : Format :=
  if o.json then .json
  else if o.text then .text
  else if o.ansi || terminal then .ansi
  else .text

end Options

end StackCalc.CommandLine
