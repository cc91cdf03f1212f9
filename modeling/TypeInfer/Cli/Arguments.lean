/-
The arguments of the command line. Words are read one by one, and the first fault found ends the
reading: a value is checked when the next known flag, or the end, is reached, but a word that has
no place is refused at once.
-/
import TypeInfer.Journal

namespace TypeInfer

inductive UsageError where
  | help
  | version
  | nothing
  | missingCommand
  | unknownCommand
  | missingPath
  | unknownArgument
  | conflict
  | invalidValue
  /-- A flag was given a value. -/
  | unneededValue
deriving DecidableEq, Repr, Inhabited

inductive Flag where
  | json
  | quiet
  | verbose
  | help
  | version
  | noCache
  | clearCache
  | bindings
deriving DecidableEq, Repr, Inhabited

namespace Flag

/-- The flags that may stand before and after the command. -/
def ofName? : String → Option Flag
  | "json" => some .json
  | "quiet" => some .quiet
  | "verbose" => some .verbose
  | "help" => some .help
  | _ => none

def ofLetter? : Char → Option Flag
  | 'q' => some .quiet
  | 'v' => some .verbose
  | 'h' => some .help
  | _ => none

/-- The flags that may stand before the command. -/
def before? : String → Option Flag
  | "version" => some .version
  | name => ofName? name

def beforeLetter? : Char → Option Flag
  | 'V' => some .version
  | letter => ofLetter? letter

/-- The flags that may stand after the command. -/
def after? : String → Option Flag
  | "no-cache" => some .noCache
  | "clear-cache" => some .clearCache
  | "bindings" => some .bindings
  | name => ofName? name

end Flag

inductive Word where
  /-- `--`, after which no word is a flag. -/
  | escape
  | long (name : String) (value : Option String)
  | letters (flags : List Char)
  | plain

namespace Word

/-- The name of a long flag and the value attached to it. -/
def split (cs : List Char) : Word :=
  let name := cs.takeWhile (· != '=')
  .long (String.ofList name) ((cs.drop name.length).tail?.map String.ofList)

def classify (word : String) : Word :=
  match word.toList with
  | ['-', '-'] => .escape
  | '-' :: '-' :: cs => split cs
  | '-' :: c :: cs => .letters (c :: cs)
  | _ => .plain

end Word

/-- A value that is not checked yet. -/
inductive PendingValue where
  | path (text : String)
  /-- A directory to search, or none as long as it is awaited. -/
  | dir (text : Option String)
deriving DecidableEq, Repr, Inhabited

/-- What was read so far, before or after the command. -/
structure Reading where
  flags : List Flag := []
  path : Option String := none
  dirs : List String := []
  pending : Option PendingValue := none
deriving Inhabited

namespace Reading

/-- Checks the pending value. It must not be empty. -/
def settle (r : Reading) : Except UsageError Reading :=
  match r.pending with
  | none => .ok r
  | some (.path "") | some (.dir none) | some (.dir (some "")) => .error .invalidValue
  | some (.path text) => .ok { r with path := some text, pending := none }
  | some (.dir (some text)) => .ok { r with dirs := r.dirs ++ [text], pending := none }

def awaitsDir (r : Reading) : Bool := r.pending == some (.dir none)

def hasPath (r : Reading) : Bool :=
  r.path.isSome || match r.pending with
    | some (.path _) => true
    | _ => false

/-- Sets a flag, which must not be set already. -/
def set (r : Reading) (f : Flag) : Except UsageError Reading := do
  let r ← r.settle
  match f with
  | .help => .error .help
  | .version => .error .version
  | f => if r.flags.contains f then .error .conflict else .ok { r with flags := r.flags ++ [f] }

def setNamed (r : Reading) (f : Option Flag) (value : Option String) : Except UsageError Reading :=
  match f with
  | none => .error .unknownArgument
  | some f => if value.isSome then .error .unneededValue else r.set f

/-- Sets the flags of a group of letters, one after the other. -/
def setLetters (r : Reading) (ofLetter? : Char → Option Flag) (letters : List Char) :
    Except UsageError Reading :=
  letters.foldlM (fun r c => r.setNamed (ofLetter? c) none) r

def takePath (r : Reading) (word : String) : Except UsageError Reading := do
  if r.hasPath then .error .unknownArgument
  let r ← r.settle
  return { r with pending := some (.path word) }

/-- Takes a directory to search, or starts to await it. -/
def takeDir (r : Reading) (value : Option String) : Except UsageError Reading := do
  let r ← r.settle
  let r := { r with pending := some (.dir value) }
  if value.isSome then r.settle else return r

/-- Takes a plain word: the directory that is awaited, or else the path. -/
def takeWord (r : Reading) (word : String) : Except UsageError Reading :=
  if r.awaitsDir then .ok { r with pending := some (.dir (some word)) } else r.takePath word

/-- Quiet and verbose exclude each other. -/
def conflicts (r : Reading) : Bool := r.flags.contains .quiet && r.flags.contains .verbose

/-- Reads the words after the command; `escaped` says that no word is a flag. -/
def after (r : Reading) : Bool → List String → Except UsageError Reading
  | _, [] => r.settle
  | true, word :: words => do (← r.takePath word).after true words
  | false, word :: words => do
    match Word.classify word with
    | .escape => r.after true words
    | .long "path" value => (← r.takeDir value).after false words
    | .long name value => (← r.setNamed (Flag.after? name) value).after false words
    | .letters letters => (← r.setLetters Flag.ofLetter? letters).after false words
    | .plain => (← r.takeWord word).after false words

/-- The words of `help` name a command, if there are any. -/
def helpOn : List String → UsageError
  | [] | ["analyze"] | ["help"] => .help
  | _ => .unknownCommand

/-- Reads the words up to the command and returns those after it. -/
def before (r : Reading) : Bool → List String → Except UsageError (Reading × List String)
  | _, [] => .error (if r.flags.isEmpty then .nothing else .missingCommand)
  | true, word :: _ =>
    .error (if word == "analyze" || word == "help" then .unknownArgument else .unknownCommand)
  | false, word :: words => do
    match Word.classify word with
    | .escape => r.before true words
    | .long name value => (← r.setNamed (Flag.before? name) value).before false words
    | .letters letters => (← r.setLetters Flag.beforeLetter? letters).before false words
    | .plain =>
      match word with
      | "analyze" => return (r, words)
      | "help" => .error (helpOn words)
      | _ => .error .unknownCommand

end Reading

/-- What to analyze and how to report on it. -/
structure Arguments where
  path : Path
  searchPaths : List Path := []
  noCache : Bool := false
  clearCache : Bool := false
  bindings : Bool := false
  json : Bool := false
  quiet : Bool := false
  verbose : Bool := false
deriving DecidableEq, Repr, Inhabited

namespace Arguments

/-- Reads the words of a command line, without the name of the program. -/
def parse (words : List String) : Except UsageError Arguments := do
  let (outer, rest) ← Reading.before {} false words
  let inner ← Reading.after {} false rest
  if inner.conflicts then .error .conflict
  match inner.path with
  | none => .error .missingPath
  | some path =>
    if outer.conflicts then .error .conflict
    let given (f : Flag) : Bool := inner.flags.contains f || outer.flags.contains f
    return {
      path := ⟨path⟩
      searchPaths := inner.dirs.map Path.mk
      noCache := given .noCache
      clearCache := given .clearCache
      bindings := given .bindings
      json := given .json
      quiet := given .quiet
      verbose := given .verbose }

/-- The least important level that is shown. -/
def logLevel (a : Arguments) : Level :=
  if a.quiet then .warn else if a.verbose then .debug else .info

end Arguments

end TypeInfer
