/-!
# Options on a command line

Options have a long name, some also a letter; a flag stands alone, other options take a value. The
value follows in the same word, after an equals sign or right after a letter, or in the next word,
which then may not look like an option. A lone hyphen is a word like any other, and after a lone
double hyphen all words are. Only options that may be repeated are given more than once.
-/

namespace QueryPicker.CommandLine

inductive OptionUse where
  | flag
  | once
  | repeated
  deriving DecidableEq

structure OptionSpec where
  name : String
  letter? : Option Char
  takes : OptionUse

/-- An option or a plain word, as given. A flag has no value. -/
inductive Item where
  | option (name : String) (value? : Option String)
  | plain (value : String)
  deriving DecidableEq

namespace Item

def looksLikeOption (word : String) : Bool :=
  word.startsWith "-" && word != "-"

/-- Splits at the first equals sign. -/
def splitValue (cs : List Char) : String × Option String :=
  let name := String.ofList (cs.takeWhile (· != '='))
  match cs.dropWhile (· != '=') with
  | [] => (name, none)
  | _ :: value => (name, some (String.ofList value))

/-- The next word as a value, if it is no option. -/
def nextValue? : List String → Option (String × List String)
  | [] => none
  | word :: rest => if looksLikeOption word then none else some (word, rest)

/-- An option with a value that may have been attached to it. -/
def withValue? (spec : OptionSpec) (attached? : Option String) (rest : List String) :
    Option (Item × List String) :=
  match spec.takes, attached? with
  | .flag, none => some (.option spec.name none, rest)
  | .flag, some _ => none
  | _, some value => some (.option spec.name (some value), rest)
  | _, none => (nextValue? rest).map fun (value, rest) => (.option spec.name (some value), rest)

/-- Letters behind a hyphen: flags, up to an option that takes what is left as its value. -/
def ofLetters? (specs : List OptionSpec) (rest : List String) :
    List Char → Option (List Item × List String)
  | [] => some ([], rest)
  | c :: cs => do
    let spec ← specs.find? (·.letter? == some c)
    if spec.takes = .flag then
      let (items, rest) ← ofLetters? specs rest cs
      return (.option spec.name none :: items, rest)
    else
      let attached? := match cs with
        | [] => none
        | '=' :: value => some (String.ofList value)
        | value => some (String.ofList value)
      let (item, rest) ← withValue? spec attached? rest
      return ([item], rest)

/-- The items at the front of a list of words. -/
def ofWord? (specs : List OptionSpec) (word : String) (rest : List String) :
    Option (List Item × List String) :=
  match word.toList with
  | '-' :: '-' :: cs => do
    let (name, attached?) := splitValue cs
    let spec ← specs.find? (·.name == name)
    let (item, rest) ← withValue? spec attached? rest
    return ([item], rest)
  | ['-'] => some ([.plain word], rest)
  | '-' :: cs => ofLetters? specs rest cs
  | _ => some ([.plain word], rest)

/-- The items of at most so many words. -/
def ofWordsWithin? (specs : List OptionSpec) : Nat → List String → Option (List Item)
  | _, [] => some []
  | 0, _ => none
  | words + 1, word :: rest =>
    if word = "--" then some (rest.map .plain)
    else do
      let (items, rest) ← ofWord? specs word rest
      return items ++ (← ofWordsWithin? specs words rest)

def ofWords? (specs : List OptionSpec) (words : List String) : Option (List Item) :=
  ofWordsWithin? specs words.length words

end Item

/-- What was given: options in order, and plain words in order. -/
structure Given where
  options : List (String × Option String)
  words : List String

namespace Given

def values (g : Given) (name : String) : List String :=
  g.options.filterMap fun (n, value?) => if n = name then value? else none

def value? (g : Given) (name : String) : Option String := (g.values name).head?

def hasFlag (g : Given) (name : String) : Bool := g.options.any (·.1 == name)

def ofItems (items : List Item) : Given where
  options := items.filterMap fun
    | .option name value? => some (name, value?)
    | .plain _ => none
  words := items.filterMap fun
    | .plain value => some value
    | .option .. => none

/-- Whether no option is given more often than it may be. -/
def respects (specs : List OptionSpec) (g : Given) : Bool :=
  specs.all fun spec =>
    spec.takes == .repeated || decide (g.options.countP (·.1 == spec.name) ≤ 1)

def ofWords? (specs : List OptionSpec) (words : List String) : Option Given := do
  let g := ofItems (← Item.ofWords? specs words)
  if g.respects specs then some g else none

end Given

end QueryPicker.CommandLine
