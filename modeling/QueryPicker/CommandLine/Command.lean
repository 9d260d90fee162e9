import QueryPicker.CommandLine.Options
import QueryPicker.FieldPath
import QueryPicker.Tree.Basic

/-!
# Commands

What a command line asks for. Words that make no command are a usage error and nothing more is said
about them.
-/

namespace QueryPicker.CommandLine

/-- What to select: the paths of a query file, and then single paths. -/
structure SelectionArguments where
  schemaFile : String
  maxDepth : Nat
  queryFile? : Option String
  select : List FieldPath

inductive Command where
  | complete (schemaFile queryFile : String) (cursor? : Option Nat) (asJson : Bool)
  | introspectionQuery (asJson : Bool)
  | parse (schemaFile queryFile : String)
  | query (selection : SelectionArguments)
  | sample (schemaFile : String) (root? : Option String) (maxDepth : Nat)
      (variables? : Option String) (seed? : Option Nat)
  | tree (selection : SelectionArguments) (expandDepth : Nat) (withQuery : Bool)

inductive Invocation where
  | run (command : Command)
  | version
  | help

/-- A number of at most 64 bits, with or without a plus sign. -/
def count? (s : String) : Option Nat :=
  let digits := match s.toList with
    | '+' :: cs => cs
    | cs => cs
  if digits.isEmpty || !digits.all Char.isDigit then none
  else
    let n := digits.foldl (fun n c => n * 10 + (c.toNat - 48)) 0
    if n < UInt64.size then some n else none

/-- The name of a file is not empty. -/
def fileName? (s : String) : Option String := if s.isEmpty then none else some s

def fieldPath? (s : String) : Option FieldPath :=
  match FieldPath.parse s with
  | .ok p => some p
  | .error _ => none

/-- Paths separated by commas. -/
def fieldPaths? (s : String) : Option (List FieldPath) :=
  (Text.splitAt ',' s.toList).mapM fun part => fieldPath? (String.ofList part)

namespace Given

/-- An option that may be missing; a value that cannot be read is an error. -/
def read? {α : Type} (g : Given) (name : String) (read : String → Option α) :
    Option (Option α) :=
  match g.value? name with
  | none => some none
  | some value => (read value).map some

def schemaFile? (g : Given) : Option String := (g.value? "schema").bind fileName?

/-- The only plain word. -/
def queryFile? (g : Given) : Option String :=
  match g.words with
  | [word] => fileName? word
  | _ => none

def noWords? (g : Given) : Option Unit := if g.words.isEmpty then some () else none

end Given

def schemaSpec : OptionSpec := ⟨"schema", some 's', .once⟩

def valueSpec (name : String) : OptionSpec := ⟨name, none, .once⟩

def flagSpec (name : String) : OptionSpec := ⟨name, none, .flag⟩

def selectionSpecs : List OptionSpec :=
  [schemaSpec, valueSpec "max-depth", valueSpec "query-file", ⟨"select", none, .repeated⟩]

def SelectionArguments.ofGiven? (g : Given) : Option SelectionArguments := do
  let schemaFile ← g.schemaFile?
  let maxDepth? ← g.read? "max-depth" count?
  let queryFile? ← g.read? "query-file" fileName?
  let select ← (g.values "select").mapM fieldPaths?
  g.noWords?
  return {
    schemaFile
    maxDepth := maxDepth?.getD SelectionTree.defaultMaxDepth
    queryFile?
    select := select.flatten }

def sampleDepth : Nat := 2

def shownDepth : Nat := 3

namespace Command

def complete? (words : List String) : Option Command := do
  let g ← Given.ofWords? [schemaSpec, valueSpec "cursor", flagSpec "json"] words
  return complete (← g.schemaFile?) (← g.queryFile?) (← g.read? "cursor" count?) (g.hasFlag "json")

def introspectionQuery? (words : List String) : Option Command := do
  let g ← Given.ofWords? [flagSpec "json"] words
  g.noWords?
  return introspectionQuery (g.hasFlag "json")

def parse? (words : List String) : Option Command := do
  let g ← Given.ofWords? [schemaSpec] words
  return parse (← g.schemaFile?) (← g.queryFile?)

def query? (words : List String) : Option Command := do
  let g ← Given.ofWords? selectionSpecs words
  return query (← SelectionArguments.ofGiven? g)

def sample? (words : List String) : Option Command := do
  let g ← Given.ofWords? [schemaSpec, valueSpec "root", valueSpec "max-depth",
    valueSpec "variables", valueSpec "seed"] words
  let maxDepth? ← g.read? "max-depth" count?
  g.noWords?
  return sample (← g.schemaFile?) (g.value? "root") (maxDepth?.getD sampleDepth)
    (g.value? "variables") (← g.read? "seed" count?)

def tree? (words : List String) : Option Command := do
  let g ← Given.ofWords? (selectionSpecs ++ [valueSpec "expand-depth", flagSpec "with-query"])
    words
  let expandDepth? ← g.read? "expand-depth" count?
  return tree (← SelectionArguments.ofGiven? g) (expandDepth?.getD shownDepth)
    (g.hasFlag "with-query")

def names : List String := ["complete", "introspection-query", "parse", "query", "sample", "tree"]

def ofWords? (name : String) (words : List String) : Option Command :=
  match name with
  | "complete" => complete? words
  | "introspection-query" => introspectionQuery? words
  | "parse" => parse? words
  | "query" => query? words
  | "sample" => sample? words
  | "tree" => tree? words
  | _ => none

end Command

namespace Invocation

/-- Options in front of the command. `verbose` is given at most once, and `version` is answered as
soon as it is met. -/
inductive Front where
  | goOn (verbose : Bool)
  | answer (i : Invocation)
  | refuse

def frontOption (verbose : Bool) (name : String) : Front :=
  match name with
  | "verbose" => if verbose then .refuse else .goOn true
  | "version" => .answer .version
  | "help" => .answer .help
  | _ => .refuse

def frontLetter (c : Char) : String :=
  match c with
  | 'v' => "verbose"
  | 'V' => "version"
  | 'h' => "help"
  | _ => ""

def frontLetters (verbose : Bool) : List Char → Front
  | [] => .goOn verbose
  | c :: cs =>
    match frontOption verbose (frontLetter c) with
    | .goOn verbose => frontLetters verbose cs
    | front => front

def frontWord (verbose : Bool) (word : String) : Front :=
  match word.toList with
  | '-' :: '-' :: cs => frontOption verbose (String.ofList cs)
  | _ :: cs => frontLetters verbose cs
  | [] => .refuse

/-- Help is given on the whole, on one command, or on itself. -/
def helpOn? : List String → Option Invocation
  | [] => some .help
  | [topic] => if topic = "help" || Command.names.contains topic then some .help else none
  | _ => none

def ofWordsAfter? (verbose : Bool) : List String → Option Invocation
  | [] => some .help
  | ["--"] => some .help
  | word :: rest =>
    if Item.looksLikeOption word then
      match frontWord verbose word with
      | .goOn verbose => ofWordsAfter? verbose rest
      | .answer i => some i
      | .refuse => none
    else if word = "help" then helpOn? rest
    else (Command.ofWords? word rest).map .run

/-- Reads a command line, without the name of the program. -/
def ofWords? (words : List String) : Option Invocation := ofWordsAfter? false words

end Invocation

end QueryPicker.CommandLine
