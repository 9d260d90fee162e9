import QueryPicker.CommandLine.Command
import QueryPicker.CommandLine.Directory
import QueryPicker.Document.Completion
import QueryPicker.Document.Synthesis
import QueryPicker.Exchange.SchemaCache
import QueryPicker.Picker.Basic
import QueryPicker.Sample.Variables
import QueryPicker.Text.Line
import QueryPicker.Text.Quoted

/-!
# What commands print

A command reads files and the standard input through its surroundings and yields a text to print or
the cause of its failure. A cause is reported with all that it was met in, from the outside in. A
command that draws numbers ends only if every draw of it does; if not, there is no report.
-/

namespace QueryPicker.CommandLine

structure Surroundings where
  /-- The text of a file. -/
  file : String → Except FileError String
  standardInput : String
  /-- The seed of sample variables if none is given. -/
  chance : UInt64

inductive Failure where
  | schemaUnreadable (file : String) (e : FileError)
  | schemaUndecodable (file : String) (e : DecodeError)
  | queryUnreadable (file : String) (e : FileError)
  | queryInvalid (file : String) (e : QueryText.SyntaxError)
  | selectionsInvalid (file : String) (e : QueryText.SyntaxError)
  | cannotSelect (path : FieldPath) (e : TreeError)
  | unknownRoot (name : String)

def Failure.message : Failure → String
  | .schemaUnreadable file e =>
    "Failed to read schema file " ++ Text.quoted file ++ ": " ++ e.message
  | .schemaUndecodable file e =>
    "Failed to decode introspection result in " ++ Text.quoted file ++ ": " ++ e.message
  | .queryUnreadable file e =>
    "Failed to read query file " ++ Text.quoted file ++ ": " ++ e.message
  | .queryInvalid file e =>
    Text.quoted file ++ " is not a valid query document: " ++ e.message
  | .selectionsInvalid file e =>
    "Failed to load selections from " ++ Text.quoted file ++ ": " ++ e.message
  | .cannotSelect path e => "Cannot select `" ++ path.dotted ++ "`: " ++ e.message
  | .unknownRoot name => "The schema defines no type named `" ++ name ++ "`"

namespace Surroundings

def schema (w : Surroundings) (file : String) : Except Failure Schema :=
  match w.file file with
  | .error e => .error (.schemaUnreadable file e)
  | .ok text =>
    match Introspection.decodeText text with
    | .ok s => .ok s
    | .error e => .error (.schemaUndecodable file e)

/-- Whether a file name stands for the standard input: a hyphen, even as a directory. -/
def isStandardInput (file : String) : Bool :=
  match Directory.nameParts file with
  | first :: parts => first == "-" && parts.all Directory.staysPut
  | [] => false

def queryText (w : Surroundings) (file : String) : Except Failure String :=
  if isStandardInput file then .ok w.standardInput
  else
    match w.file file with
    | .ok text => .ok text
    | .error e => .error (.queryUnreadable file e)

end Surroundings

namespace SelectionArguments

/-- Takes over the query file, if one is given. -/
def load (a : SelectionArguments) (w : Surroundings) (p : Picker) : Except Failure Picker :=
  match a.queryFile? with
  | none => .ok p
  | some file =>
    match w.queryText file with
    | .error e => .error e
    | .ok text =>
      match (p.setTextSilently text).readText with
      | (p, .ok ()) => .ok p
      | (_, .error e) => .error (.selectionsInvalid file e)

def select1 (p : Picker) (path : FieldPath) : Except Failure Picker :=
  match p.setPathState path .checked with
  | (p, .ok _) => .ok p
  | (_, .error e) => .error (.cannotSelect path e)

/-- A picker with all that is to be selected. -/
def picker (a : SelectionArguments) (w : Surroundings) : Except Failure Picker := do
  let schema ← w.schema a.schemaFile
  let p ← a.load w (.start schema a.maxDepth (.showing ""))
  a.select.foldlM select1 p

end SelectionArguments

namespace Command

def linesOf (lines : List String) : String := "\n".intercalate lines

def completions (w : Surroundings) (schemaFile queryFile : String) (cursor? : Option Nat)
    (asJson : Bool) : Except Failure String := do
  let schema ← w.schema schemaFile
  let text ← w.queryText queryFile
  let found := Completion.atCursor schema text (cursor?.getD text.utf8ByteSize)
  if asJson then return (Json.array (found.map Completion.toJson)).pretty
  else return linesOf (found.map Completion.display)

def selectedPaths (w : Surroundings) (schemaFile queryFile : String) : Except Failure String := do
  let schema ← w.schema schemaFile
  let text ← w.queryText queryFile
  match QueryText.paths schema text with
  | .ok paths => return linesOf (paths.map FieldPath.dotted)
  | .error e => .error (.queryInvalid queryFile e)

def sampleQuery (schema : Schema) (root : String) (maxDepth : Nat) : Except Failure String :=
  match schema.sampleQuery? root maxDepth with
  | some text => .ok text
  | none => .error (.unknownRoot root)

def sampleVariables? (schema : Schema) (typeName : String) (seed : UInt64) : Option String :=
  (schema.drawVariables? Random.Source.generator typeName (.ofSeed seed)).map Json.pretty

def sampleText? (w : Surroundings) (schemaFile : String) (root? : Option String) (maxDepth : Nat)
    (variables? : Option String) (seed? : Option Nat) : Option (Except Failure String) :=
  match w.schema schemaFile, variables? with
  | .error e, _ => some (.error e)
  | .ok schema, some typeName =>
    (sampleVariables? schema typeName ((seed?.map UInt64.ofNat).getD w.chance)).map .ok
  | .ok schema, none => some (sampleQuery schema (root?.getD schema.queryType) maxDepth)

/-- The tree down to a depth, with the text of the selection below it if that is asked for. -/
def outline (w : Surroundings) (selection : SelectionArguments) (expandDepth : Nat)
    (withQuery : Bool) : Except Failure String := do
  let p := (← selection.picker w).expandToDepth expandDepth
  if withQuery then return p.tree.render ++ "\n\n" ++ p.surface.text
  else return p.tree.render

/-- What a command prints, if it ends. -/
def output? (w : Surroundings) : Command → Option (Except Failure String)
  | complete schemaFile queryFile cursor? asJson =>
    some (completions w schemaFile queryFile cursor? asJson)
  | introspectionQuery asJson =>
    some (.ok (if asJson then Introspection.request.toJson.pretty else Introspection.query))
  | parse schemaFile queryFile => some (selectedPaths w schemaFile queryFile)
  | query selection => some ((selection.picker w).map fun p => p.surface.text)
  | sample schemaFile root? maxDepth variables? seed? =>
    sampleText? w schemaFile root? maxDepth variables? seed?
  | tree selection expandDepth withQuery => some (outline w selection expandDepth withQuery)

/-- The files that a command reads, the standard input apart. -/
def files : Command → List String
  | complete schemaFile queryFile _ _ => [schemaFile, queryFile]
  | introspectionQuery _ => []
  | parse schemaFile queryFile => [schemaFile, queryFile]
  | query selection => selection.schemaFile :: selection.queryFile?.toList
  | sample schemaFile _ _ _ _ => [schemaFile]
  | tree selection _ _ => selection.schemaFile :: selection.queryFile?.toList

end Command

/-- The end of a run: the exit code, what goes to the standard output, and the text that reports a
failure. -/
structure Report where
  code : Nat
  output : String
  error? : Option String
  deriving DecidableEq

namespace Report

def printed (text : String) : Report := ⟨0, text ++ "\n", none⟩

/-- The first line that is printed about a failure. Printing ends the text with a line feed. -/
def errorLine? (r : Report) : Option String :=
  r.error?.map fun text => Text.firstLine (text ++ "\n")

def programVersion : String := "graphql-explorer 0.1.0"

def usage : String :=
  "Usage: graphql-explorer [-v] " ++
    "\x7bcomplete|introspection-query|parse|query|sample|tree\x7d [OPTIONS]"

/-- Failures end in code 1. -/
def ofOutput : Except Failure String → Report
  | .ok text => printed text
  | .error e => ⟨1, "", some ("❌ " ++ e.message)⟩

/-- Words that make no command end in code 2. -/
def of? (w : Surroundings) : Option Invocation → Option Report
  | none => some ⟨2, "", none⟩
  | some .version => some (printed programVersion)
  | some .help => some (printed usage)
  | some (.run command) => (command.output? w).map ofOutput

end Report

end QueryPicker.CommandLine
