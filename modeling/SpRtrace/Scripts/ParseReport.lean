/-
SpRtrace.Scripts.ParseReport — the report parser of
`scripts/rtrace-calltree`, `Rtrace.parse`.

The parser goes through the report line by line. Allocations with the same
backtrace stand behind one another in a compressed report, with the
backtrace behind the last of them, so sizes are collected until a line says
that a new backtrace begins. Then they are passed to the graph, and once
more at the end of the report.

Here the parser collects the updates of the graph, and `parse` runs them. A
pattern of `re` is the list of its matches, in the order in which they are
tried. What is only printed (`progress`, the process information of the
first line) is left out.
-/
import SpRtrace.Common.RtraceData
import SpRtrace.Lib.Stdio
import SpRtrace.Scripts.CallTree

namespace SpRtrace.Scripts

open SpRtrace.Lib SpRtrace.Common

/-! ## Strings -/

/-- `text.find(part)`. -/
def findPart (part text : Str) : Option Nat :=
  (List.range (text.length + 1)).find? fun pos => part.isPrefixOf (text.drop pos)

/-- `text.rfind(part)`. -/
def rfindPart (part text : Str) : Option Nat :=
  (List.range (text.length + 1)).reverse.find? fun pos => part.isPrefixOf (text.drop pos)

/-- `text.strip()`. -/
def strip (text : Str) : Str := (text.dropWhile isSpace).rdropWhile isSpace

/-- The lines of a file, with the newlines. -/
def fileLines : Str → List Str
  | [] => []
  | c :: text =>
      if c = '\n' then [c] :: fileLines text
      else match fileLines text with
        | [] => [[c]]
        | line :: lines => (c :: line) :: lines

/-! ## Patterns -/

/-- `part`: what is behind it. -/
def lit (part text : Str) : List Str :=
  if part.isPrefixOf text then [text.drop part.length] else []

/-- `[p]+`: what it can take and what is behind, longest first. -/
def many1 (p : Char → Bool) : Str → List (Str × Str)
  | [] => []
  | c :: text =>
      if p c then (many1 p text).map (fun (taken, rest) => (c :: taken, rest)) ++ [([c], text)]
      else []

/-- `[p]*`. -/
def many (p : Char → Bool) (text : Str) : List (Str × Str) := many1 p text ++ [([], text)]

/-- `[0-9]`. -/
def isDigit (c : Char) : Bool := isDigitOf 10 c

/-- `[0-9a-fA-F]`. -/
def isHexDigit (c : Char) : Bool := isDigitOf 16 c

/-- `0x[a-fA-F0-9]+`. -/
def hexNumber (text : Str) : List (Str × Str) := do
  let text ← lit ['0', 'x'] text
  many1 isHexDigit text

/-- `[a-zA-Z_].+`. -/
def functionName : Str → List (Str × Str)
  | [] => []
  | c :: text =>
      if c.isAlpha || c = '_' then
        (many1 (· ≠ '\n') text).map fun (taken, rest) => (c :: taken, rest)
      else []

/-- What is behind the head of a record,
`[0-9]+\.( @[0-9a-fA-F]+|)( \[[^]]+\]|) `. -/
def recordHead (line : Str) : List Str := do
  let (_, text) ← many1 isDigit line
  let text ← lit ['.'] text
  let text ← (do
    let text ← lit [' ', '@'] text
    (many1 isHexDigit text).map Prod.snd) ++ [text]
  let text ← (do
    let text ← lit [' ', '['] text
    let (_, text) ← many1 (· ≠ ']') text
    lit [']'] text) ++ [text]
  lit [' '] text

/-- `alloc_pattern`: function, size and address. -/
def allocPattern (line : Str) : Option (Str × Str × Str) := List.head? do
  let text ← recordHead line
  let (name, text) ← functionName text
  let text ← lit ['('] text
  let (size, text) ← many1 isDigit text
  let text ← lit [')', ' ', '=', ' '] text
  let (addr, _) ← hexNumber text
  pure (name, size, addr)

/-- `free_pattern`: function and address. -/
def freePattern (line : Str) : Option (Str × Str) := List.head? do
  let text ← recordHead line
  let (name, text) ← functionName text
  let text ← lit ['('] text
  let (addr, text) ← hexNumber text
  let _ ← lit [')'] text
  pure (name, addr)

/-- `gdb_src_pattern`: source file and line. -/
def gdbSrcPattern (line : Str) : Option (Str × Str) := List.head? do
  let (_, text) ← many (· ≠ '\n') line
  let text ← lit " at ".toList text
  let (src, text) ← many1 (· ≠ ':') text
  let text ← lit [':'] text
  let (linenro, text) ← many1 isDigit text
  if text = [] ∨ text = ['\n'] then pure (src, linenro) else []

/-! ## Lines -/

/-- How the script ends before the report does: with a message of its own,
or with an exception. -/
inductive ParseError
  | exit (message : Str)
  | unboundLocal
  | index
  deriving DecidableEq

def libnameStrip (libname : Str) : Str :=
  let pos1 := match rfindPart ['/'] libname with
    | some pos => pos + 1
    | none => if " from ".toList.isPrefixOf libname then 6 else 0
  match rfindPart ".so".toList libname with
  | some (pos2 + 1) => (libname.take (pos2 + 1)).drop pos1
  | _ => strip (libname.drop pos1)

/-- Where a function is: in a library or in a source file. -/
inductive Place
  | lib (name : Str)
  | src (name linenro : Str)
  | unknown

/-- The node name of a function, at the end of `trace_strip`. -/
def nodeName (joins : List Str) (fn : Str) (place : Place) : Str :=
  let fn := strip fn
  let name := fn.takeWhile (· ≠ '(')
  if fn ≠ [] ∧ name ∈ joins then name ++ ['(', ')']
  else
    let fn := if fn ≠ [] then fn else ['(', ')']
    match place with
    | .lib (c :: lib) => fn ++ " in ".toList ++ c :: lib
    | .src (c :: src) linenro => fn ++ " at ".toList ++ c :: src ++ ':' :: linenro
    | _ => fn

def traceStrip (joins : List Str) (line : Str) : Except ParseError (Option Str) :=
  match findPart [' '] line with
  | none => .ok none
  | some 0 => .ok none
  | some pos =>
      let line := line.drop pos
      match findPart " from ".toList line with
      | some 0 => .ok (some (libnameStrip line))
      | some pos =>
          let lib := libnameStrip (line.drop pos)
          if lib ∈ joins then .ok (some lib)
          else .ok (some (nodeName joins (line.take pos) (.lib lib)))
      | none =>
          match findPart " at ".toList line with
          | none => .ok (some (nodeName joins line .unknown))
          | some pos => do
              let (src, linenro) ←
                if ':' ∈ line.drop pos then
                  match gdbSrcPattern line with
                  | some place => .ok place
                  | none => .error (.exit
                      ("line containing ' at ' doesn't match <src>:<line>:\n'".toList ++ line
                        ++ "'\n".toList))
                else .ok (strip (line.drop (pos + 4)), [])
              if src ∈ joins then .ok (some src)
              else .ok (some (nodeName joins (line.take pos) (.src src linenro)))

def getNameSizeAddr (line : Str) : Except ParseError (Str × Int × Int) :=
  match allocPattern line with
  | some (name, size, addr) => .ok (name, digitsValue 10 size, digitsValue 16 addr)
  | none =>
      match freePattern line with
      | some (name, addr) => .ok (name, -1, digitsValue 16 addr)
      | none => .error (.exit ("this alloc/free line doesn't match the patterns:\n".toList ++ line))

/-! ## Options -/

/-- The options that `parse` reads. -/
structure Options where
  includeFuns : List Str
  includeArgs : List Str
  ignore : List Str
  ignoreMiddle : List Str
  noignore : List Str
  stop : List Str
  joins : List Str
  sizeMin : Int
  sizeMax : Int
  showArgs : Bool
  onlyCounts : Bool

/-- The defaults, apart from the size range. -/
def Options.ranged (sizeMin sizeMax : Int) : Options :=
  { includeFuns := [], includeArgs := [], ignore := [], ignoreMiddle := [], noignore := []
    stop := [], joins := [], sizeMin, sizeMax, showArgs := false, onlyCounts := false }

def Options.default : Options := .ranged 0 0x7fffffff

/-- Whether the line starts with one of the options. -/
def startsWith (funs : List Str) (line : Str) : Bool := funs.any (·.isPrefixOf line)

/-- `Rtrace.ignore`. -/
def Options.ignores (options : Options) (line : Str) : Bool :=
  if startsWith options.ignore line then !startsWith options.noignore line
  else if options.ignoreMiddle.any (fun part => (findPart part line).isSome) then
    !startsWith options.noignore line
  else false

/-! ## Parsing -/

/-- The variables of `parse`, and the updates of the graph. -/
structure ParseState where
  top : Int
  nonames : Nat
  ignores : Nat
  ignored : Nat
  trace : List Str
  sizes : List Int
  argsfun : Option Str
  argsizes : List (List Int)
  argvalues : List (List Str)
  argkeys : List (Str × Nat)
  name : Str
  skip : Bool
  stack : Bool
  included : Bool
  updates : List (Update Str)

def ParseState.init : ParseState :=
  { top := 0, nonames := 0, ignores := 0, ignored := 0, trace := [], sizes := [], argsfun := none
    argsizes := [], argvalues := [], argkeys := [], name := [], skip := false, stack := false
    included := false, updates := [] }

/-- `zip(*lists)`. -/
def zipAll (lists : List (List Str)) : List (List Str) :=
  (List.range ((lists.map List.length).min?.getD 0)).map fun idx => lists.filterMap (·[idx]?)

/-- The name of a function without the traced type. -/
def withoutType (argsfun : Str) : Except ParseError Str :=
  match argsfun.getLast? with
  | none => .error .index
  | some c =>
      if c = '>' then
        match findPart ['<'] argsfun with
        | some pos => .ok (argsfun.take pos)
        | none => .ok argsfun.dropLast
      else .ok argsfun

def updateArgs (trace : List Str) (argsfun : Str) (argvalues : List (List Str))
    (argsizes : List (List Int)) : Except ParseError (List (Update Str)) := do
  let argsfun ← withoutType argsfun
  (zipAll argvalues).zipIdx.mapM fun (arglist, idx) =>
    match argsizes[idx]? with
    | none => .error .index
    | some sizes =>
        let fn := argsfun ++ '<' :: [',', ' '].intercalate arglist ++ ['>']
        .ok { trace := fn :: trace, sizes, address := 0 }

/-- Whether the backtrace is marked for inclusion, or all are. -/
def ParseState.isIncluded (options : Options) (st : ParseState) : Bool :=
  st.included || (options.includeFuns.isEmpty && options.includeArgs.isEmpty)

/-- The update of the graph with what has been collected. -/
def ParseState.update (st : ParseState) : Except ParseError ParseState :=
  if st.argkeys ≠ [] then
    match st.argsfun with
    | none => .error .unboundLocal
    | some argsfun => do
        let updates ← updateArgs st.trace argsfun st.argvalues (st.argsizes ++ [st.sizes])
        .ok { st with updates := st.updates ++ updates }
  else
    let update : Update Str := { trace := st.trace, sizes := st.sizes, address := st.top }
    .ok { st with updates := st.updates ++ [update] }

/-- What a new backtrace does with the previous one. -/
def ParseState.flush (options : Options) (st : ParseState) : Except ParseError ParseState :=
  if (st.sizes ≠ [] ∨ st.argsizes ≠ []) ∧ st.isIncluded options then do
    let st ← st.update
    .ok { st with ignores := st.ignores + st.ignored }
  else
    .ok { st with
      ignores := st.ignores + if st.ignored ≠ 0 then st.ignored else st.sizes.length }

/-- The variables for a new backtrace of `name`. -/
def ParseState.newTrace (options : Options) (name : Str) (st : ParseState) : ParseState :=
  { st with
    argsfun := some name, argsizes := [], argvalues := [], argkeys := []
    ignored := if options.ignores name then 1 else 0
    trace := if options.ignores name then [] else [name]
    sizes := [], top := 0, skip := false, stack := false
    included := startsWith options.includeFuns name }

/-- The size and the address of an allocation. -/
def ParseState.addSize (options : Options) (size addr : Int) (st : ParseState) : ParseState :=
  { st with
    sizes :=
      if options.sizeMin ≤ size ∧ size ≤ options.sizeMax then
        st.sizes ++ [if options.onlyCounts then 1 else size]
      else st.sizes
    top := if st.top < addr then addr else st.top }

/-- A line with an allocation or a free. The backtrace of the previous one
can be missing, so another name is the start of a new backtrace, too. -/
def parseRecord (options : Options) (st : ParseState) (line : Str) :
    Except ParseError ParseState := do
  let (name, size, addr) ← getNameSizeAddr line
  if st.stack ∨ name ≠ st.name then
    let st ← { st with name }.flush options
    .ok ((st.newTrace options name).addSize options size addr)
  else if st.argkeys ≠ [] then
    .ok ({ st with argsizes := st.argsizes ++ [st.sizes], sizes := [] }.addSize options size addr)
  else .ok (st.addSize options size addr)

def parseFrame (options : Options) (st : ParseState) (line : Str) :
    Except ParseError ParseState :=
  if st.skip then .ok { st with ignored := st.ignored + 1 }
  else do
    match ← traceStrip options.joins line with
    | none => .ok { st with nonames := st.nonames + 1 }
    | some [] => .ok { st with nonames := st.nonames + 1 }
    | some (c :: fn) =>
        let line := c :: fn
        if options.ignores line then .ok { st with ignored := st.ignored + 1 }
        else
          .ok { st with
            ignored := if startsWith options.stop line then st.ignored + 1 else st.ignored
            skip := startsWith options.stop line
            included := st.included || startsWith options.includeFuns line
            trace := st.trace ++ [line], stack := true }

/-- A line with an argument of the traced function. -/
def parseArg (options : Options) (st : ParseState) (line : Str) : Except ParseError ParseState :=
  match (findPart [' ', '=', ' '] line).filter (4 ≤ ·) with
  | none => .error (.exit
      ("line doesn't match traced function argument pattern:\n".toList ++ line))
  | some pos =>
      let key := strip ((line.take pos).drop 2)
      let val := strip (line.drop (pos + 3))
      if val = [] then .ok st
      else
        let st := match st.argkeys.lookup key with
          | some idx => { st with argvalues := st.argvalues.modify idx (· ++ [val]) }
          | none => { st with
              argkeys := st.argkeys ++ [(key, st.argvalues.length)]
              argvalues := st.argvalues ++ [[val]] }
        .ok { st with
          included := st.included
            || options.includeArgs.any fun part => (findPart part val).isSome
          trace := if st.trace ≠ [] ∧ !st.stack then [] else st.trace }

/-- The line starts with an index. -/
def isRecord (line : Str) : Bool := line.head?.any isDigit

/-- The line is part of a backtrace. -/
def isFrame (line : Str) : Bool := ['\t', '0', 'x'].isPrefixOf line

/-- One round of the loop in `parse`. -/
def parseLine (options : Options) (st : ParseState) (line : Str) : Except ParseError ParseState :=
  if isRecord line then parseRecord options st line
  else if isFrame line then parseFrame options st line
  else if options.showArgs && ['\t', '$'].isPrefixOf line then parseArg options st line
  else .ok st

/-- What `parse` does behind the loop. -/
def ParseState.finish (options : Options) (st : ParseState) : Except ParseError ParseState :=
  if st.stack && st.isIncluded options then st.update else .ok st

/-- `parse` without the graph. -/
def parseUpdates (options : Options) (lines : List Str) : Except ParseError ParseState := do
  let st ← lines.foldlM (parseLine options) .init
  st.finish options

/-- `Rtrace.parse`; the first line of the report has been read before. -/
def parse (graph : Graph Str) (options : Options) (report : Str) :
    Except ParseError (Graph Str × Nat × Nat) := do
  let st ← parseUpdates options (fileLines report).tail
  .ok (graph.run st.updates, st.ignores, st.nonames)

end SpRtrace.Scripts
