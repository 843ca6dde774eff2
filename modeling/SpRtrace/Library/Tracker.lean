/-
SpRtrace.Library.Tracker — the tracked symbols,
`src/library/sp_rtrace_tracker.c`.

The items of the set-up are kept in a search tree with a comparison that
takes overlapping items for equal. How the tree is balanced, the
configuration files and the demangler are parameters.

A result `none` of the set-up is one that does not end: configuration
files that load each other, deeper than any `depth`.
-/
import SpRtrace.Common.RtraceData
import SpRtrace.Lib.SearchTree
import SpRtrace.Lib.Stdio
import SpRtrace.Lib.Strings

namespace SpRtrace.Library

open SpRtrace.Lib SpRtrace.Common

/-! ## The comparison -/

/-- `_strcmpp`: a text that ends here with a `'*'` is equal to every other,
else the first characters that differ decide. -/
def strcmpp : Str → Str → Int
  | [], t => if t = ['*'] then 0 else
      match t with
      | [] => 0
      | d :: _ => -(d.toNat : Int)
  | c :: s, t =>
      if c :: s = ['*'] ∨ t = ['*'] then 0 else
      match t with
      | [] => c.toNat
      | d :: t => if c = d then strcmpp s t else (c.toNat : Int) - d.toNat

/-! ## The tracker -/

/-- `sp_rtrace_tracker_t`. -/
structure Tracker where
  symbols : SearchTree Str
  deriving DecidableEq, Repr

section Setup

variable (balance : SearchTree Str → SearchTree Str) (files : Str → Option Str)

def treeAddValue (root : SearchTree Str) (value : Str) : SearchTree Str :=
  (root.tsearch balance strcmpp value).1

/-- The spaces at both ends are stripped; an item of spaces only is empty
then, and the loop for its end has looked in front of it. -/
def stripItem (item : Str) : Str :=
  ((item.dropWhile (· = ' ')).reverse.dropWhile (· = ' ')).reverse

/-- A line of a configuration file without its newline. -/
def chopNewline (line : Str) : Str :=
  if line.getLast? = some '\n' then line.dropLast else line

/-- `tracker_parse_item` with `tracker_load_config`. -/
def trackerParseItem : Nat → Tracker → Str → Option Tracker
  | 0, _, _ => none
  | depth + 1, tracker, item =>
      match stripItem item with
      | '@' :: filename =>
          match files filename with
          | none => some tracker
          | some content =>
              (fgetsLines 1024 content).foldlM
                (fun tracker line => trackerParseItem depth tracker (chopNewline line)) tracker
      | item => some { tracker with symbols := treeAddValue balance tracker.symbols item }

def spRtraceTrackerInit (depth : Nat) : Option Str → Option Tracker
  | none => some { symbols := .nil }
  | some setup => (strtok ';' setup).foldlM (trackerParseItem balance files depth) { symbols := .nil }

end Setup

/-- `sp_rtrace_tracker_query_symbol`: the name that was found, demangled if
it can be. -/
def spRtraceTrackerQuerySymbol (demangle : Str → Option Str) (tracker : Tracker) (name : Str) :
    Option Str :=
  let demangledName := (demangle name).getD name
  (tracker.symbols.tfind strcmpp demangledName).map fun _ => demangledName

end SpRtrace.Library
