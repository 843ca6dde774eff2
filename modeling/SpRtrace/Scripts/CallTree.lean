/-
SpRtrace.Scripts.CallTree — the graph of `scripts/rtrace-calltree`.

A backtrace is a list of function names with the innermost one first. The
graph has a node for every name, with the sum of the sizes that were
allocated in it, their number, and the names before and behind it in some
backtrace. A name that occurs twice in one backtrace is counted once: a
node knows the ids of the backtraces it was in.

Dictionaries are `AList`s; a dictionary that is used as a set (`traces`,
`children`, `parents`) is a `Finset`. What is filled in after all nodes
have been added to the graph is left out.
-/
import Mathlib

namespace SpRtrace.Scripts

variable {Fun : Type*} [DecidableEq Fun]

/-! ## Sizes -/

/-- `TotalStats`: how often every size was allocated. -/
structure TotalStats where
  allocOverhead : Int
  sizeitems : AList fun _ : Int => Nat

def TotalStats.init (overhead : Int) : TotalStats := { allocOverhead := overhead, sizeitems := ∅ }

/-- One round of the loop in `add_sizes`. -/
def TotalStats.addSize (stats : TotalStats) (s : Int) : TotalStats :=
  match stats.sizeitems.lookup s with
  | some n => { stats with sizeitems := stats.sizeitems.insert s (n + 1) }
  | none => { stats with sizeitems := stats.sizeitems.insert s 1 }

def TotalStats.addSizes (stats : TotalStats) (sizes : List Int) : TotalStats × Int :=
  sizes.foldl (fun (stats, size) s => (stats.addSize s, size + s)) (stats, 0)

/-! ## Nodes -/

structure Node (Fun : Type*) where
  traces : Finset Nat
  count : Nat
  size : Int
  name : Fun
  children : Finset Fun
  parents : Finset Fun

def Node.init (name : Fun) (size : Int) (count traceId : Nat) : Node Fun :=
  { traces := {traceId}, count, size, name, children := ∅, parents := ∅ }

def Node.addSizeCount (node : Node Fun) (size : Int) (count : Nat) : Node Fun :=
  { node with count := node.count + count, size := node.size + size }

def Node.addChild (node : Node Fun) (funName : Fun) : Node Fun :=
  { node with children := insert funName node.children }

def Node.addParent (node : Node Fun) (funName : Fun) : Node Fun :=
  { node with parents := insert funName node.parents }

/-- `Node.add_trace`; the flag tells whether the id is new. -/
def Node.addTrace (node : Node Fun) (traceId : Nat) : Node Fun × Bool :=
  if traceId ∉ node.traces then ({ node with traces := insert traceId node.traces }, true)
  else (node, false)

/-- The links of `trace[idx]`, at the end of `add_node` and `merge_node`. -/
def Node.link (node : Node Fun) (trace : List Fun) (idx : Nat) : Node Fun :=
  let node := if 0 < idx then ((trace)[idx - 1]?).elim node node.addChild else node
  if idx + 1 < trace.length then ((trace)[idx + 1]?).elim node node.addParent else node

/-! ## The graph -/

structure Graph (Fun : Type*) where
  traceId : Nat
  recursed : Nat
  nodes : AList fun _ : Fun => Node Fun
  addresses : List (Int × Nat)
  stats : TotalStats

def Graph.init (overhead : Int) : Graph Fun :=
  { traceId := 0, recursed := 0, nodes := ∅, addresses := [], stats := .init overhead }

/-- `Graph.add_node`, where `name` is `trace[idx]`. -/
def Graph.addNode (g : Graph Fun) (trace : List Fun) (idx : Nat) (name : Fun) (size : Int)
    (count : Nat) : Graph Fun :=
  let node := (Node.init name size count g.traceId).link trace idx
  { g with nodes := g.nodes.insert name node }

/-- `Graph.merge_node`, where `node` is that of `trace[idx]`. -/
def Graph.mergeNode (g : Graph Fun) (trace : List Fun) (idx : Nat) (name : Fun) (node : Node Fun)
    (size : Int) (count : Nat) : Graph Fun :=
  let (node, new) := node.addTrace g.traceId
  let (node, recursed) :=
    if new then (node.addSizeCount size count, g.recursed) else (node, g.recursed + 1)
  { g with nodes := g.nodes.insert name (node.link trace idx), recursed }

/-- One round of the loop in `Graph.update`. -/
def Graph.visit (g : Graph Fun) (trace : List Fun) (idx : Nat) (line : Fun) (size : Int)
    (count : Nat) : Graph Fun :=
  match g.nodes.lookup line with
  | some node => g.mergeNode trace idx line node size count
  | none => g.addNode trace idx line size count

/-- The loop, over the lines from `idx` on. -/
def Graph.visitAll (g : Graph Fun) (trace : List Fun) (size : Int) (count : Nat) :
    Nat → List Fun → Graph Fun
  | _, [] => g
  | idx, line :: lines => (g.visit trace idx line size count).visitAll trace size count (idx + 1) lines

def Graph.update (g : Graph Fun) (trace : List Fun) (sizes : List Int) (address : Int) :
    Graph Fun :=
  let (stats, size) := g.stats.addSizes sizes
  let g := { g with stats }
  if size < 0 then g
  else
    let g := { g with traceId := g.traceId + 1 }
    let g := g.visitAll trace size sizes.length 0 trace
    { g with addresses := g.addresses ++ [(address, g.traceId)] }

structure Update (Fun : Type*) where
  trace : List Fun
  sizes : List Int
  address : Int

/-- The graph after a sequence of updates. -/
def Graph.run (g : Graph Fun) (updates : List (Update Fun)) : Graph Fun :=
  updates.foldl (fun g u => g.update u.trace u.sizes u.address) g

end SpRtrace.Scripts
