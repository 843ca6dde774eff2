/-
SpRtrace.Modules.NameRegistry — the identifiers of shared memory objects,
`src/modules/sp_rtrace_shmposix.c`.

The registry is a search tree ordered by name. A new name gets the hash of
its text, counted up until no node of the tree has it. How the tree is
balanced is a parameter.

A result `none` of the counting is a loop that does not end: the hashes have
all been tried.
-/
import SpRtrace.Common.RtraceData
import SpRtrace.Lib.SearchTree
import SpRtrace.Lib.Strings

namespace SpRtrace.Modules

open SpRtrace.Lib SpRtrace.Common

structure NregNode where
  name : Str
  hash : BitVec 32
  deriving DecidableEq, Repr

def nregCompareName (node1 node2 : NregNode) : Int := strcmp node1.name node2.name

/-- `nreg_calc_raw_hash`; a `char` has a sign. -/
def nregCalcRawHash (name : Str) : BitVec 32 :=
  let hash := name.foldl (fun hash c =>
    let hash := hash + (BitVec.ofNat 8 c.toNat).signExtend 32
    let hash := hash + (hash <<< 10)
    hash ^^^ (hash >>> 6)) 0
  let hash := hash + (hash <<< 3)
  let hash := hash ^^^ (hash >>> 11)
  hash + (hash <<< 15)

/-- `nreg_validate_hash`, the action of the walk: `result` becomes false at
a node with the hash. -/
def nregValidateHash (value : BitVec 32) (result : Bool) (item : NregNode)
    (which : SearchTree.Visit) : Bool :=
  if result then
    match which with
    | .preorder => result
    | .postorder => if item.hash = value then false else result
    | .leaf => if item.hash = value then false else result
    | .endorder => result
  else result

def nregHashExists (root : SearchTree NregNode) (hash : BitVec 32) : Bool :=
  !root.twalk.foldl (fun result visit => nregValidateHash hash result visit.1 visit.2) true

/-- The loop `while (nreg_hash_exists(hash)) hash++`. -/
def nregProbe (root : SearchTree NregNode) : Nat → BitVec 32 → Option (BitVec 32)
  | 0, _ => none
  | left + 1, hash =>
      if nregHashExists root hash then nregProbe root left (hash + 1) else some hash

def nregCalcHash (root : SearchTree NregNode) (name : Str) : Option (BitVec 32) :=
  nregProbe root (2 ^ 32) (nregCalcRawHash name)

/-- `nreg_get_hash`; `memory` says that there is memory for a new node. -/
def nregGetHash (balance : SearchTree NregNode → SearchTree NregNode) (memory : Bool)
    (root : SearchTree NregNode) (name : Str) : Option (SearchTree NregNode × BitVec 32) :=
  match root.tfind nregCompareName { name, hash := 0 } with
  | some node => some (root, node.hash)
  | none =>
      if memory then do
        let hash ← nregCalcHash root name
        let found := root.tsearch balance nregCompareName { name, hash }
        some (found.1, found.2.hash)
      else some (root, -1)

/-- Some lookups, with the values they return. -/
def nregLookups (balance : SearchTree NregNode → SearchTree NregNode) :
    SearchTree NregNode → List Str → Option (SearchTree NregNode × List (BitVec 32))
  | root, [] => some (root, [])
  | root, name :: names => do
      let found ← nregGetHash balance true root name
      let rest ← nregLookups balance found.1 names
      some (rest.1, found.2 :: rest.2)

end SpRtrace.Modules
