/-
SpRtrace.Scripts.Trim — `Graph.trim` of `scripts/rtrace-calltree`.

The script keeps references to the nodes of its dictionary; here a node is
known by its key, and every change is made in the dictionary. The two loops
of `trim_leaf` are one loop in two directions. `remove` is a dictionary that
is used as a set, kept as the list of its keys, and `iter` is the order in
which the script goes through the keys of a dictionary.

The updated node infos that `trim` prints for `options.node` are left out.
-/
import SpRtrace.Scripts.CallTree

namespace SpRtrace.Scripts

variable {Fun : Type*} [DecidableEq Fun]

/-- What stops the script. -/
inductive TrimError (Fun : Type*) where
  /-- There is no `self.nodes[name]`. -/
  | keyError (name : Fun)
  /-- "function '%s' not in node children". -/
  | notInChildren (funName : Fun)
  /-- "function '%s' not in node parents". -/
  | notInParents (funName : Fun)
  /-- A loop is still running. -/
  | running

/-! ## Links -/

inductive Side where
  | child
  | parent
  deriving DecidableEq

def Side.back : Side → Side
  | .child => .parent
  | .parent => .child

/-- `self.children` and `self.parents`. -/
def Node.links (node : Node Fun) : Side → Finset Fun
  | .child => node.children
  | .parent => node.parents

/-- The key of a dictionary with one key: `child_list()[0]`, `parent_list()[0]`. -/
def only (s : Finset Fun) : Option Fun :=
  if h : s.card = 1 then
    some (s.choose (fun _ => True) (by
      obtain ⟨a, rfl⟩ := Finset.card_eq_one.mp h
      exact ⟨a, by simp, by simp⟩))
  else none

def Node.removeChild (node : Node Fun) (funName : Fun) : Except (TrimError Fun) (Node Fun) :=
  if funName ∈ node.children then .ok { node with children := node.children.erase funName }
  else .error (.notInChildren funName)

def Node.removeParent (node : Node Fun) (funName : Fun) : Except (TrimError Fun) (Node Fun) :=
  if funName ∈ node.parents then .ok { node with parents := node.parents.erase funName }
  else .error (.notInParents funName)

def Node.removeChildren (node : Node Fun) : Node Fun := { node with children := ∅ }

def Node.removeParents (node : Node Fun) : Node Fun := { node with parents := ∅ }

/-- `remove_child` or `remove_parent`. -/
def Node.removeLink (node : Node Fun) : Side → Fun → Except (TrimError Fun) (Node Fun)
  | .child => node.removeChild
  | .parent => node.removeParent

/-- `remove_children` or `remove_parents`. -/
def Node.removeLinks (node : Node Fun) : Side → Node Fun
  | .child => node.removeChildren
  | .parent => node.removeParents

/-! ## Nodes in the dictionary -/

/-- `self.nodes[name]`. -/
def Graph.get (g : Graph Fun) (name : Fun) : Except (TrimError Fun) (Node Fun) :=
  match g.nodes.lookup name with
  | some node => .ok node
  | none => .error (.keyError name)

/-- The node of a name is changed. -/
def Graph.put (g : Graph Fun) (name : Fun) (node : Node Fun) : Graph Fun :=
  { g with nodes := g.nodes.insert name node }

/-- A method of `self.nodes[name]` is called. -/
def Graph.modify (g : Graph Fun) (name : Fun)
    (method : Node Fun → Except (TrimError Fun) (Node Fun)) :
    Except (TrimError Fun) (Graph Fun) := do
  let node ← g.get name
  let node ← method node
  return g.put name node

/-- `del(self.nodes[name])`. -/
def Graph.delNode (g : Graph Fun) (name : Fun) : Except (TrimError Fun) (Graph Fun) :=
  if name ∈ g.nodes then .ok { g with nodes := g.nodes.erase name }
  else .error (.keyError name)

/-! ## Trimming -/

/-- The graph and the names to be removed from it. -/
structure TrimState (Fun : Type*) where
  graph : Graph Fun
  remove : List Fun

/-- A loop of `trim_leaf`: while the node has no link back and one link on
the side `s`, it is cut off and the loop goes on with its neighbour. -/
def trimEnd (s : Side) : Nat → TrimState Fun → Fun → Except (TrimError Fun) (TrimState Fun × Fun)
  | 0, _, _ => .error .running
  | fuel + 1, t, n => do
    let node ← t.graph.get n
    if node.links s.back = ∅ then
      match only (node.links s) with
      | some next => do
        let g ← t.graph.modify next fun other => other.removeLink s.back node.name
        let g ← g.modify n fun node => .ok (node.removeLinks s)
        trimEnd s fuel ⟨g, t.remove.insert node.name⟩ next
      | none => return (t, n)
    else return (t, n)

def trimLeaf (fuel : Nat) (t : TrimState Fun) (n : Fun) :
    Except (TrimError Fun) (TrimState Fun) := do
  let top ← trimEnd .child fuel t n
  let bottom ← trimEnd .parent fuel top.1 top.2
  return bottom.1

def trimIntermediate (t : TrimState Fun) (n : Fun) : Except (TrimError Fun) (TrimState Fun) := do
  let node ← t.graph.get n
  match only node.parents, only node.children with
  | some parentName, some childName =>
    if parentName = childName then return t
    else do
      let _ ← t.graph.get parentName
      let _ ← t.graph.get childName
      let g ← t.graph.modify parentName fun parent => parent.removeChild node.name
      let g ← g.modify childName fun child => child.removeParent node.name
      let g ← g.modify parentName fun parent => .ok (parent.addChild childName)
      let g ← g.modify childName fun child => .ok (child.addParent parentName)
      let g ← g.modify n fun node => .ok node.removeParents
      let g ← g.modify n fun node => .ok node.removeChildren
      return ⟨g, t.remove.insert node.name⟩
  | _, _ => return t

/-- The options of `trim`. -/
structure TrimOptions where
  leafs : Bool
  intermediate : Bool

/-- The first loop of `trim`. -/
def TrimOptions.leafPass (options : TrimOptions) (fuel : Nat) (order : List Fun)
    (t : TrimState Fun) : Except (TrimError Fun) (TrimState Fun) :=
  if options.leafs then .ok t else order.foldlM (trimLeaf fuel) t

def TrimOptions.intermediatePass (options : TrimOptions) (order : List Fun) (t : TrimState Fun) :
    Except (TrimError Fun) (TrimState Fun) :=
  if options.intermediate then .ok t else order.foldlM trimIntermediate t

def Graph.trim (fuel : Nat) (iter : List Fun → List Fun) (g : Graph Fun) (options : TrimOptions) :
    Except (TrimError Fun) (Graph Fun) := do
  let order := iter g.nodes.keys
  let t ← options.leafPass fuel order ⟨g, []⟩
  let t ← options.intermediatePass order t
  (iter t.remove).foldlM Graph.delNode t.graph

end SpRtrace.Scripts
