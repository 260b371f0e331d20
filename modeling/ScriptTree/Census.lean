import ScriptTree.Tree.Node

/-!
# Censuses

A census counts nodes by kind. Visiting a tree adds each of its nodes once, and one census can visit
several trees: every count is then the sum of the counts of the trees (`count_visit`), and so is the
total (`total_visit`).
-/

namespace ScriptTree

/-- The kinds of the nodes met so far, the latest first. -/
structure Census where
  met : List NodeKind
  deriving DecidableEq, Repr

namespace Census

/-- The census that has met no node. -/
def empty : Census := ⟨[]⟩

/-- Adds one node. -/
def add (c : Census) (n : Node) : Census :=
  ⟨n.kind :: c.met⟩

/-- Adds a node and everything below it. -/
def visit (c : Census) (n : Node) : Census :=
  n.preorder.foldl add c

/-- The number of nodes of a kind. -/
def count (c : Census) (k : NodeKind) : Nat :=
  c.met.count k

/-- The number of nodes of all kinds. -/
def total (c : Census) : Nat :=
  c.met.length

/-- The census of one tree. -/
def ofNode (n : Node) : Census :=
  empty.visit n

/-! ### Counts add up -/

private theorem met_foldl_add (ns : List Node) (c : Census) :
    (ns.foldl add c).met = (ns.map Node.kind).reverse ++ c.met := by
  induction ns generalizing c with
  | nil => rfl
  | cons n ns ih => simp [ih, add]

private theorem met_visit (c : Census) (n : Node) :
    (c.visit n).met = (n.preorder.map Node.kind).reverse ++ c.met :=
  met_foldl_add _ _

theorem count_ofNode (n : Node) (k : NodeKind) :
    (ofNode n).count k = (n.preorder.map Node.kind).count k := by
  simp [count, ofNode, met_visit, empty]

/-- Visiting adds what a census of its own counts. -/
theorem count_visit (c : Census) (n : Node) (k : NodeKind) :
    (c.visit n).count k = c.count k + (ofNode n).count k := by
  simp [count, ofNode, met_visit, empty, Nat.add_comm]

theorem total_visit (c : Census) (n : Node) :
    (c.visit n).total = c.total + (ofNode n).total := by
  simp [total, ofNode, met_visit, empty, Nat.add_comm]

end Census

end ScriptTree
