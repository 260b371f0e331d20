import Mathlib
import ScriptTree.Census
import ScriptTree.Proofs.Outline.Depth

/-!
# One outliner and one census for many nodes

An outliner that has written a node stands at the depth at which it started: a program leaves it at
depth zero, and every other node leaves the depth as it was (`Node.outline_rests`). So the outlines
of nodes that are written one after another are those that are written each on its own. A census
that visits nodes one after another counts for each kind what censuses of the single nodes count
together, and what it counts in one node is that node and what it counts in the nodes below it
(`Census.visit_eq_foldl_children`). Every node is of exactly one kind, so the total of a census is
the sum of its counts over all kinds (`Census.total_eq_sum_count`).

The main result is `outlines_and_counts_of_sequence`.
-/

namespace ScriptTree

/-! ### Outlines -/

/-- An outliner that stands at depth zero is there again when it has written a node. -/
theorem Node.outline_rests (n : Node) : (n.outline.run 0).2 = 0 := by
  cases n with
  | program p => rfl
  | varDecl d => rfl
  | block b => exact blockText_steady (stmtTexts_steady b) 0
  | stmt s => exact s.outline_steady 0
  | expr e => rfl

/-! ### Counts -/

namespace Census

/-- A census that has visited nodes has counted of each kind what the censuses of the nodes have
counted of it together. -/
theorem count_foldl_visit (ns : List Node) (c : Census) (k : NodeKind) :
    (ns.foldl visit c).count k = c.count k + (ns.map fun n => (ofNode n).count k).sum := by
  induction ns generalizing c with
  | nil => rfl
  | cons n ns ih =>
    rw [List.foldl_cons, ih, count_visit, List.map_cons, List.sum_cons, Nat.add_assoc]

private theorem total_foldl_visit (ns : List Node) (c : Census) :
    (ns.foldl visit c).total = c.total + (ns.map fun n => (ofNode n).total).sum := by
  induction ns generalizing c with
  | nil => rfl
  | cons n ns ih =>
    rw [List.foldl_cons, ih, total_visit, List.map_cons, List.sum_cons, Nat.add_assoc]

/-- A census that visits a node adds the node and then visits each node directly below it. -/
theorem visit_eq_foldl_children (c : Census) (n : Node) :
    c.visit n = n.children.foldl visit (c.add n) := by
  rw [visit, n.preorder_eq, List.foldl_cons, List.foldl_flatMap]
  rfl

/-- One more entry of kind `k` adds one for every time that `k` is among the kinds summed over. -/
private theorem sum_count_cons (k : NodeKind) (ks kinds : List NodeKind) :
    (kinds.map fun l => (k :: ks).count l).sum
      = (kinds.map fun l => ks.count l).sum + kinds.count k := by
  induction kinds with
  | nil => rfl
  | cons l kinds ih =>
    have hhead : (k :: ks).count l = ks.count l + if l = k then 1 else 0 := by
      rw [List.count_cons]
      by_cases h : l = k
      · simp [h]
      · simp [h, Ne.symm h]
    rw [List.map_cons, List.sum_cons, ih, hhead, List.map_cons, List.sum_cons, List.count_cons]
    simp only [beq_iff_eq]
    omega

/-- Every entry of a list of kinds is of exactly one kind. -/
private theorem length_eq_sum_count (ks : List NodeKind) :
    ks.length = (NodeKind.all.map fun l => ks.count l).sum := by
  induction ks with
  | nil => rfl
  | cons k ks ih => rw [sum_count_cons, NodeKind.count_all, ← ih, List.length_cons]

/-- **The total** is the sum of the counts of all kinds. -/
theorem total_eq_sum_count (c : Census) : c.total = (NodeKind.all.map c.count).sum :=
  length_eq_sum_count c.met

end Census

/-! ### Sequences of nodes -/

/-- **Reuse.** One outliner writes the nodes of a sequence as outliners of their own would write
them. One census has, after every part of the sequence, counted of each kind what the censuses of
the nodes so far have counted together, and in total what it has counted of all kinds; and a node
and the nodes below it are as many as one and the totals of its children. -/
theorem outlines_and_counts_of_sequence (ns : List Node) :
    (ns.mapM Node.outline).run 0 = (ns.map Node.text, 0) ∧
      (∀ m,
        let c := (ns.take m).foldl Census.visit .empty
        (∀ k, c.count k = ((ns.take m).map fun n => (Census.ofNode n).count k).sum) ∧
          c.total = (NodeKind.all.map c.count).sum) ∧
      ∀ n : Node,
        (Census.ofNode n).total
          = 1 + (n.children.map fun below => (Census.ofNode below).total).sum := by
  refine ⟨Outliner.mapM_apply_of_rests Node.outline_rests ns,
    fun m => ⟨fun k => ?_, ?_⟩, fun n => ?_⟩
  · have hempty : Census.empty.count k = 0 := rfl
    rw [Census.count_foldl_visit, hempty, Nat.zero_add]
  · exact Census.total_eq_sum_count _
  · have hadd : (Census.empty.add n).total = 1 := rfl
    rw [Census.ofNode, Census.visit_eq_foldl_children, Census.total_foldl_visit, hadd]

end ScriptTree
