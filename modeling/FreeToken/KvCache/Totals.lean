import FreeToken.KvCache.TreeInvariant
import FreeToken.Lib.Tally
import Mathlib.Algebra.Group.Pi.Basic

/-!
# Totals over a tree

`total t w` adds up `w` over the linked nodes: the tree's pages, its snapshot
slots, its lengths and counts are totals with different weights. Each mutation
changes it by the weight of the nodes it touches.
-/

namespace FreeToken.KvCache

open FreeToken.Lib

variable {M : Type*} [AddCommMonoid M]

/-- What a node counts for: nothing once it has left the tree. -/
def Node.weight (w : Node → M) (x : Node) : M := if x.linked = true then w x else 0

/-- A split divides the weight of a node between the two halves. -/
def Divides (w : Node → M) : Prop :=
  ∀ (x : Node) (pos : Nat) (s : NodeId),
    w { parent := x.parent, linked := true, key := x.key.take pos, value := x.value.take pos,
        refCount := x.refCount, timestamp := x.timestamp, swaTombstone := x.swaTombstone,
        swaRefCount := x.swaRefCount, swaUuid := x.swaUuid } +
      w { x with
          parent := some s, key := x.key.drop pos, value := x.value.drop pos
          swaUuid := none } = w x

namespace RadixTree

variable {w : Node → M} {t t' : RadixTree} {n p : NodeId}

def total (t : RadixTree) (w : Node → M) : M := tally (fun n => (t.node n).weight w) t.next

theorem total_empty (ps : Nat) (w : Node → M) : (empty ps).total w = 0 :=
  tally_eq_zero fun n _ => by rw [Node.weight, empty_node]; split <;> rfl

theorem total_congr (hnext : t'.next = t.next)
    (h : ∀ n < t.next, (t'.node n).weight w = (t.node n).weight w) : t'.total w = t.total w := by
  rw [total, total, hnext]
  exact tally_congr h

theorem total_modify (w : Node → M) (hn : n < t.next) (f : Node → Node) :
    (t.modify n f).total w + (t.node n).weight w = t.total w + (f (t.node n)).weight w := by
  have h := tally_change (f := fun m => (t.node m).weight w)
    (g := fun m => ((t.modify n f).node m).weight w) hn
    fun m hm => by rw [modify_node, if_neg hm]
  rwa [modify_node, if_pos rfl] at h

/-- A change the weight does not see. -/
theorem total_modify_same {f : Node → Node} (t : RadixTree) (n : NodeId)
    (hl : ∀ x, (f x).linked = x.linked) (hw : ∀ x, w (f x) = w x) :
    (t.modify n f).total w = t.total w :=
  total_congr rfl fun m _ => modify_field t n m (Node.weight w) fun x => by
    rw [Node.weight, Node.weight, hl, hw]

theorem total_splitAt (h : t.Wf) {pos : Nat} (hok : t.SplitOk n pos) (hd : Divides w) :
    (t.splitAt n pos).1.total w = t.total w := by
  have hlt := h.linked_lt hok.linked
  refine tally_split hlt (fun m hm hmn => ?_) ?_
  · rw [splitAt_old t n m pos hmn (Nat.ne_of_lt hm)]
  · rw [splitAt_prefixLen, splitAt_suffix t n pos (Nat.ne_of_lt hlt), Node.weight, Node.weight,
      Node.weight, if_pos rfl, if_pos hok.linked, if_pos hok.linked]
    exact hd (t.node n) pos t.next

theorem total_addLeaf (w : Node → M) (p : NodeId) (key : List Token) (value : List KvIndex)
    (now : Time) : (t.addLeaf p key value now).1.total w = t.total w +
      w { parent := some p, linked := true, key := key, value := value, timestamp := now } := by
  have hold : tally (fun m => ((t.addLeaf p key value now).1.node m).weight w) t.next = t.total w :=
    tally_congr fun m hm => by rw [addLeaf_old t p m key value now (Nat.ne_of_lt hm)]
  rw [total, addLeaf_next, tally_succ, hold, addLeaf_new, Node.weight, if_pos rfl]

theorem total_unlink (w : Node → M) (h : t.Wf) (hn : (t.node n).linked = true) :
    (t.unlink n).total w + w (t.node n) = t.total w := by
  have hmod := total_modify w (h.linked_lt hn) fun x => { x with linked := false }
  rw [Node.weight, Node.weight, if_pos hn, if_neg (by nofun), add_zero] at hmod
  exact hmod

/-- A homomorphism of the total is the total of its values. -/
theorem map_total {M' : Type*} [AddCommMonoid M'] (φ : M →+ M') (t : RadixTree) (w : Node → M) :
    φ (t.total w) = t.total fun x => φ (w x) := by
  rw [total, map_tally, total]
  refine tally_congr fun n _ => ?_
  rw [Node.weight, Node.weight]
  split
  · rfl
  · exact map_zero φ

end RadixTree

end FreeToken.KvCache
