/-
**The weight of a graph.**

Every rule makes a graph lighter: no block gets heavier, and at least one gets lighter or goes away.
So there are no more steps to a reduction than the weight of the graph it starts from, and no graph
gets larger by it.
-/

import Mathlib.Algebra.BigOperators.Group.Finset.Basic
import Mathlib.Algebra.GroupWithZero.Nat
import Mathlib.Algebra.Order.BigOperators.Group.Finset
import Structurer.Proofs.Chart
import Structurer.Reduce.Reducer

namespace Structurer

open List

def Block.heft (b : Block) : Nat :=
  match b.exit with
  | .ret => 1
  | .seq _ => 2
  | .branch _ _ => 3

theorem Block.heft_pos (b : Block) : 0 < b.heft := by
  unfold heft
  split <;> omega

@[simp] theorem Block.heft_map (b : Block) (f : NodeId → NodeId) :
    (b.withExit (b.exit.map f)).heft = b.heft := by
  unfold heft
  cases b.exit <;> rfl

namespace Chart

def heft (G : Chart) (id : NodeId) : Nat :=
  match G.block? id with
  | some b => b.heft
  | none => 0

theorem heft_of_block {G : Chart} {id : NodeId} {b : Block} (h : G.block? id = some b) :
    G.heft id = b.heft := by
  rw [heft, h]

theorem heft_of_none {G : Chart} {id : NodeId} (h : G.block? id = none) : G.heft id = 0 := by
  rw [heft, h]

theorem heft_pos_iff {G : Chart} {id : NodeId} : 0 < G.heft id ↔ G.Live id := by
  unfold heft Live
  cases G.block? id with
  | none => simp
  | some b => simp [b.heft_pos]

/-- No block is heavier than before, and one is lighter or gone. -/
structure Lighter (G' G : Chart) : Prop where
  le : ∀ id, G'.heft id ≤ G.heft id
  lt : ∃ id, G'.heft id < G.heft id

end Chart

namespace Graph

variable {g g' : Graph}

theorem length_filter_filter {α : Type} (p q : α → Bool) (l : List α) :
    l.length + (l.filter p).length + (l.filter q).length =
      (l.map fun a => 1 + (p a).toNat + (q a).toNat).sum := by
  induction l with
  | nil => rfl
  | cons a l ih =>
    have hcons : ∀ r : α → Bool,
        ((a :: l).filter r).length = (r a).toNat + (l.filter r).length := by
      intro r
      cases hr : r a with
      | true => rw [filter_cons_of_pos hr, length_cons, Bool.toNat_true, Nat.add_comm]
      | false =>
        have hr' : ¬ r a = true := by rw [hr]; exact Bool.false_ne_true
        rw [filter_cons_of_neg hr', Bool.toNat_false, Nat.zero_add]
    rw [map_cons, sum_cons, ← ih, hcons p, hcons q, length_cons]
    omega

theorem Tidy.weight_eq (hg : g.Tidy) : g.weight = ∑ id ∈ g.ids.toFinset, g.chart.heft id := by
  rw [sum_toFinset _ hg.nodup, ids, List.map_map, weight, size, length_filter_filter]
  refine congrArg List.sum (map_congr_left ?_)
  rintro ⟨id, n⟩ he
  have hb := block?_of_get? ((get?_eq_some_iff hg.nodup).2 he)
  show 1 + n.exit.isBranch.toNat + (!n.exit.isRet).toNat = g.chart.heft id
  rw [Chart.heft_of_block hb, Block.heft, Node.block_exit]
  cases n.exit <;> rfl

theorem ids_subset (h : ∀ id, g'.chart.heft id ≤ g.chart.heft id) : g'.ids ⊆ g.ids := by
  intro id hid
  rw [← live_iff_mem, ← Chart.heft_pos_iff] at hid ⊢
  exact Nat.lt_of_lt_of_le hid (h id)

theorem Tidy.weight_lt (hg : g.Tidy) (hg' : g'.Tidy) (h : g'.chart.Lighter g.chart) :
    g'.weight < g.weight := by
  rw [hg.weight_eq, hg'.weight_eq]
  have hsub : g'.ids.toFinset ⊆ g.ids.toFinset := fun id hid =>
    mem_toFinset.2 (ids_subset h.le (mem_toFinset.1 hid))
  have hzero : ∀ id ∈ g.ids.toFinset, id ∉ g'.ids.toFinset → g'.chart.heft id = 0 := by
    intro id _ hid
    rw [mem_toFinset, ← live_iff_mem, ← Chart.heft_pos_iff] at hid
    omega
  rw [Finset.sum_subset hsub hzero]
  obtain ⟨id, hid⟩ := h.lt
  refine Finset.sum_lt_sum (fun i _ => h.le i) ⟨id, ?_, hid⟩
  rw [mem_toFinset, ← live_iff_mem, ← Chart.heft_pos_iff]
  omega

theorem Tidy.size_le (hg' : g'.Tidy) (h : ∀ id, g'.chart.heft id ≤ g.chart.heft id) :
    g'.size ≤ g.size := by
  have hl : ∀ g : Graph, g.size = g.ids.length := fun g => by simp [size, ids]
  rw [hl, hl]
  exact (subperm_of_subset hg'.nodup (ids_subset h)).length_le

end Graph

end Structurer
