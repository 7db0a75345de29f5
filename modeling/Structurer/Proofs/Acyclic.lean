/-
**Orders of acyclic graphs.**

Nodes are taken one by one.  What is counted for a node that is not taken yet is how many of its
predecessors are not taken either, and the nodes that wait to be taken are those for which nothing is
left to count.  So no count ever falls below zero, every node comes after its predecessors, and a node
is left out only if one of its predecessors is.
-/

import Mathlib.Data.Finset.Card
import Mathlib.Data.List.Perm.Subperm
import Mathlib.Logic.Relation
import Structurer.Graph.Acyclic
import Structurer.Proofs.Chart

namespace Structurer

open Fallible List

variable {order nodes : List NodeId} {id : NodeId}

namespace Chart

variable {G : Chart} {p : NodeId}

def Landing (G : Chart) : Prop := ∀ {p id}, G.Targets p id → G.Live id

theorem Closed.landing (h : G.Closed) : G.Landing := fun {p id} ht => h.targets p id ht

def Forked (G : Chart) : Prop := ∀ {id b}, G.block? id = some b → b.exit.outputs.Nodup

/-- Some nodes in an order in which each comes after all its predecessors; a node is left out only if
one of its predecessors is. -/
structure Sorted (G : Chart) (nodes order : List NodeId) : Prop where
  nodup : order.Nodup
  subset : order ⊆ nodes
  before : ∀ {p id}, id ∈ order → G.Targets p id → p ∈ order ∧ order.idxOf p < order.idxOf id
  full : ∀ {id}, id ∈ nodes → (∀ p, G.Targets p id → p ∈ order) → id ∈ order

/-- All nodes in an order in which each comes after its predecessors. -/
structure Topological (G : Chart) (order : List NodeId) : Prop where
  nodup : order.Nodup
  mem : ∀ {id}, id ∈ order ↔ G.Live id
  before : ∀ {p id}, G.Targets p id → order.idxOf p < order.idxOf id

theorem Sorted.subset_order (h : G.Sorted nodes order) (rank : NodeId → Nat)
    (hrank : ∀ {p id}, id ∈ nodes → G.Targets p id → p ∈ nodes ∧ rank p < rank id) :
    nodes ⊆ order := by
  intro id hid
  induction hr : rank id using Nat.strongRecOn generalizing id with
  | ind r ih =>
    refine h.full hid fun p hp => ?_
    obtain ⟨hmem, hlt⟩ := hrank hid hp
    exact ih (rank p) (hr ▸ hlt) hmem rfl

/-! ### Cycles -/

def Circles (G : Chart) (id : NodeId) : Prop :=
  ∃ c, Relation.ReflTransGen G.Targets id c ∧ Relation.TransGen G.Targets c c

theorem circles_iff : G.Circles p ↔ ∃ id, G.Targets p id ∧ G.Circles id := by
  constructor
  · rintro ⟨c, hpath, hcycle⟩
    obtain ⟨id, ht, hpath'⟩ := Relation.TransGen.head'_iff.1 (hcycle.trans_right hpath)
    exact ⟨id, ht, c, hpath', hcycle⟩
  · rintro ⟨id, ht, c, hpath, hcycle⟩
    exact ⟨c, hpath.head ht, hcycle⟩

theorem Circles.of_cycle (h : Relation.TransGen G.Targets id id) : G.Circles id := ⟨id, .refl, h⟩

open Classical in
theorem exists_rank_along {r : NodeId → NodeId → Prop} (hfinite : ∀ {p id}, r p id → id ∈ nodes)
    (hcycle : ∀ id, ¬ Relation.TransGen r id id) :
    ∃ rank : NodeId → Nat, ∀ {p id}, r p id → rank p < rank id := by
  let after (id : NodeId) : Finset NodeId := {x ∈ nodes.toFinset | Relation.TransGen r id x}
  refine ⟨fun id => nodes.toFinset.card - (after id).card, fun {p id} hr => ?_⟩
  have hlt : (after id).card < (after p).card := by
    refine Finset.card_lt_card (Finset.ssubset_iff_of_subset ?_ |>.2 ⟨id, ?_, ?_⟩)
    · intro x hx
      obtain ⟨hmem, hpath⟩ := Finset.mem_filter.1 hx
      exact Finset.mem_filter.2 ⟨hmem, hpath.head hr⟩
    · exact Finset.mem_filter.2 ⟨mem_toFinset.2 (hfinite hr), .single hr⟩
    · intro hid
      exact hcycle id (Finset.mem_filter.1 hid).2
  have hle : (after p).card ≤ nodes.toFinset.card := Finset.card_filter_le _ _
  show nodes.toFinset.card - (after p).card < nodes.toFinset.card - (after id).card
  omega

theorem exists_rank (hL : G.Landing) (hfinite : ∀ {id}, G.Live id → id ∈ nodes) :
    ∃ rank : NodeId → Nat, ∀ {p id}, ¬ G.Circles p → G.Targets p id → rank p < rank id := by
  let r (p id : NodeId) : Prop := ¬ G.Circles p ∧ G.Targets p id
  have hcycle : ∀ id, ¬ Relation.TransGen r id id := by
    intro id h
    obtain ⟨_, ⟨hid, _⟩, _⟩ := Relation.TransGen.head'_iff.1 h
    exact hid (.of_cycle (Relation.TransGen.mono (fun _ _ hr => hr.2) _ _ h))
  obtain ⟨rank, hrank⟩ := exists_rank_along (fun {p id} hr => hfinite (hL hr.2)) hcycle
  exact ⟨rank, fun hp ht => hrank ⟨hp, ht⟩⟩

end Chart

namespace Graph

variable {g : Graph} {taken ready outs : List NodeId} {pending : Pending} {x : NodeId} {n : Node}

/-! ### Counts -/

theorem lookup_count (k : Nat) :
    (pending.map fun (i, m) => if i = id then (i, k) else (i, m)).lookup x =
      if x = id then (pending.lookup x).map fun _ => k else pending.lookup x := by
  induction pending with
  | nil => simp
  | cons e pending ih =>
    obtain ⟨i, m⟩ := e
    rw [map_cons]
    by_cases hx : x = i
    · subst hx
      by_cases hid : x = id <;> simp [hid]
    · have hne : (x == i) = false := by simpa using hx
      by_cases hid : i = id
      · simp only [if_pos hid, List.lookup_cons, hne]
        exact ih
      · simp only [if_neg hid, List.lookup_cons, hne]
        exact ih

theorem arrive_works (h : pending.lookup id ≠ some 0) :
    Works (arrive pending id) fun r =>
      (∀ x, r.1.lookup x = if x = id then (pending.lookup x).map (· - 1) else pending.lookup x) ∧
        r.2 = if pending.lookup id = some 1 then [id] else [] := by
  unfold arrive
  cases hk : pending.lookup id with
  | none =>
    refine .of_eq rfl ⟨fun x => ?_, rfl⟩
    by_cases hx : x = id
    · rw [if_pos hx, hx, hk]
      rfl
    · rw [if_neg hx]
  | some k =>
    cases k with
    | zero => exact absurd hk h
    | succ k =>
      refine .of_eq rfl ⟨fun x => ?_, ?_⟩
      · rw [lookup_count]
        by_cases hx : x = id
        · rw [if_pos hx, if_pos hx, hx, hk]
          rfl
        · rw [if_neg hx, if_neg hx]
      · by_cases hzero : k = 0 <;> simp [hzero]

theorem arriveAll_works (hn : outs.Nodup) (h : ∀ id ∈ outs, pending.lookup id ≠ some 0) :
    Works (arriveAll pending outs) fun r =>
      (∀ x, r.1.lookup x = if x ∈ outs then (pending.lookup x).map (· - 1) else pending.lookup x) ∧
        r.2 = outs.filter (pending.lookup · = some 1) := by
  induction outs generalizing pending with
  | nil => exact .of_eq rfl ⟨by simp, rfl⟩
  | cons id outs ih =>
    obtain ⟨hid, hn⟩ := nodup_cons.1 hn
    unfold arriveAll
    refine (arrive_works (h id (.head _))).bind ?_
    rintro ⟨pending₁, fresh₁⟩ ⟨hlook₁, hfresh₁⟩
    have hother : ∀ x ∈ outs, pending₁.lookup x = pending.lookup x := by
      intro x hx
      have hne : x ≠ id := fun he => hid (he ▸ hx)
      rw [hlook₁ x, if_neg hne]
    have hpos : ∀ x ∈ outs, pending₁.lookup x ≠ some 0 := by
      intro x hx
      rw [hother x hx]
      exact h x (.tail _ hx)
    refine (ih hn hpos).bind ?_
    rintro ⟨pending₂, fresh₂⟩ ⟨hlook₂, hfresh₂⟩
    refine .pure ⟨fun x => ?_, ?_⟩
    · rw [hlook₂ x]
      by_cases hx : x ∈ outs
      · rw [if_pos hx, if_pos (.tail _ hx), hother x hx]
      · rw [if_neg hx, hlook₁ x]
        by_cases he : x = id <;> simp [he, hx]
    · dsimp only at hfresh₁ hfresh₂ ⊢
      rw [hfresh₁, hfresh₂, filter_congr fun x hx => by rw [hother x hx], filter_cons]
      by_cases hone : pending.lookup id = some 1 <;> simp [hone]

/-! ### Nodes taken one by one -/

def left (taken : List NodeId) (n : Node) : Nat := (n.inputs.toList.filter (· ∉ taken)).length

theorem left_eq_zero_iff (hg : g.Tidy) (hn : g.get? id = some n) :
    left taken n = 0 ↔ ∀ p, g.chart.Targets p id → p ∈ taken := by
  rw [left, length_eq_zero_iff, filter_eq_nil_iff]
  constructor
  · intro h p hp
    simpa using h p ((hg.mem_inputs_iff hn).2 hp)
  · intro h p hp
    simpa using h p ((hg.mem_inputs_iff hn).1 hp)

theorem left_append (hx : x ∉ taken) (n : Node) :
    left (taken ++ [x]) n = if x ∈ n.inputs then left taken n - 1 else left taken n := by
  have herase : n.inputs.toList.filter (· ∉ taken ++ [x]) =
      (n.inputs.toList.filter (· ∉ taken)).erase x := by
    rw [(n.inputs.nodup.filter _).erase_eq_filter, filter_filter]
    refine filter_congr fun y _ => ?_
    by_cases hy : y = x <;> simp [hy]
  have hmem : x ∈ n.inputs.toList.filter (· ∉ taken) ↔ x ∈ n.inputs := by
    rw [mem_filter]
    exact and_iff_left (by simpa using hx)
  rw [left, herase, length_erase]
  by_cases hin : x ∈ n.inputs
  · rw [if_pos (hmem.2 hin), if_pos hin, left]
  · rw [if_neg (fun h => hin (hmem.1 h)), if_neg hin, left]

theorem left_append_eq_zero_iff (hx : x ∉ taken) (n : Node) :
    left (taken ++ [x]) n = 0 ↔ left taken n = 0 ∨ x ∈ n.inputs ∧ left taken n = 1 := by
  rw [left_append hx]
  by_cases hin : x ∈ n.inputs
  · rw [if_pos hin]
    refine ⟨fun h => ?_, fun h => by omega⟩
    rcases Nat.eq_zero_or_pos (left taken n) with hzero | hpos
    · exact .inl hzero
    · exact .inr ⟨hin, by omega⟩
  · rw [if_neg hin]
    exact ⟨.inl, fun h => h.resolve_right fun h => hin h.1⟩

theorem mem_outputs_iff (hg : g.Tidy) (hn : g.get? id = some n) {m : Node} (hm : g.get? x = some m) :
    x ∈ n.outputs ↔ id ∈ m.inputs := by
  rw [hg.mem_inputs_iff hm, targets_iff_of_get? hn]
  rfl

/-- What holds while nodes are taken. -/
structure Taking (g : Graph) (nodes taken : List NodeId) (pending : Pending) (ready : List NodeId) :
    Prop where
  nodup : (taken ++ ready).Nodup
  subset : taken ++ ready ⊆ nodes
  counted : ∀ {id n}, g.get? id = some n →
    pending.lookup id = if id ∈ nodes then some (left taken n) else none
  next : ∀ {id}, id ∈ nodes → (id ∈ taken ++ ready ↔ ∀ p, g.chart.Targets p id → p ∈ taken)
  before : ∀ {p id}, id ∈ taken → g.chart.Targets p id →
    p ∈ taken ∧ taken.idxOf p < taken.idxOf id

namespace Taking

theorem perm (h : Taking g nodes taken pending ready) {ready' : List NodeId} (hp : ready'.Perm ready) :
    Taking g nodes taken pending ready' := by
  have hperm : (taken ++ ready').Perm (taken ++ ready) := hp.append_left taken
  refine ⟨hperm.symm.nodup h.nodup, fun x hx => h.subset (hperm.mem_iff.1 hx), h.counted, ?_, h.before⟩
  intro id hid
  rw [hperm.mem_iff]
  exact h.next hid

section

variable (h : Taking g nodes taken pending (id :: ready))

include h

theorem not_taken : id ∉ taken :=
  fun hmem => (nodup_append.1 h.nodup).2.2 id hmem id (.head _) rfl

theorem waits (hg : g.Tidy) (hL : g.chart.Landing) (hn : g.get? id = some n) :
    ∀ x ∈ n.outputs, pending.lookup x ≠ some 0 := by
  intro x hx
  obtain ⟨b, hb⟩ := hL ((targets_iff_of_get? hn).2 hx)
  obtain ⟨m, hm, _⟩ := get?_of_block? hb
  rw [h.counted hm]
  split
  · intro hzero
    have hleft : left taken m = 0 := Option.some.inj hzero
    exact h.not_taken ((left_eq_zero_iff hg hm).1 hleft id
      ((hg.mem_inputs_iff hm).1 ((mem_outputs_iff hg hn hm).1 hx)))
  · simp

theorem mem_fresh_iff (hg : g.Tidy) (hn : g.get? id = some n) {m : Node} (hm : g.get? x = some m) :
    x ∈ n.outputs.filter (pending.lookup · = some 1) ↔ x ∈ nodes ∧ id ∈ m.inputs ∧ left taken m = 1 := by
  rw [mem_filter, decide_eq_true_eq, mem_outputs_iff hg hn hm, h.counted hm]
  by_cases hx : x ∈ nodes <;> simp [hx]

theorem before_concat {p : NodeId} (hx : x ∈ taken ++ [id]) (hp : g.chart.Targets p x) :
    p ∈ taken ++ [id] ∧ (taken ++ [id]).idxOf p < (taken ++ [id]).idxOf x := by
  rcases mem_append.1 hx with hx | hx
  · obtain ⟨hpt, hlt⟩ := h.before hx hp
    rw [idxOf_append_of_mem hpt, idxOf_append_of_mem hx]
    exact ⟨mem_append_left _ hpt, hlt⟩
  · cases mem_singleton.1 hx
    have hpt : p ∈ taken :=
      (h.next (h.subset (mem_append_right _ (.head _)))).1 (mem_append_right _ (.head _)) p hp
    rw [idxOf_append_of_mem hpt, idxOf_append_of_notMem h.not_taken]
    have := idxOf_lt_length_iff.2 hpt
    exact ⟨mem_append_left _ hpt, by omega⟩

theorem step (hg : g.Tidy) (hL : g.chart.Landing) (hF : g.chart.Forked) (hnodes : nodes ⊆ g.ids)
    (hn : g.get? id = some n) :
    Works (arriveAll pending n.outputs) fun r => r.2.Nodup ∧ r.2 ⊆ g.ids ∧
      Taking g nodes (taken ++ [id]) r.1 (ready ++ r.2) := by
  have hfork : n.outputs.Nodup := hF (block?_of_get? hn)
  refine (arriveAll_works hfork (h.waits hg hL hn)).mono ?_
  rintro ⟨pending', fresh⟩ ⟨hlook, rfl⟩
  have hids : ∀ {x}, x ∈ n.outputs → x ∈ g.ids :=
    fun hx => live_iff_mem.1 (hL ((targets_iff_of_get? hn).2 hx))
  have hnew : ∀ {x}, x ∈ n.outputs.filter (pending.lookup · = some 1) →
      x ∈ nodes ∧ x ∉ taken ++ id :: ready := by
    intro x hx
    obtain ⟨m, hm⟩ := mem_ids_iff.1 (hids (mem_filter.1 hx).1)
    obtain ⟨hxn, _, hone⟩ := (h.mem_fresh_iff hg hn hm).1 hx
    refine ⟨hxn, fun hold => ?_⟩
    have hzero := (left_eq_zero_iff hg hm).2 ((h.next hxn).1 hold)
    omega
  have hperm : (taken ++ id :: ready).Perm (taken ++ [id] ++ ready) := by
    rw [append_assoc]
    rfl
  refine ⟨hfork.filter _, fun x hx => hids (mem_filter.1 hx).1, ?_, ?_, ?_, ?_, h.before_concat⟩
  · rw [← append_assoc, nodup_append]
    refine ⟨hperm.nodup h.nodup, hfork.filter _, fun x hx y hy hxy => ?_⟩
    exact (hnew hy).2 (hperm.mem_iff.2 (hxy ▸ hx))
  · intro x hx
    rw [← append_assoc, mem_append] at hx
    rcases hx with hx | hx
    · exact h.subset (hperm.mem_iff.2 hx)
    · exact (hnew hx).1
  · intro x m hm
    rw [hlook x, h.counted hm, left_append h.not_taken]
    simp only [mem_outputs_iff hg hn hm]
    by_cases hx : x ∈ nodes <;> by_cases hin : id ∈ m.inputs <;> simp [hx, hin]
  · intro x hx
    obtain ⟨m, hm⟩ := mem_ids_iff.1 (hnodes hx)
    rw [← left_eq_zero_iff hg hm, left_append_eq_zero_iff h.not_taken, ← append_assoc, mem_append,
      ← hperm.mem_iff, h.next hx, ← left_eq_zero_iff hg hm, h.mem_fresh_iff hg hn hm, and_iff_right hx]

end

theorem sorted (h : Taking g nodes taken pending []) : g.chart.Sorted nodes taken where
  nodup := by
    have := h.nodup
    rwa [append_nil] at this
  subset := by
    have := h.subset
    rwa [append_nil] at this
  before := h.before
  full := by
    intro id hid hp
    have := (h.next hid).2 hp
    rwa [append_nil] at this

end Taking

def Joins (g : Graph) (join : List NodeId → List NodeId → List NodeId) : Prop :=
  ∀ {ready fresh}, fresh.Nodup → fresh ⊆ g.ids → (join ready fresh).Perm (ready ++ fresh)

variable {join : List NodeId → List NodeId → List NodeId}

theorem Taking.run (hg : g.Tidy) (hL : g.chart.Landing) (hF : g.chart.Forked) (hjoin : g.Joins join)
    (hnodes : nodes ⊆ g.ids) (h : Taking g nodes taken pending ready) {fuel : Nat}
    (hfuel : nodes.length ≤ taken.length + fuel) :
    Works (g.takeReady join fuel pending ready) fun rest =>
      g.chart.Sorted nodes (taken ++ rest) ∧ rest.head? = ready.head? := by
  induction fuel generalizing taken pending ready with
  | zero =>
    -- all nodes are taken
    have hlen : (taken ++ ready).length ≤ nodes.length :=
      (subperm_of_subset h.nodup h.subset).length_le
    rw [length_append] at hlen
    have hnil : ready = [] := eq_nil_of_length_eq_zero (by omega)
    subst hnil
    refine .of_eq (a := []) (by rw [takeReady]) ⟨?_, rfl⟩
    rw [append_nil]
    exact h.sorted
  | succ fuel ih =>
    cases ready with
    | nil =>
      refine .of_eq (a := []) (by rw [takeReady]; simp) ⟨?_, rfl⟩
      rw [append_nil]
      exact h.sorted
    | cons id ready =>
      have hid : id ∈ nodes := h.subset (mem_append_right _ (.head _))
      obtain ⟨n, hn⟩ := mem_ids_iff.1 (hnodes hid)
      rw [takeReady, node_eq_ok_iff.2 hn, ok_bind]
      refine (h.step hg hL hF hnodes hn).bind ?_
      rintro ⟨pending', fresh⟩ ⟨hnd, hfresh, h'⟩
      refine (ih (h'.perm (hjoin hnd hfresh)) ?_).bind ?_
      · rw [length_append, length_singleton]
        omega
      rintro rest ⟨hsorted, _⟩
      refine .pure ⟨?_, rfl⟩
      rw [append_assoc] at hsorted
      exact hsorted

/-! ### Where taking begins -/

def inputCount (g : Graph) (id : NodeId) : Nat := ((g.get? id).map (·.inputs.size)).getD 0

theorem pendingOf_eq_ok (hnodes : nodes ⊆ g.ids) :
    g.pendingOf nodes = .ok (nodes.map fun id => (id, g.inputCount id)) := by
  refine mapM_eq_ok fun id hid => ?_
  obtain ⟨n, hn⟩ := mem_ids_iff.1 (hnodes hid)
  rw [node_eq_ok_iff.2 hn, inputCount, hn]
  rfl

theorem lookup_inputCounts : (nodes.map fun id => (id, g.inputCount id)).lookup x =
    if x ∈ nodes then some (g.inputCount x) else none := by
  induction nodes with
  | nil => rfl
  | cons i nodes ih =>
    rw [map_cons, List.lookup_cons, ih]
    by_cases hx : x = i
    · simp [hx]
    · have hne : (x == i) = false := by simpa using hx
      simp [hne, hx]

theorem free_inputCounts : Pending.free (nodes.map fun id => (id, g.inputCount id)) =
    nodes.filter (g.inputCount · = 0) := by
  rw [Pending.free, filter_map, map_map]
  exact map_id _

theorem inputCount_eq_zero_iff (hg : g.Tidy) (hid : id ∈ g.ids) :
    g.inputCount id = 0 ↔ ∀ p, ¬ g.chart.Targets p id := by
  obtain ⟨n, hn⟩ := mem_ids_iff.1 hid
  rw [inputCount, hn, Option.map_some, Option.getD_some, NodeSet.size, length_eq_zero_iff,
    eq_nil_iff_forall_not_mem]
  exact forall_congr' fun p => not_congr (hg.mem_inputs_iff hn)

theorem taking_begin (hg : g.Tidy) (hnd : nodes.Nodup) (hnodes : nodes ⊆ g.ids) :
    Taking g nodes [] (nodes.map fun id => (id, g.inputCount id))
      (nodes.filter (g.inputCount · = 0)) := by
  refine ⟨hnd.filter _, fun _ hid => (mem_filter.1 hid).1, ?_, ?_, ?_⟩
  · intro id n hn
    have hleft : left [] n = g.inputCount id := by simp [left, inputCount, hn, NodeSet.size]
    rw [lookup_inputCounts, hleft]
  · intro id hid
    rw [nil_append, mem_filter, decide_eq_true_eq, inputCount_eq_zero_iff hg (hnodes hid)]
    exact ⟨fun h p hp => absurd hp (h.2 p), fun h => ⟨hid, fun p hp => not_mem_nil (h p hp)⟩⟩
  · intro p id hid
    exact absurd hid not_mem_nil

/-- **Taking nodes never fails**, in whatever order those go that are ready. -/
theorem takeReady_works (hg : g.Tidy) (hL : g.chart.Landing) (hF : g.chart.Forked) (hjoin : g.Joins join)
    (hnd : nodes.Nodup) (hnodes : nodes ⊆ g.ids) (hready : ready.Perm (nodes.filter (g.inputCount · = 0))) :
    Works (g.takeReady join nodes.length (nodes.map fun id => (id, g.inputCount id)) ready) fun order =>
      g.chart.Sorted nodes order ∧ order.head? = ready.head? :=
  ((taking_begin hg hnd hnodes).perm hready).run hg hL hF hjoin hnodes (by simp)

theorem takesAll_works (hg : g.Tidy) (hL : g.chart.Landing) (hF : g.chart.Forked) (hnd : nodes.Nodup)
    (hnodes : nodes ⊆ g.ids) :
    Works (g.takesAll nodes) fun r =>
      ∃ order, g.chart.Sorted nodes order ∧ (r = true ↔ order.length = nodes.length) := by
  unfold takesAll
  rw [pendingOf_eq_ok hnodes, ok_bind, free_inputCounts]
  have hjoin : g.Joins fun ready fresh => fresh.reverse ++ ready := fun {ready fresh} _ _ =>
    perm_append_comm.trans ((reverse_perm fresh).append_left ready)
  refine (takeReady_works hg hL hF hjoin hnd hnodes (reverse_perm _)).bind fun order horder => ?_
  exact .pure ⟨order, horder.1, decide_eq_true_iff⟩

theorem entryFirst_perm (free : List NodeId) (entry : NodeId) :
    (free.filter (· = entry) ++ free.filter (· ≠ entry)).Perm free := by
  have := filter_append_perm (fun id : NodeId => decide (id = entry)) free
  simpa only [decide_not] using this

/-! ### Topological orders -/

theorem sorted_topological (h : g.chart.Sorted g.ids order) (hall : g.ids ⊆ order)
    (hL : g.chart.Landing) : g.chart.Topological order where
  nodup := h.nodup
  mem := by
    intro id
    rw [live_iff_mem]
    exact ⟨fun hid => h.subset hid, fun hid => hall hid⟩
  before := by
    intro p id hp
    exact (h.before (hall (live_iff_mem.1 (hL hp))) hp).2

theorem sort_works (hg : g.Tidy) (hL : g.chart.Landing) (hF : g.chart.Forked) :
    Works g.sort fun r =>
      (∀ order, r = some order → g.chart.Topological order ∧
        (g.chart.Live g.entry → (∀ p, ¬ g.chart.Targets p g.entry) → order.head? = some g.entry)) ∧
      ∀ rank : NodeId → Nat, (∀ {p id}, g.chart.Targets p id → rank p < rank id) →
        ∃ order, r = some order := by
  have hlen : g.size = g.ids.length := by simp [size, ids]
  have hjoin : g.Joins fun ready fresh => ready ++ g.ids.filter (· ∈ fresh) := by
    intro ready fresh hnd hfresh
    refine Perm.append_left ready ((perm_ext_iff_of_nodup (hg.nodup.filter _) hnd).2 fun x => ?_)
    rw [mem_filter, decide_eq_true_eq]
    exact and_iff_right_of_imp fun hx => hfresh hx
  unfold sort
  rw [pendingOf_eq_ok fun _ h => h, ok_bind, free_inputCounts, hlen]
  refine (takeReady_works hg hL hF hjoin hg.nodup (fun _ h => h) (entryFirst_perm _ _)).bind ?_
  rintro order ⟨hsorted, hhead⟩
  refine .pure ⟨fun order' he => ?_, fun rank hrank => ?_⟩
  · split at he
    next hfull =>
      cases he
      have hperm := (subperm_of_subset hsorted.nodup hsorted.subset).perm_of_length_le
        (Nat.le_of_eq hfull.symm)
      refine ⟨sorted_topological hsorted hperm.symm.subset hL, fun hlive hp => ?_⟩
      have hentry := live_iff_mem.1 hlive
      have hfree : g.entry ∈ g.ids.filter (g.inputCount · = 0) :=
        mem_filter.2 ⟨hentry, decide_eq_true ((inputCount_eq_zero_iff hg hentry).2 hp)⟩
      rw [hhead, filter_eq, count_eq_one_of_mem (hg.nodup.filter _) hfree]
      rfl
    next => cases he
  · have hall : g.ids ⊆ order := by
      refine hsorted.subset_order rank fun {p id} _ hp => ⟨?_, hrank hp⟩
      obtain ⟨b, hb, _⟩ := hp
      exact live_iff_mem.1 ⟨b, hb⟩
    have hfull : order.length = g.ids.length :=
      Nat.le_antisymm (subperm_of_subset hsorted.nodup hsorted.subset).length_le
        (subperm_of_subset hg.nodup hall).length_le
    exact ⟨order, if_pos hfull⟩

theorem landing_of_nodes (h : ∀ e ∈ g.nodes, ∀ out ∈ e.2.outputs, out ∈ g.ids) : g.chart.Landing := by
  rintro p id ⟨b, hb, hid⟩
  obtain ⟨n, hn, rfl⟩ := get?_of_block? hb
  exact live_iff_mem.2 (h (p, n) (mem_of_lookup hn) id hid)

theorem idxOf_lt_of_path (h : g.chart.Topological order) {p id : NodeId}
    (hpath : Relation.TransGen g.chart.Targets p id) : order.idxOf p < order.idxOf id := by
  induction hpath with
  | single ht => exact h.before ht
  | tail _ ht ih => exact Nat.lt_trans ih (h.before ht)

/-- **An order is found exactly for graphs without a cycle**: all nodes are in it once, every edge goes
forward, and an entry that nothing leads to comes first.  No count ever falls below zero. -/
theorem topologicalOrder_decides_acyclicity (tidy : g.Tidy) (landing : g.chart.Landing)
    (forked : g.chart.Forked) :
    g.sort = .ok g.topologicalOrder ∧
      ((∃ order, g.topologicalOrder = some order) ↔
        ∀ id, ¬ Relation.TransGen g.chart.Targets id id) ∧
      ∀ order, g.topologicalOrder = some order → order.Perm g.ids ∧
        (∀ p id, g.chart.Targets p id → order.idxOf p < order.idxOf id) ∧
        (g.entry ∈ g.ids → (∀ p, ¬ g.chart.Targets p g.entry) → order.head? = some g.entry) := by
  obtain ⟨r, hsort, hfound, hranked⟩ := sort_works tidy landing forked
  have hr : g.topologicalOrder = r := by
    rw [topologicalOrder, hsort]
  rw [hr]
  refine ⟨hsort, ⟨?_, fun hacyclic => ?_⟩, fun order horder => ?_⟩
  · rintro ⟨order, horder⟩ id hcycle
    exact Nat.lt_irrefl _ (idxOf_lt_of_path (hfound order horder).1 hcycle)
  · obtain ⟨rank, hrank⟩ := Chart.exists_rank landing fun {id} => live_iff_mem.1
    exact hranked rank (hrank fun ⟨c, _, hcycle⟩ => hacyclic c hcycle)
  · obtain ⟨htop, hfirst⟩ := hfound order horder
    refine ⟨?_, fun p id => htop.before, fun hentry => hfirst (live_iff_mem.2 hentry)⟩
    exact (List.perm_ext_iff_of_nodup htop.nodup tidy.nodup).2 fun id => htop.mem.trans live_iff_mem

def crossedWays : Graph :=
  let n : Node := .new [] [] []
  recalculateInputs ⟨[(⟨4⟩, n), (⟨3⟩, { n with exit := .seq ⟨4⟩ }), (⟨2⟩, { n with exit := .seq ⟨3⟩ }),
    (⟨1⟩, { n with exit := .branch ⟨4⟩ ⟨2⟩ }), (⟨5⟩, { n with exit := .seq ⟨3⟩ }),
    (⟨0⟩, { n with exit := .branch ⟨2⟩ ⟨1⟩ })], 6, ⟨0⟩⟩

theorem topologicalOrder_decides_crossedWays :
    crossedWays.topologicalOrder = some [⟨0⟩, ⟨5⟩, ⟨1⟩, ⟨2⟩, ⟨3⟩, ⟨4⟩] ∧
      (∀ id, ¬ Relation.TransGen crossedWays.chart.Targets id id) ∧
      ∀ p id, crossedWays.chart.Targets p id →
        [⟨0⟩, ⟨5⟩, ⟨1⟩, ⟨2⟩, ⟨3⟩, ⟨4⟩].idxOf p < [⟨0⟩, ⟨5⟩, ⟨1⟩, ⟨2⟩, ⟨3⟩, ⟨4⟩].idxOf id := by
  have hforked : crossedWays.chart.Forked := by
    intro id b hb
    obtain ⟨n, hn, rfl⟩ := get?_of_block? hb
    have hnodes : ∀ e ∈ crossedWays.nodes, e.2.outputs.Nodup := by decide
    exact hnodes _ (mem_of_lookup hn)
  have horder : crossedWays.topologicalOrder = some [⟨0⟩, ⟨5⟩, ⟨1⟩, ⟨2⟩, ⟨3⟩, ⟨4⟩] := by decide +kernel
  obtain ⟨_, hacyclic, hall⟩ := topologicalOrder_decides_acyclicity
    (tidy_recalculateInputs (by decide) (by decide)).1 (landing_of_nodes (by decide)) hforked
  exact ⟨horder, hacyclic.1 ⟨_, horder⟩, (hall _ horder).2.1⟩

end Graph

end Structurer
