/-
**Graphs under editing.**

A graph is built and changed by a handful of operations, and every one of them has to keep the
predecessors in step with the edges.  They do, as long as no edge leads to an identifier that was never
issued: such an edge would not be seen by the node that gets the identifier later.  Edges to nodes that
were taken out do no harm, since their identifiers are not issued again.
-/

import Structurer.Proofs.Region

namespace Structurer.Graph

open Fallible List

variable {g g' : Graph} {id p old new entry : NodeId} {n : Node}

/-! ### Operations -/

def Issued (g : Graph) (id : NodeId) : Prop := id.serial < g.nextSerial

/-- One operation on a graph that goes through.  The successors that it is given were issued before,
or are the new node itself. -/
inductive Edits (g : Graph) : Graph → Prop where
  | addNode (n : Node) (h : ∀ out ∈ n.outputs, g.Issued out ∨ out = ⟨g.nextSerial⟩) :
      Edits g (g.addNode n).2
  | setExit (id : NodeId) (exit : Exit) (g' : Graph) (h : ∀ out ∈ exit.outputs, g.Issued out)
      (hg' : g.setExit id exit = .ok g') : Edits g g'
  | redirectEdge (source old new : NodeId) (g' : Graph) (h : g.Issued new)
      (hg' : g.redirectEdge source old new = .ok g') : Edits g g'
  | redirectInputs (old new : NodeId) (g' : Graph) (h : g.Issued new)
      (hg' : g.redirectInputs old new = .ok g') : Edits g g'
  | removeNode (id : NodeId) (n : Node) (g' : Graph) (hg' : g.removeNode id = .ok (n, g')) : Edits g g'
  | setEntry (entry : NodeId) : Edits g { g with entry }
  | removeUnreachable (gone : List NodeId) (g' : Graph) (hg' : g.removeUnreachable = .ok (gone, g')) :
      Edits g g'
  | recalculateInputs : Edits g g.recalculateInputs
  | renumber : Edits g g.renumber
  | sortBreadthFirst (g' : Graph) (hg' : g.sortBreadthFirst = .ok g') : Edits g g'
  | splitPart (region : List NodeId) (entry : NodeId) (part rest : Graph)
      (hg' : g.splitOff region entry = .ok (.ok (part, rest))) : Edits g part
  | splitRest (region : List NodeId) (entry : NodeId) (part rest : Graph)
      (hg' : g.splitOff region entry = .ok (.ok (part, rest))) : Edits g rest

/-- The predecessors are exact, and edges lead to issued identifiers only. -/
structure Linked (g : Graph) : Prop where
  tidy : g.Tidy
  issued : ∀ p id, g.chart.Targets p id → g.Issued id

theorem linked_empty : Graph.empty.Linked :=
  ⟨⟨.nil, nofun, fun _ _ => ⟨nofun, nofun⟩⟩, nofun⟩

/-! ### What each operation keeps -/

section

variable (hg : g.Linked)

include hg

theorem Linked.addNode (h : ∀ out ∈ n.outputs, g.Issued out ∨ out = ⟨g.nextSerial⟩) :
    (g.addNode n).2.Linked := by
  have hfree : ∀ p, ¬ g.chart.Targets p ⟨g.nextSerial⟩ :=
    fun p hp => Nat.lt_irrefl _ (hg.issued p _ hp)
  obtain ⟨_, htidy, hchart, _, hserial⟩ := hg.tidy.addNode n hfree
  refine ⟨htidy, fun p id ht => ?_⟩
  rw [hchart] at ht
  have ht := (Chart.targets_insert _).1 ht
  unfold Issued
  rw [hserial]
  split at ht
  · rcases h id ht with hid | rfl
    · exact Nat.lt_succ_of_lt hid
    · exact Nat.lt_succ_self _
  · exact Nat.lt_succ_of_lt (hg.issued p id ht)

theorem Linked.setExit {exit : Exit} (h : ∀ out ∈ exit.outputs, g.Issued out)
    (hg' : g.setExit id exit = .ok g') : g'.Linked := by
  obtain ⟨n, hn, _⟩ := bind_eq_ok_iff.1 hg'
  have hlive : g.chart.Live id := ⟨n.block, block?_of_get? (node_eq_ok_iff.1 hn)⟩
  obtain ⟨g₁, hset, htidy, _, hserial, hchart⟩ := hg.tidy.setExit hlive exit
  cases hset.symm.trans hg'
  refine ⟨htidy, fun p out ht => ?_⟩
  rw [hchart, Chart.targets_withExit hlive] at ht
  unfold Issued
  rw [hserial]
  split at ht
  · exact h out ht
  · exact hg.issued p out ht

omit hg in
theorem mem_outputs_retarget {e : Exit} {out : NodeId} (h : out ∈ (e.retarget old new).outputs) :
    out = new ∨ out ∈ e.outputs := by
  rw [Exit.retarget, Exit.outputs_map] at h
  obtain ⟨a, ha, rfl⟩ := mem_map.1 h
  split
  · exact .inl rfl
  · exact .inr ha

theorem Linked.redirectEdge {source : NodeId} (h : g.Issued new)
    (hg' : g.redirectEdge source old new = .ok g') : g'.Linked := by
  obtain ⟨n, hn, hset⟩ := bind_eq_ok_iff.1 hg'
  have hb := block?_of_get? (node_eq_ok_iff.1 hn)
  refine hg.setExit (fun out hout => ?_) hset
  rcases mem_outputs_retarget hout with rfl | hout
  · exact h
  · exact hg.issued source out ⟨n.block, hb, hout⟩

theorem Linked.redirectInputs (h : g.Issued new)
    (hg' : g.redirectInputs old new = .ok g') : g'.Linked := by
  obtain ⟨n, hn, _⟩ := bind_eq_ok_iff.1 hg'
  have hlive : g.chart.Live old := ⟨n.block, block?_of_get? (node_eq_ok_iff.1 hn)⟩
  obtain ⟨g₁, hred, htidy, _, hserial, hchart⟩ := hg.tidy.redirectInputs hlive new
  cases hred.symm.trans hg'
  refine ⟨htidy, ?_⟩
  rintro p out ⟨b, hb, hout⟩
  unfold Issued
  rw [hserial]
  rw [hchart, Chart.retarget_block?] at hb
  obtain ⟨c, hc, rfl⟩ := Option.map_eq_some_iff.1 hb
  rcases mem_outputs_retarget hout with rfl | hout
  · exact h
  · exact hg.issued p out ⟨c, hc, hout⟩

theorem Linked.erase (id : NodeId) : (g.erase id).Linked := by
  obtain ⟨htidy, hchart, _, hserial⟩ := hg.tidy.erase id
  refine ⟨htidy, fun p out ht => ?_⟩
  unfold Issued
  rw [hserial]
  rw [hchart, Chart.targets_erase] at ht
  exact hg.issued p out ht.2

theorem Linked.eraseAll (gone : List NodeId) : (gone.foldl Graph.erase g).Linked := by
  induction gone generalizing g with
  | nil => exact hg
  | cons a gone ih => exact ih (hg.erase a)

theorem Linked.of_chart (htidy : g'.Tidy) (hchart : g'.chart.block? = g.chart.block?)
    (hserial : g'.nextSerial = g.nextSerial) : g'.Linked := by
  refine ⟨htidy, fun p out ht => ?_⟩
  unfold Issued
  rw [hserial]
  unfold Chart.Targets at ht
  rw [hchart] at ht
  exact hg.issued p out ht

omit hg in
theorem Parted.linked_part {region : List NodeId} {part rest : Graph}
    (h : Parted g region entry part rest) : part.Linked := by
  refine ⟨h.part_tidy, fun p out ht => ?_⟩
  obtain ⟨_, _, new, hnew, _, _, rfl⟩ := h.exists_targets ht
  unfold Issued
  rw [h.part_serial]
  exact idxOf_lt_length_iff.2 hnew

/-- **Every operation keeps a graph linked.** -/
theorem Linked.edits (h : Edits g g') : g'.Linked := by
  cases h with
  | addNode n h => exact hg.addNode h
  | setExit id exit g' h hg' => exact hg.setExit h hg'
  | redirectEdge source old new g' h hg' => exact hg.redirectEdge h hg'
  | redirectInputs old new g' h hg' => exact hg.redirectInputs h hg'
  | removeNode id n g' hg' =>
    cases hn : g.get? id with
    | none => simp [Graph.removeNode, hn] at hg'
    | some m =>
      cases (removeNode_eq_ok hn).symm.trans hg'
      exact hg.erase id
  | setEntry entry => exact ⟨⟨hg.tidy.nodup, hg.tidy.issued, hg.tidy.exact⟩, hg.issued⟩
  | removeUnreachable gone g' hg' =>
    obtain ⟨reached, _, h⟩ := bind_eq_ok_iff.1 hg'
    cases h
    exact hg.eraseAll _
  | recalculateInputs =>
    obtain ⟨htidy, hchart, _, hserial⟩ := tidy_recalculateInputs hg.tidy.nodup hg.tidy.issued
    exact hg.of_chart htidy (congrArg Chart.block? hchart) hserial
  | renumber =>
    obtain ⟨hsame, _⟩ := same_renumber g
    exact hg.of_chart hg.tidy.renumber (congrArg Chart.block? hsame.chart) hsame.nextSerial
  | sortBreadthFirst g' hg' =>
    obtain ⟨htidy, hchart, _, hserial⟩ := hg.tidy.of_sortBreadthFirst hg'
    exact hg.of_chart htidy (congrArg Chart.block? hchart) hserial
  | splitPart region entry part rest hg' => exact (hg.tidy.parted hg').linked_part
  | splitRest region entry part rest hg' =>
    rw [(hg.tidy.parted hg').rest_eq]
    exact hg.eraseAll region

theorem Linked.run (h : Relation.ReflTransGen Edits g g') : g'.Linked := by
  induction h with
  | refl => exact hg
  | tail _ hstep ih => exact ih.edits hstep

/-! ### What a check of the links can find -/

theorem Linked.mem_inputs_iff (hn : g.get? id = some n) :
    p ∈ n.inputs ↔ ∃ m, g.get? p = some m ∧ m.exit.targets id = true := by
  rw [hg.tidy.mem_inputs_iff hn]
  constructor
  · rintro ⟨b, hb, hout⟩
    obtain ⟨m, hm, rfl⟩ := get?_of_block? hb
    exact ⟨m, hm, targets_iff.2 hout⟩
  · rintro ⟨m, hm, hout⟩
    exact ⟨m.block, block?_of_get? hm, targets_iff.1 hout⟩

theorem Linked.outputError? (hn : g.get? p = some n) (hid : id ∈ n.outputs)
    {e : LinkError} (he : g.outputError? p id = some e) :
    g.contains id = false ∧ e = .targetMissing p id := by
  unfold Graph.outputError? at he
  cases hm : g.get? id with
  | none =>
    rw [hm] at he
    cases he
    exact ⟨by rw [contains, hm]; rfl, rfl⟩
  | some m =>
    have hmem : m.inputs.contains p = true := by
      rw [NodeSet.contains, contains_iff_mem]
      exact (hg.mem_inputs_iff hm).2 ⟨n, hn, targets_iff.2 hid⟩
    rw [hm] at he
    simp [hmem] at he

theorem Linked.inputError? (hn : g.get? id = some n) (hp : p ∈ n.inputs) :
    g.inputError? id p = none := by
  obtain ⟨m, hm, hout⟩ := (hg.mem_inputs_iff hn).1 hp
  simp [Graph.inputError?, hm, hout]

theorem Linked.checkLinks {e : LinkError} (he : g.checkLinks = .error e) :
    (g.contains g.entry = false ∧ e = .entryMissing g.entry) ∨
      ∃ p n id, g.get? p = some n ∧ n.exit.targets id = true ∧ g.contains id = false ∧
        e = .targetMissing p id := by
  have he : g.linkError? = some e := by
    unfold Graph.checkLinks at he
    split at he <;> simp_all
  unfold linkError? at he
  split at he
  next hentry =>
    cases he
    exact .inl ⟨by simpa using (Bool.and_eq_true_iff.1 hentry).2, rfl⟩
  next =>
    obtain ⟨⟨p, n⟩, hmem, he⟩ := exists_of_findSome?_eq_some he
    have hn := (get?_eq_some_iff hg.tidy.nodup).2 hmem
    rcases Option.or_eq_some_iff.1 he with he | ⟨_, he⟩
    · obtain ⟨id, hid, he⟩ := exists_of_findSome?_eq_some he
      obtain ⟨hgone, rfl⟩ := hg.outputError? hn hid he
      exact .inr ⟨p, n, id, hn, targets_iff.2 hid, hgone, rfl⟩
    · obtain ⟨q, hq, he⟩ := exists_of_findSome?_eq_some he
      rw [hg.inputError? hn hq] at he
      cases he

end

end Structurer.Graph
