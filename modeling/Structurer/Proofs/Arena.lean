/-
**Two tables and one graph.**

The tables of an arena agree as long as the order lists the filled slots, each once.  The arena then
shows a graph, the one whose nodes stand in that order, and every operation on the tables is the operation
of the same name on the graph: both fail alike, or the tables that come out show the graph that comes
out.  So whatever an editor does to the tables, they never fall apart, and what holds of graphs holds of
them.
-/

import Mathlib.Data.List.Sort
import Structurer.Graph.Arena
import Structurer.Proofs.Editing

namespace Structurer

open Fallible List

/-! ### Sets of nodes -/

theorem NodeSet.ext_mem {s t : NodeSet} (h : ∀ id, id ∈ s ↔ id ∈ t) : s = t := by
  obtain ⟨l, hl⟩ := s
  obtain ⟨l', hl'⟩ := t
  have : Std.Irrefl fun a b : NodeId => a.serial < b.serial := ⟨fun _ => Nat.lt_irrefl _⟩
  have : Std.Antisymm fun a b : NodeId => a.serial < b.serial :=
    ⟨fun _ _ hab hba => absurd hab (Nat.lt_asymm hba)⟩
  cases hl.eq_of_mem_iff hl' h
  rfl

theorem NodeSet.insert_insert (s : NodeSet) (id : NodeId) : (s.insert id).insert id = s.insert id :=
  NodeSet.ext_mem fun a => by simp

/-! ### Work that fails alike -/

/-- Do two pieces of work fail alike, or come to results that belong together? -/
inductive Tandem {ε α β : Type} (R : α → β → Prop) : Except ε α → Except ε β → Prop where
  | ok {a : α} {b : β} (h : R a b) : Tandem R (.ok a) (.ok b)
  | error (e : ε) : Tandem R (.error e) (.error e)

section Tandem

variable {ε α β γ δ ι : Type} {R : α → β → Prop} {S : γ → δ → Prop} {x : Except ε α} {y : Except ε β}

theorem Tandem.bind {f : α → Except ε γ} {f' : β → Except ε δ} (h : Tandem R x y)
    (hf : ∀ a b, R a b → Tandem S (f a) (f' b)) : Tandem S (x >>= f) (y >>= f') := by
  cases h with
  | ok h => exact hf _ _ h
  | error e => exact .error e

theorem Tandem.foldlM {f : α → ι → Except ε α} {f' : β → ι → Except ε β}
    (hf : ∀ a b i, R a b → Tandem R (f a i) (f' b i)) (l : List ι) {a : α} {b : β} (h : R a b) :
    Tandem R (l.foldlM f a) (l.foldlM f' b) := by
  induction l generalizing a b with
  | nil => exact .ok h
  | cons i l ih =>
    rw [foldlM_cons, foldlM_cons]
    exact (hf a b i h).bind fun a b h => ih h

theorem Tandem.refl (x : Except ε α) : Tandem Eq x x := by
  cases x with
  | ok a => exact .ok rfl
  | error e => exact .error e

theorem Tandem.exists_right {a : α} (h : Tandem R x y) (hx : x = .ok a) : ∃ b, y = .ok b ∧ R a b := by
  subst hx
  cases h with
  | ok h => exact ⟨_, rfl, h⟩

theorem Tandem.exists_left {b : β} (h : Tandem R x y) (hy : y = .ok b) : ∃ a, x = .ok a ∧ R a b := by
  subst hy
  cases h with
  | ok h => exact ⟨_, rfl, h⟩

theorem foldlM_eq_mapM {f : ι → Except ε γ} (step : α → γ → α) (l : List ι) (a : α) :
    l.foldlM (fun a i => do return step a (← f i)) a = do return (← l.mapM f).foldl step a := by
  induction l generalizing a with
  | nil => rfl
  | cons i l ih =>
    rw [foldlM_cons, mapM_cons]
    cases f i with
    | error e => rfl
    | ok c =>
      refine (ih (step a c)).trans ?_
      simp only [ok_bind]
      cases l.mapM f <;> rfl

theorem findSomeM?_eq_ok {l : List ι} {f : ι → Except ε (Option α)} {r : ι → Option α}
    (h : ∀ i ∈ l, f i = .ok (r i)) : l.findSomeM? f = .ok (l.findSome? r) := by
  induction l with
  | nil => rfl
  | cons i l ih =>
    rw [findSomeM?_cons, h i (.head _), ok_bind, findSome?_cons, ih fun i hi => h i (.tail _ hi)]
    cases r i <;> rfl

end Tandem

/-! ### Graphs that are rebuilt -/

namespace Graph

variable {g g' : Graph}

def blocks (g : Graph) : List (NodeId × Block) := g.nodes.map fun e => (e.1, e.2.block)

theorem blocks_addInputs (outs : List NodeId) (s : NodeId) : (g.addInputs outs s).blocks = g.blocks := by
  induction outs generalizing g with
  | nil => rfl
  | cons out outs ih =>
    refine ih.trans ?_
    simp only [blocks, addInput, modify, map_map]
    refine map_congr_left fun e _ => ?_
    by_cases h : e.1 = out <;> simp [h, Node.block]

theorem blocks_addNode (n : Node) :
    (g.addNode n).2.blocks = g.blocks ++ [(⟨g.nextSerial⟩, n.block)] := by
  rw [← blocks_addInputs (g := g) n.outputs ⟨g.nextSerial⟩]
  exact map_append

theorem blocks_addNodes (nodes : List Node) : (nodes.foldl (fun g n => (g.addNode n).2) g).blocks =
    g.blocks ++ nodes.mapIdx fun k n => (⟨g.nextSerial + k⟩, n.block) := by
  induction nodes generalizing g with
  | nil => simp
  | cons n nodes ih =>
    have hserial : ∀ k, (g.addNode n).2.nextSerial + k = g.nextSerial + (k + 1) :=
      fun k => Nat.add_right_comm ..
    rw [foldl_cons, ih, blocks_addNode, mapIdx_cons, append_assoc, singleton_append]
    simp only [hserial, Nat.add_zero]

theorem nextSerial_addNodes (nodes : List Node) :
    (nodes.foldl (fun g n => (g.addNode n).2) g).nextSerial = g.nextSerial + nodes.length := by
  induction nodes generalizing g with
  | nil => rfl
  | cons n nodes ih =>
    rw [foldl_cons, ih, length_cons]
    exact Nat.add_right_comm ..

theorem rebuilt_congr (hblocks : g.blocks = g'.blocks) (hserial : g.nextSerial = g'.nextSerial)
    (hentry : g.entry = g'.entry) :
    g.recalculateInputs.renumber = g'.recalculateInputs.renumber := by
  have hrebuilt : ∀ g : Graph, g.recalculateInputs.renumber =
      ⟨g.blocks.mapIdx fun k e => (e.1, ⟨e.2.body, e.2.inputStack, e.2.outputStack,
          .ofList ((g.blocks.filter fun e' => e'.2.exit.targets e.1).map (·.1)), k, e.2.exit⟩),
        g.nextSerial, g.entry⟩ := by
    intro g
    have hsources : ∀ id, g.sources id =
        .ofList ((g.blocks.filter fun e => e.2.exit.targets id).map (·.1)) := by
      intro id
      rw [sources, blocks, filter_map, map_map]
      rfl
    simp only [recalculateInputs, renumber, hsources]
    congr 1
    exact ext_getElem (by simp [blocks]) fun k _ _ => by simp [blocks, Node.block]
  rw [hrebuilt, hrebuilt, hblocks, hserial, hentry]

end Graph

namespace Arena

variable {a a' : Arena} {g g' : Graph} {id j p : NodeId} {n : Node}

theorem get?_modify (f : Node → Node) :
    (a.modify id f).get? j = if j = id then (a.get? j).map f else a.get? j := by
  unfold get? modify
  rw [getElem?_modify]
  by_cases h : j = id
  · subst h
    rcases a.slots[j.serial]? with _ | _ | n <;> simp
  · have hne : id.serial ≠ j.serial := fun he => h (by cases id; cases j; simp_all)
    simp [h, hne]

/-! ### The graph that is shown -/

/-- Do the tables agree, and is this the graph that they keep? -/
structure Shows (a : Arena) (g : Graph) : Prop where
  nodup : a.order.Nodup
  ids : g.ids = a.order
  get : ∀ id, g.get? id = a.get? id
  serial : g.nextSerial = a.slots.length
  entry : g.entry = a.entry

theorem shows_empty : Arena.empty.Shows .empty := ⟨.nil, rfl, fun _ => rfl, rfl, rfl⟩

theorem lt_of_get? (h : a.get? id = some n) : id.serial < a.slots.length := by
  refine Nat.lt_of_not_le fun hle => ?_
  rw [get?, getElem?_eq_none hle] at h
  cases h

section Shows

variable (h : a.Shows g)

include h

theorem Shows.mem_order_iff : id ∈ a.order ↔ ∃ n, a.get? id = some n := by
  rw [← h.ids, Graph.mem_ids_iff, h.get]

theorem Shows.contains : a.contains id = g.contains id := by
  rw [Arena.contains, Graph.contains, h.get]

theorem Shows.size : g.size = a.order.length := by
  rw [← h.ids, Graph.size, Graph.ids, length_map]

theorem Shows.isEmpty : g.nodes.isEmpty = a.order.isEmpty := by
  rw [← h.ids, Graph.ids, isEmpty_map]

theorem Shows.node (id : NodeId) : a.node id = g.node id := by
  cases hn : a.get? id <;> simp [Arena.node, Graph.node, h.get, hn]

theorem Shows.fresh : (⟨g.nextSerial⟩ : NodeId) ∉ g.ids := by
  rw [h.ids, h.mem_order_iff, h.serial]
  rintro ⟨n, hn⟩
  exact Nat.lt_irrefl _ (lt_of_get? hn)

theorem Shows.graph_nodup : g.ids.Nodup := h.ids ▸ h.nodup

theorem Shows.node_of_mem {e : NodeId × Node} (he : e ∈ g.nodes) : a.node e.1 = .ok e.2 := by
  rw [h.node, Graph.node_eq_ok_iff]
  exact (Graph.get?_eq_some_iff h.graph_nodup).2 he

theorem Shows.findSomeM? {β : Type} (f : NodeId → Node → Option β) :
    (a.order.findSomeM? fun id => do return f id (← a.node id)) =
      .ok (g.nodes.findSome? fun e => f e.1 e.2) := by
  rw [← h.ids, Graph.ids, findSomeM?_map]
  exact findSomeM?_eq_ok fun e he => by rw [h.node_of_mem he]; rfl

theorem Shows.modify (id : NodeId) (f : Node → Node) : (a.modify id f).Shows (g.modify id f) where
  nodup := h.nodup
  ids := by rw [Graph.ids_modify, h.ids]; rfl
  get j := by rw [get?_modify, Graph.get?_modify, h.get]
  serial := h.serial.trans (length_modify ..).symm
  entry := h.entry

theorem Shows.addInputs (outs : List NodeId) (s : NodeId) :
    (outs.foldl (fun a out => a.addInput out s) a).Shows (g.addInputs outs s) := by
  induction outs generalizing a g with
  | nil => exact h
  | cons out outs ih => exact ih (h.modify out _)

theorem Shows.dropInputs (outs : List NodeId) (s : NodeId) :
    (outs.foldl (fun a out => a.dropInput out s) a).Shows (g.dropInputs outs s) := by
  induction outs generalizing a g with
  | nil => exact h
  | cons out outs ih => exact ih (h.modify out _)

/-! ### Nodes that come and go -/

omit h in
theorem addInput_of_le (hid : a.slots.length ≤ id.serial) (s : NodeId) : a.addInput id s = a := by
  unfold addInput Arena.modify
  rw [modify_eq_set_getElem?, getElem?_eq_none hid]
  rfl

omit h in
theorem link_eq (hid : a.slots.length ≤ id.serial) (outs : List NodeId) : a.link id outs =
    (if id ∈ outs then NodeSet.empty.insert id else .empty,
      outs.foldl (fun a out => a.addInput out id) a) := by
  have aux : ∀ (outs : List NodeId) (a : Arena) (s : NodeSet), a.slots.length ≤ id.serial →
      outs.foldl (fun (r : NodeSet × Arena) out =>
          if out = id then (r.1.insert id, r.2) else (r.1, r.2.addInput out id)) (s, a) =
        (if id ∈ outs then s.insert id else s, outs.foldl (fun a out => a.addInput out id) a) := by
    intro outs
    induction outs with
    | nil => intro a s _; rfl
    | cons out outs ih =>
      intro a s ha
      rw [foldl_cons, foldl_cons]
      by_cases h : out = id
      · subst h
        rw [if_pos rfl, ih _ _ ha, addInput_of_le ha, NodeSet.insert_insert]
        simp
      · have hlen : (a.addInput out id).slots.length ≤ id.serial := by
          simpa [addInput, Arena.modify] using ha
        simp [h, ih _ _ hlen, Ne.symm h]
  exact aux outs a .empty hid

omit h in
theorem get?_append (s : List (Option Node)) (n : Node) : (⟨s ++ [some n], o, e⟩ : Arena).get? j =
    if j = ⟨s.length⟩ then some n else (⟨s, o', e'⟩ : Arena).get? j := by
  obtain ⟨k⟩ := j
  unfold get?
  rcases Nat.lt_trichotomy k s.length with hk | hk | hk
  · simp [getElem?_append_left hk, Nat.ne_of_lt hk]
  · subst hk
    simp
  · simp [getElem?_eq_none (Nat.le_of_lt hk), getElem?_append_right (Nat.le_of_lt hk), Nat.ne_of_gt hk,
      getElem?_eq_none (l := [some n]) (i := k - s.length) (by simp; omega)]

theorem Shows.addNode (n : Node) : (a.addNode n).1 = (g.addNode n).1 ∧
    (a.addNode n).2.Shows (g.addNode n).2 := by
  -- the new node comes after what its edges have made of the tables
  obtain ⟨linked, hlinked⟩ : ∃ l, l = n.outputs.foldl (fun a out => a.addInput out ⟨g.nextSerial⟩) a :=
    ⟨_, rfl⟩
  have hshows : linked.Shows (g.addInputs n.outputs ⟨g.nextSerial⟩) := hlinked ▸ h.addInputs n.outputs _
  have hsame := Graph.same_addInputs g n.outputs ⟨g.nextSerial⟩
  have hlength : linked.slots.length = g.nextSerial := hshows.serial.symm.trans hsame.nextSerial
  have hadd : a.addNode n = (⟨g.nextSerial⟩,
      ⟨linked.slots ++ [some (g.placed n)], linked.order ++ [⟨g.nextSerial⟩],
        if a.order.isEmpty then ⟨g.nextSerial⟩ else a.entry⟩) := by
    have hlink : a.link ⟨g.nextSerial⟩ n.outputs = _ := link_eq (Nat.le_of_eq h.serial.symm) n.outputs
    rw [← hlinked] at hlink
    simp only [Arena.addNode, ← h.serial, hlink, ← h.size, Graph.placed, Exit.targets, contains_iff_mem]
    rfl
  rw [hadd]
  refine ⟨rfl, ?_, ?_, fun j => ?_, ?_, ?_⟩
  · rw [← hshows.ids, hsame.ids]
    exact nodup_append.2 ⟨h.graph_nodup, by simp, fun i hi j hj he => h.fresh (by simp_all)⟩
  · rw [Graph.ids_addNode, ← hshows.ids, hsame.ids]
  · rw [Graph.get?_addNode h.fresh, get?_append, hlength, hshows.get]
  · rw [length_append, hlength]
    rfl
  · show (if g.nodes.isEmpty then _ else g.entry) = _
    rw [h.isEmpty, h.entry]

theorem Shows.removeNode (id : NodeId) :
    Tandem (fun e e' => e.1 = e'.1 ∧ e.2.Shows e'.2) (a.removeNode id) (g.removeNode id) := by
  unfold Arena.removeNode Graph.removeNode Graph.erase
  rw [h.get]
  cases hn : a.get? id with
  | none => exact .error _
  | some n =>
    refine .ok ⟨rfl, Shows.dropInputs ?_ n.outputs id⟩
    refine ⟨h.nodup.filter _, ?_, fun j => ?_, ?_, h.entry⟩
    · show (g.nodes.filter _).map _ = a.order.filter _
      rw [← h.ids, Graph.ids, filter_map]
      rfl
    · rw [Graph.get?, Graph.lookup_filter_ne]
      show (if j = id then none else g.get? j) = _
      rw [h.get]
      unfold Arena.get?
      rw [getElem?_set]
      by_cases hj : j = id
      · simp [hj, lt_of_get? hn]
      · have hne : id.serial ≠ j.serial := fun he => hj (by cases id; cases j; simp_all)
        simp [hj, hne]
    · rw [length_set]
      exact h.serial

theorem Shows.setExit (id : NodeId) (exit : Exit) : Tandem Shows (a.setExit id exit) (g.setExit id exit) := by
  unfold Arena.setExit Graph.setExit
  rw [h.node]
  cases g.node id with
  | error e => exact .error e
  | ok old => exact .ok (((h.modify id _).dropInputs _ id).addInputs _ id)

theorem Shows.redirectEdge (source old new : NodeId) :
    Tandem Shows (a.redirectEdge source old new) (g.redirectEdge source old new) := by
  unfold Arena.redirectEdge Graph.redirectEdge
  rw [h.node]
  cases g.node source with
  | error e => exact .error e
  | ok n => exact h.setExit source _

theorem Shows.redirectInputs (old new : NodeId) :
    Tandem Shows (a.redirectInputs old new) (g.redirectInputs old new) := by
  unfold Arena.redirectInputs Graph.redirectInputs
  rw [h.node]
  cases g.node old with
  | error e => exact .error e
  | ok n =>
    refine Tandem.foldlM (fun a g source h => ?_) _ h
    rw [h.contains]
    split
    · exact h.redirectEdge source old new
    · exact .ok h

/-! ### Walks -/

theorem Shows.walk (avoid : Option NodeId) (fuel : Nat) (reached queue : List NodeId) :
    a.walk avoid fuel reached queue = g.walk avoid fuel reached queue := by
  induction fuel generalizing reached queue with
  | zero => rfl
  | succ fuel ih =>
    cases queue with
    | nil => rfl
    | cons id queue =>
      rw [Arena.walk, Graph.walk, h.node]
      simp only [ih]

theorem Shows.reachable : a.reachable = g.reachable g.entry none := by
  rw [Arena.reachable, Graph.reachable, h.walk, h.size, h.entry, if_neg nofun]

theorem Shows.eraseAll {gone : List NodeId} (hnd : gone.Nodup) (hlive : ∀ id ∈ gone, id ∈ a.order) :
    Works (gone.foldlM (fun a id => return (← a.removeNode id).2) a)
      (Shows · (gone.foldl Graph.erase g)) := by
  induction gone generalizing a g with
  | nil => exact .pure h
  | cons id gone ih =>
    obtain ⟨hid, hnd⟩ := nodup_cons.1 hnd
    obtain ⟨n, hn⟩ := Graph.mem_ids_iff.1 (h.ids ▸ hlive id (.head _))
    obtain ⟨⟨m, a₁⟩, hremove, rfl, h₁⟩ := (h.removeNode id).exists_left (Graph.removeNode_eq_ok hn)
    rw [foldlM_cons, hremove]
    refine ih h₁ hnd fun j hj => ?_
    rw [← h₁.ids, Graph.ids_erase, h.ids, mem_filter, decide_eq_true_eq]
    exact ⟨hlive j (.tail _ hj), fun he => hid (he ▸ hj)⟩

theorem Shows.removeUnreachable :
    Tandem (fun e e' => e.1 = e'.1 ∧ e.2.Shows e'.2) a.removeUnreachable g.removeUnreachable := by
  unfold Arena.removeUnreachable Graph.removeUnreachable
  rw [h.reachable]
  cases g.reachable g.entry none with
  | error e => exact .error e
  | ok reached =>
    obtain ⟨a', ha', hshows⟩ := h.eraseAll (h.nodup.filter (· ∉ reached)) fun id hid =>
      mem_of_mem_filter hid
    simp only [ok_bind, ha', h.ids]
    exact .ok ⟨rfl, hshows⟩

/-! ### What follows from successors and order -/

omit h in
theorem get?_addInputs (outs : List NodeId) (s : NodeId) :
    (outs.foldl (fun a out => a.addInput out s) a).get? j =
      (a.get? j).map fun n => if j ∈ outs then { n with inputs := n.inputs.insert s } else n := by
  induction outs generalizing a with
  | nil => simp
  | cons out outs ih =>
    rw [foldl_cons, ih, addInput, get?_modify]
    by_cases hj : j = out
    · subst hj
      rw [if_pos rfl, Option.map_map]
      congr 1
      funext n
      by_cases hmem : j ∈ outs <;> simp [hmem, NodeSet.insert_insert]
    · rw [if_neg hj]
      simp [hj]

/-- Tables that differ in what the nodes hold. -/
structure Kept (a a' : Arena) : Prop where
  order : a'.order = a.order
  length : a'.slots.length = a.slots.length
  entry : a'.entry = a.entry

omit h in
theorem Kept.modify (k : Kept a a') (id : NodeId) (f : Node → Node) : Kept a (a'.modify id f) :=
  ⟨k.order, (length_modify ..).trans k.length, k.entry⟩

omit h in
theorem Kept.addInputs (k : Kept a a') (outs : List NodeId) (s : NodeId) :
    Kept a (outs.foldl (fun a out => a.addInput out s) a') := by
  induction outs generalizing a' with
  | nil => exact k
  | cons out outs ih => exact ih (k.modify out _)

theorem Shows.of_kept (k : Kept a a') (hids : g'.ids = g.ids) (hget : ∀ j, g'.get? j = a'.get? j)
    (hserial : g'.nextSerial = g.nextSerial) (hentry : g'.entry = g.entry) : a'.Shows g' where
  nodup := k.order ▸ h.nodup
  ids := by rw [hids, h.ids, k.order]
  get := hget
  serial := by rw [hserial, h.serial, k.length]
  entry := by rw [hentry, h.entry, k.entry]

def sourcesIn (a : Arena) (nodes : List NodeId) (id : NodeId) : NodeSet :=
  .ofList (nodes.filter fun p => (a.get? p).any (·.exit.targets id))

theorem Shows.sources (j : NodeId) : g.sources j = a.sourcesIn a.order j := by
  rw [Graph.sources, sourcesIn, ← h.ids, Graph.ids, filter_map]
  congr 2
  refine filter_congr fun e he => ?_
  have hget := (Graph.get?_eq_some_iff h.graph_nodup).2 he
  rw [h.get] at hget
  simp [hget]

omit h in
theorem sourcesIn_append (hn : a.get? id = some n) (done : List NodeId) :
    a.sourcesIn (done ++ [id]) j =
      if j ∈ n.outputs then (a.sourcesIn done j).insert id else a.sourcesIn done j := by
  have htargets : n.exit.targets j = decide (j ∈ n.outputs) :=
    Bool.eq_iff_iff.2 (by rw [Graph.targets_iff, decide_eq_true_eq]; rfl)
  unfold sourcesIn
  rw [filter_append, filter_singleton, hn, Option.any_some, htargets]
  by_cases hj : j ∈ n.outputs <;> simp [hj, NodeSet.ofList]

omit h in
theorem get?_map_slots (f : Node → Node) :
    ({ a with slots := a.slots.map (Option.map f) } : Arena).get? j = (a.get? j).map f := by
  unfold get?
  rw [getElem?_map]
  rcases a.slots[j.serial]? with _ | _ | n <;> rfl

theorem Shows.recalculateInputs : Works a.recalculateInputs (Shows · g.recalculateInputs) := by
  -- after some of the nodes, the predecessors found are those among them
  refine (Works.foldlM (I := fun done b => Kept a b ∧ ∀ j, b.get? j =
    (a.get? j).map fun n => { n with inputs := a.sourcesIn done j }) ?_ ?_).mono ?_
  · rintro done id rest b hl ⟨k, hget⟩
    obtain ⟨n, hn⟩ := h.mem_order_iff.1 (hl ▸ mem_append_right _ (.head _) : id ∈ a.order)
    have hnode : b.node id = .ok { n with inputs := a.sourcesIn done id } := by
      rw [Arena.node, hget, hn]
      rfl
    rw [hnode]
    refine .pure ⟨k.addInputs n.outputs id, fun j => ?_⟩
    rw [get?_addInputs, hget, Option.map_map, sourcesIn_append hn]
    congr 1
    funext m
    show (if j ∈ n.outputs then _ else _) = _
    split <;> rfl
  · exact ⟨⟨rfl, length_map .., rfl⟩, fun j => get?_map_slots _⟩
  · rintro b ⟨k, hget⟩
    refine h.of_kept k Graph.ids_recalculateInputs (fun j => ?_) rfl rfl
    rw [Graph.get?_recalculateInputs, hget, h.get, h.sources]

theorem Shows.renumber : Works a.renumber (Shows · g.renumber) := by
  -- the nodes met so far have their positions
  refine (Works.foldlM (I := fun done b => Kept a b ∧ ∀ j, b.get? j =
    (a.get? j).map fun n => if j ∈ done.map (·.1) then { n with index := a.order.idxOf j } else n)
    ?_ ⟨⟨rfl, rfl, rfl⟩, fun j => by simp⟩).mono ?_
  · rintro done ⟨id, i⟩ rest b hl ⟨k, hget⟩
    have hmem : (id, i) ∈ a.order.zipIdx := hl ▸ mem_append_right _ (.head _)
    obtain ⟨hlt, (hid : a.order[i] = id)⟩ := List.getElem?_eq_some_iff.1 (mem_zipIdx_iff_getElem?.1 hmem)
    obtain ⟨n, hn⟩ := h.mem_order_iff.1 (hid ▸ getElem_mem hlt : id ∈ a.order)
    have hindex : a.order.idxOf id = i := hid ▸ h.nodup.idxOf_getElem i hlt
    have hnode : b.node id = .ok (if id ∈ done.map (·.1) then { n with index := a.order.idxOf id } else n) := by
      rw [Arena.node, hget, hn]
      rfl
    simp only [hnode]
    refine .pure ⟨k.modify id _, fun j => ?_⟩
    rw [get?_modify, hget, map_append, map_singleton]
    by_cases hj : j = id
    · subst hj
      rw [if_pos rfl, Option.map_map, hn]
      simp only [Option.map_some, Function.comp_apply, hindex]
      by_cases hdone : j ∈ done.map (·.1) <;> simp [hdone]
    · rw [if_neg hj]
      simp only [mem_append, mem_singleton, hj, or_false]
  · rintro b ⟨k, hget⟩
    refine h.of_kept k (Graph.same_renumber g).1.ids (fun j => ?_) rfl rfl
    rw [Graph.get?_renumber, hget, h.get, h.ids, zipIdx_map_fst]
    cases hj : a.get? j with
    | none => rfl
    | some n =>
      have hmem : j ∈ a.order := h.mem_order_iff.2 ⟨n, hj⟩
      simp [hmem]

omit h in
theorem mem_ids_of_walk {avoid : Option NodeId} {fuel : Nat} {reached queue found : List NodeId}
    (hreached : ∀ id ∈ reached, id ∈ g.ids) (hw : g.walk avoid fuel reached queue = .ok found) :
    ∀ id ∈ found, id ∈ g.ids := by
  induction fuel generalizing reached queue with
  | zero =>
    cases hw
    exact hreached
  | succ fuel ih =>
    cases queue with
    | nil =>
      cases hw
      exact hreached
    | cons id queue =>
      obtain ⟨n, hn, hw⟩ := bind_eq_ok_iff.1 hw
      refine ih (fun j hj => ?_) hw
      rcases mem_append.1 hj with hj | hj
      · exact hreached j hj
      · cases mem_singleton.1 hj
        exact Graph.mem_ids_iff.2 ⟨n, Graph.node_eq_ok_iff.1 hn⟩

theorem Shows.reordered {reached : List NodeId} (hnd : reached.Nodup) (hlive : ∀ id ∈ reached, id ∈ g.ids) :
    ({ a with order := reached ++ a.order.filter (· ∉ reached) } : Arena).Shows
      { g with nodes := (reached.filterMap fun id => (g.get? id).map fun n => (id, n)) ++
        g.nodes.filter (·.1 ∉ reached) } := by
  have hfront : (reached.filterMap fun id => (g.get? id).map fun n => (id, n)).map (·.1) = reached := by
    rw [map_filterMap]
    conv_rhs => rw [← filterMap_some (l := reached)]
    refine filterMap_congr fun id hid => ?_
    obtain ⟨n, hn⟩ := Graph.mem_ids_iff.1 (hlive id hid)
    simp [hn]
  refine ⟨nodup_append.2 ⟨hnd, h.nodup.filter _, ?_⟩, ?_, fun j => ?_, h.serial, h.entry⟩
  · intro i hi j hj he
    simp_all
  · rw [Graph.ids, map_append, hfront, ← h.ids, Graph.ids, filter_map]
    rfl
  · rw [Graph.get?_of_perm h.graph_nodup (Graph.perm_reorder h.graph_nodup hnd)]
    exact h.get j

theorem Shows.sortBreadthFirst : Tandem Shows a.sortBreadthFirst g.sortBreadthFirst := by
  unfold Arena.sortBreadthFirst Graph.sortBreadthFirst
  rw [h.reachable]
  cases hr : g.reachable g.entry none with
  | error e => exact .error e
  | ok reached =>
    have hlive : ∀ id ∈ reached, id ∈ g.ids := by
      refine mem_ids_of_walk ?_ hr
      simp
    obtain ⟨a', ha', hshows⟩ := (h.reordered (Graph.nodup_reachable hr) hlive).renumber
    simp only [ok_bind, ha']
    exact .ok hshows

/-! ### Regions -/

theorem Shows.crossing? (region : List NodeId) : a.crossing? region = .ok (g.crossing? region) :=
  h.findSomeM? fun id n =>
    (n.outputs.find? fun out => region.contains id != region.contains out).map (SplitError.crossing id ·)

theorem Shows.removeNodes (ids : List NodeId) :
    Tandem (fun e e' => e.1 = e'.1 ∧ e.2.Shows e'.2) (a.removeNodes ids) (g.removeNodes ids) := by
  induction ids generalizing a g with
  | nil => exact .ok ⟨rfl, h⟩
  | cons id ids ih =>
    refine (h.removeNode id).bind ?_
    rintro ⟨n, a⟩ ⟨_, g⟩ ⟨rfl, h⟩
    refine (ih h).bind ?_
    rintro ⟨ns, a⟩ ⟨_, g⟩ ⟨rfl, h⟩
    exact .ok ⟨rfl, h⟩

end Shows

theorem shows_addNodes (h : a.Shows g) (nodes : List Node) :
    (nodes.foldl (fun a n => (a.addNode n).2) a).Shows (nodes.foldl (fun g n => (g.addNode n).2) g) := by
  induction nodes generalizing a g with
  | nil => exact h
  | cons n nodes ih => exact ih (h.addNode n).2

theorem works_rebuild (nodes : List Node) (entry : NodeId) :
    Works (do (← { nodes.foldl (fun a n => (addNode a n).2) empty with entry }.recalculateInputs).renumber)
      (Shows · (Graph.recalculateInputs
        ⟨nodes.mapIdx fun k n => (⟨k⟩, n), nodes.length, entry⟩).renumber) := by
  have hblocks := Graph.blocks_addNodes (g := .empty) nodes
  have hserial := Graph.nextSerial_addNodes (g := .empty) nodes
  have hadded := shows_addNodes shows_empty nodes
  generalize nodes.foldl (fun a n => (addNode a n).2) empty = a at hadded
  generalize nodes.foldl (fun g n => (Graph.addNode g n).2) .empty = g at hblocks hserial hadded
  have hshows : Shows { a with entry } { g with entry } :=
    ⟨hadded.nodup, hadded.ids, hadded.get, hadded.serial, rfl⟩
  have hrebuilt : ({ g with entry } : Graph).recalculateInputs.renumber =
      (Graph.recalculateInputs ⟨nodes.mapIdx fun k n => (⟨k⟩, n), nodes.length, entry⟩).renumber := by
    refine Graph.rebuilt_congr (hblocks.trans ?_) (hserial.trans (Nat.zero_add _)) rfl
    exact ext_getElem (by simp [Graph.blocks, Graph.empty]) fun k _ _ => by
      simp [Graph.blocks, Graph.empty]
  rw [← hrebuilt]
  exact hshows.recalculateInputs.bind fun a ha => ha.renumber

theorem shows_ofRegion (region : List NodeId) (nodes : List Node) (entry : NodeId) :
    Tandem Shows (ofRegion region nodes entry) (Graph.ofRegion region nodes entry) := by
  have hadd := foldlM_eq_mapM (fun a n => (addNode a n).2)
    (f := fun n => do return { n with exit := ← n.exit.mapM (Graph.newId region) }) nodes empty
  simp only [bind_assoc, pure_bind] at hadd
  unfold ofRegion Graph.ofRegion
  rw [hadd, bind_assoc]
  refine (Tandem.refl _).bind ?_
  rintro ns _ rfl
  rw [pure_bind]
  refine (Tandem.refl _).bind ?_
  rintro new _ rfl
  obtain ⟨a, ha, hshows⟩ := works_rebuild ns new
  rw [ha]
  exact .ok hshows

theorem Shows.splitOff (h : a.Shows g) (region : List NodeId) (entry : NodeId) :
    Tandem (Tandem fun e e' => e.1.Shows e'.1 ∧ e.2.Shows e'.2) (a.splitOff region entry)
      (g.splitOff region entry) := by
  unfold Arena.splitOff Graph.splitOff
  rw [h.crossing?]
  split
  · rw [ok_bind]
    cases g.crossing? region with
    | some e => exact .ok (.error e)
    | none =>
      refine (h.removeNodes region).bind ?_
      rintro ⟨nodes, rest⟩ ⟨_, rest'⟩ ⟨rfl, hrest⟩
      exact (shows_ofRegion region nodes entry).bind fun part part' hpart => .ok (.ok ⟨hpart, hrest⟩)
  · exact .ok (.error _)

/-! ### Agreement of edges and predecessors -/

theorem Shows.linkError? (h : a.Shows g) : a.linkError? = .ok g.linkError? := by
  have houtput : a.outputError? = g.outputError? := by
    funext p id
    cases hn : a.get? id <;> simp [Arena.outputError?, Graph.outputError?, h.get, hn]
  have hinput : a.inputError? = g.inputError? := by
    funext id p
    cases hn : a.get? p <;> simp [Arena.inputError?, Graph.inputError?, h.get, hn]
  unfold Arena.linkError? Graph.linkError?
  rw [h.isEmpty, ← h.contains, h.entry, houtput, hinput]
  split
  · rfl
  · exact h.findSomeM? fun id n =>
      (n.outputs.findSome? (g.outputError? id)).or (n.inputs.toList.findSome? (g.inputError? id))

theorem Shows.checkLinks (h : a.Shows g) : a.checkLinks = .ok g.checkLinks := by
  unfold Arena.checkLinks Graph.checkLinks
  rw [h.linkError?, ok_bind]
  cases g.linkError? <;> rfl

/-! ### Operations in a row -/

/-- Was an identifier given to a node, which may be gone by now? -/
def Issued (a : Arena) (id : NodeId) : Prop := id.serial < a.slots.length

/-- One operation on the tables that goes through.  The successors that it is given were issued before,
or are the new node itself. -/
inductive Edits (a : Arena) : Arena → Prop where
  | addNode (n : Node) (h : ∀ out ∈ n.outputs, a.Issued out ∨ out = ⟨a.slots.length⟩) :
      Edits a (a.addNode n).2
  | setExit (id : NodeId) (exit : Exit) (a' : Arena) (h : ∀ out ∈ exit.outputs, a.Issued out)
      (ha' : a.setExit id exit = .ok a') : Edits a a'
  | redirectEdge (source old new : NodeId) (a' : Arena) (h : a.Issued new)
      (ha' : a.redirectEdge source old new = .ok a') : Edits a a'
  | redirectInputs (old new : NodeId) (a' : Arena) (h : a.Issued new)
      (ha' : a.redirectInputs old new = .ok a') : Edits a a'
  | removeNode (id : NodeId) (n : Node) (a' : Arena) (ha' : a.removeNode id = .ok (n, a')) : Edits a a'
  | setEntry (entry : NodeId) : Edits a { a with entry }
  | removeUnreachable (gone : List NodeId) (a' : Arena) (ha' : a.removeUnreachable = .ok (gone, a')) :
      Edits a a'
  | recalculateInputs (a' : Arena) (ha' : a.recalculateInputs = .ok a') : Edits a a'
  | renumber (a' : Arena) (ha' : a.renumber = .ok a') : Edits a a'
  | sortBreadthFirst (a' : Arena) (ha' : a.sortBreadthFirst = .ok a') : Edits a a'
  | splitPart (region : List NodeId) (entry : NodeId) (part rest : Arena)
      (ha' : a.splitOff region entry = .ok (.ok (part, rest))) : Edits a part
  | splitRest (region : List NodeId) (entry : NodeId) (part rest : Arena)
      (ha' : a.splitOff region entry = .ok (.ok (part, rest))) : Edits a rest

theorem Shows.issued (h : a.Shows g) : g.Issued id ↔ a.Issued id := by
  rw [Graph.Issued, Issued, h.serial]

theorem Shows.exists_of_works {x : Except Fault Arena} (h : Works x (Shows · g)) (hx : x = .ok a) :
    a.Shows g := by
  obtain ⟨_, ha, h⟩ := h
  cases hx.symm.trans ha
  exact h

/-- **One operation on the tables is one operation on the graph.** -/
theorem Shows.edits (h : a.Shows g) (hedits : a.Edits a') : ∃ g', g.Edits g' ∧ a'.Shows g' := by
  cases hedits with
  | addNode n hout =>
    refine ⟨_, .addNode n fun out ho => ?_, (h.addNode n).2⟩
    rw [h.issued, h.serial]
    exact hout out ho
  | setExit id exit a' hout ha' =>
    obtain ⟨g', hg', hshows⟩ := (h.setExit id exit).exists_right ha'
    exact ⟨g', .setExit id exit g' (fun out ho => h.issued.2 (hout out ho)) hg', hshows⟩
  | redirectEdge source old new a' hnew ha' =>
    obtain ⟨g', hg', hshows⟩ := (h.redirectEdge source old new).exists_right ha'
    exact ⟨g', .redirectEdge source old new g' (h.issued.2 hnew) hg', hshows⟩
  | redirectInputs old new a' hnew ha' =>
    obtain ⟨g', hg', hshows⟩ := (h.redirectInputs old new).exists_right ha'
    exact ⟨g', .redirectInputs old new g' (h.issued.2 hnew) hg', hshows⟩
  | removeNode id n a' ha' =>
    obtain ⟨⟨_, g'⟩, hg', _, hshows⟩ := (h.removeNode id).exists_right ha'
    exact ⟨g', .removeNode id _ g' hg', hshows⟩
  | setEntry entry => exact ⟨_, .setEntry entry, h.nodup, h.ids, h.get, h.serial, rfl⟩
  | removeUnreachable gone a' ha' =>
    obtain ⟨⟨_, g'⟩, hg', _, hshows⟩ := h.removeUnreachable.exists_right ha'
    exact ⟨g', .removeUnreachable _ g' hg', hshows⟩
  | recalculateInputs a' ha' =>
    exact ⟨_, .recalculateInputs, exists_of_works h.recalculateInputs ha'⟩
  | renumber a' ha' => exact ⟨_, .renumber, exists_of_works h.renumber ha'⟩
  | sortBreadthFirst a' ha' =>
    obtain ⟨g', hg', hshows⟩ := h.sortBreadthFirst.exists_right ha'
    exact ⟨g', .sortBreadthFirst g' hg', hshows⟩
  | splitPart region entry part rest ha' =>
    obtain ⟨_, hg', hboth⟩ := (h.splitOff region entry).exists_right ha'
    cases hboth with
    | ok hboth => exact ⟨_, .splitPart region entry _ _ hg', hboth.1⟩
  | splitRest region entry part rest ha' =>
    obtain ⟨_, hg', hboth⟩ := (h.splitOff region entry).exists_right ha'
    cases hboth with
    | ok hboth => exact ⟨_, .splitRest region entry _ _ hg', hboth.2⟩

theorem Shows.run (h : a.Shows g) (hrun : Relation.ReflTransGen Edits a a') :
    ∃ g', Relation.ReflTransGen Graph.Edits g g' ∧ a'.Shows g' := by
  induction hrun with
  | refl => exact ⟨g, .refl, h⟩
  | tail _ hstep ih =>
    obtain ⟨g₁, hg₁, h₁⟩ := ih
    obtain ⟨g₂, hg₂, h₂⟩ := h₁.edits hstep
    exact ⟨g₂, hg₁.tail hg₂, h₂⟩

/-- **After any row of operations, begun with empty tables, the tables agree and the predecessors are
exact.**  The order lists the nodes that are there, each once, every node lists exactly the nodes with an
edge to it, and a check of the links comes to an end: it can only find that the entry or the target of an
edge is not there. -/
theorem edits_keep_links {a : Arena} (h : Relation.ReflTransGen Edits Arena.empty a) :
    a.order.Nodup ∧ (∀ id, id ∈ a.order ↔ a.contains id = true) ∧
    (∀ id n, a.get? id = some n →
      ∀ p, p ∈ n.inputs ↔ ∃ m, a.get? p = some m ∧ m.exit.targets id = true) ∧
    ∃ r, a.checkLinks = .ok r ∧ ∀ e, r = .error e →
      (a.contains a.entry = false ∧ e = .entryMissing a.entry) ∨
        ∃ p n id, a.get? p = some n ∧ n.exit.targets id = true ∧ a.contains id = false ∧
          e = .targetMissing p id := by
  obtain ⟨g, hrun, hshows⟩ := shows_empty.run h
  have hg : g.Linked := Graph.linked_empty.run hrun
  refine ⟨hshows.nodup, fun id => ?_, fun id n hn p => ?_, _, hshows.checkLinks, fun e he => ?_⟩
  · rw [hshows.mem_order_iff, Arena.contains, Option.isSome_iff_exists]
  · simp only [← hshows.get] at hn ⊢
    exact hg.mem_inputs_iff hn
  · simp only [hshows.contains, ← hshows.get, ← hshows.entry]
    exact hg.checkLinks he

def selfLoops : Arena :=
  let n : Node := .new [] [] []
  ((empty.addNode { n with exit := .seq ⟨0⟩ }).2.addNode { n with exit := .branch ⟨1⟩ ⟨0⟩ }).2

theorem edits_keep_links_selfLoops :
    ∃ n a, selfLoops.removeNode ⟨0⟩ = .ok (n, a) ∧ a.slots.length = 2 ∧ a.order = [⟨1⟩] ∧
      (∀ id, id ∈ a.order ↔ a.contains id = true) ∧
      (∀ n, a.get? ⟨1⟩ = some n →
        ∀ p, p ∈ n.inputs ↔ ∃ m, a.get? p = some m ∧ m.exit.targets ⟨1⟩ = true) ∧
      ({ a with entry := ⟨1⟩ } : Arena).checkLinks = .ok (.error (.targetMissing ⟨1⟩ ⟨0⟩)) ∧
      ∃ p n id, a.get? p = some n ∧ n.exit.targets id = true ∧ a.contains id = false ∧
        LinkError.targetMissing ⟨1⟩ ⟨0⟩ = .targetMissing p id := by
  have hbuilt : Relation.ReflTransGen Edits empty selfLoops := by
    refine .tail (.tail .refl (.addNode _ ?_)) (.addNode _ ?_)
    · intro out hout
      exact .inr (mem_singleton.1 hout)
    · intro out hout
      rcases mem_cons.1 hout with rfl | hout
      · exact .inr rfl
      · cases mem_singleton.1 hout
        exact .inl Nat.one_pos
  have hgone := hbuilt.tail (.removeNode ⟨0⟩ _ _ rfl)
  obtain ⟨_, hlive, hinputs, _⟩ := edits_keep_links hgone
  obtain ⟨_, _, _, r, hr, hlinks⟩ := edits_keep_links (hgone.tail (.setEntry ⟨1⟩))
  cases hr
  refine ⟨_, _, rfl, rfl, rfl, hlive, hinputs ⟨1⟩, rfl, (hlinks _ rfl).resolve_left ?_⟩
  rintro ⟨_, he⟩
  cases he

end Arena

end Structurer
