/-
**Graphs without their comments.**

What an operation on graphs does follows from the edges, the stacks and the order of the nodes; it does not
look into their bodies.  So it makes no difference whether the comments of all bodies are deleted before the
operation or after it.
-/

import Structurer.Graph.Acyclic
import Structurer.Graph.Dump
import Structurer.Graph.Ends
import Structurer.Graph.Links
import Structurer.Graph.Region
import Structurer.Proofs.Comments
import Structurer.Reduce.Site

namespace Structurer

open List Function

def Node.bare (n : Node) : Node := { n with body := Body.bare n.body }

def Graph.bare (g : Graph) : Graph := { g with nodes := g.nodes.map fun e => (e.1, e.2.bare) }

namespace Node

variable (n : Node)

@[simp] theorem bare_body : n.bare.body = Body.bare n.body := rfl

@[simp] theorem bare_exit : n.bare.exit = n.exit := rfl

@[simp] theorem bare_outputs : n.bare.outputs = n.outputs := rfl

@[simp] theorem bare_inputs : n.bare.inputs = n.inputs := rfl

@[simp] theorem bare_inputStack : n.bare.inputStack = n.inputStack := rfl

@[simp] theorem bare_outputStack : n.bare.outputStack = n.outputStack := rfl

@[simp] theorem bare_index : n.bare.index = n.index := rfl

end Node

namespace Graph

variable (g : Graph) (id : NodeId)

/-! ### Looking nodes up -/

@[simp] theorem bare_entry : g.bare.entry = g.entry := rfl

@[simp] theorem bare_nextSerial : g.bare.nextSerial = g.nextSerial := rfl

theorem bare_nodes : g.bare.nodes = g.nodes.map fun e => (e.1, e.2.bare) := rfl

@[simp] theorem size_bare : g.bare.size = g.size := by simp [size, bare]

@[simp] theorem ids_bare : g.bare.ids = g.ids := by simp [ids, bare, comp_def]

@[simp] theorem get?_bare : g.bare.get? id = (g.get? id).map Node.bare := by
  unfold get?
  rw [bare_nodes]
  induction g.nodes with
  | nil => rfl
  | cons e nodes ih =>
    obtain ⟨i, n⟩ := e
    rw [map_cons, List.lookup_cons, List.lookup_cons, ih]
    cases id == i <;> rfl

@[simp] theorem contains_bare : g.bare.contains id = g.contains id := by simp [contains]

@[simp] theorem node_bare : g.bare.node id = Node.bare <$> g.node id := by
  unfold node
  rw [get?_bare]
  cases g.get? id <;> rfl

@[simp] theorem isSolved_bare : g.bare.isSolved = g.isSolved := by
  simp [isSolved, Option.map_map, comp_def]

/-! ### Changing nodes -/

variable {g id} {f f' : Node → Node}

theorem bare_modify (h : ∀ n, (f n).bare = f' n.bare) : (g.modify id f).bare = g.bare.modify id f' := by
  simp only [bare, modify, List.map_map]
  congr 1
  refine map_congr_left fun e _ => ?_
  by_cases hi : e.1 = id <;> simp [hi, h]

variable (g id)

theorem bare_addInput (target source : NodeId) :
    (g.addInput target source).bare = g.bare.addInput target source :=
  bare_modify fun _ => rfl

theorem bare_dropInput (target source : NodeId) :
    (g.dropInput target source).bare = g.bare.dropInput target source :=
  bare_modify fun _ => rfl

theorem bare_addInputs (outs : List NodeId) (id : NodeId) :
    (outs.foldl (fun g out => g.addInput out id) g).bare =
      outs.foldl (fun g out => g.addInput out id) g.bare :=
  (foldl_hom Graph.bare fun g out => (bare_addInput g out id).symm).symm

theorem bare_dropInputs (outs : List NodeId) (id : NodeId) :
    (outs.foldl (fun g out => g.dropInput out id) g).bare =
      outs.foldl (fun g out => g.dropInput out id) g.bare :=
  (foldl_hom Graph.bare fun g out => (bare_dropInput g out id).symm).symm

theorem bare_addNode (n : Node) :
    g.bare.addNode n.bare = ((g.addNode n).1, (g.addNode n).2.bare) := by
  have hnodes := congrArg Graph.nodes (bare_addInputs g n.outputs ⟨g.nextSerial⟩)
  rw [bare_nodes] at hnodes
  have hempty : g.bare.nodes.isEmpty = g.nodes.isEmpty := by rw [bare_nodes, isEmpty_map]
  simp only [addNode, bare_nextSerial, Node.bare_outputs, size_bare, hempty, bare_entry, ← hnodes,
    Prod.mk.injEq, true_and]
  simp [bare, Node.bare]
  rfl

theorem bare_erase : (g.erase id).bare = g.bare.erase id := by
  unfold erase
  rw [get?_bare]
  cases g.get? id with
  | none => rfl
  | some n =>
    simp only [Option.map_some, Node.bare_outputs]
    rw [bare_dropInputs]
    simp [bare, filter_map, comp_def]

theorem bare_eraseOrphan : (g.eraseOrphan id).bare = g.bare.eraseOrphan id := by
  unfold eraseOrphan
  rw [get?_bare]
  cases g.get? id with
  | none => rfl
  | some n =>
    simp only [Option.map_some, Node.bare_inputs, bare_entry, ← bare_erase, apply_ite Graph.bare]
    rfl

theorem removeNode_bare :
    g.bare.removeNode id = (fun r => (r.1.bare, r.2.bare)) <$> g.removeNode id := by
  unfold removeNode
  rw [get?_bare]
  cases g.get? id with
  | none => rfl
  | some n =>
    show Except.ok (n.bare, g.bare.erase id) = .ok (n.bare, (g.erase id).bare)
    rw [bare_erase]

theorem setExit_bare (exit : Exit) :
    g.bare.setExit id exit = Graph.bare <$> g.setExit id exit := by
  simp only [setExit, node_bare, bind_map_left, map_bind, map_pure, Node.bare_outputs]
  congr 1
  funext old
  have hmodify : (g.modify id fun n => { n with exit }).bare = g.bare.modify id fun n => { n with exit } :=
    bare_modify fun _ => rfl
  rw [bare_addInputs, bare_dropInputs, hmodify]

theorem redirectEdge_bare (source old new : NodeId) :
    g.bare.redirectEdge source old new = Graph.bare <$> g.redirectEdge source old new := by
  simp [redirectEdge, setExit_bare, map_bind]

theorem foldlM_bare {α : Type} {step step' : Graph → α → Except Fault Graph}
    (h : ∀ g a, step' g.bare a = Graph.bare <$> step g a) (l : List α) (g : Graph) :
    l.foldlM step' g.bare = Graph.bare <$> l.foldlM step g := by
  induction l generalizing g with
  | nil => rfl
  | cons a l ih => simp only [foldlM_cons, h, bind_map_left, map_bind, ih]

theorem redirectInputs_bare (old new : NodeId) :
    g.bare.redirectInputs old new = Graph.bare <$> g.redirectInputs old new := by
  simp only [redirectInputs, node_bare, bind_map_left, map_bind, Node.bare_inputs]
  congr 1
  funext n
  refine foldlM_bare (fun g source => ?_) _ g
  rw [contains_bare]
  split
  · exact redirectEdge_bare g source old new
  · rfl

/-! ### What follows from successors and order -/

theorem sources_bare : g.bare.sources id = g.sources id := by
  simp [sources, bare, filter_map, comp_def]

theorem bare_recalculateInputs : g.recalculateInputs.bare = g.bare.recalculateInputs := by
  simp only [recalculateInputs, sources_bare]
  simp [bare, Node.bare, comp_def]

theorem bare_renumber : g.renumber.bare = g.bare.renumber := by
  simp only [renumber, bare, Graph.mk.injEq, and_true]
  refine ext_getElem? fun k => ?_
  simp [Node.bare, comp_def]

/-! ### Reach -/

theorem walk_bare (avoid : Option NodeId) (fuel : Nat) (reached queue : List NodeId) :
    g.bare.walk avoid fuel reached queue = g.walk avoid fuel reached queue := by
  induction fuel generalizing reached queue with
  | zero => rfl
  | succ fuel ih =>
    cases queue with
    | nil => rfl
    | cons id queue => simp [walk, ih]

theorem reachable_bare (start : NodeId) (avoid : Option NodeId) :
    g.bare.reachable start avoid = g.reachable start avoid := by
  rw [reachable, reachable, walk_bare, size_bare]

theorem removeUnreachable_bare :
    g.bare.removeUnreachable = (fun r => (r.1, r.2.bare)) <$> g.removeUnreachable := by
  simp only [removeUnreachable, bare_entry, reachable_bare, ids_bare, map_bind, map_pure]
  congr 1
  funext reached
  rw [foldl_hom Graph.bare fun g id => (bare_erase g id).symm]

theorem sortBreadthFirst_bare :
    g.bare.sortBreadthFirst = Graph.bare <$> g.sortBreadthFirst := by
  simp only [sortBreadthFirst, bare_entry, reachable_bare, map_bind, map_pure, bare_renumber, get?_bare]
  congr 1
  funext reached
  simp [bare, map_filterMap, filter_map, comp_def, Option.map_map]

theorem fingerprint_bare (maxLen : Nat) :
    g.bare.fingerprint maxLen = (fun r => (r.1, r.2.bare)) <$> g.fingerprint maxLen := by
  have hprint : ∀ (g : Graph) (n : Node), g.bare.nodePrint n.bare = g.nodePrint n := by
    intro g n
    simp [nodePrint]
  simp only [fingerprint, sortBreadthFirst_bare, bind_map_left, map_bind, map_pure]
  congr 1
  funext g
  rw [bare_nodes, mapM_map]
  simp [comp_def, hprint]

/-! ### Orders -/

theorem enter_bare (s : Search) (id : NodeId) : g.bare.enter s id = g.enter s id := by
  simp [enter]

theorem step_bare (s : Search) : g.bare.step s = g.step s := by
  unfold step
  split
  · rfl
  · simp only [enter_bare]
  · simp

theorem search_bare (s : Search) : g.bare.search s = g.search s := by
  fun_induction g.search s with
  | case1 s hpath => rw [search_eq, if_pos hpath]
  | case2 s hpath e hstep =>
    rw [search_eq, if_neg hpath, step_bare, hstep]
    rfl
  | case3 s hpath s' hstep ih =>
    rw [search_eq, if_neg hpath, step_bare, hstep]
    exact ih

theorem ends_bare : g.bare.ends = g.ends := by
  have hfrom : g.bare.searchFrom = g.searchFrom := by
    funext marks root
    simp only [searchFrom, enter_bare, search_bare]
  rw [ends, ends, hfrom, ids_bare]

theorem pendingOf_bare (nodes : List NodeId) : g.bare.pendingOf nodes = g.pendingOf nodes := by
  simp [pendingOf]

theorem takeReady_bare (join : List NodeId → List NodeId → List NodeId) (fuel : Nat) (pending : Pending)
    (ready : List NodeId) : g.bare.takeReady join fuel pending ready = g.takeReady join fuel pending ready := by
  induction fuel generalizing pending ready with
  | zero => rfl
  | succ fuel ih =>
    cases ready with
    | nil => rfl
    | cons id ready => simp [takeReady, ih]

theorem sort_bare : g.bare.sort = g.sort := by
  simp only [sort, pendingOf_bare, takeReady_bare, ids_bare, size_bare, bare_entry]
  rfl

theorem takesAll_bare (nodes : List NodeId) : g.bare.takesAll nodes = g.takesAll nodes := by
  simp [takesAll, pendingOf_bare, takeReady_bare]

/-! ### Regions and links -/

theorem crossing?_bare (region : List NodeId) :
    g.bare.crossing? region = g.crossing? region := by
  simp [crossing?, bare, findSome?_map, comp_def]

theorem removeNodes_bare (ids : List NodeId) :
    g.bare.removeNodes ids = (fun r => (r.1.map Node.bare, r.2.bare)) <$> g.removeNodes ids := by
  induction ids generalizing g with
  | nil => rfl
  | cons id ids ih => simp [removeNodes, removeNode_bare, ih, map_bind]

theorem isClosed_bare (region : List NodeId) (apart : Option NodeId) :
    g.bare.isClosed region apart = g.isClosed region apart := by
  simp [isClosed]

theorem ofRegion_bare (region : List NodeId) (nodes : List Node) (entry : NodeId) :
    ofRegion region (nodes.map Node.bare) entry = Graph.bare <$> ofRegion region nodes entry := by
  have hmap : ∀ {f : Node → Except Fault Node}, (∀ n, f n.bare = Node.bare <$> f n) →
      (nodes.map Node.bare).mapM f = List.map Node.bare <$> nodes.mapM f := by
    intro f hf
    induction nodes with
    | nil => rfl
    | cons n nodes ih => simp [hf, ih]
  have hgraph : ∀ (ns : List Node) (new : NodeId), Graph.bare (renumber (recalculateInputs
      ⟨ns.mapIdx fun k n => (⟨k⟩, n), ns.length, new⟩)) = renumber (recalculateInputs
        ⟨(ns.map Node.bare).mapIdx fun k n => (⟨k⟩, n), (ns.map Node.bare).length, new⟩) := by
    intro ns new
    rw [bare_renumber, bare_recalculateInputs, length_map]
    simp only [bare]
    congr 3
    refine ext_getElem? fun k => ?_
    simp [comp_def]
  unfold ofRegion
  rw [hmap fun n => by simp [Node.bare]]
  simp only [bind_map_left, map_bind, map_pure, hgraph]

def bareHalves (r : Except SplitError (Graph × Graph)) : Except SplitError (Graph × Graph) :=
  (fun halves => (halves.1.bare, halves.2.bare)) <$> r

theorem splitOff_bare (region : List NodeId) (entry : NodeId) :
    g.bare.splitOff region entry = bareHalves <$> g.splitOff region entry := by
  unfold splitOff
  rw [crossing?_bare]
  split
  · cases g.crossing? region with
    | some e => rfl
    | none =>
      simp only [removeNodes_bare, ofRegion_bare, bind_map_left, map_bind, map_pure]
      rfl
  · rfl

theorem linkError?_bare : g.bare.linkError? = g.linkError? := by
  have hout : ∀ source target, g.bare.outputError? source target = g.outputError? source target := by
    intro source target
    unfold outputError?
    rw [get?_bare]
    cases g.get? target <;> rfl
  have hin : ∀ target source, g.bare.inputError? target source = g.inputError? target source := by
    intro target source
    unfold inputError?
    rw [get?_bare]
    cases g.get? source <;> rfl
  unfold linkError?
  rw [contains_bare, bare_entry, bare_nodes, isEmpty_map, findSome?_map]
  simp only [comp_def, Node.bare_outputs, Node.bare_inputs, funext (hout _), funext (hin _)]

end Graph

end Structurer
