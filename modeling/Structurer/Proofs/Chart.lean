/-
**Charts.**

What a graph means does not depend on the order of its nodes, on their numbers or on the predecessors
it keeps.  A *chart* is what is left: for every identifier a block of code with its stacks and its
exit, and where execution starts.  The operations on graphs are described by what they do to the
chart, and by the one thing that the predecessors have to satisfy: they are exactly the nodes with an
edge to the node that lists them.
-/

import Mathlib.Data.List.Nodup
import Structurer.Graph.Links
import Structurer.Graph.Region
import Structurer.Proofs.Fallible
import Structurer.Reduce.Site

namespace Structurer

open Fallible List

variable {e : Exit} {β : Type} {l : List (NodeId × β)} {n : Node} {t s old j id p : NodeId}
  {outs : List NodeId} {g : Graph}

/-! ### Charts -/

theorem NodeSet.nodup (s : NodeSet) : s.toList.Nodup :=
  s.ascending.imp fun h he => by
    rw [he] at h
    exact Nat.lt_irrefl _ h

/-- What a node does: its code, its stacks and its exit. -/
@[ext] structure Block where
  body : Body
  inputStack : StackType
  outputStack : StackType
  exit : Exit

def Block.withExit (b : Block) (exit : Exit) : Block := { b with exit }

@[simp] theorem Block.withExit_body (b : Block) (e : Exit) : (b.withExit e).body = b.body := rfl
@[simp] theorem Block.withExit_inputStack (b : Block) (e : Exit) :
    (b.withExit e).inputStack = b.inputStack := rfl
@[simp] theorem Block.withExit_outputStack (b : Block) (e : Exit) :
    (b.withExit e).outputStack = b.outputStack := rfl
@[simp] theorem Block.withExit_exit (b : Block) : (b.withExit e).exit = e := rfl

theorem Exit.isRet_iff : e.isRet = true ↔ e = .ret := by
  cases e <;> simp [Exit.isRet]

def Node.block (n : Node) : Block := ⟨n.body, n.inputStack, n.outputStack, n.exit⟩

@[simp] theorem Node.block_body : n.block.body = n.body := rfl
@[simp] theorem Node.block_inputStack : n.block.inputStack = n.inputStack := rfl
@[simp] theorem Node.block_outputStack : n.block.outputStack = n.outputStack := rfl
@[simp] theorem Node.block_exit : n.block.exit = n.exit := rfl

/-- Blocks under their identifiers, and where execution starts. -/
@[ext] structure Chart where
  block? : NodeId → Option Block
  entry : NodeId

namespace Chart

variable {G : Chart} {a : NodeId}

def Targets (G : Chart) (p id : NodeId) : Prop :=
  ∃ b, G.block? p = some b ∧ id ∈ b.exit.outputs

def Live (G : Chart) (id : NodeId) : Prop := ∃ b, G.block? id = some b

/-- The entry and the targets of all edges exist. -/
structure Closed (G : Chart) : Prop where
  entry : G.Live G.entry
  targets : ∀ p id, G.Targets p id → G.Live id

def update (G : Chart) (id : NodeId) (f : Block → Block) : Chart :=
  { G with block? := fun j => if j = id then (G.block? j).map f else G.block? j }

def erase (G : Chart) (id : NodeId) : Chart :=
  { G with block? := fun j => if j = id then none else G.block? j }

def insert (G : Chart) (id : NodeId) (b : Block) : Chart :=
  { G with block? := fun j => if j = id then some b else G.block? j }

def withEntry (G : Chart) (entry : NodeId) : Chart := { G with entry }

def retarget (G : Chart) (old new : NodeId) : Chart :=
  { G with block? := fun j => (G.block? j).map fun b => b.withExit (b.exit.retarget old new) }

@[simp] theorem update_entry (f : Block → Block) : (G.update id f).entry = G.entry := rfl
@[simp] theorem erase_entry : (G.erase id).entry = G.entry := rfl
@[simp] theorem retarget_entry (old new : NodeId) : (G.retarget old new).entry = G.entry := rfl

@[simp] theorem update_self (f : Block → Block) :
    (G.update id f).block? id = (G.block? id).map f := if_pos rfl

theorem update_of_ne (f : Block → Block) (h : j ≠ id) : (G.update id f).block? j = G.block? j :=
  if_neg h

@[simp] theorem erase_self : (G.erase id).block? id = none := if_pos rfl

theorem erase_of_ne (h : j ≠ id) : (G.erase id).block? j = G.block? j := if_neg h

@[simp] theorem insert_entry (b : Block) : (G.insert id b).entry = G.entry := rfl
@[simp] theorem insert_self (b : Block) : (G.insert id b).block? id = some b := if_pos rfl

theorem insert_of_ne (b : Block) (h : j ≠ id) : (G.insert id b).block? j = G.block? j := if_neg h

theorem live_insert (b : Block) : (G.insert id b).Live j ↔ j = id ∨ G.Live j := by
  unfold Live
  by_cases h : j = id
  · subst h
    simp
  · simp [h, insert_of_ne]

theorem targets_insert (b : Block) :
    (G.insert id b).Targets p j ↔ if p = id then j ∈ b.exit.outputs else G.Targets p j := by
  unfold Targets
  by_cases h : p = id
  · subst h
    simp
  · simp [h, insert_of_ne]

@[simp] theorem withEntry_entry : (G.withEntry id).entry = id := rfl
@[simp] theorem withEntry_block? : (G.withEntry id).block? = G.block? := rfl

@[simp] theorem retarget_block? (old new : NodeId) : (G.retarget old new).block? j =
    (G.block? j).map fun b => b.withExit (b.exit.retarget old new) := rfl

theorem update_update (f f' : Block → Block) :
    (G.update id f).update id f' = G.update id fun b => f' (f b) := by
  ext1
  · funext j
    by_cases h : j = id
    · subst h
      simp [Option.map_map, Function.comp_def]
    · simp [update_of_ne _ h]
  · rfl

theorem update_erase (h : id ≠ a) (f : Block → Block) :
    (G.erase a).update id f = (G.update id f).erase a := by
  ext1
  · funext j
    by_cases hj : j = id
    · subst hj
      rw [update_self, erase_of_ne h, erase_of_ne h, update_self]
    · rw [update_of_ne _ hj]
      by_cases ha : j = a
      · subst ha
        rw [erase_self, erase_self]
      · rw [erase_of_ne ha, erase_of_ne ha, update_of_ne _ hj]
  · rfl

theorem live_update (f : Block → Block) : (G.update id f).Live j ↔ G.Live j := by
  unfold Live
  by_cases h : j = id
  · subst h
    simp
  · rw [update_of_ne _ h]

theorem targets_update {f : Block → Block} (hf : ∀ b, (f b).exit = b.exit) :
    (G.update id f).Targets p j ↔ G.Targets p j := by
  unfold Targets
  by_cases h : p = id
  · subst h
    simp [hf]
  · rw [update_of_ne f h]

theorem targets_withExit {exit : Exit} (hid : G.Live id) :
    (G.update id (·.withExit exit)).Targets p j ↔
      if p = id then j ∈ exit.outputs else G.Targets p j := by
  obtain ⟨b, hb⟩ := hid
  unfold Targets
  by_cases h : p = id
  · subst h
    simp [hb]
  · rw [if_neg h, update_of_ne _ h]

theorem targets_erase : (G.erase id).Targets p j ↔ p ≠ id ∧ G.Targets p j := by
  unfold Targets
  by_cases h : p = id
  · subst h
    simp
  · simp [h, erase_of_ne h]

theorem live_erase : (G.erase id).Live j ↔ j ≠ id ∧ G.Live j := by
  unfold Live
  by_cases h : j = id
  · subst h
    simp
  · simp [h, erase_of_ne h]

theorem update_id : G.update id (fun b => b) = G := by
  ext1
  · funext j
    by_cases h : j = id
    · subst h
      simp
    · rw [update_of_ne _ h]
  · rfl

end Chart

namespace Graph

def chart (g : Graph) : Chart := ⟨fun id => (g.get? id).map Node.block, g.entry⟩

@[simp] theorem chart_entry : g.chart.entry = g.entry := rfl

theorem chart_block? : g.chart.block? id = (g.get? id).map Node.block := rfl

def Lists (g : Graph) (id p : NodeId) : Prop := ∃ n, g.get? id = some n ∧ p ∈ n.inputs

/-- Identifiers are issued once, and every node lists exactly the nodes with an edge to it. -/
structure Tidy (g : Graph) : Prop where
  nodup : g.ids.Nodup
  issued : ∀ id ∈ g.ids, id.serial < g.nextSerial
  exact : ∀ id p, g.Lists id p ↔ g.chart.Live id ∧ g.chart.Targets p id

/-! ### Looking nodes up -/

theorem mem_keys_iff : id ∈ l.map (·.1) ↔ ∃ b, l.lookup id = some b := by
  rw [← Option.isSome_iff_exists, lookup_isSome_iff, mem_map]
  simp only [beq_iff_eq, eq_comm (a := id)]

theorem mem_ids_iff : id ∈ g.ids ↔ ∃ n, g.get? id = some n := mem_keys_iff

theorem live_iff_mem : g.chart.Live id ↔ id ∈ g.ids := by
  rw [mem_ids_iff]
  simp [Chart.Live, chart_block?]

theorem mem_of_lookup {b : β} (h : l.lookup id = some b) : (id, b) ∈ l := by
  obtain ⟨l₁, l₂, rfl, _⟩ := lookup_eq_some_iff.1 h
  simp

theorem lookup_eq_some_iff_mem (hl : (l.map (·.1)).Nodup) {b : β} :
    l.lookup id = some b ↔ (id, b) ∈ l := by
  refine ⟨mem_of_lookup, fun h => lookup_eq_some_iff.2 ?_⟩
  obtain ⟨l₁, l₂, rfl⟩ := append_of_mem h
  refine ⟨l₁, l₂, rfl, ?_⟩
  intro e he
  rw [map_append, nodup_append] at hl
  have hne := hl.2.2 e.1 (mem_map_of_mem he) id (by simp)
  simpa using fun hid : id = e.1 => hne hid.symm

theorem get?_eq_some_iff (hg : g.ids.Nodup) : g.get? id = some n ↔ (id, n) ∈ g.nodes :=
  lookup_eq_some_iff_mem hg

theorem contains_iff : g.contains id = true ↔ id ∈ g.ids := by
  rw [contains, mem_ids_iff, Option.isSome_iff_exists]

theorem node_eq_ok_iff : g.node id = .ok n ↔ g.get? id = some n := by
  unfold node
  cases g.get? id <;> simp

theorem entryOf_eq_ok_iff {table : List (NodeId × β)} {b : β} :
    entryOf table id = .ok b ↔ table.lookup id = some b := by
  unfold entryOf
  cases table.lookup id <;> simp

theorem positionOf_eq_ok_iff {ids : List NodeId} {k : Nat} :
    positionOf ids id = .ok k ↔ id ∈ ids ∧ ids.idxOf id = k := by
  unfold positionOf
  split <;> simp [*]

theorem block?_of_get? (h : g.get? id = some n) : g.chart.block? id = some n.block := by
  rw [chart_block?, h]
  rfl

theorem get?_of_block? {b : Block} (h : g.chart.block? id = some b) :
    ∃ n, g.get? id = some n ∧ n.block = b := by
  rw [chart_block?] at h
  exact Option.map_eq_some_iff.1 h

theorem targets_iff_of_get? (h : g.get? p = some n) : g.chart.Targets p id ↔ id ∈ n.exit.outputs := by
  unfold Chart.Targets
  rw [block?_of_get? h]
  simp

theorem Tidy.mem_inputs_iff {g : Graph} (hg : g.Tidy) {id p : NodeId} (h : g.get? id = some n) :
    p ∈ n.inputs ↔ g.chart.Targets p id := by
  have hl : g.Lists id p ↔ p ∈ n.inputs := by
    unfold Lists
    rw [h]
    simp
  rw [← hl, hg.exact]
  exact and_iff_right ⟨n.block, block?_of_get? h⟩

/-! ### Changing a node -/

section Modify

variable {f : Node → Node} {F : Block → Block}

theorem get?_modify (f : Node → Node) :
    (g.modify id f).get? j = if j = id then (g.get? j).map f else g.get? j := by
  by_cases h : j = id
  · subst h
    rw [if_pos rfl, get?_modify_self]
  · rw [if_neg h, get?_modify_of_ne g f h]

theorem chart_modify (hf : ∀ n, (f n).block = F n.block) :
    (g.modify id f).chart = g.chart.update id F := by
  ext1
  · funext j
    simp only [chart_block?, get?_modify, Chart.update]
    by_cases h : j = id
    · simp only [if_pos h, Option.map_map]
      exact congrArg (fun k => (g.get? j).map k) (funext hf)
    · simp only [if_neg h]
  · rfl

theorem chart_modify_of_same (hf : ∀ n, (f n).block = n.block) : (g.modify id f).chart = g.chart := by
  rw [chart_modify (F := fun b => b) hf, Chart.update_id]

theorem lists_modify (hf : ∀ n, (f n).inputs = n.inputs) :
    (g.modify id f).Lists j p ↔ g.Lists j p := by
  unfold Lists
  rw [get?_modify]
  by_cases h : j = id
  · simp [h, hf]
  · simp [h]

/-- A change of nodes that changes their blocks, and touches neither edges nor predecessors. -/
structure Alters (f : Node → Node) (F : Block → Block) : Prop where
  block : ∀ n, (f n).block = F n.block := by intro _; rfl
  exit : ∀ b, (F b).exit = b.exit := by intro _; rfl
  inputs : ∀ n, (f n).inputs = n.inputs := by intro _; rfl

theorem Tidy.modify (hg : g.Tidy) (h : Alters f F) : (g.modify id f).Tidy where
  nodup := by
    rw [ids_modify]
    exact hg.nodup
  issued := by
    rw [ids_modify]
    exact hg.issued
  exact j p := by
    rw [lists_modify h.inputs, chart_modify h.block, Chart.live_update, Chart.targets_update h.exit,
      hg.exact]

end Modify

/-! ### Predecessors -/

@[simp] theorem chart_addInput (g : Graph) (t s : NodeId) : (g.addInput t s).chart = g.chart :=
  chart_modify_of_same fun _ => rfl

@[simp] theorem chart_dropInput (g : Graph) (t s : NodeId) : (g.dropInput t s).chart = g.chart :=
  chart_modify_of_same fun _ => rfl

theorem lists_addInput :
    (g.addInput t s).Lists j p ↔ g.Lists j p ∨ (j = t ∧ p = s ∧ g.chart.Live j) := by
  have hlive : g.chart.Live j ↔ ∃ n, g.get? j = some n := by rw [live_iff_mem, mem_ids_iff]
  unfold Lists
  rw [addInput, get?_modify, hlive]
  by_cases h : j = t
  · rw [if_pos h]
    rcases g.get? j with _ | n
    · simp
    · simp [h, or_comm]
  · simp [h]

theorem lists_dropInput : (g.dropInput t s).Lists j p ↔ g.Lists j p ∧ ¬ (j = t ∧ p = s) := by
  unfold Lists
  rw [dropInput, get?_modify]
  by_cases h : j = t
  · rw [if_pos h]
    rcases g.get? j with _ | n
    · simp
    · simp [h]
  · simp [h]

def addInputs (g : Graph) (outs : List NodeId) (source : NodeId) : Graph :=
  outs.foldl (fun g out => g.addInput out source) g

def dropInputs (g : Graph) (outs : List NodeId) (source : NodeId) : Graph :=
  outs.foldl (fun g out => g.dropInput out source) g

/-- What adding predecessors leaves as it is. -/
structure SameButInputs (g g' : Graph) : Prop where
  chart : g'.chart = g.chart
  ids : g'.ids = g.ids
  nextSerial : g'.nextSerial = g.nextSerial

theorem SameButInputs.refl (g : Graph) : SameButInputs g g := ⟨rfl, rfl, rfl⟩

theorem SameButInputs.trans {g g' g'' : Graph} (h : SameButInputs g g') (h' : SameButInputs g' g'') :
    SameButInputs g g'' :=
  ⟨h'.chart.trans h.chart, h'.ids.trans h.ids, h'.nextSerial.trans h.nextSerial⟩

theorem same_addInputs (g : Graph) (outs : List NodeId) (s : NodeId) :
    SameButInputs g (g.addInputs outs s) := by
  induction outs generalizing g with
  | nil => exact .refl g
  | cons out outs ih =>
    exact .trans ⟨chart_addInput g out s, ids_modify .., rfl⟩ (ih (g.addInput out s))

theorem same_dropInputs (g : Graph) (outs : List NodeId) (s : NodeId) :
    SameButInputs g (g.dropInputs outs s) := by
  induction outs generalizing g with
  | nil => exact .refl g
  | cons out outs ih =>
    exact .trans ⟨chart_dropInput g out s, ids_modify .., rfl⟩ (ih (g.dropInput out s))

theorem lists_addInputs :
    (g.addInputs outs s).Lists j p ↔ g.Lists j p ∨ (j ∈ outs ∧ p = s ∧ g.chart.Live j) := by
  induction outs generalizing g with
  | nil => simp [addInputs]
  | cons out outs ih =>
    show ((g.addInput out s).addInputs outs s).Lists j p ↔ _
    rw [ih, lists_addInput, chart_addInput, mem_cons]
    tauto

theorem lists_dropInputs :
    (g.dropInputs outs s).Lists j p ↔ g.Lists j p ∧ ¬ (j ∈ outs ∧ p = s) := by
  induction outs generalizing g with
  | nil => simp [dropInputs]
  | cons out outs ih =>
    show ((g.dropInput out s).dropInputs outs s).Lists j p ↔ _
    rw [ih, lists_dropInput, mem_cons]
    tauto

/-! ### Exits -/

section Exits

variable {g' : Graph}

theorem targets_iff : e.targets id = true ↔ id ∈ e.outputs := by
  simp [Exit.targets]

theorem Tidy.setExit (hg : g.Tidy) (hid : g.chart.Live id) (exit : Exit) :
    ∃ g', g.setExit id exit = .ok g' ∧ g'.Tidy ∧ g'.ids = g.ids ∧ g'.nextSerial = g.nextSerial ∧
      g'.chart = g.chart.update id (·.withExit exit) := by
  obtain ⟨old, hold⟩ := mem_ids_iff.1 (live_iff_mem.1 hid)
  let g₁ := g.modify id fun n => { n with exit }
  let g₂ := g₁.dropInputs (old.outputs.filter (!exit.targets ·)) id
  let g₃ := g₂.addInputs exit.outputs id
  have hset : g.setExit id exit = .ok g₃ := by
    rw [Graph.setExit, node_eq_ok_iff.2 hold]
    rfl
  have h₁₂ := same_dropInputs g₁ (old.outputs.filter (!exit.targets ·)) id
  have h₂₃ := same_addInputs g₂ exit.outputs id
  have hids : g₃.ids = g.ids := (h₁₂.trans h₂₃).ids.trans (ids_modify ..)
  have hserial : g₃.nextSerial = g.nextSerial := (h₁₂.trans h₂₃).nextSerial
  have hchart : g₃.chart = g.chart.update id (·.withExit exit) :=
    (h₁₂.trans h₂₃).chart.trans (chart_modify fun _ => rfl)
  have hlive : ∀ j, g₂.chart.Live j ↔ g.chart.Live j := by
    intro j
    rw [← h₂₃.chart, hchart, Chart.live_update]
  refine ⟨g₃, hset, ⟨?_, ?_, ?_⟩, hids, hserial, hchart⟩
  · rw [hids]
    exact hg.nodup
  · rw [hids, hserial]
    exact hg.issued
  · intro j p
    have hlists₁ : g₁.Lists j p ↔ g.Lists j p := lists_modify fun _ => rfl
    have hold' : g.chart.Targets id j ↔ j ∈ old.outputs := targets_iff_of_get? hold
    rw [show g₃ = g₂.addInputs exit.outputs id from rfl, lists_addInputs, lists_dropInputs, hlists₁,
      hlive, hg.exact, show (g₂.addInputs exit.outputs id).chart = _ from hchart,
      Chart.live_update, Chart.targets_withExit hid]
    simp only [mem_filter, Bool.not_eq_true', Bool.eq_false_iff, ne_eq, targets_iff]
    -- the node itself loses its old edges and gets the new ones
    by_cases hp : p = id
    · subst hp
      rw [hold', if_pos rfl]
      tauto
    · rw [if_neg hp]
      tauto

theorem Tidy.redirectEdge (hg : g.Tidy) {b : Block} (hb : g.chart.block? p = some b)
    (old new : NodeId) :
    ∃ g', g.redirectEdge p old new = .ok g' ∧ g'.Tidy ∧ g'.ids = g.ids ∧
      g'.nextSerial = g.nextSerial ∧
      g'.chart = g.chart.update p fun b => b.withExit (b.exit.retarget old new) := by
  obtain ⟨n, hn, rfl⟩ := get?_of_block? hb
  obtain ⟨g', hset, htidy, hids, hserial, hchart⟩ :=
    hg.setExit ⟨n.block, hb⟩ (n.exit.retarget old new)
  refine ⟨g', ?_, htidy, hids, hserial, ?_⟩
  · rw [Graph.redirectEdge, node_eq_ok_iff.2 hn]
    exact hset
  · rw [hchart]
    ext1
    · funext j
      by_cases h : j = p
      · subst h
        rw [Chart.update_self, Chart.update_self, hb]
        rfl
      · rw [Chart.update_of_ne _ h, Chart.update_of_ne _ h]
    · rfl

end Exits

/-! ### Taking nodes out -/

theorem lookup_filter_ne (nodes : List (NodeId × Node)) :
    (nodes.filter (·.1 ≠ id)).lookup j = if j = id then none else nodes.lookup j := by
  induction nodes with
  | nil => simp
  | cons e nodes ih =>
    obtain ⟨i, n⟩ := e
    by_cases hi : i = id
    · subst hi
      rw [filter_cons_of_neg (by simp), ih]
      by_cases hj : j = i
      · simp [hj]
      · have hb : (j == i) = false := by simpa using hj
        rw [if_neg hj, if_neg hj, List.lookup_cons, hb]
    · rw [filter_cons_of_pos (by simpa using hi), List.lookup_cons, List.lookup_cons, ih]
      by_cases hj : j = i
      · subst hj
        simp [hi]
      · have hb : (j == i) = false := by simpa using hj
        rw [hb]

theorem same_erase (g : Graph) (id : NodeId) :
    SameButInputs { g with nodes := g.nodes.filter (·.1 ≠ id) } (g.erase id) := by
  unfold Graph.erase
  cases hn : g.get? id with
  | none =>
    have hnodes : g.nodes.filter (·.1 ≠ id) = g.nodes := by
      refine filter_eq_self.2 fun e he => decide_eq_true ?_
      rintro rfl
      obtain ⟨m, hm⟩ := mem_ids_iff.1 (mem_map_of_mem he : e.1 ∈ g.ids)
      rw [hn] at hm
      cases hm
    rw [hnodes]
    exact .refl g
  | some n => exact same_dropInputs _ n.outputs id

theorem ids_erase (g : Graph) (id : NodeId) : (g.erase id).ids = g.ids.filter (· ≠ id) := by
  rw [(same_erase g id).ids, ids, ids, filter_map]
  rfl

theorem chart_erase (g : Graph) (id : NodeId) : (g.erase id).chart = g.chart.erase id := by
  rw [(same_erase g id).chart]
  ext1
  · funext j
    rw [chart_block?, get?, lookup_filter_ne]
    by_cases h : j = id
    · simp [h]
    · rw [if_neg h, Chart.erase_of_ne h, chart_block?, get?]
  · rfl

theorem lists_erase : (g.erase id).Lists j p ↔
    j ≠ id ∧ g.Lists j p ∧ ¬ (g.chart.Targets id j ∧ p = id) := by
  have hwithout : ∀ j p, ({ g with nodes := g.nodes.filter (·.1 ≠ id) } : Graph).Lists j p ↔
      j ≠ id ∧ g.Lists j p := by
    intro j p
    unfold Lists
    rw [get?, lookup_filter_ne]
    by_cases h : j = id <;> simp [h, get?]
  cases hn : g.get? id with
  | none =>
    have herase : g.erase id = g := by
      unfold Graph.erase
      rw [hn]
    have hnot : ¬ g.chart.Targets id j := by
      rintro ⟨b, hb, _⟩
      rw [chart_block?, hn] at hb
      cases hb
    rw [herase]
    refine ⟨fun h => ⟨?_, h, fun ht => hnot ht.1⟩, fun h => h.2.1⟩
    rintro rfl
    obtain ⟨n, hn', _⟩ := h
    rw [hn] at hn'
    cases hn'
  | some n =>
    have herase : g.erase id =
        ({ g with nodes := g.nodes.filter (·.1 ≠ id) } : Graph).dropInputs n.outputs id := by
      unfold Graph.erase
      rw [hn]
      rfl
    rw [herase, lists_dropInputs, hwithout, targets_iff_of_get? hn, and_assoc]
    rfl

theorem get?_dropInputs_of_not_mem (h : j ∉ outs) (s : NodeId) :
    (g.dropInputs outs s).get? j = g.get? j := by
  induction outs generalizing g with
  | nil => rfl
  | cons out outs ih =>
    rw [mem_cons, not_or] at h
    exact (ih h.2).trans (get?_modify_of_ne g _ h.1)

theorem get?_erase_of_ne (hne : j ≠ id) (h : ¬ g.chart.Targets id j) :
    (g.erase id).get? j = g.get? j := by
  unfold Graph.erase
  cases hn : g.get? id with
  | none => rfl
  | some n =>
    refine (get?_dropInputs_of_not_mem (mt (targets_iff_of_get? hn).2 h) id).trans ?_
    rw [get?, lookup_filter_ne, if_neg hne, get?]

theorem Tidy.erase (hg : g.Tidy) (id : NodeId) :
    (g.erase id).Tidy ∧ (g.erase id).chart = g.chart.erase id ∧
      (g.erase id).ids = g.ids.filter (· ≠ id) ∧ (g.erase id).nextSerial = g.nextSerial := by
  have hserial : (g.erase id).nextSerial = g.nextSerial := (same_erase g id).nextSerial
  refine ⟨⟨?_, ?_, ?_⟩, chart_erase g id, ids_erase g id, hserial⟩
  · rw [ids_erase]
    exact hg.nodup.filter _
  · rw [ids_erase, hserial]
    exact fun j hj => hg.issued j (mem_of_mem_filter hj)
  · intro j p
    rw [lists_erase, chart_erase, Chart.live_erase, Chart.targets_erase, hg.exact]
    by_cases hp : p = id
    · subst hp
      tauto
    · tauto

theorem removeNode_eq_ok (h : g.get? id = some n) : g.removeNode id = .ok (n, g.erase id) := by
  rw [removeNode, h]

/-! ### Redirecting all edges -/

theorem retarget_of_not_mem (new : NodeId) (h : old ∉ e.outputs) : e.retarget old new = e := by
  cases e with
  | seq next =>
    have hne : next ≠ old := by
      rintro rfl
      simp [Exit.outputs] at h
    simp [Exit.retarget, Exit.map, hne]
  | branch t f =>
    have ht : t ≠ old := by
      rintro rfl
      simp [Exit.outputs] at h
    have hf : f ≠ old := by
      rintro rfl
      simp [Exit.outputs] at h
    simp [Exit.retarget, Exit.map, ht, hf]
  | ret => rfl

theorem map_retarget_of_not {G : Chart} (h : ¬ G.Targets j old) (new : NodeId) :
    ((G.block? j).map fun b => b.withExit (b.exit.retarget old new)) = G.block? j := by
  cases hb : G.block? j with
  | none => rfl
  | some b =>
    have hnot : old ∉ b.exit.outputs := fun hmem => h ⟨b, hb, hmem⟩
    rw [Option.map_some, retarget_of_not_mem new hnot]
    rfl

theorem Tidy.redirectSources {sources : List NodeId} (hnd : sources.Nodup) (hg : g.Tidy)
    (hlive : ∀ p ∈ sources, g.chart.Live p) {new : NodeId} {f : Graph → NodeId → Except Fault Graph}
    (hf : ∀ {g p}, g.contains p = true → f g p = g.redirectEdge p old new) :
    ∃ g', sources.foldlM f g = .ok g' ∧
      g'.Tidy ∧ g'.ids = g.ids ∧ g'.nextSerial = g.nextSerial ∧ g'.chart.entry = g.chart.entry ∧
      ∀ j, g'.chart.block? j =
        if j ∈ sources then (g.chart.block? j).map fun b => b.withExit (b.exit.retarget old new)
        else g.chart.block? j := by
  induction sources generalizing g with
  | nil => exact ⟨g, rfl, hg, rfl, rfl, rfl, fun j => by simp⟩
  | cons p sources ih =>
    obtain ⟨hp, hnd⟩ := nodup_cons.1 hnd
    obtain ⟨b, hb⟩ := hlive p (.head _)
    obtain ⟨g₁, hred, htidy₁, hids₁, hserial₁, hchart₁⟩ := hg.redirectEdge hb old new
    have hlive₁ : ∀ q ∈ sources, g₁.chart.Live q := by
      intro q hq
      rw [hchart₁, Chart.live_update]
      exact hlive q (.tail _ hq)
    obtain ⟨g₂, hfold, htidy₂, hids₂, hserial₂, hentry₂, hblock₂⟩ := ih hnd htidy₁ hlive₁
    have hcontains : g.contains p = true :=
      contains_iff.2 (live_iff_mem.1 ⟨b, hb⟩)
    refine ⟨g₂, ?_, htidy₂, hids₂.trans hids₁, hserial₂.trans hserial₁, ?_, ?_⟩
    · rw [foldlM_cons, hf hcontains, hred]
      exact hfold
    · rw [hentry₂, hchart₁]
      rfl
    · intro j
      rw [hblock₂, hchart₁]
      by_cases hj : j = p
      · subst hj
        simp [hp]
      · simp only [Chart.update_of_ne _ hj, mem_cons, hj, false_or]

theorem Tidy.redirectInputs (hg : g.Tidy) (hold : g.chart.Live old) (new : NodeId) :
    ∃ g', g.redirectInputs old new = .ok g' ∧ g'.Tidy ∧ g'.ids = g.ids ∧
      g'.nextSerial = g.nextSerial ∧ g'.chart = g.chart.retarget old new := by
  obtain ⟨n, hn⟩ := mem_ids_iff.1 (live_iff_mem.1 hold)
  have hmem : ∀ p, p ∈ n.inputs.toList ↔ g.chart.Targets p old := fun p => hg.mem_inputs_iff hn
  have hlive : ∀ p ∈ n.inputs.toList, g.chart.Live p := by
    intro p hp
    obtain ⟨b, hb, _⟩ := (hmem p).1 hp
    exact ⟨b, hb⟩
  obtain ⟨g', hfold, htidy, hids, hserial, hentry, hblock⟩ := 
    hg.redirectSources n.inputs.nodup hlive fun {g p} (h : g.contains p = true) =>
      if_pos (t := g.redirectEdge p old new) (e := pure g) h
  refine ⟨g', ?_, htidy, hids, hserial, ?_⟩
  · rw [Graph.redirectInputs, node_eq_ok_iff.2 hn]
    exact hfold
  · ext1
    · funext j
      rw [hblock, Chart.retarget_block?]
      split
      · rfl
      · next hj => exact (map_retarget_of_not (fun h => hj ((hmem j).2 h)) new).symm
    · exact hentry

/-! ### What follows from successors and order -/

theorem lookup_map_node (nodes : List (NodeId × Node)) (f : NodeId → Node → Node) (j : NodeId) :
    (nodes.map fun e => (e.1, f e.1 e.2)).lookup j = (nodes.lookup j).map (f j) := by
  induction nodes with
  | nil => rfl
  | cons e nodes ih =>
    rw [map_cons, List.lookup_cons, List.lookup_cons, ih]
    by_cases h : j = e.1
    · subst h
      simp
    · have hb : (j == e.1) = false := by simpa using h
      rw [hb]

theorem mem_sources_iff (hg : g.ids.Nodup) {id p : NodeId} :
    p ∈ g.sources id ↔ g.chart.Targets p id := by
  rw [sources, NodeSet.mem_ofList, mem_map]
  constructor
  · rintro ⟨⟨q, n⟩, h, rfl⟩
    obtain ⟨hmem, htargets⟩ := mem_filter.1 h
    have hget := (get?_eq_some_iff hg).2 hmem
    exact (targets_iff_of_get? hget).2 (targets_iff.1 htargets)
  · rintro ⟨b, hb, hout⟩
    obtain ⟨n, hn, rfl⟩ := get?_of_block? hb
    exact ⟨(p, n), mem_filter.2 ⟨(get?_eq_some_iff hg).1 hn, targets_iff.2 hout⟩, rfl⟩

theorem get?_recalculateInputs :
    g.recalculateInputs.get? j = (g.get? j).map fun n => { n with inputs := g.sources j } :=
  lookup_map_node g.nodes (fun id n => { n with inputs := g.sources id }) j

theorem ids_recalculateInputs : g.recalculateInputs.ids = g.ids := by
  simp [recalculateInputs, ids, Function.comp_def]

theorem tidy_recalculateInputs (hnd : g.ids.Nodup) (hissued : ∀ id ∈ g.ids, id.serial < g.nextSerial) :
    g.recalculateInputs.Tidy ∧ g.recalculateInputs.chart = g.chart ∧
      g.recalculateInputs.ids = g.ids ∧ g.recalculateInputs.nextSerial = g.nextSerial := by
  have hchart : g.recalculateInputs.chart = g.chart := by
    ext1
    · funext j
      rw [chart_block?, get?_recalculateInputs, chart_block?, Option.map_map]
      rfl
    · rfl
  refine ⟨⟨?_, ?_, ?_⟩, hchart, ids_recalculateInputs, rfl⟩
  · rw [ids_recalculateInputs]
    exact hnd
  · rw [ids_recalculateInputs]
    exact hissued
  · intro j p
    have hlive : g.chart.Live j ↔ ∃ n, g.get? j = some n := by rw [live_iff_mem, mem_ids_iff]
    rw [hchart, hlive, ← mem_sources_iff hnd]
    unfold Lists
    rw [get?_recalculateInputs]
    cases g.get? j <;> simp

theorem lookup_mapIdx_node (nodes : List (NodeId × Node)) (f : Nat → Nat) (j : NodeId) :
    (nodes.mapIdx fun i e => (e.1, { e.2 with index := f i })).lookup j =
      (nodes.lookup j).map fun n => { n with index := f ((nodes.map (·.1)).idxOf j) } := by
  induction nodes generalizing f with
  | nil => rfl
  | cons e nodes ih =>
    rw [mapIdx_cons, List.lookup_cons, List.lookup_cons, map_cons]
    by_cases h : j = e.1
    · subst h
      simp
    · have hb : (j == e.1) = false := by simpa using h
      rw [hb, idxOf_cons_ne _ (Ne.symm h)]
      exact ih fun i => f (i + 1)

theorem get?_renumber :
    g.renumber.get? j = (g.get? j).map fun n => { n with index := g.ids.idxOf j } :=
  lookup_mapIdx_node g.nodes id j

theorem same_renumber (g : Graph) : SameButInputs g g.renumber ∧
    ∀ j p, g.renumber.Lists j p ↔ g.Lists j p := by
  have hids : g.renumber.ids = g.ids := by
    unfold renumber ids
    exact ext_getElem (by simp) fun k h₁ h₂ => by simp
  refine ⟨⟨?_, hids, rfl⟩, ?_⟩
  · ext1
    · funext j
      rw [chart_block?, get?_renumber, chart_block?, Option.map_map]
      rfl
    · rfl
  · intro j p
    unfold Lists
    rw [get?_renumber]
    cases g.get? j <;> simp

theorem index_renumber (h : g.renumber.get? j = some n) : n.index = g.renumber.ids.idxOf j := by
  rw [get?_renumber] at h
  obtain ⟨m, _, rfl⟩ := Option.map_eq_some_iff.1 h
  rw [(same_renumber g).1.ids]

theorem Tidy.of_same {g' : Graph} (hg : g.Tidy) (h : SameButInputs g g')
    (hl : ∀ j p, g'.Lists j p ↔ g.Lists j p) : g'.Tidy where
  nodup := by
    rw [h.ids]
    exact hg.nodup
  issued := by
    rw [h.ids, h.nextSerial]
    exact hg.issued
  exact j p := by rw [hl, h.chart, hg.exact]

theorem get?_of_perm {g' : Graph} (hnd : g.ids.Nodup) (hp : g'.nodes.Perm g.nodes) (j : NodeId) :
    g'.get? j = g.get? j := by
  ext n
  rw [get?_eq_some_iff ((hp.map _).nodup_iff.2 hnd), get?_eq_some_iff hnd, hp.mem_iff]

theorem Tidy.of_perm {g' : Graph} (hg : g.Tidy) (hp : g'.nodes.Perm g.nodes)
    (hs : g'.nextSerial = g.nextSerial) (he : g'.entry = g.entry) : g'.Tidy ∧ g'.chart = g.chart := by
  have hids : g'.ids.Perm g.ids := hp.map _
  have hget := get?_of_perm hg.nodup hp
  have hchart : g'.chart = g.chart := by
    ext1
    · funext j
      rw [chart_block?, chart_block?, hget]
    · exact he
  refine ⟨⟨hids.nodup_iff.2 hg.nodup, fun j hj => ?_, fun j p => ?_⟩, hchart⟩
  · rw [hs]
    exact hg.issued j (hids.mem_iff.1 hj)
  · rw [hchart, ← hg.exact]
    unfold Lists
    rw [hget]

theorem Tidy.renumber (hg : g.Tidy) : g.renumber.Tidy :=
  hg.of_same (same_renumber g).1 (same_renumber g).2

/-! ### New nodes and orphans -/

def entryWith (g : Graph) (id : NodeId) : NodeId := if g.nodes.isEmpty then id else g.entry

theorem entryWith_of_ne_nil (h : g.nodes ≠ []) : g.entryWith id = g.entry := by
  simp [entryWith, h]

def placed (g : Graph) (n : Node) : Node :=
  { n with
    inputs := if n.exit.targets ⟨g.nextSerial⟩ then NodeSet.empty.insert ⟨g.nextSerial⟩ else NodeSet.empty
    index := g.size }

theorem ids_addNode (n : Node) : (g.addNode n).2.ids = g.ids ++ [⟨g.nextSerial⟩] := by
  rw [← (same_addInputs g n.outputs ⟨g.nextSerial⟩).ids]
  exact map_append

theorem Tidy.not_mem_ids (hg : g.Tidy) : ⟨g.nextSerial⟩ ∉ g.ids :=
  fun h => Nat.lt_irrefl _ (hg.issued _ h)

section

variable (hfresh : ⟨g.nextSerial⟩ ∉ g.ids) (n : Node)

include hfresh

theorem get?_addNode : (g.addNode n).2.get? j =
    if j = ⟨g.nextSerial⟩ then some (g.placed n) else (g.addInputs n.outputs ⟨g.nextSerial⟩).get? j := by
  show List.lookup j (_ ++ [(⟨g.nextSerial⟩, g.placed n)]) = _
  rw [lookup_append]
  by_cases h : j = ⟨g.nextSerial⟩
  · subst h
    have hnone : (g.addInputs n.outputs ⟨g.nextSerial⟩).nodes.lookup ⟨g.nextSerial⟩ = none := by
      refine Option.eq_none_iff_forall_ne_some.2 fun m hm => hfresh ?_
      rw [← (same_addInputs g n.outputs ⟨g.nextSerial⟩).ids]
      exact mem_ids_iff.2 ⟨m, hm⟩
    rw [if_pos rfl]
    exact (congrArg (Option.or · _) hnone).trans (by simp)
  · have hb : (j == (⟨g.nextSerial⟩ : NodeId)) = false := by simpa using h
    simp [List.lookup_cons, hb, h, get?, addInputs]

theorem chart_addNode : (g.addNode n).2.chart =
    (g.chart.insert ⟨g.nextSerial⟩ n.block).withEntry (g.entryWith ⟨g.nextSerial⟩) := by
  ext1
  · funext j
    rw [chart_block?, get?_addNode hfresh, Chart.withEntry_block?]
    by_cases h : j = ⟨g.nextSerial⟩
    · subst h
      rw [if_pos rfl, Chart.insert_self]
      rfl
    · rw [if_neg h, Chart.insert_of_ne _ h, ← (same_addInputs g n.outputs ⟨g.nextSerial⟩).chart,
        chart_block?]
  · rfl

theorem lists_addNode_self : (g.addNode n).2.Lists ⟨g.nextSerial⟩ p ↔
    p = ⟨g.nextSerial⟩ ∧ ⟨g.nextSerial⟩ ∈ n.exit.outputs := by
  have hempty : p ∉ NodeSet.empty := not_mem_nil
  unfold Lists
  rw [get?_addNode hfresh, if_pos rfl, ← targets_iff]
  by_cases hself : n.exit.targets ⟨g.nextSerial⟩ = true <;> simp [placed, hself, hempty]

theorem lists_addNode_of_ne (hj : j ≠ ⟨g.nextSerial⟩) : (g.addNode n).2.Lists j p ↔
    (g.addInputs n.outputs ⟨g.nextSerial⟩).Lists j p := by
  unfold Lists
  rw [get?_addNode hfresh, if_neg hj]

end

theorem Tidy.addNode (hg : g.Tidy) (n : Node) (hfree : ∀ p, ¬ g.chart.Targets p ⟨g.nextSerial⟩) :
    (g.addNode n).1 = ⟨g.nextSerial⟩ ∧ (g.addNode n).2.Tidy ∧
      (g.addNode n).2.chart = (g.chart.insert ⟨g.nextSerial⟩ n.block).withEntry
        (g.entryWith ⟨g.nextSerial⟩) ∧
      (g.addNode n).2.ids = g.ids ++ [⟨g.nextSerial⟩] ∧
      (g.addNode n).2.nextSerial = g.nextSerial + 1 := by
  refine ⟨rfl, ⟨?_, ?_, ?_⟩, chart_addNode hg.not_mem_ids n, ids_addNode n, rfl⟩
  · rw [ids_addNode, nodup_append]
    refine ⟨hg.nodup, by simp, fun a ha b hb hab => hg.not_mem_ids ?_⟩
    rwa [← mem_singleton.1 hb, ← hab]
  · rw [ids_addNode]
    intro j hj
    rcases mem_append.1 hj with hj | hj
    · exact Nat.lt_succ_of_lt (hg.issued j hj)
    · cases mem_singleton.1 hj
      exact Nat.lt_succ_self _
  · intro j p
    have hdead : ¬ g.chart.Targets ⟨g.nextSerial⟩ j :=
      fun ⟨b, hb, _⟩ => hg.not_mem_ids (live_iff_mem.1 ⟨b, hb⟩)
    rw [chart_addNode hg.not_mem_ids]
    show _ ↔ (g.chart.insert _ n.block).Live j ∧ (g.chart.insert _ n.block).Targets p j
    rw [Chart.live_insert, Chart.targets_insert]
    by_cases h : j = ⟨g.nextSerial⟩
    · subst h
      rw [lists_addNode_self hg.not_mem_ids]
      simp [hfree p]
    · rw [lists_addNode_of_ne hg.not_mem_ids n h, lists_addInputs, hg.exact]
      by_cases hp : p = ⟨g.nextSerial⟩
      · subst hp
        simp [h, hdead, and_comm, Node.outputs]
      · simp [h, hp]

end Graph

namespace Chart

open Classical in
/-- A block that no edge leads to taken out, unless it is the entry. -/
noncomputable def dropOrphan (G : Chart) (id : NodeId) : Chart :=
  if (∀ p, ¬ G.Targets p id) ∧ id ≠ G.entry then G.erase id else G

theorem dropOrphan_cases (G : Chart) (id : NodeId) :
    G.dropOrphan id = G ∨
      G.dropOrphan id = G.erase id ∧ (∀ p, ¬ G.Targets p id) ∧ id ≠ G.entry := by
  unfold dropOrphan
  split
  · next h => exact .inr ⟨rfl, h⟩
  · exact .inl rfl

end Chart

theorem Graph.Tidy.eraseOrphan {g : Graph} (hg : g.Tidy) (id : NodeId) :
    (g.eraseOrphan id).Tidy ∧ (g.eraseOrphan id).chart = g.chart.dropOrphan id ∧
      (g.eraseOrphan id).nextSerial = g.nextSerial := by
  unfold Graph.eraseOrphan Chart.dropOrphan
  cases hn : g.get? id with
  | none =>
    have hsame : g.chart.erase id = g.chart := by
      ext1
      · funext j
        by_cases h : j = id
        · subst h
          rw [Chart.erase_self, Graph.chart_block?, hn]
          rfl
        · rw [Chart.erase_of_ne h]
      · rfl
    refine ⟨hg, ?_, rfl⟩
    rw [hsame, ite_self]
  | some n =>
    have hempty : n.inputs.toList.isEmpty = true ↔ ∀ p, ¬ g.chart.Targets p id := by
      rw [List.isEmpty_iff, eq_nil_iff_forall_not_mem]
      exact forall_congr' fun p => not_congr (hg.mem_inputs_iff hn)
    have hcond : (n.inputs.toList.isEmpty && decide (id ≠ g.entry)) = true ↔
        (∀ p, ¬ g.chart.Targets p id) ∧ id ≠ g.chart.entry := by
      rw [Bool.and_eq_true, hempty, decide_eq_true_eq]
      rfl
    obtain ⟨htidy, hchart, _, hserial⟩ := hg.erase id
    by_cases h : (∀ p, ¬ g.chart.Targets p id) ∧ id ≠ g.chart.entry
    · simp only [hcond.2 h, if_true, if_pos h]
      exact ⟨htidy, hchart, hserial⟩
    · rw [if_neg h]
      simp only [if_neg (mt hcond.1 h)]
      exact ⟨hg, trivial, trivial⟩

/-! ### The graph of a region -/

namespace Graph

variable {region : List NodeId} {nodes : List Node} {entry : NodeId} {part : Graph}

def renamed (region : List NodeId) (id : NodeId) : NodeId := ⟨region.idxOf id⟩

def regionNodes (region : List NodeId) (nodes : List Node) : List (NodeId × Node) :=
  (nodes.map fun n => { n with exit := n.exit.map (renamed region) }).mapIdx fun k n => (⟨k⟩, n)

def regionGraph (region : List NodeId) (nodes : List Node) (entry : NodeId) : Graph :=
  recalculateInputs ⟨regionNodes region nodes, nodes.length, renamed region entry⟩ |>.renumber

theorem newId_eq_ok_iff {id id' : NodeId} :
    newId region id = .ok id' ↔ id ∈ region ∧ renamed region id = id' := by
  simp only [newId, bind_eq_ok_iff, positionOf_eq_ok_iff]
  constructor
  · rintro ⟨_, ⟨hid, rfl⟩, h⟩
    cases h
    exact ⟨hid, rfl⟩
  · rintro ⟨hid, rfl⟩
    exact ⟨_, ⟨hid, rfl⟩, rfl⟩

theorem mapM_newId_eq_ok_iff {e e' : Exit} : e.mapM (newId region) = .ok e' ↔
    (∀ out ∈ e.outputs, out ∈ region) ∧ e.map (renamed region) = e' := by
  cases e with
  | seq next =>
    simp only [Exit.mapM, bind_eq_ok_iff, newId_eq_ok_iff, Exit.outputs, forall_mem_singleton]
    constructor
    · rintro ⟨_, ⟨hnext, rfl⟩, h⟩
      cases h
      exact ⟨hnext, rfl⟩
    · rintro ⟨hnext, rfl⟩
      exact ⟨_, ⟨hnext, rfl⟩, rfl⟩
  | branch t f =>
    simp only [Exit.mapM, bind_eq_ok_iff, newId_eq_ok_iff, Exit.outputs, forall_mem_cons,
      and_iff_left (forall_mem_nil _)]
    constructor
    · rintro ⟨_, ⟨ht, rfl⟩, _, ⟨hf, rfl⟩, h⟩
      cases h
      exact ⟨⟨ht, hf⟩, rfl⟩
    · rintro ⟨⟨ht, hf⟩, rfl⟩
      exact ⟨_, ⟨ht, rfl⟩, _, ⟨hf, rfl⟩, rfl⟩
  | ret => simp [Exit.mapM, Exit.outputs, Exit.map, pure, Except.pure]

theorem eq_regionGraph (h : ofRegion region nodes entry = .ok part) :
    part = regionGraph region nodes entry := by
  obtain ⟨ns, hns, h⟩ := bind_eq_ok_iff.1 h
  obtain ⟨new, hnew, h⟩ := bind_eq_ok_iff.1 h
  cases h
  obtain ⟨_, rfl⟩ := newId_eq_ok_iff.1 hnew
  have hmap := eq_map_of_mapM (r := fun n => { n with exit := n.exit.map (renamed region) })
    (fun hn => by
      obtain ⟨e, he, hn⟩ := bind_eq_ok_iff.1 hn
      cases hn
      rw [(mapM_newId_eq_ok_iff.1 he).2]) hns
  rw [hmap, regionGraph, regionNodes, length_map]

theorem ofRegion_eq_ok (hentry : entry ∈ region) (h : ∀ n ∈ nodes, ∀ out ∈ n.outputs, out ∈ region) :
    ofRegion region nodes entry = .ok (regionGraph region nodes entry) := by
  have hmap : (nodes.mapM fun n => do
      return { n with exit := ← n.exit.mapM (newId region) } : Except Fault _) =
        .ok (nodes.map fun n => { n with exit := n.exit.map (renamed region) }) :=
    mapM_eq_ok fun n hn => by rw [mapM_newId_eq_ok_iff.2 ⟨h n hn, rfl⟩]; rfl
  rw [ofRegion, hmap, ok_bind, newId_eq_ok_iff.2 ⟨hentry, rfl⟩, ok_bind, length_map]
  rfl

end Graph

end Structurer
