/-
**How a tree is nested.**

The nodes of an acyclic graph are placed one after the other, each nested in what is around all its
predecessors.  What is kept of a place is only the node directly around it.  That is enough: whatever
begins the place of a node is the place inside some node, so the innermost one tells all the others.
-/

import Structurer.Proofs.Acyclic
import Structurer.Proofs.Reducing
import Structurer.Proofs.Slots

namespace Structurer

open Engine Fallible LinearTree List

variable {g : Graph} {ctx : Context} {extra : List (NodeId × LocalId)} {entry : TreeEntry}
  {t : Tree}

namespace LinearTree

/-! ### Common beginnings -/

theorem prefix_commonPrefix_iff {r p q : Place} : r <+: commonPrefix p q ↔ r <+: p ∧ r <+: q := by
  fun_induction commonPrefix p q generalizing r with
  | case1 p b q ih => cases r <;> grind
  | case2 a p b q hne => cases r <;> grind
  | case3 p q hne =>
    rcases p with _ | ⟨a, p⟩
    · simp +contextual [prefix_nil]
    · rcases q with _ | ⟨b, q⟩
      · simp +contextual [prefix_nil]
      · exact absurd rfl (hne a p b q rfl)

theorem prefix_foldl_iff {r p : Place} {ps : List Place} :
    r <+: ps.foldl commonPrefix p ↔ r <+: p ∧ ∀ q ∈ ps, r <+: q := by
  induction ps generalizing p with
  | nil => simp
  | cons q ps ih => rw [foldl_cons, ih, prefix_commonPrefix_iff, forall_mem_cons, and_assoc]

theorem prefix_commonPlace_iff {r : Place} {ps : List Place} (h : ps ≠ []) :
    r <+: commonPlace ps ↔ ∀ p ∈ ps, r <+: p := by
  cases ps with
  | nil => exact absurd rfl h
  | cons p ps => rw [commonPlace, prefix_foldl_iff, forall_mem_cons]

theorem commonPlace_begins {ps : List Place} {p : Place} (h : p ∈ ps) : commonPlace ps <+: p :=
  (prefix_commonPlace_iff (ne_nil_of_mem h)).1 prefix_rfl p h

/-! ### Flags -/

/-- Flags that fit an exit: one for each way out. -/
inductive Flags.For : Exit → Flags → Prop
  | seq {n : NodeId} (flag : LocalId) : Flags.For (.seq n) (.seq flag)
  | branch {n m : NodeId} (ifTrue ifFalse : LocalId) :
      Flags.For (.branch n m) (.branch ifTrue ifFalse)
  | ret : Flags.For .ret .ret

theorem flag_not_mem {known ls ls' : Locals} {new : List LocalId} {f : LocalId}
    (hf : known.Flag ls f) (hnew : ∀ f ∈ new, ls.Flag ls' f) : f ∉ new := by
  intro hmem
  obtain ⟨v, hv, _⟩ := hf.integer
  rw [(hnew f hmem).unknown] at hv
  cases hv

theorem freshFlags_spec (ctx : Context) (n : Node) :
    Succeeds (freshFlags n) ctx fun fl ctx' => ctx.Grows ctx' ∧ (ctx.locals.Valid →
      Flags.For n.exit fl ∧ fl.ids.Nodup ∧ ∀ f ∈ fl.ids, ctx.locals.Flag ctx'.locals f) := by
  unfold freshFlags
  cases he : n.exit with
  | ret => exact .pure ⟨.refl ctx, fun _ => ⟨.ret, nodup_nil, nofun⟩⟩
  | seq next =>
    refine (freshFlag_spec ctx _).bind ?_
    rintro f ctx₁ ⟨hg, hf⟩
    refine .pure ⟨hg, fun hv => ⟨.seq f, nodup_singleton f, fun f' hf' => ?_⟩⟩
    rw [mem_singleton.1 hf']
    exact hf hv
  | branch n m =>
    refine (freshFlag_spec ctx _).bind ?_
    rintro t ctx₁ ⟨hg, ht⟩
    refine (freshFlag_spec ctx₁ _).bind ?_
    rintro f ctx₂ ⟨hg', hf⟩
    refine .pure ⟨hg.trans hg', fun hv => ?_⟩
    replace ht := ht hv
    replace hf := hf (hg.valid hv)
    have hne : t ∉ [f] := flag_not_mem ht fun f' hf' => mem_singleton.1 hf' ▸ hf
    refine ⟨.branch t f, nodup_cons.2 ⟨hne, nodup_singleton f⟩, ?_⟩
    intro f' hf'
    rcases mem_cons.1 hf' with rfl | hf'
    · exact ht.mono hg'.locals
    · rw [mem_singleton.1 hf']
      exact hf.since hg.locals

/-- The flags of some nodes: each node has those that fit its exit, and no flag serves two purposes. -/
structure Flagged (g : Graph) (known ls : Locals) (nodes : List NodeId) (flags : List (NodeId × Flags)) :
    Prop where
  nodes : flags.map (·.1) = nodes
  fit : ∀ e ∈ flags, ∃ n, g.get? e.1 = some n ∧ Flags.For n.exit e.2
  nodup : (flags.flatMap (·.2.ids)).Nodup
  flag : ∀ f ∈ flags.flatMap (·.2.ids), known.Flag ls f

theorem flags_spec (ctx : Context) {nodes : List NodeId} (hnodes : ∀ id ∈ nodes, g.chart.Live id) :
    Succeeds (nodes.mapM fun id => do return (id, ← freshFlags (← g.node id))) ctx fun flags ctx' =>
      ctx.Grows ctx' ∧ flags.map (·.1) = nodes ∧
        (ctx.locals.Valid → Flagged g ctx.locals ctx'.locals nodes flags) := by
  induction nodes generalizing ctx with
  | nil => exact .pure ⟨.refl ctx, rfl, fun _ => ⟨rfl, nofun, nodup_nil, nofun⟩⟩
  | cons id nodes ih =>
    rw [mapM_cons]
    obtain ⟨b, hb⟩ := hnodes id (.head _)
    have hhead : Succeeds (do return (id, ← freshFlags (← g.node id))) ctx fun e ctx' =>
        ctx.Grows ctx' ∧ ∃ n, g.get? id = some n ∧ e.1 = id ∧ (ctx.locals.Valid →
          Flags.For n.exit e.2 ∧ e.2.ids.Nodup ∧ ∀ f ∈ e.2.ids, ctx.locals.Flag ctx'.locals f) := by
      refine (Succeeds.works (Graph.works_node hb) ctx).bind ?_
      rintro n ctx ⟨rfl, hn, _⟩
      refine (freshFlags_spec ctx n).bind ?_
      rintro fl ctx₁ ⟨hg, hfl⟩
      exact .pure ⟨hg, n, hn, rfl, hfl⟩
    refine hhead.bind ?_
    rintro ⟨id, fl⟩ ctx₁ ⟨hg, n, hn, rfl, hfl⟩
    refine (ih ctx₁ fun x hx => hnodes x (.tail _ hx)).bind ?_
    rintro flags ctx₂ ⟨hg', hnodes, h⟩
    have hall : ((id, fl) :: flags).map (·.1) = id :: nodes := by rw [map_cons, hnodes]
    refine .pure ⟨hg.trans hg', hall, fun hv => ?_⟩
    obtain ⟨hfor, hnd, hfl⟩ := hfl hv
    replace h := h (hg.valid hv)
    refine ⟨hall, ?_, ?_, ?_⟩
    · intro e he
      rcases mem_cons.1 he with rfl | he
      · exact ⟨n, hn, hfor⟩
      · exact h.fit e he
    · rw [flatMap_cons, nodup_append]
      refine ⟨hnd, h.nodup, fun f hf f' hf' heq => ?_⟩
      exact flag_not_mem (hfl f hf) h.flag (heq ▸ hf')
    · intro f hf
      rw [flatMap_cons] at hf
      rcases mem_append.1 hf with hf | hf
      · exact (hfl f hf).mono hg'.locals
      · exact (h.flag f hf).since hg.locals

/-! ### Code of nodes -/

def NodeCode (ls : Locals) (found : Bool) (fl : Flags) (b : Block) (code : Body) : Prop :=
  ∃ note load store, Body.hasNoCode note = true ∧
    (found = true ∧ load = [] ∨ found = false ∧ ls.Loads b.inputStack load) ∧
    (b.exit = .ret ∧ store = [] ∨ b.exit ≠ .ret ∧ ls.Stores b.outputStack store) ∧
    code = note ++ load ++ b.body ++ fl.record ++ store

theorem NodeCode.mono {ls ls' : Locals} {found : Bool} {fl : Flags} {b : Block} {code : Body}
    (h : ls.Extends ls') (hc : NodeCode ls found fl b code) : NodeCode ls' found fl b code := by
  obtain ⟨note, load, store, hnote, hload, hstore, hcode⟩ := hc
  exact ⟨note, load, store, hnote, hload.imp_right fun hl => ⟨hl.1, hl.2.mono h⟩,
    hstore.imp_right fun hs => ⟨hs.1, hs.2.mono h⟩, hcode⟩

theorem code_spec {p : Plan} {id : NodeId} {fl : Flags} (hfl : p.flags.lookup id = some fl) (n : Node)
    (first : Bool) (ctx : Context) :
    Succeeds (p.code id n first) ctx fun code ctx' => ctx.Grows ctx' ∧
      NodeCode ctx'.locals (first && p.entry = .onStack) ((p.flags.lookup id).getD .ret) n.block code := by
  rw [hfl, Option.getD_some]
  refine (Succeeds.works (.of_eq (Graph.entryOf_eq_ok_iff.2 hfl) rfl) ctx).bind ?_
  rintro _ ctx ⟨rfl, rfl⟩
  refine (comment_spec ctx _).bind ?_
  rintro note ctx ⟨rfl, hnote⟩
  have hrest : ∀ load ctx₁, ctx.Grows ctx₁ → ((first && p.entry = .onStack) = true ∧ load = [] ∨
      (first && p.entry = .onStack) = false ∧ ctx₁.locals.Loads n.inputStack load) →
      Succeeds (do
        let store ← if n.exit.isRet then pure [] else storeStack n.outputStack
        return note ++ load ++ n.body ++ fl.record ++ store) ctx₁
        fun code ctx' => ctx.Grows ctx' ∧ NodeCode ctx'.locals (first && p.entry = .onStack)
          fl n.block code := by
    intro load ctx₁ hg hload
    dsimp only
    cases he : n.exit with
    | ret => exact .pure ⟨hg, note, load, [], hnote, hload, .inl ⟨he, rfl⟩, rfl⟩
    | seq | branch =>
      refine (storeStack_spec ctx₁ n.outputStack).bind ?_
      rintro store ctx₂ ⟨hg', hstore⟩
      refine .pure ⟨hg.trans hg', note, load, store, hnote, ?_, .inr ⟨?_, hstore⟩, rfl⟩
      · exact hload.imp_right fun hl => ⟨hl.1, hl.2.mono hg'.locals⟩
      · rw [Node.block_exit, he]
        simp
  dsimp only
  split
  next hfound => exact hrest [] ctx (.refl ctx) (.inl ⟨hfound, rfl⟩)
  next hfound =>
    refine (loadStack_spec ctx n.inputStack).bind ?_
    rintro load ctx₁ ⟨hg, hload⟩
    exact hrest load ctx₁ hg (.inr ⟨by simpa using hfound, hload⟩)

/-! ### What makes a node run -/

def Plan.triggers (p : Plan) (id : NodeId) (n : Node) : List LocalId :=
  (n.inputs.toList.flatMap fun input =>
    match p.flags.lookup input, p.graph.get? input with
    | some flags, some source => flags.toward source.exit id
    | _, _ => []) ++ (p.extra.lookup id).toList

def Plan.origins (p : Plan) (t : Tree) (id : NodeId) (n : Node) : List Place :=
  (n.inputs.toList.map fun input => t.placeOf (p.order.idxOf input)) ++
    (p.extra.lookup id).toList.map fun _ => []

theorem Plan.eq_triggers {p : Plan} {id : NodeId} {n : Node} {flags : List LocalId}
    (h : p.findTriggers id n = .ok flags) : flags = p.triggers id n := by
  obtain ⟨found, hfound, h⟩ := bind_eq_ok_iff.1 h
  cases h
  rw [eq_map_of_mapM ?_ hfound, Plan.triggers, flatMap_def]
  intro input flags h
  obtain ⟨fl, hfl, h⟩ := bind_eq_ok_iff.1 h
  obtain ⟨source, hsource, h⟩ := bind_eq_ok_iff.1 h
  cases h
  rw [Graph.entryOf_eq_ok_iff.1 hfl, Graph.node_eq_ok_iff.1 hsource]

theorem Plan.eq_origins {p : Plan} {t : Tree} {id : NodeId} {n : Node} {places : List Place}
    (h : p.findOrigins t id n = .ok places) : places = p.origins t id n := by
  obtain ⟨found, hfound, h⟩ := bind_eq_ok_iff.1 h
  cases h
  rw [eq_map_of_mapM ?_ hfound, Plan.origins]
  intro input place h
  obtain ⟨position, hposition, h⟩ := bind_eq_ok_iff.1 h
  cases h
  rw [(Graph.positionOf_eq_ok_iff.1 hposition).2]

/-! ### Pieces and where they are nested -/

def Plan.first (p : Plan) (position : Nat) : Bool := p.entry ≠ .flagsOnly && position = 0

/-- A node and the piece of code that has been placed for it.  It is nested in what is around all its
predecessors, and directly in the innermost node of that. -/
structure Piece (p : Plan) (ls : Locals) (t : Tree) (id : NodeId) (n : Node) (around : Place)
    (x : Placed) : Prop where
  order : p.order[x.position]? = some id
  node : p.graph.get? id = some n
  runs : p.first x.position = true ∨ p.triggers id n ≠ []
  place : t.placeOf x.position = around ++ [x.position]
  anchor : x.anchor = around.getLast?
  nested : around = if p.first x.position = true then [] else commonPlace (p.origins t id n)
  test : x.test = if p.first x.position = true ∨ x.position + 1 = p.order.length ∧ around = [] then []
    else anySet (p.triggers id n)
  code : NodeCode ls (p.first x.position && p.entry = .onStack) ((p.flags.lookup id).getD .ret)
    n.block x.code

/-- A tree in which the nodes of the first positions have their places, apart from those that nothing
leads to. -/
structure Grown (p : Plan) (ls : Locals) (count : Nat) (t : Tree) : Prop where
  sorted : (t.placed.map (·.position)).Pairwise (· < ·)
  below : ∀ x ∈ t.placed, x.position < count
  pieces : ∀ x ∈ t.placed, ∃ id n around, Piece p ls t id n around x
  present : ∀ {j id n}, j < count → p.order[j]? = some id → p.graph.get? id = some n →
    p.first j = true ∨ p.triggers id n ≠ [] → ∃ x ∈ t.placed, x.position = j
  skipped : ∀ j, (∀ x ∈ t.placed, x.position ≠ j) → t.placeOf j = [j]

section Places

variable {p : Plan} {ls ls' : Locals} {t t' : Tree} {id : NodeId} {n : Node} {around q : Place}
  {x : Placed} {count : Nat}

theorem grown_begin (p : Plan) (ls : Locals) : Grown p ls 0 ⟨[], []⟩ :=
  ⟨List.Pairwise.nil, nofun, nofun, fun h => absurd h (Nat.not_lt_zero _), fun _ _ => rfl⟩

theorem Piece.outermost (h : Piece p ls t id n around x) (hfirst : p.first x.position = true) :
    around = [] := by
  rw [h.nested, if_pos hfirst]

theorem Piece.inputs (h : Piece p ls t id n around x) (hfirst : p.first x.position = false) :
    ∀ input ∈ n.inputs.toList, around <+: t.placeOf (p.order.idxOf input) := by
  intro input hinput
  rw [h.nested, hfirst, if_neg Bool.false_ne_true]
  exact commonPlace_begins (mem_append_left _ (mem_map_of_mem hinput))

theorem Piece.of_extra (h : Piece p ls t id n around x) (hfirst : p.first x.position = false)
    (hextra : p.extra.lookup id ≠ none) : around = [] := by
  obtain ⟨flag, hflag⟩ := Option.ne_none_iff_exists'.1 hextra
  have hmem : ([] : Place) ∈ p.origins t id n := by simp [Plan.origins, hflag]
  rw [h.nested, hfirst, if_neg Bool.false_ne_true]
  exact prefix_nil.1 (commonPlace_begins hmem)

theorem origins_congr (h : ∀ input ∈ n.inputs.toList,
    t'.placeOf (p.order.idxOf input) = t.placeOf (p.order.idxOf input)) :
    p.origins t' id n = p.origins t id n := by
  rw [Plan.origins, Plan.origins, map_congr_left h]

/-- Predecessors come first in the order of a plan. -/
structure Plan.Ordered (p : Plan) : Prop where
  nodup : p.order.Nodup
  before : ∀ {id n}, p.graph.get? id = some n → ∀ input ∈ n.inputs.toList,
    p.order.idxOf input < p.order.idxOf id

theorem Plan.Ordered.idxOf_eq (hp : p.Ordered) {k : Nat} (h : p.order[k]? = some id) :
    p.order.idxOf id = k := by
  obtain ⟨hk, rfl⟩ := List.getElem?_eq_some_iff.1 h
  exact hp.nodup.idxOf_getElem k hk

theorem Plan.Ordered.earlier (hp : p.Ordered) {k : Nat} (hid : p.order[k]? = some id)
    (hn : p.graph.get? id = some n) : ∀ input ∈ n.inputs.toList, p.order.idxOf input < k := by
  rw [← hp.idxOf_eq hid]
  exact hp.before hn

/-- Every node of a plan is in the graph and has its flags. -/
structure Plan.Furnished (p : Plan) : Prop where
  live : ∀ id ∈ p.order, p.graph.chart.Live id
  flags : ∀ id ∈ p.order, ∃ fl, p.flags.lookup id = some fl

theorem Plan.Ordered.mem_order (hp : p.Ordered) (hn : p.graph.get? id = some n) :
    ∀ input ∈ n.inputs.toList, input ∈ p.order := fun input hinput =>
  List.idxOf_lt_length_iff.1 ((hp.before hn input hinput).trans_le List.idxOf_le_length)

theorem findTriggers_works (hp : p.Ordered) (hf : p.Furnished) (hn : p.graph.get? id = some n) :
    Works (p.findTriggers id n) fun flags => flags = p.triggers id n := by
  have hworks : Works (p.findTriggers id n) fun _ => True := by
    refine (Works.mapM fun input hinput => ?_).bind fun _ _ => .pure trivial
    have hmem := hp.mem_order hn input hinput
    obtain ⟨fl, hfl⟩ := hf.flags input hmem
    obtain ⟨b, hb⟩ := hf.live input hmem
    rw [Graph.entryOf_eq_ok_iff.2 hfl, ok_bind]
    exact (Graph.works_node hb).bind fun _ _ => .pure trivial
  obtain ⟨flags, hflags, _⟩ := hworks
  exact .of_eq hflags (Plan.eq_triggers hflags)

theorem findOrigins_works (hp : p.Ordered) (hn : p.graph.get? id = some n) :
    Works (p.findOrigins t id n) fun places => places = p.origins t id n := by
  have hworks : Works (p.findOrigins t id n) fun _ => True := by
    refine (Works.mapM fun input hinput => ?_).bind fun _ _ => .pure trivial
    rw [Graph.positionOf_eq_ok_iff.2 ⟨hp.mem_order hn input hinput, rfl⟩]
    exact .pure trivial
  obtain ⟨places, hplaces, _⟩ := hworks
  exact .of_eq hplaces (Plan.eq_origins hplaces)

theorem Piece.mono (hp : p.Ordered) (h : Piece p ls t id n around x) (hls : ls.Extends ls')
    (ht : ∀ j ≤ x.position, t'.placeOf j = t.placeOf j) : Piece p ls' t' id n around x where
  order := h.order
  node := h.node
  runs := h.runs
  place := by rw [ht _ (Nat.le_refl _), h.place]
  anchor := h.anchor
  nested := by
    have hinputs := hp.earlier h.order h.node
    rw [origins_congr fun input hinput => ht _ (Nat.le_of_lt (hinputs input hinput))]
    exact h.nested
  test := h.test
  code := h.code.mono hls

theorem Grown.mono (hp : p.Ordered) (h : Grown p ls count t) (hls : ls.Extends ls') :
    Grown p ls' count t where
  sorted := h.sorted
  below := h.below
  pieces x hx := by
    obtain ⟨id, n, around, hpiece⟩ := h.pieces x hx
    exact ⟨id, n, around, hpiece.mono hp hls fun _ _ => rfl⟩
  present := h.present
  skipped := h.skipped

theorem Grown.skip (h : Grown p ls count t) (hid : p.order[count]? = some id)
    (hn : p.graph.get? id = some n) (hruns : ¬ (p.first count = true ∨ p.triggers id n ≠ [])) :
    Grown p ls (count + 1) t where
  sorted := h.sorted
  below x hx := Nat.lt_succ_of_lt (h.below x hx)
  pieces := h.pieces
  present := by
    intro j id' n' hj hid' hn' hruns'
    rcases Nat.lt_succ_iff_lt_or_eq.1 hj with hj | rfl
    · exact h.present hj hid' hn' hruns'
    · rw [hid] at hid'
      cases hid'
      rw [hn] at hn'
      cases hn'
      exact absurd hruns' hruns
  skipped := h.skipped

theorem Grown.put (hp : p.Ordered) (h : Grown p ls count t) (hx : x.position = count)
    (ht' : t' = ⟨(count, around ++ [count]) :: t.places, t.placed ++ [x]⟩)
    (hpiece : Piece p ls t' id n around x) : Grown p ls (count + 1) t' := by
  have hplace : ∀ j, j ≠ count → t'.placeOf j = t.placeOf j := by
    intro j hj
    subst ht'
    unfold Tree.placeOf
    rw [List.lookup_cons, beq_eq_false_iff_ne.2 hj]
  have hplaced : t'.placed = t.placed ++ [x] := by rw [ht']
  refine ⟨?_, ?_, ?_, ?_, ?_⟩
  · rw [hplaced, map_append, pairwise_append]
    refine ⟨h.sorted, pairwise_singleton _ _, fun a ha b hb => ?_⟩
    obtain ⟨y, hy, rfl⟩ := mem_map.1 ha
    rw [map_singleton, mem_singleton] at hb
    rw [hb, hx]
    exact h.below y hy
  · intro y hy
    rw [hplaced] at hy
    rcases mem_append.1 hy with hy | hy
    · exact Nat.lt_succ_of_lt (h.below y hy)
    · rw [mem_singleton.1 hy, hx]
      exact Nat.lt_succ_self _
  · intro y hy
    rw [hplaced] at hy
    rcases mem_append.1 hy with hy | hy
    · obtain ⟨id', n', around', hold⟩ := h.pieces y hy
      have hlt := h.below y hy
      exact ⟨id', n', around', hold.mono hp (.refl _) fun j hj => hplace j (by omega)⟩
    · rw [mem_singleton.1 hy]
      exact ⟨id, n, around, hpiece⟩
  · intro j id' n' hj hid' hn' hruns'
    rw [hplaced]
    rcases Nat.lt_succ_iff_lt_or_eq.1 hj with hj | rfl
    · obtain ⟨y, hy, hpos⟩ := h.present hj hid' hn' hruns'
      exact ⟨y, mem_append_left _ hy, hpos⟩
    · exact ⟨x, mem_append_right _ (mem_singleton_self x), hx⟩
  · intro j hj
    rw [hplaced] at hj
    have hne : j ≠ count := by
      rintro rfl
      exact hj x (mem_append_right _ (mem_singleton_self x)) hx
    rw [hplace j hne]
    exact h.skipped j fun y hy => hj y (mem_append_left _ hy)

theorem place_spec (hp : p.Ordered) (hf : p.Furnished) (h : Grown p ctx.locals count t)
    (hid : p.order[count]? = some id) :
    Succeeds (p.place t id count) ctx fun t' ctx' => ctx.Grows ctx' ∧
      Grown p ctx'.locals (count + 1) t' := by
  have hmem := List.mem_of_getElem? hid
  obtain ⟨b, hb⟩ := hf.live id hmem
  obtain ⟨fl, hfl⟩ := hf.flags id hmem
  refine (Succeeds.works (Graph.works_node hb) ctx).bind ?_
  rintro n ctx ⟨rfl, hn, _⟩
  refine (Succeeds.works (findTriggers_works hp hf hn) ctx).bind ?_
  rintro _ ctx ⟨rfl, rfl⟩
  refine (Succeeds.works (findOrigins_works hp hn) ctx).bind ?_
  rintro _ ctx ⟨rfl, rfl⟩
  dsimp only
  split
  next hskip =>
    refine (Succeeds.emit _).bind fun _ ctx₁ hg => .pure ⟨hg, ?_⟩
    refine (h.mono hp hg.locals).skip hid hn ?_
    have hskip : (!p.first count && (p.triggers id n).isEmpty) = true := hskip
    simp only [Bool.and_eq_true, Bool.not_eq_true', List.isEmpty_iff] at hskip
    rw [hskip.1, hskip.2]
    simp
  next hruns =>
    refine (code_spec hfl n _ ctx).bind ?_
    rintro code ctx₁ ⟨hg, hcode⟩
    refine .pure ⟨hg, (h.mono hp hg.locals).put hp rfl rfl ⟨hid, hn, ?_, ?_, rfl, ?_, rfl, hcode⟩⟩
    · by_cases hfirst : p.first count = true
      · exact .inl hfirst
      · refine .inr fun htriggers => hruns ?_
        show (!p.first count && (p.triggers id n).isEmpty) = true
        simp [hfirst, htriggers]
    · simp [Tree.placeOf]
    · refine (congrArg (fun l => if p.first count = true then [] else commonPlace l)
        (origins_congr fun input hinput => ?_)).symm
      have hne := Nat.ne_of_lt (hp.earlier hid hn input hinput)
      unfold Tree.placeOf
      rw [List.lookup_cons, beq_eq_false_iff_ne.2 hne]

theorem placeAll_spec (hp : p.Ordered) (hf : p.Furnished)
    {before rest : List NodeId} (horder : p.order = before ++ rest)
    (h : Grown p ctx.locals before.length t) :
    Succeeds ((rest.zipIdx before.length).foldlM (fun t e => p.place t e.1 e.2) t) ctx fun t' ctx' =>
      ctx.Grows ctx' ∧ Grown p ctx'.locals p.order.length t' := by
  induction rest generalizing before t ctx with
  | nil =>
    rw [append_nil] at horder
    rw [← horder] at h
    exact .pure ⟨.refl ctx, h⟩
  | cons id rest ih =>
    rw [zipIdx_cons, foldlM_cons]
    have hid : p.order[before.length]? = some id := by
      rw [horder]
      simp
    refine (place_spec hp hf h hid).bind ?_
    rintro t₁ ctx₁ ⟨hg, h₁⟩
    have hlen : before.length + 1 = (before ++ [id]).length := by simp
    rw [hlen] at h₁ ⊢
    have hrest : p.order = (before ++ [id]) ++ rest := by simp [horder]
    exact (ih hrest h₁).mono fun t₂ ctx₂ h₂ => ⟨hg.trans h₂.1, h₂.2⟩

def Tree.inner (t : Tree) : Option Nat → Place
  | none => []
  | some k => t.placeOf k

theorem Piece.exists_input (h : Piece p ls t id n around x) (hne : around ≠ []) :
    ∃ input ∈ n.inputs.toList, around <+: t.placeOf (p.order.idxOf input) := by
  have hfirst : p.first x.position = false := by
    by_contra hfirst
    exact hne (h.outermost (by simpa using hfirst))
  have hextra : p.extra.lookup id = none := by
    by_contra hextra
    exact hne (h.of_extra hfirst hextra)
  have hinputs : n.inputs.toList ≠ [] := by
    intro hnone
    rcases h.runs with hf | htriggers
    · rw [hfirst] at hf
      cases hf
    · simp [Plan.triggers, hnone, hextra] at htriggers
  obtain ⟨input, hmem⟩ := exists_mem_of_ne_nil _ hinputs
  exact ⟨input, hmem, h.inputs hfirst input hmem⟩

theorem Grown.last_of_prefix (hp : p.Ordered) (h : Grown p ls count t) (j : Nat) {a : Nat}
    (hq : q ++ [a] <+: t.placeOf j) : q ++ [a] = t.placeOf a ∧ a ≤ j := by
  -- by induction on the position: a place goes on with the place of an earlier node
  induction j using Nat.strongRecOn generalizing q a with
  | ind j ih =>
    by_cases hj : ∃ x ∈ t.placed, x.position = j
    · obtain ⟨x, hx, rfl⟩ := hj
      obtain ⟨id, n, around, hpiece⟩ := h.pieces x hx
      rw [hpiece.place] at hq
      rcases prefix_concat_iff.1 hq with heq | hq
      · obtain ⟨rfl, rfl⟩ := append_singleton_inj.1 heq
        exact ⟨hpiece.place.symm, Nat.le_refl _⟩
      · have hne : around ≠ [] := by
          rintro rfl
          simpa using prefix_nil.1 hq
        obtain ⟨input, hmem, haround⟩ := hpiece.exists_input hne
        have hlt := hp.earlier hpiece.order hpiece.node input hmem
        obtain ⟨heq, hle⟩ := ih _ hlt (hq.trans haround)
        exact ⟨heq, by omega⟩
    · have hskip : ∀ x ∈ t.placed, x.position ≠ j := fun x hx hpos => hj ⟨x, hx, hpos⟩
      rw [h.skipped j hskip] at hq
      have heq : q ++ [a] = [] ++ [j] := by
        rcases prefix_concat_iff.1 (show q ++ [a] <+: [] ++ [j] from hq) with heq | hq
        · exact heq
        · simpa using prefix_nil.1 hq
      obtain ⟨rfl, rfl⟩ := append_singleton_inj.1 heq
      exact ⟨(h.skipped a hskip).symm, Nat.le_refl _⟩

/-- **The place of a node** is that of the node around it, which comes before it. -/
theorem Grown.around_eq (hp : p.Ordered) (h : Grown p ls count t) (hx : Piece p ls t id n around x) :
    around = t.inner x.anchor ∧ ∀ a, x.anchor = some a → a < x.position := by
  rw [hx.anchor]
  rcases eq_nil_or_concat around with rfl | ⟨q, a, rfl⟩
  · exact ⟨rfl, nofun⟩
  · obtain ⟨input, hmem, haround⟩ := hx.exists_input (by simp)
    obtain ⟨heq, hle⟩ := h.last_of_prefix hp _ (by simpa using haround)
    have hlt := hp.earlier hx.order hx.node input hmem
    rw [concat_eq_append, getLast?_concat]
    refine ⟨heq, fun b hb => ?_⟩
    cases hb
    omega

end Places

/-- The tree of a graph: its plan, its flags and the places of its nodes. -/
structure Built (ctx : Context) (g : Graph) (extra : List (NodeId × LocalId)) (entry : TreeEntry)
    (ctx' : Context) (p : Plan) (t : Tree) : Prop where
  graph_eq : p.graph = g
  entry_eq : p.entry = entry
  extra_eq : p.extra = extra
  grows : ctx.Grows ctx'
  order : g.chart.Topological p.order
  head : entry ≠ .flagsOnly → p.order.head? = some g.entry
  flags : Flagged g ctx.locals ctx'.locals p.order p.flags
  grown : Grown p ctx'.locals p.order.length t

theorem Built.ordered {ctx' : Context} {p : Plan} (h : Built ctx g extra entry ctx' p t)
    (hg : g.Tidy) : p.Ordered := by
  refine ⟨h.order.nodup, fun {id n} hn input hinput => ?_⟩
  rw [h.graph_eq] at hn
  exact h.order.before ((hg.mem_inputs_iff hn).1 hinput)

theorem Built.mono {ctx' ctx'' : Context} {p : Plan} (h : Built ctx g extra entry ctx' p t)
    (hg : g.Tidy) (hgrows : ctx'.Grows ctx'') : Built ctx g extra entry ctx'' p t where
  graph_eq := h.graph_eq
  entry_eq := h.entry_eq
  extra_eq := h.extra_eq
  grows := h.grows.trans hgrows
  order := h.order
  head := h.head
  flags := { h.flags with flag := fun f hf => (h.flags.flag f hf).mono hgrows.locals }
  grown := h.grown.mono (h.ordered hg) hgrows.locals

def Plan.flagIds (p : Plan) : List LocalId := p.flags.flatMap (·.2.ids)

def treeCode (p : Plan) (t : Tree) : Body :=
  clear p.flagIds ++ assemble t.placed (p.order.length + 1) none

end LinearTree

/-- **A tree is built for every acyclic graph**, and what is built is the tree of an acyclic graph.  The
names of the variables matter to what the tree does, and not to whether there is one. -/
theorem solveLinearTree_works (ctx : Context) (hg : g.Tidy) (hL : g.chart.Landing)
    (hF : g.chart.Forked) (extra : List (NodeId × LocalId))
    (hentry : entry ≠ .flagsOnly → g.chart.Live g.entry) :
    Succeeds (solveLinearTree g extra entry) ctx fun r ctx' => ctx.Grows ctx' ∧
      (ctx.locals.Valid → ∀ body, r = some body → ∃ p t, Built ctx g extra entry ctx' p t ∧
        body = treeCode p t ++ [.unreachable]) ∧
      ∀ rank : NodeId → Nat, (∀ {p id}, g.chart.Targets p id → rank p < rank id) →
        (entry ≠ .flagsOnly → ∀ p, ¬ g.chart.Targets p g.entry) → r ≠ none := by
  unfold solveLinearTree
  refine (Succeeds.works (Graph.sort_works hg hL hF) ctx).bind ?_
  rintro r ctx ⟨rfl, htopological, hrank⟩
  cases r with
  | none =>
    refine .pure ⟨.refl ctx, fun _ => nofun, fun rank h _ => ?_⟩
    obtain ⟨order, horder⟩ := hrank rank h
    cases horder
  | some order =>
    obtain ⟨horder, hfirst⟩ := htopological order rfl
    dsimp only
    split
    next hhead =>
      refine .pure ⟨.refl ctx, fun _ => nofun, fun rank h hfree => ?_⟩
      exact absurd (hfirst (hentry hhead.1) (hfree hhead.1)) hhead.2
    next hhead =>
      refine (Succeeds.emit _).bind fun _ ctx₁ hg₁ => ?_
      refine (flags_spec ctx₁ fun id hid => horder.mem.1 hid).bind ?_
      rintro flags ctx₂ ⟨hg₂, hnodes, hflags⟩
      let plan : Plan := { graph := g, entry, order, flags, extra }
      have hplan : plan.Ordered := by
        refine ⟨horder.nodup, fun {id n} hn input hinput => ?_⟩
        exact horder.before ((hg.mem_inputs_iff hn).1 hinput)
      have hfurnished : plan.Furnished := by
        refine ⟨fun id hid => horder.mem.1 hid, fun id hid => Graph.mem_keys_iff.1 ?_⟩
        rw [hnodes]
        exact hid
      have hall : plan.order = [] ++ order := rfl
      refine (placeAll_spec hplan hfurnished hall (grown_begin plan ctx₂.locals)).bind ?_
      rintro tree ctx₃ ⟨hg₃, hgrown⟩
      have hgrows := hg₁.trans (hg₂.trans hg₃)
      refine .pure ⟨hgrows, ?_, fun _ _ _ => by simp⟩
      rintro hv body hbody
      cases hbody
      replace hflags := hflags (hg₁.valid hv)
      refine ⟨plan, tree, ⟨rfl, rfl, rfl, hgrows, horder, fun hne => ?_, ?_, hgrown⟩, rfl⟩
      · by_contra hno
        exact hhead ⟨hne, hno⟩
      · exact ⟨hflags.nodes, hflags.fit, hflags.nodup, fun f hf =>
          ((hflags.flag f hf).mono hg₃.locals).since hg₁.locals⟩

theorem solveLinearTree_spec (hv : ctx.locals.Valid) (hg : g.Tidy) (hC : g.chart.Closed)
    (hF : g.chart.Forked) (extra : List (NodeId × LocalId)) (entry : TreeEntry) :
    Succeeds (solveLinearTree g extra entry) ctx fun r ctx' => ctx.Grows ctx' ∧
      (∀ body, r = some body → ∃ p t, Built ctx g extra entry ctx' p t ∧
        body = treeCode p t ++ [.unreachable]) ∧
      ∀ rank : NodeId → Nat, (∀ {p id}, g.chart.Targets p id → rank p < rank id) →
        (entry ≠ .flagsOnly → ∀ p, ¬ g.chart.Targets p g.entry) → r ≠ none :=
  (solveLinearTree_works ctx hg hC.landing hF extra fun _ => hC.entry).mono
    fun _ _ h => ⟨h.1, h.2.1 hv, h.2.2⟩

end Structurer
