/-
**Solving without comments.**

Every way to solve a graph makes the same code of a graph with comments and of the graph without them, as far as
the code is more than comments: the flags, labels and variables are the same ones, made in the same order.
-/

import Structurer.Proofs.Mirroring

namespace Structurer

open Engine Fallible List Structurer.Graph
open Body (Made)
open Graph.Bares (OfRule)

variable {α β : Type} {R : α → β → Prop} {g₀ : Graph}

theorem Body.bare_flatMap {α : Type} (f : α → Body) (l : List α) :
    Body.bare (l.flatMap f) = l.flatMap fun a => Body.bare (f a) := by
  induction l with
  | nil => rfl
  | cons a l ih => rw [flatMap_cons, flatMap_cons, bare_append, ih]

theorem Graph.follows_node_bare (g : Graph) (id : NodeId) :
    Follows (fun n₀ n => n₀ = n.bare) (g.bare.node id) (g.node id) :=
  .of_map (node_bare g id) fun _ _ => rfl

/-! ### Trees of guarded code -/

namespace LinearTree

def Placed.bare (q : Placed) : Placed := { q with code := Body.bare q.code }

/-- Trees that differ in comments only.  Tests hold none. -/
structure Tree.Bares (t₀ t : Tree) : Prop where
  places : t₀.places = t.places
  placed : t₀.placed = t.placed.map Placed.bare
  tests : ∀ q ∈ t.placed, Body.bare q.test = q.test

theorem bare_record (flags : Flags) : Body.bare flags.record = flags.record := by
  cases flags <;> rfl

theorem bare_clear (flags : List LocalId) : Body.bare (clear flags) = clear flags := by
  unfold clear
  rw [Body.bare_flatMap]
  rfl

theorem bare_anySet (flags : List LocalId) : Body.bare (anySet flags) = anySet flags := by
  cases flags with
  | nil => rfl
  | cons flag flags =>
    rw [anySet, Body.bare_cons_of_real rfl, Body.bare_flatMap]
    rfl

theorem assemble_map_bare {placed : List Placed} (h : ∀ q ∈ placed, Body.bare q.test = q.test)
    (fuel : Nat) (anchor : Option Nat) :
    assemble (placed.map Placed.bare) fuel anchor = Body.bare (assemble placed fuel anchor) := by
  induction fuel generalizing anchor with
  | zero => rfl
  | succ fuel ih =>
    rw [assemble, assemble, Body.bare_flatMap, filter_map, flatMap_map]
    refine flatMap_congr fun q hq => ?_
    have htest := h q (mem_filter.1 hq).1
    simp only [Placed.bare, ih]
    split
    · rw [Body.bare_append]
    · rw [Body.bare_append, htest, Body.bare_cons_of_real rfl, Instruction.bare, Body.bare_append]
      rfl

def Plan.bare (p : Plan) : Plan := { p with graph := p.graph.bare }

theorem Plan.findTriggers_bare (p : Plan) (id : NodeId) (n : Node) :
    p.bare.findTriggers id n.bare = p.findTriggers id n := by
  simp only [findTriggers, bare, Node.bare_inputs, node_bare, bind_map_left, Node.bare_exit]

end LinearTree

namespace Engine.Mirrors

open LinearTree

theorem freshFlags (n : Node) : Mirrors Eq (freshFlags n) (freshFlags n) := by
  unfold LinearTree.freshFlags
  split
  · refine bindEq (freshFlag _) fun flag => ?_
    exact pure rfl
  · refine bindEq (freshFlag _) fun ifTrue => ?_
    refine bindEq (freshFlag _) fun ifFalse => ?_
    exact pure rfl
  · exact pure rfl

theorem code (p : Plan) (id : NodeId) (n : Node) (first : Bool) :
    Mirrors (fun c₀ c => c₀ = Body.bare c) (p.bare.code id n.bare first) (p.code id n first) := by
  refine bindLift fun flags _ => ?_
  have hstore : ∀ note₀ note load₀ load, Made note₀ note → Made load₀ load →
      Mirrors (fun c₀ c => c₀ = Body.bare c)
        (do
          let store ← if n.exit.isRet then Pure.pure [] else Engine.storeStack n.outputStack
          return note₀ ++ load₀ ++ Body.bare n.body ++ flags.record ++ store)
        (do
          let store ← if n.exit.isRet then Pure.pure [] else Engine.storeStack n.outputStack
          return note ++ load ++ n.body ++ flags.record ++ store) := by
    intro note₀ note load₀ load hnote hload
    have hend : ∀ store₀ store, Made store₀ store → Mirrors (fun c₀ c => c₀ = Body.bare c)
        (Pure.pure (note₀ ++ load₀ ++ Body.bare n.body ++ flags.record ++ store₀))
        (Pure.pure (note ++ load ++ n.body ++ flags.record ++ store)) := by
      intro store₀ store hstore
      refine pure ?_
      simp only [Body.bare_append, bare_record, hnote.bare, hload.bare, hstore.bare]
    exact ite (bind (pure .nil) hend) (bind (storeStack _) hend)
  exact bind (comment _) fun note₀ note hnote =>
    ite (bind (pure .nil) fun _ _ hload => hstore _ _ _ _ hnote hload)
      (bind (loadStack _) fun _ _ hload => hstore _ _ _ _ hnote hload)

theorem place (p : Plan) {t₀ t : Tree} (h : t₀.Bares t) (id : NodeId) (position : Nat) :
    Mirrors Tree.Bares (p.bare.place t₀ id position) (p.place t id position) := by
  refine bind (lift (p.graph.follows_node_bare id)) ?_
  rintro _ n rfl
  have horigins : p.bare.findOrigins t₀ id n.bare = p.findOrigins t id n := by
    simp only [Plan.findOrigins, Plan.bare, Node.bare_inputs, Tree.placeOf, h.places]
  simp only [Plan.findTriggers_bare, horigins]
  refine bindLift fun triggers _ => bindLift fun origins _ => ?_
  refine ite (bind (emit _ _) fun _ _ _ => pure h) (bind (code p id n _) ?_)
  rintro _ c rfl
  -- a test is made of flags alone, so it is the same code in both trees
  have htest : ∀ (always : Prop) [Decidable always],
      Body.bare (if always then [] else anySet triggers) = if always then [] else anySet triggers := by
    intro always _
    split
    · rfl
    · exact bare_anySet _
  refine pure ⟨?_, ?_, ?_⟩
  · rw [h.places]
    rfl
  · rw [h.placed, map_append]
    rfl
  · intro q hq
    rcases mem_append.1 hq with hq | hq
    · exact h.tests q hq
    · rw [mem_singleton.1 hq]
      exact htest _

/-- **A tree of guarded code.** -/
theorem solveLinearTree (g : Graph) (extra : List (NodeId × LocalId)) (entry : TreeEntry) :
    Mirrors (Option.Rel fun c₀ c => c₀ = Body.bare c) (solveLinearTree g.bare extra entry)
      (solveLinearTree g extra entry) := by
  unfold Structurer.solveLinearTree
  rw [sort_bare, bare_entry]
  refine bind (lift (.of_eq rfl)) ?_
  rintro _ (_ | order) rfl
  · exact pure .none
  · refine ite (pure .none) (bind (emit _ _) fun _ _ _ => ?_)
    have hflags : Mirrors (List.Forall₂ Eq)
        (order.mapM fun id => return (id, ← LinearTree.freshFlags (← g.bare.node id)))
        (order.mapM fun id => return (id, ← LinearTree.freshFlags (← g.node id))) := by
      refine mapM (R := Eq) ?_ (forall₂_refl order)
      rintro id _ rfl
      refine bind (lift (g.follows_node_bare id)) ?_
      rintro _ n rfl
      refine bindEq (freshFlags n) fun flags => ?_
      exact pure rfl
    -- the same nodes in the same order get the same flags
    refine bind hflags fun flags₀ flags heq => ?_
    rw [forall₂_eq_eq_eq] at heq
    subst heq
    have htree := foldlM (R := Tree.Bares)
      (fun t₀ t e ht => place { graph := g, entry, order, flags := flags₀, extra } ht e.1 e.2) order.zipIdx
      (a := ⟨[], []⟩) (b := ⟨[], []⟩) ⟨rfl, rfl, by simp⟩
    refine bind htree fun t₀ t ht => pure (.some ?_)
    rw [ht.placed, assemble_map_bare ht.tests, Body.bare_append, Body.bare_append, bare_clear]
    rfl

end Engine.Mirrors

/-! ### Dispatch loops -/

namespace Dispatch

theorem pushCase_bare {cases : List NodeId} {id : NodeId} {push : Instruction}
    (h : pushCase cases id = .ok push) : push.isComment = false ∧ push.bare = push := by
  obtain ⟨_, rfl⟩ := pushCase_eq_ok_iff.1 h
  exact ⟨rfl, rfl⟩

theorem pushNext_bare {cases : List NodeId} {exit : Exit} {push : Instruction}
    (h : pushNext? cases exit = .ok (some push)) : push.isComment = false ∧ push.bare = push := by
  obtain ⟨_, h⟩ := pushNext?_eq_ok_iff.1 h
  cases exit <;> cases h <;> exact ⟨rfl, rfl⟩

end Dispatch

namespace Engine.Mirrors

open Dispatch

theorem caseOf (cases : List NodeId) (selector : LocalId) (label : LoopLabel) (n : Node) :
    Mirrors (fun c₀ c => c₀ = Body.bare c) (caseOf cases selector label n.bare)
      (caseOf cases selector label n) := by
  refine bind (loadStack _) fun load₀ load hload => bind (comment _) fun note₀ note hnote => ?_
  rw [Node.bare_exit]
  refine bindLift fun push hpush => ?_
  cases push with
  | none =>
    refine pure ?_
    simp only [Body.bare_append, hload.bare, hnote.bare, Node.bare_body]
    rfl
  | some push =>
    obtain ⟨hreal, hbare⟩ := pushNext_bare hpush
    refine bind (storeStack _) fun store₀ store hstore => pure ?_
    simp only [Body.bare_append, hload.bare, hnote.bare, hstore.bare, Node.bare_body,
      Body.bare_cons_of_real hreal, hbare]
    rfl

theorem prologue (cases : List NodeId) (selector : LocalId) (entry : NodeId) (n : Node) :
    Mirrors (fun c₀ c => c₀ = Body.bare c) (prologue cases selector entry n.bare)
      (prologue cases selector entry n) := by
  unfold Dispatch.prologue
  rw [Node.bare_exit]
  split
  · refine bind (comment _) fun note₀ note hnote => bindLift fun push hpush => ?_
    obtain ⟨hreal, hbare⟩ := pushCase_bare hpush
    refine bind (storeStack _) fun store₀ store hstore => pure ?_
    simp only [Body.bare_append, hnote.bare, hstore.bare, Node.bare_body, Body.bare_cons_of_real hreal,
      hbare]
    rfl
  · refine bind (storeStack _) fun store₀ store hstore => bindLift fun push hpush => pure ?_
    obtain ⟨hreal, hbare⟩ := pushCase_bare hpush
    simp only [Body.bare_append, hstore.bare, Body.bare_cons_of_real hreal, hbare]
    rfl

/-- **A dispatch loop.** -/
theorem flatDispatch (g : Graph) :
    Mirrors (fun n₀ n => n₀ = n.bare) (flatDispatch g.bare) (flatDispatch g) := by
  refine get fun ctx ctx₂ hm => ?_
  rw [hm.settings]
  refine bind (lift (.of_map (g.fingerprint_bare _) (R := fun r₀ r => r₀ = (r.1, r.2.bare)) fun _ _ => rfl)) ?_
  rintro _ ⟨fingerprint, g'⟩ rfl
  refine bind (emit _ _) fun _ _ _ => bind (recordFallback _ _ _ _) fun _ _ _ => ?_
  refine bind (lift (g'.follows_node_bare g'.entry)) ?_
  rintro _ first rfl
  refine bindEq (freshFlag _) fun selector => ?_
  refine bindEq freshLabel fun label => ?_
  -- the nodes that get a case are the same ones, and so are their numbers
  simp only [bare_nodes, bare_entry, Node.bare_exit, Node.bare_inputs, Node.bare_inputStack,
    filter_map, List.map_map, Function.comp_def]
  refine bind (prologue _ selector _ first) ?_
  rintro _ before rfl
  refine bind (mapM (R := fun e₀ e => e₀ = (e.1, e.2.bare)) (S := fun c₀ c => c₀ = Body.bare c) ?_
    (forall₂_map_left_iff.2 (forall₂_same.2 fun _ _ => rfl))) ?_
  · rintro _ e rfl
    exact caseOf _ selector label e.2
  · intro bodies₀ bodies hbodies
    have heq : bodies₀ = bodies.map Body.bare := by
      rw [← forall₂_eq_eq_eq, forall₂_map_right_iff]
      exact hbodies
    refine pure ?_
    simp [heq, Node.new, Node.bare]

end Engine.Mirrors

/-! ### Edges that become jumps -/

theorem bare_oneShotLoop (label : LoopLabel) (first : LocalId) (once otherwise : Body) :
    Body.bare (oneShotLoop label first once otherwise) =
      oneShotLoop label first (Body.bare once) (Body.bare otherwise) :=
  rfl

theorem inlineExits_mirrors {m : Type → Type} [Monad m] [MonadLiftT (Except Fault) m]
    {T : ∀ {α β : Type}, (α → β → Prop) → m α → m β → Prop}
    (hpure : ∀ {α β : Type} {R : α → β → Prop} {a : α} {b : β}, R a b → T R (pure a) (pure b))
    (hlift : ∀ {α β : Type} {R : α → β → Prop} {x : Except Fault α} {y : Except Fault β},
      Follows R x y → T R (liftM x) (liftM y))
    (hbind : ∀ {α β γ δ : Type} {R : α → β → Prop} {S : γ → δ → Prop} {x : m α} {y : m β} {f : α → m γ}
      {k : β → m δ}, T R x y → (∀ a b, R a b → T S (f a) (k b)) → T S (x >>= f) (y >>= k))
    {leaving : NodeId → Bool} {jump₀ jump : NodeId → m Body} (hjump : ∀ id, T Made (jump₀ id) (jump id))
    {g₀ g : Graph} (h : g₀.Bares g) (id : NodeId) :
    T Bares (inlineExits leaving jump₀ g₀ id) (inlineExits leaving jump g id) := by
  refine hbind (hlift (h.node id)) ?_
  rintro _ n ⟨rfl, hn⟩
  have hs := h.steady_body hn
  have hchange : ∀ {body₀ body : Body} (exit : Exit), body₀ = Body.bare body → Body.Steady body →
      T Bares
        (liftM ((g₀.modify id fun n => { n with body := body₀ }).setExit id exit : Except Fault Graph))
        (liftM ((g.modify id fun n => { n with body }).setExit id exit : Except Fault Graph)) := by
    intro body₀ body exit heq hsteady
    exact hlift (h.change (fun n _ => ⟨by rw [heq]; rfl, hsteady⟩) exit)
  rw [Node.bare_exit]
  cases n.exit with
  | seq next =>
    dsimp only
    split
    · refine hbind (hjump next) fun code₀ code hcode => hchange .ret ?_ (hs.append hcode.steady)
      rw [hcode.bare, Body.bare_append, Node.bare_body]
    · exact hpure h
  | branch ifTrue ifFalse =>
    dsimp only
    split
    · refine hbind (hjump ifTrue) fun t₀ t ht => hbind (hjump ifFalse) fun e₀ e he =>
        hchange .ret ?_ (hs.append rfl)
      simp [ht.bare, he.bare]
    · refine hbind (hjump ifTrue) fun t₀ t ht => hchange (.seq ifFalse) ?_ (hs.append rfl)
      simp [ht.bare]
    · -- the only place where the code of a node itself is changed
      refine hbind (hjump ifFalse) fun t₀ t ht => hchange (.seq ifTrue) ?_ (hs.negate _ _ _ _)
      simp [ht.bare, Body.bare_negate hs]
    · exact hpure h
  | ret => exact hpure h

/-! ### The start of a graph -/

namespace Start

variable (g : Graph)

theorem find_bare : find g.bare = find g := by
  unfold find
  rw [ids_bare]
  congr 1
  funext best middle
  simp [improve, isClosedAcyclic, isClosed_bare, reachable_bare, takesAll_bare]

end Start

namespace Engine.Mirrors

variable {g : Graph}

theorem violation (g : Graph) (message : String) (y : EngineM β) :
    Mirrors R (violation g message >>= fun e => MonadExcept.throw (.error e) : EngineM α) y := by
  intro ctx ctx₂ a ctx' b ctx₂' _ hx _
  obtain ⟨_, _, _, hx⟩ := yields_bind.1 hx
  exact absurd hx yields_throw

/-- **The start of a graph becomes one node.** -/
theorem extractStart (h : g₀.Bares g) : Mirrors OfRule (extractStart g₀) (extractStart g) := by
  unfold Structurer.extractStart
  rw [h.eq, Start.find_bare, ← h.eq]
  refine bind (lift (.of_eq rfl)) ?_
  rintro _ (_ | ⟨middle, nodes⟩) rfl
  · exact pure .none
  refine bind (lift (h.node middle)) ?_
  rintro _ middleNode ⟨rfl, _⟩
  refine bind (emit _ _) fun _ _ _ => bind freshLabel ?_
  rintro label _ rfl
  refine bindEq (freshFlag _) fun first => ?_
  have hjump : ∀ _ : NodeId, Mirrors Made
      (do return (← Engine.storeStack middleNode.inputStack) ++ [.br label])
      (do return (← Engine.storeStack middleNode.inputStack) ++ [.br label]) := fun _ =>
    bind (storeStack _) fun _ _ hs => pure (hs.append ⟨rfl, by simp [Body.isEqz, Instruction.numericOp?]⟩)
  refine bind (foldlM (R := Bares) (fun g₀ g id h =>
    inlineExits_mirrors (T := Mirrors) pure lift bind hjump h id) nodes h) fun g₁ g₁' h₁ => ?_
  rw [h.entry]
  refine bind (lift (h₁.node g.entry)) ?_
  rintro _ entryNode ⟨rfl, _⟩
  refine bind (lift (h₁.splitOff nodes g.entry)) fun r₀ r hr => ?_
  rcases r₀ with e | ⟨start₀, rest₀⟩
  -- a graph that cannot be taken apart ends the work without comments, so there is nothing to compare
  · exact violation _ _ _
  obtain ⟨start, rest, rfl, hstart, hrest⟩ := hr start₀ rest₀ rfl
  rw [hstart.eq]
  refine bind (withLoop label (solveLinearTree start [] .unconditional)) ?_
  intro c₀ c hc
  cases hc with
  | none => exact violation _ _ _
  | @some body₀ body heq =>
    refine bind (storeStack _) fun store₀ store hstore => bind (loadStack _) fun load₀ load hload => ?_
    have hbare : Node.new (store₀ ++ oneShotLoop label first body₀ [] ++ load₀) entryNode.inputStack
          middleNode.inputStack =
        (Node.new (store ++ oneShotLoop label first body [] ++ load) entryNode.inputStack
          middleNode.inputStack).bare := by
      rw [heq, hstore.bare, hload.bare]
      simp [Node.new, Node.bare, bare_oneShotLoop]
    have hnode := hrest.addNode hbare (Body.Steady.append (hstore.steady.append rfl) hload.steady)
    dsimp only [Node.bare_inputStack]
    rw [hnode.1]
    exact bind (lift (hnode.2.setExit _ _)) fun _ _ h' => pure (.some (h'.withEntry _).renumber)

end Engine.Mirrors

/-! ### The end of a graph -/

namespace Finish

variable (g : Graph)

theorem isWorthIt_bare (finish : List NodeId) : isWorthIt g.bare finish = isWorthIt g finish := by
  rcases finish with _ | ⟨id, _ | ⟨id', finish⟩⟩
  · rfl
  · simp only [isWorthIt, node_bare, bind_map_left, Node.bare_inputs]
    rfl
  · rfl

theorem indicesOf_bare (nodes : List NodeId) : indicesOf g.bare nodes = indicesOf g nodes := by
  simp only [indicesOf, node_bare, bind_map_left, Node.bare_index]

end Finish

def Engine.MirrorsFrom {σ α β : Type} (R : α → β → Prop) (x : StateT σ EngineM α) (y : StateT σ EngineM β) :
    Prop :=
  ∀ s, Mirrors (fun a b => R a.1 b.1 ∧ a.2 = b.2) (x.run s) (y.run s)

namespace Engine.MirrorsFrom

variable {σ γ δ : Type} {S : γ → δ → Prop} {x : StateT σ EngineM α} {y : StateT σ EngineM β}
  {g : Graph}

theorem pure {a : α} {b : β} (h : R a b) :
    MirrorsFrom R (Pure.pure a : StateT σ EngineM α) (Pure.pure b) :=
  fun _ => Mirrors.pure ⟨h, rfl⟩

theorem bind {f : α → StateT σ EngineM γ} {k : β → StateT σ EngineM δ} (hx : MirrorsFrom R x y)
    (hf : ∀ a b, R a b → MirrorsFrom S (f a) (k b)) : MirrorsFrom S (x >>= f) (y >>= k) := by
  intro s
  rw [StateT.run_bind, StateT.run_bind]
  refine Mirrors.bind (hx s) ?_
  rintro ⟨a, s₀⟩ ⟨b, s'⟩ ⟨hab, rfl⟩
  exact hf a b hab s₀

theorem ofEngine {u : EngineM α} {v : EngineM β} (h : Mirrors R u v) :
    MirrorsFrom R (liftM u : StateT σ EngineM α) (liftM v) :=
  fun _ => Mirrors.bind h fun _ _ hab => Mirrors.pure ⟨hab, rfl⟩

theorem lift {u : Except Fault α} {v : Except Fault β} (h : Follows R u v) :
    MirrorsFrom R (liftM u : StateT σ EngineM α) (liftM v) :=
  fun _ => Mirrors.bind (Mirrors.lift h) fun _ _ hab => Mirrors.pure ⟨hab, rfl⟩

theorem flagOf (indices : List (NodeId × Nat)) (target : NodeId) :
    MirrorsFrom Eq (Finish.flagOf indices target) (Finish.flagOf indices target) := by
  have hget : MirrorsFrom Eq (get : StateT Finish.Flags EngineM Finish.Flags) get :=
    fun _ => Mirrors.pure ⟨rfl, rfl⟩
  refine bind hget ?_
  rintro flags _ rfl
  split
  · exact pure rfl
  · refine bind (lift (.of_eq rfl)) ?_
    rintro index _ rfl
    refine bind (ofEngine (.freshFlag _)) ?_
    rintro flag _ rfl
    exact bind (R := fun _ _ => True) (fun _ => Mirrors.pure ⟨trivial, rfl⟩) fun _ _ _ => pure rfl

theorem jump (indices : List (NodeId × Nat)) (label : LoopLabel) (stack : StackType) (target : NodeId) :
    MirrorsFrom Made (Finish.jump indices label stack target) (Finish.jump indices label stack target) := by
  refine bind (flagOf indices target) ?_
  rintro flag _ rfl
  exact bind (ofEngine (.storeStack stack)) fun _ _ hs =>
    pure (hs.append ⟨rfl, by simp [Body.isEqz, Instruction.numericOp?]⟩)

/-- **The edges of a node into the end of a graph become jumps.** -/
theorem cutNode (finish : List NodeId) (indices : List (NodeId × Nat)) (label : LoopLabel)
    (h : g₀.Bares g) (id : NodeId) :
    MirrorsFrom Bares (Finish.cutNode finish indices label g₀ id)
      (Finish.cutNode finish indices label g id) := by
  refine bind (lift (h.node id)) ?_
  rintro _ n ⟨rfl, _⟩
  exact inlineExits_mirrors (T := MirrorsFrom) pure lift bind (jump indices label n.outputStack) h id

theorem cutNodes (finish rest : List NodeId) (indices : List (NodeId × Nat)) (label : LoopLabel)
    (h : g₀.Bares g) : MirrorsFrom Bares (rest.foldlM (Finish.cutNode finish indices label) g₀)
      (rest.foldlM (Finish.cutNode finish indices label) g) := by
  induction rest generalizing g₀ g with
  | nil => exact pure h
  | cons id rest ih =>
    rw [foldlM_cons, foldlM_cons]
    exact bind (cutNode finish indices label h id) fun _ _ h' => ih h'

end Engine.MirrorsFrom

/-! ### Two halves of a graph -/

namespace Split

variable (g : Graph)

theorem find_bare : find g.bare = find g := by
  unfold find
  rw [ids_bare]
  congr 1
  funext best separator
  simp only [improve, Candidate.balance, isClosed_bare, reachable_bare, node_bare, bind_map_left,
    Node.bare_exit, bare_entry, size_bare]
  rfl

end Split

end Structurer
