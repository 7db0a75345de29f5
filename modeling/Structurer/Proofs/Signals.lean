/-
**Flags that say where the walk is.**

Each node of a tree sets flags when it runs, and the flags say which way the walk went on.  So of all the
nodes that have not run yet, the walk is in front of the one that has a flag set.  The nodes know nothing
of the flags, and no node changes the extra flags that are set before the tree starts.
-/

import Structurer.Proofs.Nesting
import Structurer.Proofs.Waiting

namespace Structurer

open Engine Iteration Machine Chart List Structurer.Graph

namespace LinearTree

variable {w : World} {s t u : State} {f : LocalId} {e : Exit} {fl : Flags} {p : Plan} {g : Graph}
  {id y : NodeId} {c : Int32} {rest : List Value} {around : Place} {x : Placed}

/-! ### Flags that are set -/

section Set

variable {fs : List LocalId} {code : Body}

def IsSet (s : State) (f : LocalId) : Prop := ∃ c : Int32, s.locals f = some (.i32 c) ∧ c ≠ 0

theorem isSet_iff (h : s.locals f = some (.i32 c)) : IsSet s f ↔ c ≠ 0 := by
  constructor
  · rintro ⟨c', hc', hne⟩
    rw [h] at hc'
    cases hc'
    exact hne
  · intro hne
    exact ⟨c, h, hne⟩

theorem exec_clear :
    exec w (clear fs) s = some (.next (s.setAll (fs.map fun f => (f, .i32 0)))) := by
  induction fs generalizing s with
  | nil => simp [clear, State.setAll]
  | cons f fs ih =>
    have hcons : clear (f :: fs) = [.i32Const 0, .localSet f] ++ clear fs := rfl
    have hset : exec w [.i32Const 0, .localSet f] s = some (.next (s.set f (.i32 0))) := by
      simp [exec_cons, execInstruction, simple, State.push]
    rw [hcons, exec_append, hset, andThen_next, ih]
    rfl

theorem locals_clear (s : State) (fs : List LocalId) (i : LocalId) :
    (s.setAll (fs.map fun f => (f, .i32 0))).locals i =
      if i ∈ fs then some (.i32 0) else s.locals i := by
  induction fs generalizing s with
  | nil => rfl
  | cons f fs ih =>
    rw [map_cons, State.setAll, ih]
    by_cases hi : i = f
    · simp [hi]
    · simp [hi, State.set_locals_of_ne _ _ hi]

theorem exec_record_seq : exec w (Flags.seq f).record s = some (.next (s.set f (.i32 1))) := by
  simp [Flags.record, exec_cons, execInstruction, simple, State.push]

theorem exec_record_branch (hs : s.stack = .i32 c :: rest) (ifTrue ifFalse : LocalId) :
    exec w (Flags.branch ifTrue ifFalse).record s =
      some (.next (((s.withStack rest).set ifTrue (.i32 c)).set ifFalse
        (.i32 (if c = 0 then 1 else 0)))) := by
  by_cases hc : c = 0 <;>
    simp [Flags.record, exec_cons, execInstruction, simple, State.push, hs, NumericOp.inputs, evalOp, hc,
      Value.ofBool, State.set, State.withStack]

theorem exec_orAll (hs : s.stack = .i32 c :: rest)
    (h : ∀ f ∈ fs, ∃ c : Int32, s.locals f = some (.i32 c)) :
    ∃ c' : Int32, exec w (fs.flatMap fun f => [.localGet f, .numeric .i32Or]) s =
      some (.next (s.withStack (.i32 c' :: rest))) ∧ (c' ≠ 0 ↔ c ≠ 0 ∨ ∃ f ∈ fs, IsSet s f) := by
  induction fs generalizing s c with
  | nil =>
    refine ⟨c, ?_, by simp⟩
    rw [flatMap_nil, exec_nil, ← hs, State.withStack_self]
  | cons f fs ih =>
    obtain ⟨d, hd⟩ := h f (.head _)
    have hor : exec w [.localGet f, .numeric .i32Or] s =
        some (.next (s.withStack (.i32 (c ||| d) :: rest))) := by
      simp [exec_cons, execInstruction, simple, hd, State.push, hs, NumericOp.inputs, evalOp]
    obtain ⟨c', hc', hiff⟩ := ih (s := s.withStack (.i32 (c ||| d) :: rest)) rfl
      fun f' hf' => h f' (.tail _ hf')
    refine ⟨c', ?_, ?_⟩
    · rw [flatMap_cons, exec_append, hor, andThen_next, hc']
      rfl
    · have hor0 : c ||| d ≠ 0 ↔ c ≠ 0 ∨ d ≠ 0 := by
        rw [Ne, Int32.or_eq_zero_iff, not_and_or]
      rw [hiff, hor0, exists_mem_cons_iff, isSet_iff hd, or_assoc]
      rfl

theorem exec_anySet (hne : fs ≠ []) (h : ∀ f ∈ fs, ∃ c : Int32, s.locals f = some (.i32 c)) :
    ∃ c : Int32, exec w (anySet fs) s = some (.next (s.push (.i32 c))) ∧
      (c ≠ 0 ↔ ∃ f ∈ fs, IsSet s f) := by
  cases fs with
  | nil => exact absurd rfl hne
  | cons f fs =>
    obtain ⟨d, hd⟩ := h f (.head _)
    have hrest : ∀ f' ∈ fs, ∃ c : Int32, (s.push (.i32 d)).locals f' = some (.i32 c) := fun f' hf' =>
      h f' (.tail _ hf')
    obtain ⟨c, hc, hiff⟩ := exec_orAll (w := w) rfl hrest
    refine ⟨c, ?_, ?_⟩
    · have hget : execInstruction w (.localGet f) s = some (.next (s.push (.i32 d))) := by
        simp [execInstruction, simple, hd]
      rw [anySet, exec_cons, hget, andThen_next, hc]
      rfl
    · rw [hiff, exists_mem_cons_iff, isSet_iff hd]
      rfl

open Classical in
theorem exec_guarded (hne : fs ≠ []) (h : ∀ f ∈ fs, ∃ c : Int32, s.locals f = some (.i32 c))
    (code : Body) : exec w (anySet fs ++ [.cond [] [] code []]) s =
      if ∃ f ∈ fs, IsSet s f then exec w code s else some (.next s) := by
  obtain ⟨c, hc, hiff⟩ := exec_anySet (w := w) hne h
  have hstack : (s.push (.i32 c)).stack = .i32 c :: s.stack := rfl
  rw [exec_append, hc, andThen_next, exec_cond hstack]
  by_cases hset : ∃ f ∈ fs, IsSet s f
  · rw [if_pos (hiff.2 hset), if_pos hset]
    rfl
  · rw [if_neg fun h => hset (hiff.1 h), if_neg hset, exec_nil]
    rfl

end Set

/-! ### Signals -/

variable {R : Regime} {K : LocalId → Prop} {ls : Locals} {G : Chart}

/-- A variable that holds a number, is no slot, and is left alone by the blocks of a chart. -/
structure Signal (R : Regime) (ls : Locals) (G : Chart) (f : LocalId) : Prop where
  integer : ∃ v, ls.get? f = some v ∧ v.valueType = .i32
  noSlot : ¬ ls.IsSlot f
  alone : ∀ {id b w s t}, G.block? id = some b → HasTypes s.stack b.inputStack →
    Fitting R.checker.locals s → exec w b.body s = some (.next t) → t.locals f = s.locals f

theorem Signal.of_flag (hT : G.Typed R) {f : LocalId} (hf : R.checker.locals.Flag ls f) :
    Signal R ls G f where
  integer := hf.integer
  noSlot := hf.noSlot
  alone := by
    intro id b w s t hb ht hfit hr
    obtain ⟨r, hbody⟩ := (hT.blocks hb).types
    cases exec_ends w _ hbody (append_nil _).symm ht hfit hr with
    | next _ _ _ keeps => exact keeps.unknown f hf.unknown

section Flags

variable {n m : NodeId}

theorem Flags.mem_ids_of_toward (h : f ∈ fl.toward e n) : f ∈ fl.ids := by
  cases fl with
  | ret => cases e <;> cases h
  | seq flag => exact h
  | branch ifTrue ifFalse =>
    cases e with
    | ret | seq => cases h
    | branch a b =>
      rcases mem_append.1 h with h | h
      · split at h
        · simp [Flags.ids, mem_singleton.1 h]
        · cases h
      · split at h
        · simp [Flags.ids, mem_singleton.1 h]
        · cases h

theorem Flags.For.exists_toward (h : Flags.For e fl) (hn : n ∈ e.outputs) : ∃ f, f ∈ fl.toward e n := by
  cases h with
  | seq flag => exact ⟨flag, mem_singleton_self flag⟩
  | ret => cases hn
  | branch ifTrue ifFalse =>
    rcases mem_cons.1 hn with rfl | hn
    · exact ⟨ifTrue, by simp [Flags.toward]⟩
    · rw [mem_singleton] at hn
      exact ⟨ifFalse, by simp [Flags.toward, hn]⟩

theorem Flags.For.target_unique (h : Flags.For e fl) (hnd : fl.ids.Nodup) (hn : n ∈ e.outputs)
    (hm : m ∈ e.outputs) (hf : f ∈ fl.toward e n) (hf' : f ∈ fl.toward e m) : n = m := by
  cases h with
  | ret => cases hn
  | seq flag =>
    rw [mem_singleton.1 hn, mem_singleton.1 hm]
  | branch ifTrue ifFalse =>
    have hne : ifTrue ≠ ifFalse := fun heq => by simp [Flags.ids, heq] at hnd
    simp only [Flags.toward, mem_append] at hf hf'
    grind

end Flags

section Triggers

variable {known : Locals} {id' : NodeId} {n : Node} {fl' : Flags}

theorem mem_triggers_iff : f ∈ p.triggers y n ↔
    (∃ x ∈ n.inputs.toList, ∃ fl source, p.flags.lookup x = some fl ∧ p.graph.get? x = some source ∧
      f ∈ fl.toward source.exit y) ∨ p.extra.lookup y = some f := by
  unfold Plan.triggers
  rw [mem_append, mem_flatMap, Option.mem_toList]
  refine or_congr_left (exists_congr fun x => and_congr_right fun _ => ?_)
  constructor
  · intro h
    split at h
    next fl source hfl hsource => exact ⟨fl, source, hfl, hsource, h⟩
    next => cases h
  · rintro ⟨fl, source, hfl, hsource, h⟩
    rw [hfl, hsource]
    exact h

theorem Flagged.lookup (h : Flagged g known ls p.order p.flags) (hnd : p.order.Nodup)
    (hid : id ∈ p.order) :
    ∃ fl n, p.flags.lookup id = some fl ∧ g.get? id = some n ∧ Flags.For n.exit fl := by
  rw [← h.nodes] at hid
  obtain ⟨⟨_, fl⟩, hmem, rfl⟩ := mem_map.1 hid
  rw [← h.nodes] at hnd
  obtain ⟨n, hn, hfor⟩ := h.fit _ hmem
  exact ⟨fl, n, (lookup_eq_some_iff_mem hnd).2 hmem, hn, hfor⟩

theorem Flagged.owner_unique (h : Flagged g known ls p.order p.flags) (hmem : (id, fl) ∈ p.flags)
    (hmem' : (id', fl') ∈ p.flags) (hf : f ∈ fl.ids) (hf' : f ∈ fl'.ids) : id = id' := by
  by_contra hne
  have hsymm : Std.Symm (Function.onFun List.Disjoint fun e : NodeId × Flags => e.2.ids) :=
    ⟨fun _ _ hab => hab.symm⟩
  have hdisjoint := (nodup_flatMap.1 h.nodup).2.forall hmem hmem' fun heq => hne (by cases heq; rfl)
  exact hdisjoint hf hf'

end Triggers

/-! ### Where the walk is -/

/-- A tree whose code runs beside the walk over its graph.  The flags of its nodes are unknown to the
nodes, and nobody changes the extra flags. -/
structure Sited (R : Regime) (K : LocalId → Prop) (ctx : Context) (g : Graph)
    (extra : List (NodeId × LocalId)) (entry : TreeEntry) (ctx' : Context) (p : Plan) (T : Tree) : Prop
    extends Built ctx g extra entry ctx' p T where
  tidy : g.Tidy
  forked : g.chart.Forked
  layout : Layout R K g.chart ctx'.locals
  older : R.checker.locals.Extends ctx.locals
  extras : ∀ e ∈ extra, ctx.locals.get? e.2 ≠ none ∧ Signal R ctx'.locals g.chart e.2

/-- The flags of a tree say where the walk is: of all nodes that have not run yet, it is in front of the
one with a flag that is set. -/
structure Signals (p : Plan) (ran : NodeId → Prop) (id : NodeId) (t : State) : Prop where
  number : ∀ f, f ∈ p.flagIds ∨ f ∈ p.extra.map (·.2) → ∃ c : Int32, t.locals f = some (.i32 c)
  called : ∀ {y n}, p.graph.get? y = some n → ¬ ran y →
    ((∃ f ∈ p.triggers y n, IsSet t f) ↔ y = id)

/-- A node has set its flags to say where the walk is next. -/
structure Recorded (p : Plan) (fl : Flags) (exit : Exit) (target : NodeId) (u t : State) : Prop where
  own : ∀ f ∈ fl.ids, ∃ c : Int32, t.locals f = some (.i32 c) ∧ (c ≠ 0 ↔ f ∈ fl.toward exit target)
  others : ∀ f, f ∈ p.flagIds ∨ f ∈ p.extra.map (·.2) → f ∉ fl.ids → t.locals f = u.locals f

section Sited

variable {ctx ctx' : Context} {extra : List (NodeId × LocalId)} {entry : TreeEntry} {T : Tree}
  {target : NodeId} {n : Node} {b : Block} {store : Body} {ran : NodeId → Prop} {q : NodeId × State}

theorem mem_flagIds (hfl : p.flags.lookup id = some fl) (hf : f ∈ fl.ids) : f ∈ p.flagIds :=
  mem_flatMap.2 ⟨(id, fl), mem_of_lookup hfl, hf⟩

theorem mem_of_triggers (hf : f ∈ p.triggers y n) : f ∈ p.flagIds ∨ f ∈ p.extra.map (·.2) := by
  rcases mem_triggers_iff.1 hf with ⟨x, _, fl, source, hfl, _, htoward⟩ | hextra
  · exact .inl (mem_flagIds hfl (Flags.mem_ids_of_toward htoward))
  · exact .inr (mem_map.2 ⟨(y, f), mem_of_lookup hextra, rfl⟩)

variable (S : Sited R K ctx g extra entry ctx' p T)

include S

theorem Sited.flag (hf : f ∈ p.flagIds) : R.checker.locals.Flag ctx'.locals f :=
  (S.flags.flag f hf).since S.older

theorem Sited.signal (hf : f ∈ p.flagIds ∨ f ∈ p.extra.map (·.2)) : Signal R ctx'.locals g.chart f := by
  rcases hf with hf | hf
  · exact .of_flag S.layout.typed (S.flag hf)
  · rw [S.extra_eq] at hf
    obtain ⟨e, he, rfl⟩ := mem_map.1 hf
    exact (S.extras e he).2

theorem Sited.not_mem_flagIds (hf : p.extra.lookup y = some f) : f ∉ p.flagIds := by
  intro hmem
  rw [S.extra_eq] at hf
  exact (S.extras (y, f) (mem_of_lookup hf)).1 (S.flags.flag f hmem).unknown

theorem Sited.nodup_ids (hfl : p.flags.lookup id = some fl) : fl.ids.Nodup :=
  (nodup_flatMap.1 S.flags.nodup).1 (id, fl) (mem_of_lookup hfl)

theorem Sited.flags_for (hn : g.get? id = some n) :
    ∃ fl, p.flags.lookup id = some fl ∧ Flags.For n.exit fl := by
  have hmem : id ∈ p.order := S.order.mem.2 ⟨_, block?_of_get? hn⟩
  obtain ⟨fl, n', hfl, hn', hfor⟩ := S.flags.lookup S.order.nodup hmem
  rw [hn] at hn'
  cases hn'
  exact ⟨fl, hfl, hfor⟩

theorem Sited.ordered : p.Ordered :=
  S.toBuilt.ordered S.tidy

theorem Sited.triggers_iff (hn : g.get? id = some n) (hfl : p.flags.lookup id = some fl) {m : Node}
    (hm : g.get? y = some m) (hf : f ∈ fl.ids) :
    f ∈ p.triggers y m ↔ y ∈ n.exit.outputs ∧ f ∈ fl.toward n.exit y := by
  rw [mem_triggers_iff, S.graph_eq]
  constructor
  · rintro (⟨x, hx, fl', source, hfl', hsource, htoward⟩ | hextra)
    · obtain rfl : id = x := S.flags.owner_unique (mem_of_lookup hfl)
        (mem_of_lookup hfl') hf (Flags.mem_ids_of_toward htoward)
      rw [hfl] at hfl'
      rw [hn] at hsource
      cases hfl'
      cases hsource
      obtain ⟨b, hb, hout⟩ := (S.tidy.mem_inputs_iff hm).1 hx
      rw [block?_of_get? hn] at hb
      cases hb
      exact ⟨hout, htoward⟩
    · exact absurd (mem_flagIds hfl hf) (S.not_mem_flagIds hextra)
  · rintro ⟨hout, htoward⟩
    refine .inl ⟨id, (S.tidy.mem_inputs_iff hm).2 ?_, fl, n, hfl, hn, htoward⟩
    exact ⟨n.block, block?_of_get? hn, hout⟩

/-- **The flags of a node say where the walk is next.** -/
theorem Signals.after (h : Signals p ran id u) (hn : g.get? id = some n)
    (hfl : p.flags.lookup id = some fl) (hfor : Flags.For n.exit fl)
    (hout : target ∈ n.exit.outputs) (hrec : Recorded p fl n.exit target u t) :
    Signals p (fun y => ran y ∨ y = id) target t := by
  constructor
  · intro f hf
    by_cases hmem : f ∈ fl.ids
    · exact (hrec.own f hmem).imp fun c hc => hc.1
    · rw [hrec.others f hf hmem]
      exact h.number f hf
  · intro y m hm hran
    rw [S.graph_eq] at hm
    constructor
    · rintro ⟨f, hf, c, hc, hne⟩
      by_cases hmem : f ∈ fl.ids
      · obtain ⟨c', hc', hiff⟩ := hrec.own f hmem
        rw [hc] at hc'
        cases hc'
        obtain ⟨hy, htoward⟩ := (S.triggers_iff hn hfl hm hmem).1 hf
        exact hfor.target_unique (S.nodup_ids hfl) hy hout htoward (hiff.1 hne)
      · have hset : IsSet u f := ⟨c, by rw [← hc, hrec.others f (mem_of_triggers hf) hmem], hne⟩
        have hcalled := h.called (by rwa [S.graph_eq]) (fun hr => hran (.inl hr))
        exact absurd (.inr (hcalled.1 ⟨f, hf, hset⟩)) hran
    · rintro rfl
      obtain ⟨f, hf⟩ := hfor.exists_toward hout
      have hmem := Flags.mem_ids_of_toward hf
      obtain ⟨c, hc, hiff⟩ := hrec.own f hmem
      exact ⟨f, (S.triggers_iff hn hfl hm hmem).2 ⟨hout, hf⟩, c, hc, hiff.2 hf⟩

/-! ### Nodes that run -/

theorem Recorded.parked (hn : g.get? id = some n) (he : n.exit = e)
    (hfl : p.flags.lookup id = some fl) (hout : q.1 ∈ e.outputs) (hq : Good R g.chart q)
    (hle : Le (q.2.forget K) t) (hp : Proper ctx'.locals t) (h : Recorded p fl e q.1 u t)
    (hstore : ctx'.locals.Stores n.outputStack store) :
    ∃ t', exec w store t = some (.next t') ∧ Waits R K g.chart ctx'.locals q t' ∧
      Recorded p fl e q.1 u t' := by
  have L := S.layout
  have hb : g.chart.block? id = some n.block := block?_of_get? hn
  have hout' : q.1 ∈ n.block.exit.outputs := by rwa [Node.block_exit, he]
  obtain ⟨bq, hbq⟩ := L.closed.targets id q.1 ⟨_, hb, hout'⟩
  have hstack : n.outputStack = bq.inputStack := L.outputStack_eq hb hout' hbq
  rw [hstack] at hstore
  obtain ⟨t', ht', hwaits, hothers⟩ := Waits.of_store (w := w) L.valid L.slots hq hbq hstore hle hp
  refine ⟨t', ht', hwaits, fun f hf => ?_, fun f hf hmem => ?_⟩
  · rw [hothers f (S.flag (mem_flagIds hfl hf)).noSlot]
    exact h.own f hf
  · rw [hothers f (S.signal hf).noSlot]
    exact h.others f hf hmem

theorem meets_leaving (hn : g.get? id = some n) (hg : Good R g.chart (id, s))
    (hle : Le (s.forget K) u) (hp : Proper ctx'.locals u) :
    g.chart.Tracks K w (fun a u₁ => a = (id, s) ∧
      (∃ t₁, exec w n.body (s.forget K) = some (.next t₁) ∧ Le t₁ u₁) ∧ Proper ctx'.locals u₁ ∧
        ∀ f, f ∈ p.flagIds ∨ f ∈ p.extra.map (·.2) → u₁.locals f = u.locals f) (id, s)
      (exec w n.body u) := by
  have L := S.layout
  have hb : g.chart.block? id = some n.block := block?_of_get? hn
  have htypes : HasTypes u.stack n.inputStack := by
    rw [hle.stack_eq]
    exact hg.types hb
  refine (meets_sparing (w := w) L.typed L.known hb hg hle hp).through ?_
  rintro a u₁ ⟨rfl, hle₁, hspares⟩ hx
  refine ⟨rfl, hle₁, hspares.proper, fun f hf => ?_⟩
  exact (S.signal hf).alone hb htypes (hp.fitting_of_extends L.known) hx

/-- **The code of a node is a step of the walk**, and its flags say where the step leads. -/
theorem meets_node (hn : g.get? id = some n) (he : n.exit = e) (hfl : p.flags.lookup id = some fl)
    (hfor : Flags.For e fl) (hg : Good R g.chart (id, s)) (hle : Le (s.forget K) u)
    (hp : Proper ctx'.locals u)
    (hstore : e = .ret ∧ store = [] ∨ e ≠ .ret ∧ ctx'.locals.Stores n.outputStack store) :
    g.chart.Tracks K w (fun a t => ∃ q, Goes (g.chart.step K w) a q ∧
      q.1 ∈ e.outputs ∧ Waits R K g.chart ctx'.locals q t ∧ Recorded p fl e q.1 u t) (id, s)
      (exec w (n.body ++ fl.record ++ store) u) := by
  have L := S.layout
  have hb : g.chart.block? id = some n.block := block?_of_get? hn
  have hflag : ∀ f ∈ fl.ids, R.checker.locals.Flag ctx'.locals f := fun f hf => S.flag (mem_flagIds hfl hf)
  have hnone : ∀ {q : NodeId × State}, Good R g.chart q → ∀ f ∈ fl.ids, (q.2.forget K).locals f = none :=
    fun hq f hf => (hq.proper.forget K).unknown (hflag f hf).unknown
  have hnd := S.nodup_ids hfl
  rw [append_assoc, exec_append]
  refine (meets_leaving S hn hg hle hp).andThen ?_
  rintro _ u₁ ⟨rfl, ⟨t₁, ht₁, hlu⟩, hp₁, hkeep⟩
  rw [exec_append]
  cases hfor with
  | ret => exact absurd ht₁ (hg.ret L.typed hb he)
  | @seq next flag =>
    obtain ⟨-, hstore⟩ := hstore.resolve_left fun h => by simp at h
    have hgo := goes_seq hb he ht₁
    have hq : Good R g.chart (next, t₁) := hg.goes L.typed L.closed hgo
    have hf : flag ∈ (Flags.seq flag).ids := mem_singleton_self flag
    have hrec : Recorded p (.seq flag) (.seq next) next u (u₁.set flag (.i32 1)) := by
      constructor
      · intro f hf'
        rw [mem_singleton.1 hf']
        exact ⟨1, State.set_locals_self .., by simp [Flags.toward]⟩
      · intro f hf' hmem
        rw [State.set_locals_of_ne _ _ (by rintro rfl; exact hmem hf), hkeep f hf']
    obtain ⟨t, ht, hwaits, hrec'⟩ := hrec.parked (w := w) (q := (next, t₁)) S hn he hfl
      (Exit.mem_seq rfl) hq (hlu.forget_left.set_right (hnone hq flag hf))
      (hp₁.setFlag (hflag flag hf) 1) hstore
    rw [exec_record_seq, andThen_next, ht]
    exact .here ⟨_, hgo, Exit.mem_seq rfl, hwaits, hrec'⟩
  | @branch x y ifTrue ifFalse =>
    obtain ⟨-, hstore⟩ := hstore.resolve_left fun h => by simp at h
    obtain ⟨c, rest, hst, _, _⟩ := hg.branch L.typed hb he ht₁
    have hgo := goes_branch hb he ht₁ hst
    have hq := hg.goes L.typed L.closed hgo
    have hst' : u₁.stack = .i32 c :: rest := by rw [hlu.stack_eq, hst]
    have hxy : x ≠ y := by
      have hforked := S.forked hb
      rw [Node.block_exit, he] at hforked
      simpa [Exit.outputs] using hforked
    have hTF : ifTrue ≠ ifFalse := fun heq => by simp [Flags.ids, heq] at hnd
    have hT : ifTrue ∈ (Flags.branch ifTrue ifFalse).ids := by simp [Flags.ids]
    have hF : ifFalse ∈ (Flags.branch ifTrue ifFalse).ids := by simp [Flags.ids]
    have hout : (if c ≠ 0 then x else y) ∈ (Exit.branch x y).outputs := by
      split
      · exact Exit.mem_left rfl
      · exact Exit.mem_right rfl
    have hrec : Recorded p (.branch ifTrue ifFalse) (.branch x y) (if c ≠ 0 then x else y) u
        (((u₁.withStack rest).set ifTrue (.i32 c)).set ifFalse (.i32 (if c = 0 then 1 else 0))) := by
      constructor
      · intro f hf
        rcases mem_cons.1 hf with rfl | hf
        · refine ⟨c, ?_, ?_⟩
          · rw [State.set_locals_of_ne _ _ hTF, State.set_locals_self]
          · by_cases hc : c = 0 <;> simp [Flags.toward, hc, hTF, hxy]
        · rw [mem_singleton.1 hf]
          refine ⟨_, State.set_locals_self .., ?_⟩
          by_cases hc : c = 0 <;> simp [Flags.toward, hc, hTF.symm, hxy.symm]
      · intro f hf' hmem
        rw [State.set_locals_of_ne _ _ (by rintro rfl; exact hmem hF),
          State.set_locals_of_ne _ _ (by rintro rfl; exact hmem hT)]
        exact hkeep f hf'
    have hle₂ := ((hlu.withStack rest).forget_left.set_right (v := .i32 c)
      (hnone hq ifTrue hT)).set_right (v := .i32 (if c = 0 then 1 else 0)) (hnone hq ifFalse hF)
    have hp₂ := ((hp₁.withStack rest).setFlag (hflag ifTrue hT) c).setFlag (hflag ifFalse hF)
      (if c = 0 then 1 else 0)
    obtain ⟨t, ht, hwaits, hrec'⟩ := hrec.parked (w := w) (q := (_, t₁.withStack rest)) S hn he hfl
      hout hq hle₂ hp₂ hstore
    rw [exec_record_branch hst', andThen_next, ht]
    exact .here ⟨_, hgo, hout, hwaits, hrec'⟩

/-- The walk is in front of a node of the tree, and everything that has run comes before it. -/
structure Token (R : Regime) (K : LocalId → Prop) (ls : Locals) (p : Plan) (ran : NodeId → Prop)
    (q : NodeId × State) (t : State) : Prop where
  waits : Waits R K p.graph.chart ls q t
  signals : Signals p ran q.1 t
  behind : ∀ y, ran y → p.order.idxOf y < p.order.idxOf q.1

def Advances (R : Regime) (K : LocalId → Prop) (ls : Locals) (p : Plan) (g : Graph) (w : World)
    (ran : NodeId → Prop) (id : NodeId) (s : State) (code : Body) (t : State) : Prop :=
  g.chart.Tracks K w (fun a t => ∃ q, Goes (g.chart.step K w) a q ∧
    g.chart.Targets id q.1 ∧ Token R K ls p (fun y => ran y ∨ y = id) q t) (id, s) (exec w code t)

theorem meets_running (hn : g.get? id = some n)
    (hfl : p.flags.lookup id = some fl) (hfor : Flags.For n.exit fl) (hg : Good R g.chart (id, s))
    (hle : Le (s.forget K) u) (hp : Proper ctx'.locals u)
    (hstore : n.exit = .ret ∧ store = [] ∨ n.exit ≠ .ret ∧ ctx'.locals.Stores n.outputStack store)
    (hsig : Signals p ran id u) (hbehind : ∀ y, ran y → p.order.idxOf y ≤ p.order.idxOf id) :
    Advances R K ctx'.locals p g w ran id s (n.body ++ fl.record ++ store) u := by
  refine (meets_node S hn rfl hfl hfor hg hle hp hstore).through ?_
  rintro a t ⟨q, hgo, hout, hwaits, hrec⟩ -
  have htarget : g.chart.Targets id q.1 := ⟨n.block, block?_of_get? hn, hout⟩
  have hlt := S.order.before htarget
  refine ⟨q, hgo, htarget, ?_, hsig.after S hn hfl hfor hout hrec, ?_⟩
  · rwa [S.graph_eq]
  · rintro y (hy | rfl)
    · exact Nat.lt_of_le_of_lt (hbehind y hy) hlt
    · exact hlt

theorem meets_piece (hwaits : Waits R K g.chart ctx'.locals (id, s) t) (hsig : Signals p ran id t)
    (hbehind : ∀ y, ran y → p.order.idxOf y ≤ p.order.idxOf id)
    (hx : Piece p ctx'.locals T id n around x)
    (hfound : (p.first x.position && p.entry = .onStack) = false) :
    Advances R K ctx'.locals p g w ran id s x.code t := by
  have hn := hx.node
  rw [S.graph_eq] at hn
  obtain ⟨fl, hfl, hfor⟩ := S.flags_for hn
  obtain ⟨note, load, store, hnote, hload, hstore, hcode⟩ := hx.code
  obtain ⟨-, hload⟩ := hload.resolve_left fun h => by simp [hfound] at h
  obtain ⟨hrun, hle⟩ := hwaits.load (w := w) (block?_of_get? hn) hload
  have hrow : x.code = note ++ (load ++ (n.body ++ fl.record ++ store)) := by
    rw [hcode, hfl]
    simp [Node.block]
  rw [Advances, hrow, exec_append, exec_comments w hnote, andThen_next, exec_append, hrun, andThen_next]
  exact meets_running S hn hfl hfor hwaits.good hle (hwaits.proper.withStack _) hstore
    ⟨hsig.number, hsig.called⟩ hbehind

theorem meets_found (hg : Good R g.chart (id, s))
    (hle : Le (s.forget K) t) (hp : Proper ctx'.locals t) (hsig : Signals p ran id t)
    (hbehind : ∀ y, ran y → p.order.idxOf y ≤ p.order.idxOf id)
    (hx : Piece p ctx'.locals T id n around x)
    (hfound : (p.first x.position && p.entry = .onStack) = true) :
    Advances R K ctx'.locals p g w ran id s x.code t := by
  have hn := hx.node
  rw [S.graph_eq] at hn
  obtain ⟨fl, hfl, hfor⟩ := S.flags_for hn
  obtain ⟨note, load, store, hnote, hload, hstore, hcode⟩ := hx.code
  obtain ⟨-, rfl⟩ := hload.resolve_right fun h => by simp [hfound] at h
  have hrow : x.code = note ++ (n.body ++ fl.record ++ store) := by
    rw [hcode, hfl]
    simp [Node.block]
  rw [Advances, hrow, exec_append, exec_comments w hnote, andThen_next]
  exact meets_running S hn hfl hfor hg hle hp hstore hsig hbehind

end Sited

end LinearTree

end Structurer
