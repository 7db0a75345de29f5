/-
**How a tree runs.**

While the code of a tree runs, the walk over the graph is in front of one node.  This node lies ahead in
the code: what is around it has run, and it comes after everything that has had its turn.  So the code
passes over what comes before the node, runs it, and goes on from there.  When all the code has had its
turn there is nothing left ahead, so the end of the code is never reached.
-/

import Structurer.Proofs.Signals

namespace Structurer

open Engine Iteration Machine Chart List

namespace LinearTree

variable {R : Regime} {K : LocalId → Prop} {w : World} {t' : State} {ls : Locals} {p : Plan} {T : Tree}
  {k : Nat} {anchor : Option Nat} {x z : Placed} {rest : List Placed} {ran : NodeId → Prop}
  {id : NodeId} {n : Node} {around : Place} {ctx ctx' : Context} {g : Graph}
  {extra : List (NodeId × LocalId)} {entry : TreeEntry}

/-! ### Places ahead -/

def start : Option Nat → Nat
  | none => 0
  | some a => a + 1

/-- A piece lies ahead of the code that is nested in `anchor`, of which the pieces from the position `k`
on have not had their turn. -/
structure Ahead (T : Tree) (anchor : Option Nat) (k : Nat) (x : Placed) : Prop where
  around : T.inner x.anchor <+: T.inner anchor
  after : start anchor ≤ x.position
  notYet : x.anchor = anchor → k ≤ x.position

def Behind (p : Plan) (T : Tree) (anchor : Option Nat) (k : Nat) (ran : NodeId → Prop) : Prop :=
  ∀ y, ran y → ∀ j, k ≤ j → ¬ T.inner anchor ++ [j] <+: T.placeOf (p.order.idxOf y)

/-- The pieces nested in `anchor` from the position `k` on. -/
structure Rest (T : Tree) (anchor : Option Nat) (k : Nat) (rest : List Placed) : Prop where
  sorted : (rest.map (·.position)).Pairwise (· < ·)
  placed : ∀ x ∈ rest, x ∈ T.placed ∧ x.anchor = anchor ∧ k ≤ x.position
  all : ∀ x ∈ T.placed, x.anchor = anchor → k ≤ x.position → x ∈ rest

section Places

variable {count : Nat}

theorem Grown.getLast?_inner (h : Grown p ls count T) (anchor : Option Nat) :
    (T.inner anchor).getLast? = anchor := by
  cases anchor with
  | none => rfl
  | some a =>
    show (T.placeOf a).getLast? = some a
    by_cases ha : ∃ x ∈ T.placed, x.position = a
    · obtain ⟨x, hx, rfl⟩ := ha
      obtain ⟨id, n, around, hpiece⟩ := h.pieces x hx
      rw [hpiece.place, getLast?_concat]
    · rw [h.skipped a fun x hx hpos => ha ⟨x, hx, hpos⟩]
      rfl

theorem Grown.inner_inj (h : Grown p ls count T) {a b : Option Nat} (hab : T.inner a = T.inner b) :
    a = b := by
  rw [← h.getLast?_inner a, hab, h.getLast?_inner b]

theorem Grown.inner_some (hp : p.Ordered) (h : Grown p ls count T)
    (hx : Piece p ls T id n around x) : T.inner (some x.position) = T.inner x.anchor ++ [x.position] := by
  rw [← (h.around_eq hp hx).1]
  exact hx.place

theorem Grown.start_le (hp : p.Ordered) (h : Grown p ls count T)
    (hx : Piece p ls T id n around x) : start x.anchor ≤ x.position := by
  cases ha : x.anchor with
  | none => exact Nat.zero_le _
  | some a => exact (h.around_eq hp hx).2 a ha

theorem Rest.tail (h : Rest T anchor k (x :: rest)) : Rest T anchor (x.position + 1) rest where
  sorted := (pairwise_cons.1 h.sorted).2
  placed z hz := by
    obtain ⟨hmem, ha, _⟩ := h.placed z (.tail _ hz)
    exact ⟨hmem, ha, (pairwise_cons.1 h.sorted).1 _ (mem_map_of_mem hz)⟩
  all z hz ha hk := by
    obtain ⟨_, _, hx⟩ := h.placed x (.head _)
    rcases mem_cons.1 (h.all z hz ha (by omega)) with rfl | hmem
    · omega
    · exact hmem

theorem Grown.rest_begin (hp : p.Ordered) (h : Grown p ls count T) (anchor : Option Nat) :
    Rest T anchor (start anchor) (T.placed.filter (·.anchor = anchor)) where
  sorted := h.sorted.sublist (filter_sublist.map _)
  placed x hx := by
    obtain ⟨hmem, ha⟩ := mem_filter.1 hx
    obtain ⟨id, n, around, hpiece⟩ := h.pieces x hmem
    have ha : x.anchor = anchor := by simpa using ha
    exact ⟨hmem, ha, ha ▸ h.start_le hp hpiece⟩
  all x hx ha _ := mem_filter.2 ⟨hx, by simpa using ha⟩

theorem Ahead.pass (hrest : Rest T anchor k (x :: rest)) (hz : z ∈ T.placed) (hne : z ≠ x)
    (h : Ahead T anchor k z) : Ahead T anchor (x.position + 1) z := by
  refine ⟨h.around, h.after, fun ha => ?_⟩
  rcases mem_cons.1 (hrest.all z hz ha (h.notYet ha)) with rfl | hmem
  · exact absurd rfl hne
  · exact (pairwise_cons.1 hrest.sorted).1 _ (mem_map_of_mem hmem)

theorem Behind.mono {k' : Nat} (h : Behind p T anchor k ran) (hk : k ≤ k') : Behind p T anchor k' ran :=
  fun y hy j hj => h y hy j (Nat.le_trans hk hj)

end Places

/-! ### The tree runs -/

def Placed.whole (x : Placed) (nested : Body) : Body :=
  if x.test.isEmpty then x.code ++ nested else x.test ++ [.cond [] [] (x.code ++ nested) []]

theorem assemble_succ (placed : List Placed) (fuel : Nat) :
    assemble placed (fuel + 1) anchor = (placed.filter (·.anchor = anchor)).flatMap fun x =>
      x.whole (assemble placed fuel (some x.position)) :=
  rfl

def Within (p : Plan) (T : Tree) (anchor : Option Nat) (k : Nat) (ran ran' : NodeId → Prop) : Prop :=
  ∀ y, ran' y → ran y ∨ ∃ j, k ≤ j ∧ T.inner anchor ++ [j] <+: T.placeOf (p.order.idxOf y)

/-- The code nested in `anchor` from the position `k` on is to run, and the walk is in front of the node
of the piece `z`. -/
structure Facing (R : Regime) (K : LocalId → Prop) (ls : Locals) (p : Plan) (T : Tree)
    (anchor : Option Nat) (k : Nat) (ran : NodeId → Prop) (q : NodeId × State) (t : State) (z : Placed) :
    Prop where
  token : Token R K ls p ran q t
  placed : z ∈ T.placed
  position : z.position = p.order.idxOf q.1
  ahead : Ahead T anchor k z
  behind : Behind p T anchor k ran

/-- All the code nested in `anchor` has run, and the walk is in front of a node that is not nested
there. -/
structure Past (R : Regime) (K : LocalId → Prop) (ls : Locals) (p : Plan) (T : Tree)
    (anchor : Option Nat) (q : NodeId × State) (t : State) (ran : NodeId → Prop) (z : Placed) :
    Prop where
  token : Token R K ls p ran q t
  placed : z ∈ T.placed
  position : z.position = p.order.idxOf q.1
  around : T.inner z.anchor <+: T.inner anchor
  after : start anchor ≤ z.position
  elsewhere : z.anchor ≠ anchor

def Performs (R : Regime) (K : LocalId → Prop) (ls : Locals) (p : Plan) (T : Tree) (w : World)
    (anchor : Option Nat) (k : Nat) (code : Body) : Prop :=
  ∀ ran q t z, Facing R K ls p T anchor k ran q t z →
    p.graph.chart.Tracks K w (fun a t' => ∃ ran' z',
      Past R K ls p T anchor a t' ran' z' ∧ Within p T anchor k ran ran') q (exec w code t)

/-- A piece nested in `anchor` has its turn. -/
structure Turn (p : Plan) (T : Tree) (anchor : Option Nat) (k : Nat) (ran : NodeId → Prop) (id : NodeId)
    (x : Placed) : Prop where
  position : x.position = p.order.idxOf id
  nested : x.anchor = anchor
  notYet : k ≤ x.position
  behind : Behind p T anchor k ran

section Runs

variable {s t : State} {ran' called : NodeId → Prop} {q : NodeId × State} {f : LocalId}

theorem Piece.whole_eq (hx : Piece p ls T id n around x) (hfirst : p.first x.position = false)
    (hlast : ¬ (x.position + 1 = p.order.length ∧ around = [])) (nested : Body) :
    p.triggers id n ≠ [] ∧
      x.whole nested = anySet (p.triggers id n) ++ [.cond [] [] (x.code ++ nested) []] := by
  have hne : p.triggers id n ≠ [] := hx.runs.resolve_left fun h => by simp [hfirst] at h
  have htest : x.test = anySet (p.triggers id n) := by
    rw [hx.test, if_neg]
    rintro (h | h)
    · simp [hfirst] at h
    · exact hlast h
  refine ⟨hne, ?_⟩
  unfold Placed.whole
  rw [htest, if_neg]
  cases htr : p.triggers id n with
  | nil => exact absurd htr hne
  | cons => simp [anySet]

theorem Built.first_piece (B : Built ctx g extra entry ctx' p T) (hp : p.Ordered)
    (hC : g.chart.Closed) (hentry : entry ≠ .flagsOnly) :
    ∃ x n rest, x.position = 0 ∧ Piece p ctx'.locals T g.entry n [] x ∧
      T.placed.filter (·.anchor = none) = x :: rest := by
  have hfirst : p.first 0 = true := by simp [Plan.first, B.entry_eq, hentry]
  have hhead : p.order[0]? = some g.entry := by
    rw [← head?_eq_getElem?]
    exact B.head hentry
  obtain ⟨hlt, _⟩ := List.getElem?_eq_some_iff.1 hhead
  obtain ⟨b, hb⟩ := hC.entry
  obtain ⟨n, hn, _⟩ := Graph.get?_of_block? hb
  obtain ⟨x, hx, hpos⟩ := B.grown.present hlt hhead (by rwa [B.graph_eq]) (.inl hfirst)
  obtain ⟨id, m, around, hpiece⟩ := B.grown.pieces x hx
  have hid := hpiece.order
  rw [hpos, hhead] at hid
  cases hid
  obtain rfl := hpiece.outermost (by rw [hpos, hfirst])
  have hrest := B.grown.rest_begin hp none
  have hmem := hrest.all x hx hpiece.anchor (Nat.zero_le _)
  cases hl : T.placed.filter (·.anchor = none) with
  | nil =>
    rw [hl] at hmem
    cases hmem
  | cons y rest =>
    rw [hl] at hmem hrest
    rcases mem_cons.1 hmem with rfl | hmem
    · exact ⟨x, m, rest, hpos, hpiece, rfl⟩
    · have hlt : y.position < x.position :=
        (pairwise_cons.1 hrest.sorted).1 _ (mem_map_of_mem hmem)
      omega

def cleared (p : Plan) (t : State) : State := t.setAll (p.flagIds.map fun f => (f, .i32 0))

theorem cleared_of_mem (hf : f ∈ p.flagIds) (t : State) :
    (cleared p t).locals f = some (.i32 0) := by
  rw [cleared, locals_clear, if_pos hf]

theorem cleared_of_not_mem (hf : f ∉ p.flagIds) (t : State) :
    (cleared p t).locals f = t.locals f := by
  rw [cleared, locals_clear, if_neg hf]

theorem exec_treeCode : exec w (treeCode p T) t =
    exec w (assemble T.placed (p.order.length + 1) none) (cleared p t) := by
  rw [treeCode, exec_append, exec_clear, andThen_next]
  rfl

/-- The extra flags hold numbers, and of the nodes that have one, only `id` has it set. -/
structure Calls (extra : List (NodeId × LocalId)) (t : State) (id : NodeId → Prop) : Prop where
  number : ∀ e ∈ extra, ∃ c : Int32, t.locals e.2 = some (.i32 c)
  called : ∀ {y f}, extra.lookup y = some f → (IsSet t f ↔ id y)

section

variable (S : Sited R K ctx g extra entry ctx' p T)

include S

theorem Token.exists_piece (h : Token R K ctx'.locals p ran q t) :
    ∃ z ∈ T.placed, z.position = p.order.idxOf q.1 ∧
      ∃ n around, Piece p ctx'.locals T q.1 n around z := by
  obtain ⟨b, hb, _⟩ := h.waits.good.block
  obtain ⟨n, hn, _⟩ := Graph.get?_of_block? hb
  have hlive : q.1 ∈ p.order := S.order.mem.2 ⟨b, by rwa [S.graph_eq] at hb⟩
  have hlt : p.order.idxOf q.1 < p.order.length := idxOf_lt_length_iff.2 hlive
  have hget : p.order[p.order.idxOf q.1]? = some q.1 := by
    rw [getElem?_eq_getElem hlt, getElem_idxOf hlt]
  have hran : ¬ ran q.1 := fun hr => Nat.lt_irrefl _ (h.behind q.1 hr)
  obtain ⟨f, hf, _⟩ := (h.signals.called hn hran).2 rfl
  obtain ⟨z, hz, hpos⟩ := S.grown.present hlt hget hn (.inr (ne_nil_of_mem hf))
  obtain ⟨id, n', around, hpiece⟩ := S.grown.pieces z hz
  have hid := hpiece.order
  rw [hpos, hget] at hid
  cases hid
  exact ⟨z, hz, hpos, n', around, hpiece⟩

section

variable (h : Turn p T anchor k ran id x) (hx : Piece p ctx'.locals T id n around x)

include h hx

theorem Turn.enter (htarget : g.chart.Targets id q.1)
    (hq : Token R K ctx'.locals p (fun y => ran y ∨ y = id) q t') :
    ∃ z, Facing R K ctx'.locals p T (some x.position) (x.position + 1) (fun y => ran y ∨ y = id) q t'
      z := by
  have hplace : T.placeOf x.position = T.inner anchor ++ [x.position] := by
    rw [← h.nested]
    exact S.grown.inner_some S.ordered hx
  have hinner : T.inner (some x.position) = T.inner anchor ++ [x.position] := hplace
  obtain ⟨z, hz, hpos, m, around', hpiece⟩ := hq.exists_piece S
  have hlt : x.position < z.position := by
    rw [h.position, hpos]
    exact S.order.before htarget
  have hm := hpiece.node
  rw [S.graph_eq] at hm
  have hfirst : p.first z.position = false := by
    simp only [Plan.first, Bool.and_eq_false_iff, decide_eq_false_iff_not]
    exact .inr (by omega)
  refine ⟨z, hq, hz, hpos, ⟨?_, hlt, fun _ => hlt⟩, ?_⟩
  · rw [← (S.grown.around_eq S.ordered hpiece).1]
    show around' <+: T.placeOf x.position
    rw [h.position]
    exact hpiece.inputs hfirst id ((S.tidy.mem_inputs_iff hm).2 htarget)
  · intro y hy j hj hprefix
    rw [hinner] at hprefix
    rcases hy with hy | rfl
    · exact h.behind y hy x.position h.notYet ((prefix_append _ _).trans hprefix)
    · have hlength := hprefix.length_le
      rw [← h.position, hplace] at hlength
      simp at hlength

theorem Turn.leave (hq : Past R K ctx'.locals p T (some x.position) q t' ran' z)
    (hran : Within p T (some x.position) (x.position + 1) (fun y => ran y ∨ y = id) ran') :
    Facing R K ctx'.locals p T anchor (x.position + 1) ran' q t' z ∧ Within p T anchor k ran ran' := by
  have hinner : T.inner (some x.position) = T.inner anchor ++ [x.position] := by
    rw [← h.nested]
    exact S.grown.inner_some S.ordered hx
  have hplace : T.placeOf (p.order.idxOf id) = T.inner anchor ++ [x.position] := by
    rw [← h.position]
    exact hinner
  have hk : k ≤ x.position := h.notYet
  have hstart : start anchor ≤ x.position := h.nested ▸ S.grown.start_le S.ordered hx
  have hafter : x.position + 1 ≤ z.position := hq.after
  refine ⟨⟨hq.token, hq.placed, hq.position, ⟨?_, by omega, fun _ => hafter⟩, ?_⟩, ?_⟩
  · have haround := hq.around
    rw [hinner] at haround
    rcases prefix_concat_iff.1 haround with heq | haround
    · rw [← hinner] at heq
      exact absurd (S.grown.inner_inj heq) hq.elsewhere
    · exact haround
  · intro y hy j hj hprefix
    -- two places that begin the same one and have the same length are equal
    have hdiffers : ∀ l : Place, T.inner anchor ++ [x.position] ++ l <+: T.placeOf (p.order.idxOf y) →
        False := by
      intro l hl
      have hle : (T.inner anchor ++ [j]).length ≤ (T.inner anchor ++ [x.position]).length := by simp
      have := prefix_of_prefix_length_le hprefix ((prefix_append _ _).trans hl) hle
      have heq := this.eq_of_length (by simp)
      have : j = x.position := by simpa using heq
      omega
    rcases hran y hy with (hy | rfl) | ⟨j', _, hprefix'⟩
    · exact h.behind y hy j (by omega) hprefix
    · exact hdiffers [] (by rw [hplace]; simp)
    · rw [hinner] at hprefix'
      exact hdiffers [j'] hprefix'
  · intro y hy
    rcases hran y hy with (hy | rfl) | ⟨j', _, hprefix'⟩
    · exact .inl hy
    · exact .inr ⟨x.position, hk, by rw [hplace]⟩
    · rw [hinner] at hprefix'
      exact .inr ⟨x.position, hk, (prefix_append _ _).trans hprefix'⟩

theorem Turn.meets {nested : Body}
    (hnested : Performs R K ctx'.locals p T w (some x.position) (x.position + 1) nested)
    (hcode : Advances R K ctx'.locals p g w ran id s x.code t) :
    g.chart.Tracks K w (fun a t' => ∃ ran' z',
      Facing R K ctx'.locals p T anchor (x.position + 1) ran' a t' z' ∧ Within p T anchor k ran ran')
      (id, s) (exec w (x.code ++ nested) t) := by
  rw [exec_append]
  refine Meets.andThen hcode ?_
  rintro a t' ⟨q, hgo, htarget, htoken⟩
  refine .of_goes hgo ?_
  obtain ⟨z, hfacing⟩ := h.enter S hx htarget htoken
  have hmeets := hnested _ _ _ _ hfacing
  rw [S.graph_eq] at hmeets
  refine hmeets.through ?_
  rintro a' t'' ⟨ran', z', hpast, hwithin⟩ -
  exact ⟨ran', z', h.leave S hx hpast hwithin⟩

end

theorem Facing.last (h : Facing R K ctx'.locals p T anchor k ran q t z)
    (hrest : Rest T anchor k (x :: rest)) (hx : Piece p ctx'.locals T id n around x)
    (hlast : x.position + 1 = p.order.length ∧ around = []) : z = x := by
  obtain ⟨hmem, hanchor, _⟩ := hrest.placed x (.head _)
  have hnone : anchor = none := by
    rw [← hanchor, hx.anchor, hlast.2]
    rfl
  have houter : T.inner z.anchor = T.inner none := by
    have haround := h.ahead.around
    rw [hnone] at haround
    exact prefix_nil.1 haround
  have hz : z.anchor = anchor := by rw [hnone, S.grown.inner_inj houter]
  rcases mem_cons.1 (hrest.all z h.placed hz (h.ahead.notYet hz)) with rfl | hz
  · rfl
  · have hlt : x.position < z.position :=
      (pairwise_cons.1 hrest.sorted).1 _ (mem_map_of_mem hz)
    have hbelow := S.grown.below z h.placed
    have hend := hlast.1
    omega

/-- **A piece of the tree has its turn**: it runs with what is nested in it if the walk is in front of its
node, and it is passed over if not. -/
theorem Facing.meets_whole (hrest : Rest T anchor k (x :: rest)) (hk : entry = .flagsOnly ∨ 0 < k)
    {nested : Body}
    (hnested : Performs R K ctx'.locals p T w (some x.position) (x.position + 1) nested)
    (h : Facing R K ctx'.locals p T anchor k ran q t z) :
    g.chart.Tracks K w (fun a t' => ∃ ran' z',
      Facing R K ctx'.locals p T anchor (x.position + 1) ran' a t' z' ∧ Within p T anchor k ran ran') q
      (exec w (x.whole nested) t) := by
  obtain ⟨hmem, hanchor, hkx⟩ := hrest.placed x (.head _)
  obtain ⟨id, n, around, hx⟩ := S.grown.pieces x hmem
  have hidx : x.position = p.order.idxOf id := (S.ordered.idxOf_eq hx.order).symm
  have hfirst : p.first x.position = false := by
    simp only [Plan.first, Bool.and_eq_false_iff, decide_eq_false_iff_not, S.entry_eq]
    rcases hk with hk | hk
    · exact .inl fun hne => hne hk
    · exact .inr (by omega)
  have hran : ¬ ran id := by
    intro hr
    refine h.behind id hr x.position hkx ?_
    rw [← hidx, ← hanchor, ← S.grown.inner_some S.ordered hx]
    exact prefix_rfl
  have hcalled := h.token.signals.called hx.node hran
  have hnumber : ∀ f ∈ p.triggers id n, ∃ c : Int32, t.locals f = some (.i32 c) := fun f hf =>
    h.token.signals.number f (mem_of_triggers hf)
  by_cases hid : id = q.1
  · obtain ⟨_, s⟩ := q
    obtain rfl : id = _ := hid
    have hturn : Turn p T anchor k ran id x := ⟨hidx, hanchor, hkx, h.behind⟩
    have hwaits := h.token.waits
    rw [S.graph_eq] at hwaits
    have hrun := hturn.meets S hx hnested (meets_piece S hwaits h.token.signals
      (fun y hy => Nat.le_of_lt (h.token.behind y hy)) hx (by rw [hfirst, Bool.false_and]))
    by_cases hlast : x.position + 1 = p.order.length ∧ around = []
    · have htest : x.test = [] := by rw [hx.test, if_pos (.inr hlast)]
      rw [Placed.whole, htest]
      exact hrun
    · obtain ⟨hne, hwhole⟩ := hx.whole_eq hfirst hlast nested
      rw [hwhole, exec_guarded hne hnumber, if_pos (hcalled.2 rfl)]
      exact hrun
  · have hne : z ≠ x := by
      rintro rfl
      have hpos := h.position
      rw [hidx] at hpos
      exact hid ((idxOf_inj (mem_of_getElem? hx.order)).1 hpos)
    have hlast : ¬ (x.position + 1 = p.order.length ∧ around = []) := fun hlast =>
      hne (h.last S hrest hx hlast)
    obtain ⟨htriggers, hwhole⟩ := hx.whole_eq hfirst hlast nested
    rw [hwhole, exec_guarded htriggers hnumber, if_neg fun hset => hid (hcalled.1 hset)]
    exact .here ⟨ran, z, ⟨h.token, h.placed, h.position, h.ahead.pass hrest h.placed hne,
      h.behind.mono (by omega)⟩, fun y hy => .inl hy⟩

theorem performs_side {nested : Placed → Body}
    (hnested : ∀ x ∈ T.placed, x.anchor = anchor →
      Performs R K ctx'.locals p T w (some x.position) (x.position + 1) (nested x))
    (hk : entry = .flagsOnly ∨ 0 < k) (hrest : Rest T anchor k rest) :
    Performs R K ctx'.locals p T w anchor k (rest.flatMap fun x => x.whole (nested x)) := by
  induction rest generalizing k with
  | nil =>
    intro ran q t z h
    rw [flatMap_nil, exec_nil]
    refine .here ⟨ran, z, ⟨h.token, h.placed, h.position, h.ahead.around, h.ahead.after, ?_⟩,
      fun y hy => .inl hy⟩
    intro hz
    cases hrest.all z h.placed hz (h.ahead.notYet hz)
  | cons x rest ih =>
    intro ran q t z h
    obtain ⟨hmem, hanchor, hkx⟩ := hrest.placed x (.head _)
    rw [flatMap_cons, exec_append, S.graph_eq]
    refine (h.meets_whole S hrest hk (hnested x hmem hanchor)).andThen ?_
    rintro a t' ⟨ran', z', hfacing, hwithin⟩
    have hmeets := ih (.inr (Nat.succ_pos _)) hrest.tail _ _ _ _ hfacing
    rw [S.graph_eq] at hmeets
    refine hmeets.through ?_
    rintro a' t'' ⟨ran'', z'', hpast, hwithin'⟩ -
    refine ⟨ran'', z'', hpast, fun y hy => ?_⟩
    rcases hwithin' y hy with hy | ⟨j, hj, hprefix⟩
    · exact hwithin y hy
    · exact .inr ⟨j, by omega, hprefix⟩

/-- **What is nested in a node meets the walk**: it runs the nodes that the walk passes there, and in the
end the walk is in front of a node that is nested elsewhere. -/
theorem performs_assemble (fuel : Nat) (hfuel : p.order.length < fuel + start anchor)
    (hstart : start anchor ≤ p.order.length) (hk : entry = .flagsOnly ∨ 0 < start anchor) :
    Performs R K ctx'.locals p T w anchor (start anchor) (assemble T.placed fuel anchor) := by
  induction fuel generalizing anchor with
  | zero => omega
  | succ fuel ih =>
    rw [assemble_succ]
    refine performs_side S (fun x hx hanchor => ?_) hk (S.grown.rest_begin S.ordered anchor)
    obtain ⟨id, n, around, hpiece⟩ := S.grown.pieces x hx
    have hle := S.grown.start_le S.ordered hpiece
    rw [hanchor] at hle
    have hinner : start (some x.position) = x.position + 1 := rfl
    exact ih (by omega) (S.grown.below x hx) (.inr (Nat.succ_pos _))

/-! ### How control comes into the tree -/

theorem Past.false (h : Past R K ctx'.locals p T none q t ran z) : False := by
  have houter : T.inner z.anchor = T.inner none := prefix_nil.1 h.around
  exact h.elsewhere (S.grown.inner_inj houter)

theorem Sited.meets_entry (hentry : entry ≠ .flagsOnly)
    (hcode : ∀ x n, x.position = 0 → Piece p ctx'.locals T g.entry n [] x →
      Advances R K ctx'.locals p g w (fun _ => False) g.entry s x.code t) :
    g.chart.Tracks K w (fun _ _ => False) (g.entry, s)
      (exec w (assemble T.placed (p.order.length + 1) none) t) := by
  obtain ⟨x, n, rest, hpos, hx, hl⟩ := S.first_piece S.ordered S.layout.closed hentry
  have hrest := S.grown.rest_begin S.ordered none
  rw [hl] at hrest
  obtain ⟨hmem, hanchor, _⟩ := hrest.placed x (.head _)
  have hbelow := S.grown.below x hmem
  have hfirst : p.first x.position = true := by simp [Plan.first, S.entry_eq, hentry, hpos]
  have hnested : ∀ z ∈ T.placed, Performs R K ctx'.locals p T w (some z.position) (z.position + 1)
      (assemble T.placed p.order.length (some z.position)) := fun z hz =>
    performs_assemble S p.order.length (by simp only [start]; omega) (S.grown.below z hz)
      (.inr (Nat.succ_pos _))
  have hturn : Turn p T none 0 (fun _ => False) g.entry x :=
    ⟨(S.ordered.idxOf_eq hx.order).symm, hanchor, Nat.zero_le _, fun _ h => h.elim⟩
  have hwhole : x.whole (assemble T.placed p.order.length (some x.position)) =
      x.code ++ assemble T.placed p.order.length (some x.position) := by
    have htest : x.test = [] := by rw [hx.test, if_pos (.inl hfirst)]
    rw [Placed.whole, htest]
    rfl
  rw [assemble_succ, hl, flatMap_cons, exec_append, hwhole]
  refine (hturn.meets S hx (hnested x hmem) (hcode x n hpos hx)).andThen ?_
  rintro a t' ⟨ran', z', hfacing, _⟩
  have hmeets := performs_side S (fun z hz _ => hnested z hz) (.inr (Nat.succ_pos _)) hrest.tail _ _ _ _
    hfacing
  rw [S.graph_eq] at hmeets
  refine hmeets.through ?_
  rintro a' t'' ⟨ran'', z'', hpast, _⟩ -
  exact hpast.false S

theorem Sited.proper_cleared (h : Proper ctx'.locals t) : Proper ctx'.locals (cleared p t) := by
  intro f v hv
  by_cases hf : f ∈ p.flagIds
  · rw [cleared_of_mem hf] at hv
    cases hv
    obtain ⟨var, hvar, htype⟩ := (S.flag hf).integer
    exact ⟨var, hvar, by rw [htype]; rfl⟩
  · rw [cleared_of_not_mem hf] at hv
    exact h f v hv

theorem Sited.locals_cleared (hs : Proper R.checker.locals s) {v : Value} (hv : s.locals f = some v) :
    (cleared p t).locals f = t.locals f := by
  refine cleared_of_not_mem (fun hf => ?_) t
  rw [hs.unknown (S.flag hf).unknown] at hv
  cases hv

theorem Sited.waits_cleared (h : Waits R K g.chart ctx'.locals q t) :
    Waits R K g.chart ctx'.locals q (cleared p t) :=
  h.clear fun _ hf => S.flag hf

theorem Sited.signals_cleared (h : Calls extra t called) (hran : ∀ y, ¬ ran y → (called y ↔ y = id))
    (hid : ¬ ran id → extra.lookup id ≠ none) : Signals p ran id (cleared p t) := by
  have hextra : ∀ {f}, f ∈ extra.map (·.2) → (cleared p t).locals f = t.locals f := by
    intro f hf
    obtain ⟨e, he, rfl⟩ := mem_map.1 hf
    exact cleared_of_not_mem (fun hmem => (S.extras e he).1 (S.flags.flag _ hmem).unknown) t
  constructor
  · rintro f (hf | hf)
    · exact ⟨0, cleared_of_mem hf t⟩
    · rw [S.extra_eq] at hf
      rw [hextra hf]
      obtain ⟨e, he, rfl⟩ := mem_map.1 hf
      exact h.number e he
  · intro y n hn hy
    have hset : ∀ {f}, extra.lookup y = some f → (IsSet (cleared p t) f ↔ called y) := by
      intro f hf
      rw [← h.called hf, IsSet, IsSet, hextra (mem_map.2 ⟨_, Graph.mem_of_lookup hf, rfl⟩)]
    rw [← hran y hy]
    constructor
    · rintro ⟨f, hf, hisSet⟩
      by_cases hmem : f ∈ p.flagIds
      · obtain ⟨c, hc, hne⟩ := hisSet
        rw [cleared_of_mem hmem] at hc
        cases hc
        exact absurd rfl hne
      · have hlookup : extra.lookup y = some f := by
          rcases mem_triggers_iff.1 hf with ⟨x, _, fl, source, hfl, _, htoward⟩ | hlookup
          · exact absurd (mem_flagIds hfl (Flags.mem_ids_of_toward htoward)) hmem
          · rwa [S.extra_eq] at hlookup
        exact (hset hlookup).1 hisSet
    · intro hcalled
      obtain rfl := (hran y hy).1 hcalled
      obtain ⟨f, hf⟩ := Option.ne_none_iff_exists'.1 (hid hy)
      refine ⟨f, mem_triggers_iff.2 (.inr ?_), (hset hf).2 hcalled⟩
      rwa [S.extra_eq]

theorem Sited.signals_entry (h : Calls extra t fun _ => False) :
    Signals p (· = g.entry) g.entry (cleared p t) :=
  S.signals_cleared h (fun _ hy => ⟨fun h => h.elim, fun h => hy h⟩) fun h => absurd rfl h

end

/-- **A tree that is entered by a flag meets the walk from the node of the flag.** -/
theorem Sited.meets_flagged (S : Sited R K ctx g extra .flagsOnly ctx' p T)
    (h : Waits R K g.chart ctx'.locals q t) (hextra : extra.lookup q.1 ≠ none)
    (hcalls : Calls extra t (· = q.1)) :
    g.chart.Tracks K w (fun _ _ => False) q (exec w (treeCode p T) t) := by
  have hwaits := S.waits_cleared h
  rw [← S.graph_eq] at hwaits
  have htoken : Token R K ctx'.locals p (fun _ => False) q (cleared p t) :=
    ⟨hwaits, S.signals_cleared hcalls (fun y _ => Iff.rfl) fun _ => hextra, fun _ h => h.elim⟩
  obtain ⟨z, hz, hpos, n, around, hpiece⟩ := htoken.exists_piece S
  have hfirst : p.first z.position = false := by simp [Plan.first, S.entry_eq]
  have houter : T.inner z.anchor = [] := by
    rw [← (S.grown.around_eq S.ordered hpiece).1]
    exact hpiece.of_extra hfirst (by rwa [S.extra_eq])
  have hfacing : Facing R K ctx'.locals p T none (start none) (fun _ => False) q (cleared p t) z :=
    ⟨htoken, hz, hpos, ⟨by rw [houter]; exact nil_prefix, Nat.zero_le _, fun _ => Nat.zero_le _⟩,
      fun _ h => h.elim⟩
  have hmeets := performs_assemble (w := w) S (p.order.length + 1) (by simp [start]) (Nat.zero_le _)
    (.inl rfl) _ _ _ _ hfacing
  rw [S.graph_eq] at hmeets
  rw [exec_treeCode]
  refine hmeets.through ?_
  rintro a' t'' ⟨ran, z', hpast, _⟩ -
  exact hpast.false S

/-- **A tree whose entry finds its stack parked meets the walk from the entry.** -/
theorem Sited.meets_parked (S : Sited R K ctx g extra .unconditional ctx' p T)
    (h : Waits R K g.chart ctx'.locals (g.entry, s) t) (hcalls : Calls extra t fun _ => False) :
    g.chart.Tracks K w (fun _ _ => False) (g.entry, s) (exec w (treeCode p T) t) := by
  rw [exec_treeCode]
  refine S.meets_entry (by simp) fun x n hpos hx => ?_
  have hmeets := meets_piece (w := w) S (S.waits_cleared h) (S.signals_entry hcalls)
    (fun y hy => by rw [hy]) hx (by simp [S.entry_eq])
  simpa only [Advances, or_self, false_or] using hmeets

/-- **A tree whose entry finds its stack meets the walk from the entry.** -/
theorem Sited.meets_stacked (S : Sited R K ctx g extra .onStack ctx' p T)
    (hg : Good R g.chart (g.entry, s)) (hle : Le (s.forget K) t) (hp : Proper ctx'.locals t)
    (hcalls : Calls extra t fun _ => False) :
    g.chart.Tracks K w (fun _ _ => False) (g.entry, s) (exec w (treeCode p T) t) := by
  rw [exec_treeCode]
  have hle' : Le (s.forget K) (cleared p t) := by
    refine ⟨?_, (State.setAll_calls ..).trans hle.calls, fun f v hv => ?_⟩
    · rw [cleared, State.setAll_stack, hle.stack_eq, append_nil]
    · rw [S.locals_cleared (hg.proper.forget K) hv]
      exact hle.locals_eq hv
  refine S.meets_entry (by simp) fun x n hpos hx => ?_
  have hmeets := meets_found (w := w) S hg hle' (S.proper_cleared hp) (S.signals_entry hcalls)
    (fun y hy => by rw [hy]) hx (by simp [S.entry_eq, Plan.first, hpos])
  simpa only [Advances, or_self, false_or] using hmeets

end Runs

/-! ### Types -/

section Types

variable {b : Block} {fl : Flags} {fs : List LocalId} {found : Bool} {code nested : Body}
  {stack : StackType}

def Integers (ls : Locals) (fs : List LocalId) : Prop :=
  ∀ f ∈ fs, ∃ v, ls.get? f = some v ∧ v.valueType = .i32

theorem Integers.leads_get (h : Integers R.checker.locals fs) {f : LocalId} (hf : f ∈ fs)
    (stack : StackType) : R.Leads stack [.localGet f] (stack ++ [.i32]) := by
  obtain ⟨v, hv, ht⟩ := h f hf
  rw [← ht]
  exact Regime.leads_localGet hv

theorem Integers.leads_set (h : Integers R.checker.locals fs) {f : LocalId} (hf : f ∈ fs)
    (stack : StackType) : R.Leads (stack ++ [.i32]) [.localSet f] stack := by
  obtain ⟨v, hv, ht⟩ := h f hf
  rw [← ht]
  exact Regime.leads_localSet hv

theorem leads_flatMap {α : Type} {l : List α} {f : α → Body} (h : ∀ a ∈ l, R.Leads stack (f a) stack) :
    R.Leads stack (l.flatMap f) stack := by
  induction l with
  | nil => exact .nil stack
  | cons a l ih =>
    rw [flatMap_cons]
    exact (h a (.head _)).append (ih fun b hb => h b (.tail _ hb))

theorem leads_clear (h : Integers R.checker.locals fs) : R.Leads stack (clear fs) stack :=
  leads_flatMap fun _ hf => (Regime.leads_i32Const 0).append (h.leads_set hf stack)

theorem leads_anySet (hne : fs ≠ []) (h : Integers R.checker.locals fs) :
    R.Leads [] (anySet fs) [.i32] := by
  cases fs with
  | nil => exact absurd rfl hne
  | cons f fs =>
    refine (h.leads_get (.head _) []).append (leads_flatMap fun f' hf' => ?_)
    have hor : R.Leads ([] ++ [.i32, .i32]) [.numeric .i32Or] ([] ++ [.i32]) :=
      Regime.leads_numeric .i32Or
    exact (h.leads_get (.tail _ hf') [.i32]).append hor

theorem leads_record (hb : b.Typed R) (hfor : Flags.For b.exit fl)
    (hfl : Integers R.checker.locals fl.ids) :
    R.Leads b.inputStack (b.body ++ fl.record) b.outputStack := by
  cases he : b.exit with
  | ret =>
    rw [he] at hfor
    cases hfor
    have hplain : Body.Plain Flags.ret.record := trivial
    exact ((hb.ret he).append fun _ => hplain).leads _
  | seq next =>
    rw [he] at hfor
    cases hfor with
    | seq flag =>
      have hset := hfl.leads_set (mem_singleton_self flag) b.outputStack
      exact (hb.seq he).append ((Regime.leads_i32Const 1).append hset)
  | branch x y =>
    rw [he] at hfor
    cases hfor with
    | branch ifTrue ifFalse =>
      have hT : ifTrue ∈ (Flags.branch ifTrue ifFalse).ids := by simp [Flags.ids]
      have hF : ifFalse ∈ (Flags.branch ifTrue ifFalse).ids := by simp [Flags.ids]
      have heqz : R.Leads (b.outputStack ++ [.i32]) [.numeric .i32Eqz] (b.outputStack ++ [.i32]) :=
        Regime.leads_numeric .i32Eqz
      exact (hb.branch he).append ((hfl.leads_set hT _).append
        ((hfl.leads_get hT _).append (heqz.append (hfl.leads_set hF _))))

theorem NodeCode.leads (hv : R.checker.locals.Valid) (hb : b.Typed R) (hfor : Flags.For b.exit fl)
    (hfl : Integers R.checker.locals fl.ids) (h : NodeCode R.checker.locals found fl b code) :
    R.Leads (if found then b.inputStack else []) code [] := by
  obtain ⟨note, load, store, hnote, hload, hstore, rfl⟩ := h
  have hbegin : R.Leads (if found then b.inputStack else []) (note ++ load) b.inputStack := by
    rcases hload with ⟨rfl, rfl⟩ | ⟨rfl, hload⟩
    · rw [append_nil]
      exact Regime.leads_comments hnote
    · exact (Regime.leads_comments hnote).append (hload.leads hv)
  have hrun := hbegin.append (leads_record hb hfor hfl)
  rw [← append_assoc] at hrun
  rcases hstore with ⟨he, rfl⟩ | ⟨_, hstore⟩
  · rw [he] at hfor
    cases hfor
    have hplain : Body.Plain (Flags.ret.record ++ []) := trivial
    have hstops := (hbegin.stops (hb.ret he)).append fun _ => hplain
    simpa [append_assoc] using hstops.leads []
  · exact hrun.append (hstore.leads hv)

theorem leads_whole (hcode : R.Leads stack x.code []) (hnested : R.Leads [] nested [])
    (htest : x.test = [] ∨ stack = [] ∧ R.Leads [] x.test [.i32]) :
    R.Leads stack (x.whole nested) [] := by
  have hwhole := hcode.append hnested
  unfold Placed.whole
  split
  next => exact hwhole
  next hne =>
    rcases htest with htest | ⟨rfl, htest⟩
    · exact absurd (by rw [htest]; rfl) hne
    · exact htest.append (Regime.Leads.cond hwhole (.nil []))

theorem Built.integers_triggers (B : Built ctx g extra entry ctx' p T)
    (hextra : Integers ctx'.locals (extra.map (·.2))) (id : NodeId) (n : Node) :
    Integers ctx'.locals (p.triggers id n) := by
  intro f hf
  rcases mem_of_triggers hf with hf | hf
  · exact (B.flags.flag f hf).integer
  · rw [B.extra_eq] at hf
    exact hextra f hf

section

variable (B : Built ctx g extra entry ctx' p T) (hls : R.checker.locals = ctx'.locals)
  (hv : ctx'.locals.Valid) (hT : g.chart.Typed R)

include B hls hv hT

theorem Built.leads_code (hx : Piece p ctx'.locals T id n around x) :
    R.Leads (if p.first x.position && p.entry = .onStack then n.inputStack else []) x.code [] := by
  have hn := hx.node
  rw [B.graph_eq] at hn
  have hlive : id ∈ p.order := B.order.mem.2 ⟨_, Graph.block?_of_get? hn⟩
  obtain ⟨fl, m, hfl, hm, hfor⟩ := B.flags.lookup B.order.nodup hlive
  rw [hn] at hm
  cases hm
  have hcode := hx.code
  rw [hfl, ← hls] at hcode
  refine hcode.leads (hls ▸ hv) (hT.blocks (Graph.block?_of_get? hn)) hfor ?_
  intro f hf
  rw [hls]
  exact (B.flags.flag f (mem_flagIds hfl hf)).integer

theorem Built.leads_piece (hextra : Integers ctx'.locals (extra.map (·.2)))
    (hx : Piece p ctx'.locals T id n around x) (hfirst : p.first x.position = false)
    (hnested : R.Leads [] nested []) : R.Leads [] (x.whole nested) [] := by
  have hcode := B.leads_code hls hv hT hx
  rw [hfirst, Bool.false_and] at hcode
  refine leads_whole hcode hnested ?_
  have hne : p.triggers id n ≠ [] := hx.runs.resolve_left fun h => by simp [hfirst] at h
  rw [hx.test]
  split
  next => exact .inl rfl
  next => exact .inr ⟨rfl, leads_anySet hne (hls ▸ B.integers_triggers hextra id n)⟩

theorem Built.leads_nested (hextra : Integers ctx'.locals (extra.map (·.2))) (fuel a : Nat) :
    R.Leads [] (assemble T.placed fuel (some a)) [] := by
  induction fuel generalizing a with
  | zero => exact .nil []
  | succ fuel ih =>
    rw [assemble_succ]
    refine leads_flatMap fun x hx => ?_
    obtain ⟨hmem, hanchor⟩ := mem_filter.1 hx
    obtain ⟨id, n, around, hpiece⟩ := B.grown.pieces x hmem
    refine B.leads_piece hls hv hT hextra hpiece ?_ (ih x.position)
    by_contra hfirst
    have hnone := hpiece.anchor
    rw [hpiece.outermost (by simpa using hfirst)] at hnone
    simp [hnone] at hanchor

end

/-- **The code of a tree is typed, and its end is not reached.** -/
theorem Built.stops (B : Built ctx g extra entry ctx' p T) (hg : g.Tidy) (hC : g.chart.Closed)
    (hls : R.checker.locals = ctx'.locals) (hv : ctx'.locals.Valid) (hT : g.chart.Typed R)
    (hextra : Integers ctx'.locals (extra.map (·.2))) (hb : g.chart.block? g.entry = some b) :
    R.Stops (if entry = .onStack then b.inputStack else []) (treeCode p T ++ [.unreachable]) := by
  have hp := B.ordered hg
  have hclear : ∀ stack, R.Leads stack (clear p.flagIds) stack := fun stack =>
    leads_clear fun f hf => hls ▸ (B.flags.flag f hf).integer
  have hlater : ∀ x ∈ T.placed, p.first x.position = false →
      R.Leads [] (x.whole (assemble T.placed p.order.length (some x.position))) [] := by
    intro x hx hfirst
    obtain ⟨id, n, around, hpiece⟩ := B.grown.pieces x hx
    exact B.leads_piece hls hv hT hextra hpiece hfirst (B.leads_nested hls hv hT hextra _ _)
  have hend : R.Stops [] [.unreachable] := Regime.stops_unreachable
  refine Regime.Leads.stops ?_ hend
  refine (hclear _).append ?_
  rw [assemble_succ]
  by_cases hentry : entry = .flagsOnly
  · subst hentry
    refine leads_flatMap fun x hx => hlater x (mem_of_mem_filter hx) ?_
    simp [Plan.first, B.entry_eq]
  · obtain ⟨x, n, rest, hpos, hx, hl⟩ := B.first_piece hp hC hentry
    have hrest := B.grown.rest_begin hp none
    rw [hl] at hrest ⊢
    have hfirst : p.first x.position = true := by simp [Plan.first, B.entry_eq, hentry, hpos]
    have hn := hx.node
    rw [B.graph_eq] at hn
    rw [Graph.block?_of_get? hn] at hb
    cases hb
    have hcode := B.leads_code hls hv hT hx
    rw [hfirst, Bool.true_and, B.entry_eq] at hcode
    rw [flatMap_cons]
    refine Regime.Leads.append (leads_whole (by simpa using hcode)
      (B.leads_nested hls hv hT hextra _ _) (.inl ?_)) (leads_flatMap fun z hz => ?_)
    · rw [hx.test, if_pos (.inl hfirst)]
    · obtain ⟨hmem, _, hlt⟩ := hrest.tail.placed z hz
      refine hlater z hmem ?_
      simp only [Plan.first, Bool.and_eq_false_iff, decide_eq_false_iff_not]
      exact .inr (by omega)

end Types

end LinearTree

end Structurer
