/-
**Nodes within reach.**

The breadth-first walk over a graph leaves every node once, and stops when no node is left in its
queue; it never looks for a node that is not there.  It finds the nodes that can be reached without
coming through the node to be avoided, the nearer ones before those farther away.
-/

import Structurer.Proofs.Acyclic
import Structurer.Proofs.Paths
import Structurer.Proofs.Reducing

namespace Structurer

open Engine Fallible List

variable {outs nodes gone found front : List NodeId}

namespace Graph

variable {g g' : Graph} {start id x : NodeId} {avoid : Option NodeId}
  {reached queue nodes' : List NodeId}

/-! ### The queue -/

theorem enqueue_cons (out : NodeId) : enqueue avoid reached queue (out :: outs) =
    enqueue avoid reached
      (if some out = avoid ∨ out ∈ reached ∨ out ∈ queue then queue else queue ++ [out]) outs := rfl

theorem mem_enqueue :
    id ∈ enqueue avoid reached queue outs ↔
    id ∈ queue ∨ (id ∈ outs ∧ some id ≠ avoid ∧ id ∉ reached) := by
  induction outs generalizing queue with
  | nil => simp [enqueue]
  | cons out outs ih =>
    rw [enqueue_cons, ih]
    split
    next hskip =>
      constructor
      · rintro (h | ⟨h, hrest⟩)
        · exact .inl h
        · exact .inr ⟨.tail _ h, hrest⟩
      · rintro (h | ⟨h, hav, hre⟩)
        · exact .inl h
        · rcases mem_cons.1 h with rfl | h
          · rcases hskip with hskip | hskip | hskip
            · exact absurd hskip hav
            · exact absurd hskip hre
            · exact .inl hskip
          · exact .inr ⟨h, hav, hre⟩
    next hnew =>
      rw [not_or, not_or] at hnew
      simp only [mem_append, mem_cons, not_mem_nil, or_false]
      constructor
      · rintro ((h | rfl) | ⟨h, hrest⟩)
        · exact .inl h
        · exact .inr ⟨.inl rfl, hnew.1, hnew.2.1⟩
        · exact .inr ⟨.inr h, hrest⟩
      · rintro (h | ⟨rfl | h, hrest⟩)
        · exact .inl (.inl h)
        · exact .inl (.inr rfl)
        · exact .inr ⟨h, hrest⟩

theorem nodup_enqueue (h : (reached ++ queue).Nodup) :
    (reached ++ enqueue avoid reached queue outs).Nodup := by
  induction outs generalizing queue with
  | nil => exact h
  | cons out outs ih =>
    rw [enqueue_cons]
    apply ih
    split
    next => exact h
    next hnew =>
      rw [not_or, not_or] at hnew
      rw [← append_assoc, nodup_append]
      refine ⟨h, nodup_singleton out, fun a ha b hb => ?_⟩
      cases mem_singleton.1 hb
      rintro rfl
      rcases mem_append.1 ha with ha | ha
      · exact hnew.2.1 ha
      · exact hnew.2.2 ha

theorem exists_enqueue (avoid : Option NodeId) (reached queue outs : List NodeId) :
    ∃ fresh, enqueue avoid reached queue outs = queue ++ fresh ∧
      ∀ x ∈ fresh, x ∈ outs ∧ some x ≠ avoid ∧ x ∉ reached ++ queue := by
  induction outs generalizing queue with
  | nil => exact ⟨[], by simp [enqueue], by simp⟩
  | cons out outs ih =>
    rw [enqueue_cons]
    split
    next =>
      obtain ⟨fresh, heq, hfresh⟩ := ih queue
      refine ⟨fresh, heq, fun x hx => ?_⟩
      obtain ⟨hout, hnew⟩ := hfresh x hx
      exact ⟨.tail _ hout, hnew⟩
    next hnew =>
      rw [not_or, not_or] at hnew
      obtain ⟨fresh, heq, hfresh⟩ := ih (queue ++ [out])
      refine ⟨out :: fresh, by rw [heq, append_assoc]; rfl, fun x hx => ?_⟩
      rcases mem_cons.1 hx with rfl | hx
      · exact ⟨.head _, hnew.1, by simp [hnew.2]⟩
      · obtain ⟨hout, hav, hnot⟩ := hfresh x hx
        rw [← append_assoc] at hnot
        exact ⟨.tail _ hout, hav, fun hmem => hnot (mem_append_left _ hmem)⟩

/-! ### The walk -/

/-- What the walk keeps true.  The nodes are left and queued in the order of their distances, and the
queue never holds nodes of more than two distances, one after the other. -/
structure Walking (g : Graph) (start : NodeId) (avoid : Option NodeId) (reached queue : List NodeId) :
    Prop where
  nodup : (reached ++ queue).Nodup
  live : ∀ id ∈ reached ++ queue, g.chart.Live id
  way : ∀ id ∈ reached ++ queue, g.chart.InReach avoid start id
  closed : ∀ id ∈ reached, ∀ out, g.chart.Targets id out → some out ≠ avoid → out ∈ reached ++ queue
  sorted : (reached ++ queue).Pairwise fun a b =>
    g.chart.distance avoid start a ≤ g.chart.distance avoid start b
  near : ∀ a ∈ queue, ∀ b ∈ queue,
    g.chart.distance avoid start b ≤ g.chart.distance avoid start a + 1
  start : some start ≠ avoid → start ∈ reached ++ queue

/-- The nodes within reach of `start` without going through `avoid`, in the order of their distances. -/
structure Reached (g : Graph) (start : NodeId) (avoid : Option NodeId) (nodes : List NodeId) : Prop where
  nodup : nodes.Nodup
  live : ∀ id ∈ nodes, g.chart.Live id
  mem_iff : ∀ {id}, id ∈ nodes ↔ g.chart.InReach avoid start id
  sorted : nodes.Pairwise fun a b => g.chart.distance avoid start a ≤ g.chart.distance avoid start b

section

variable (h : Reached g start avoid nodes)

include h

theorem Reached.avoids : ∀ id ∈ nodes, some id ≠ avoid :=
  fun _ hid => (h.mem_iff.1 hid).ne

theorem Reached.path : ∀ id ∈ nodes, Relation.ReflTransGen g.chart.Targets start id :=
  fun _ hid => (h.mem_iff.1 hid).path

theorem Reached.start_mem (hs : some start ≠ avoid) : start ∈ nodes :=
  h.mem_iff.2 (Chart.inReach_start hs)

theorem Reached.closed :
    ∀ id ∈ nodes, ∀ out, g.chart.Targets id out → some out ≠ avoid → out ∈ nodes :=
  fun _ hid _ hto hav => h.mem_iff.2 ((h.mem_iff.1 hid).step hto hav).1

theorem Reached.perm (hnd : nodes'.Nodup)
    (hmem : ∀ {id}, id ∈ nodes' ↔ g.chart.InReach avoid start id) : nodes.Perm nodes' :=
  (perm_ext_iff_of_nodup h.nodup hnd).2 fun _ => h.mem_iff.trans hmem.symm

end

theorem Walking.lt_distance (h : Walking g start avoid reached (id :: queue))
    (hx : g.chart.InReach avoid start x) (hnew : x ∉ reached ++ id :: queue) :
    g.chart.distance avoid start id < g.chart.distance avoid start x := by
  refine hx.lt_distance (· ∈ reached ++ id :: queue) (· ∈ reached) (h.start hx.start_ne)
    (fun {p out} hp => h.closed p hp out) (fun {p} hp hdone => ?_) hnew
  rcases mem_cons.1 ((mem_append.1 hp).resolve_left hdone) with rfl | hp
  · exact Nat.le_refl _
  · exact rel_of_pairwise_cons (pairwise_append.1 h.sorted).2.1 hp

theorem Walking.step (hL : g.chart.Landing) (h : Walking g start avoid reached (id :: queue)) {n : Node}
    (hn : g.get? id = some n) :
    Walking g start avoid (reached ++ [id]) (enqueue avoid (reached ++ [id]) queue n.outputs) := by
  have hsplit : reached ++ id :: queue = (reached ++ [id]) ++ queue := by simp
  have hid : id ∈ reached ++ id :: queue := by simp
  obtain ⟨fresh, heq, hfresh⟩ := exists_enqueue avoid (reached ++ [id]) queue n.outputs
  rw [← hsplit] at hfresh
  -- what joins is one step farther away than the node that leaves
  have hjoins : ∀ x ∈ fresh, g.chart.Targets id x ∧ g.chart.InReach avoid start x ∧
      g.chart.distance avoid start x = g.chart.distance avoid start id + 1 := by
    intro x hx
    obtain ⟨hout, hav, hnew⟩ := hfresh x hx
    have hto : g.chart.Targets id x := (targets_iff_of_get? hn).2 hout
    obtain ⟨hreach, hle⟩ := (h.way id hid).step hto hav
    have hlt := h.lt_distance hreach hnew
    exact ⟨hto, hreach, by omega⟩
  have hcases : ∀ x ∈ (reached ++ [id]) ++ enqueue avoid (reached ++ [id]) queue n.outputs,
      x ∈ reached ++ id :: queue ∨ x ∈ fresh := by
    intro x hx
    rw [heq, ← append_assoc, ← hsplit] at hx
    exact mem_append.1 hx
  have hkeep : ∀ x ∈ reached ++ id :: queue,
      x ∈ (reached ++ [id]) ++ enqueue avoid (reached ++ [id]) queue n.outputs := by
    intro x hx
    rw [heq, ← append_assoc, ← hsplit]
    exact mem_append_left _ hx
  obtain ⟨_, hqueue, hbefore⟩ := pairwise_append.1 h.sorted
  have hfirst : ∀ x ∈ queue ++ fresh,
      g.chart.distance avoid start id ≤ g.chart.distance avoid start x ∧
        g.chart.distance avoid start x ≤ g.chart.distance avoid start id + 1 := by
    intro x hx
    rcases mem_append.1 hx with hx | hx
    · exact ⟨rel_of_pairwise_cons hqueue hx,
        h.near id (.head _) x (.tail _ hx)⟩
    · have hdist := (hjoins x hx).2.2
      omega
  refine ⟨nodup_enqueue (hsplit ▸ h.nodup), ?_, ?_, ?_, ?_, ?_, fun hs => hkeep _ (h.start hs)⟩
  · intro x hx
    rcases hcases x hx with hx | hx
    · exact h.live x hx
    · exact hL (hjoins x hx).1
  · intro x hx
    rcases hcases x hx with hx | hx
    · exact h.way x hx
    · exact (hjoins x hx).2.1
  · intro x hx out hto hav
    rcases mem_append.1 hx with hx | hx
    · exact hkeep _ (h.closed x hx out hto hav)
    · cases mem_singleton.1 hx
      by_cases hre : out ∈ reached ++ [id]
      · exact mem_append_left _ hre
      · exact mem_append_right _
          (mem_enqueue.2 (.inr ⟨(targets_iff_of_get? hn).1 hto, hav, hre⟩))
  · rw [heq, ← append_assoc, ← hsplit, pairwise_append]
    refine ⟨h.sorted, pairwise_of_forall_mem_list fun a ha b hb => ?_, fun a ha b hb => ?_⟩
    · rw [(hjoins a ha).2.2, (hjoins b hb).2.2]
    · rw [(hjoins b hb).2.2]
      rcases mem_append.1 ha with ha | ha
      · exact Nat.le_succ_of_le (hbefore a ha id (.head _))
      · rcases mem_cons.1 ha with rfl | ha
        · exact Nat.le_succ _
        · exact (hfirst a (mem_append_left _ ha)).2
  · rw [heq]
    intro a ha b hb
    have hlow := (hfirst a ha).1
    have hhigh := (hfirst b hb).2
    omega

theorem Walking.ends (h : Walking g start avoid reached []) : Reached g start avoid reached := by
  obtain ⟨hnodup, hlive, hway, hclosed, hsorted, _, hstart⟩ := h
  rw [append_nil] at hnodup hlive hway hstart hclosed hsorted
  refine ⟨hnodup, hlive, fun {id} => ⟨hway id, ?_⟩, hsorted⟩
  rintro ⟨nodes, hpath, havoid⟩
  induction hpath with
  | here => exact hstart (havoid start (mem_singleton_self start))
  | @step nodes p id _ hto ih =>
    have hp := ih fun x hx => havoid x (mem_append_left _ hx)
    exact hclosed p hp id hto (havoid id (mem_append_right _ (mem_singleton_self id)))

theorem Walking.length_le (h : Walking g start avoid reached queue) : reached.length ≤ g.size := by
  have hsub : reached ⊆ g.ids := fun j hj => live_iff_mem.1 (h.live j (mem_append_left _ hj))
  have hlen := (subperm_of_subset (nodup_append.1 h.nodup).1 hsub).length_le
  rwa [ids, length_map] at hlen

theorem walk_works (hL : g.chart.Landing) (fuel : Nat) (h : Walking g start avoid reached queue)
    (hfuel : g.size < fuel + reached.length) :
    Works (g.walk avoid fuel reached queue) (Reached g start avoid) := by
  induction fuel generalizing reached queue with
  | zero =>
    have hlen := h.length_le
    omega
  | succ fuel ih =>
    cases queue with
    | nil => exact .pure h.ends
    | cons id queue =>
      obtain ⟨b, hb⟩ := h.live id (by simp)
      refine (works_node hb).bind ?_
      rintro n ⟨hn, _⟩
      refine ih (h.step hL hn) ?_
      rw [length_append, length_singleton]
      omega

theorem walking_begin (hstart : g.chart.Live start) :
    Walking g start avoid [] (if some start = avoid then [] else [start]) := by
  split
  next h => exact ⟨by simp, by simp, by simp, by simp, by simp, by simp, fun hs => absurd h hs⟩
  next h =>
    refine ⟨by simp, ?_, ?_, by simp, by simp, by simp, by simp⟩
    · simpa using hstart
    · simpa using Chart.inReach_start h

/-- **The walk finds the nodes within reach.** -/
theorem reachable_works (hL : g.chart.Landing) (hstart : g.chart.Live start) (avoid : Option NodeId) :
    Works (g.reachable start avoid) (Reached g start avoid) :=
  walk_works hL _ (walking_begin hstart) (by simp)

/-! ### Nodes out of reach -/

theorem ids_eraseAll : (gone.foldl Graph.erase g).ids = g.ids.filter (· ∉ gone) := by
  induction gone generalizing g with
  | nil => simp
  | cons a gone ih =>
    rw [foldl_cons, ih, ids_erase, filter_filter]
    refine filter_congr fun j _ => ?_
    simp [Bool.and_comm]

theorem nextSerial_eraseAll : (gone.foldl Graph.erase g).nextSerial = g.nextSerial := by
  induction gone generalizing g with
  | nil => rfl
  | cons a gone ih => exact ih.trans (same_erase g a).nextSerial

theorem chart_eraseAll (g : Graph) (gone : List NodeId) :
    (gone.foldl Graph.erase g).chart.entry = g.chart.entry ∧
      ∀ j, (gone.foldl Graph.erase g).chart.block? j = if j ∈ gone then none else g.chart.block? j := by
  induction gone generalizing g with
  | nil => exact ⟨rfl, fun j => by simp⟩
  | cons a gone ih =>
    obtain ⟨hentry, hblocks⟩ := ih (g.erase a)
    refine ⟨by rw [foldl_cons, hentry, chart_erase]; rfl, fun j => ?_⟩
    rw [foldl_cons, hblocks, chart_erase]
    by_cases hj : j = a
    · subst hj
      simp
    · rw [Chart.erase_of_ne hj]
      simp [hj]

theorem Tidy.eraseAll (hg : g.Tidy) (gone : List NodeId) : (gone.foldl Graph.erase g).Tidy := by
  induction gone generalizing g with
  | nil => exact hg
  | cons a gone ih => exact ih (hg.erase a).1

/-- What is left of a graph without the nodes out of reach. -/
structure Trimmed (g : Graph) (gone : List NodeId) (g' : Graph) : Prop extends g'.Consistent where
  entry : g'.chart.entry = g.chart.entry
  blocks : ∀ {j b}, g'.chart.block? j = some b → g.chart.block? j = some b
  path : ∀ {j}, g'.chart.Live j → Relation.ReflTransGen g.chart.Targets g.chart.entry j
  kept : ∀ {j}, g.chart.Live j → j ∉ gone → g'.chart.Live j
  gone : ∀ j ∈ gone, g.chart.Live j ∧ g'.chart.block? j = none

theorem removeUnreachable_works (hg : g.Tidy) (hC : g.chart.Closed) :
    Works g.removeUnreachable fun e => Trimmed g e.1 e.2 := by
  refine (reachable_works hC.landing hC.entry none).bind fun reached hr => .pure ?_
  have htidy := hg.eraseAll (g.ids.filter (· ∉ reached))
  obtain ⟨hentry, hblocks⟩ := chart_eraseAll g (g.ids.filter (· ∉ reached))
  have hkept : ∀ {j b}, g.chart.block? j = some b → j ∈ reached →
      ((g.ids.filter (· ∉ reached)).foldl erase g).chart.block? j = some b := by
    intro j b hb hj
    rw [hblocks, if_neg (by simp [hj]), hb]
  have hleft : ∀ {j b}, ((g.ids.filter (· ∉ reached)).foldl erase g).chart.block? j = some b →
      j ∈ reached ∧ g.chart.block? j = some b := by
    intro j b hb
    rw [hblocks] at hb
    split at hb
    next => cases hb
    next hj =>
      refine ⟨?_, hb⟩
      have hid : j ∈ g.ids := live_iff_mem.1 ⟨b, hb⟩
      simpa [hid] using hj
  refine ⟨⟨htidy, ?_, ?_⟩, hentry, fun hb => (hleft hb).2, fun {j} hj => ?_, fun {j} hj hgone => ?_,
    fun j hj => ?_⟩
  · obtain ⟨b, hb⟩ := hC.entry
    rw [hentry]
    exact ⟨b, hkept hb (hr.start_mem (by simp))⟩
  · rintro p j ⟨b, hb, hout⟩
    obtain ⟨hp, hb⟩ := hleft hb
    obtain ⟨c, hc⟩ := hC.targets p j ⟨b, hb, hout⟩
    exact ⟨c, hkept hc (hr.closed p hp j ⟨b, hb, hout⟩ (by simp))⟩
  · obtain ⟨b, hb⟩ := hj
    exact hr.path j (hleft hb).1
  · obtain ⟨b, hb⟩ := hj
    exact ⟨b, by rw [hblocks, if_neg hgone, hb]⟩
  · exact ⟨live_iff_mem.2 (mem_filter.1 hj).1, by rw [hblocks, if_pos hj]⟩

theorem Trimmed.shrinks (h : Trimmed g gone g') (hgone : gone ≠ []) : g.Shrinks g' := by
  obtain ⟨a, ha⟩ := exists_mem_of_ne_nil gone hgone
  obtain ⟨hlive, hnone⟩ := h.gone a ha
  refine ⟨h.toConsistent, fun j => ?_, a, ?_⟩
  · cases hb : g'.chart.block? j with
    | none =>
      rw [Chart.heft_of_none hb]
      exact Nat.zero_le _
    | some b => rw [Chart.heft_of_block hb, Chart.heft_of_block (h.blocks hb)]
  · rw [Chart.heft_of_none hnone]
    exact Chart.heft_pos_iff.2 hlive

/-! ### Breadth-first order -/

theorem nodup_walk {fuel : Nat} (h : (reached ++ queue).Nodup)
    (hw : g.walk avoid fuel reached queue = .ok found) : found.Nodup := by
  induction fuel generalizing reached queue with
  | zero =>
    cases hw
    exact h.of_append_left
  | succ fuel ih =>
    cases queue with
    | nil =>
      cases hw
      exact h.of_append_left
    | cons id queue =>
      obtain ⟨n, _, hw⟩ := bind_eq_ok_iff.1 hw
      refine ih (nodup_enqueue ?_) hw
      rwa [append_assoc]

theorem nodup_reachable (h : g.reachable start avoid = .ok found) : found.Nodup := by
  refine nodup_walk ?_ h
  split <;> simp

theorem perm_reorder (hnd : g.ids.Nodup) (hfront : front.Nodup) :
    ((front.filterMap fun id => (g.get? id).map fun n => (id, n)) ++
      g.nodes.filter (·.1 ∉ front)).Perm g.nodes := by
  have hnodes : g.nodes.Nodup := .of_map _ hnd
  have hperm : (front.filterMap fun id => (g.get? id).map fun n => (id, n)).Perm
      (g.nodes.filter (·.1 ∈ front)) := by
    refine (perm_ext_iff_of_nodup ?_ (hnodes.filter _)).2 ?_
    · refine hfront.filterMap fun a a' e he he' => ?_
      obtain ⟨n, _, rfl⟩ := Option.map_eq_some_iff.1 he
      obtain ⟨n', _, h⟩ := Option.map_eq_some_iff.1 he'
      exact (congrArg Prod.fst h).symm
    · rintro ⟨id, n⟩
      simp only [mem_filterMap, Option.map_eq_some_iff, Prod.mk.injEq, mem_filter,
        decide_eq_true_eq, ← get?_eq_some_iff hnd]
      constructor
      · rintro ⟨j, hj, m, hm, rfl, rfl⟩
        exact ⟨hm, hj⟩
      · rintro ⟨hm, hj⟩
        exact ⟨id, hj, n, hm, rfl, rfl⟩
  refine (hperm.append_right _).trans ?_
  have := filter_append_perm (fun e : NodeId × Node => decide (e.1 ∈ front)) g.nodes
  simpa only [decide_not] using this

theorem exists_of_sortBreadthFirst (hnd : g.ids.Nodup) (h : g.sortBreadthFirst = .ok g') :
    ∃ nodes, nodes.Perm g.nodes ∧ g' = ({ g with nodes } : Graph).renumber := by
  obtain ⟨reached, hr, h⟩ := bind_eq_ok_iff.1 h
  cases h
  exact ⟨_, perm_reorder hnd (nodup_reachable hr), rfl⟩

theorem Tidy.of_sortBreadthFirst (hg : g.Tidy) (h : g.sortBreadthFirst = .ok g') :
    g'.Tidy ∧ g'.chart = g.chart ∧ g'.size = g.size ∧ g'.nextSerial = g.nextSerial := by
  obtain ⟨nodes, hperm, rfl⟩ := exists_of_sortBreadthFirst hg.nodup h
  have hsorted : ({ g with nodes } : Graph).Tidy ∧ ({ g with nodes } : Graph).chart = g.chart :=
    hg.of_perm hperm rfl rfl
  obtain ⟨htidy, hchart⟩ := hsorted
  obtain ⟨hsame, _⟩ := same_renumber { g with nodes }
  refine ⟨htidy.renumber, hsame.chart.trans hchart, ?_, rfl⟩
  simp only [Graph.size, Graph.renumber, length_mapIdx]
  exact hperm.length_eq

theorem sortBreadthFirst_works (hg : g.Tidy) (hC : g.chart.Closed) :
    Works g.sortBreadthFirst fun g' => g'.Tidy ∧ g'.chart = g.chart ∧ g'.size = g.size := by
  have h : Works g.sortBreadthFirst fun _ => True :=
    (reachable_works hC.landing hC.entry none).bind fun _ _ => .pure trivial
  obtain ⟨g', hg', _⟩ := h
  obtain ⟨htidy, hchart, hsize, _⟩ := hg.of_sortBreadthFirst hg'
  exact .of_eq hg' ⟨htidy, hchart, hsize⟩

end Graph

namespace Reduce

variable {ctx : Context} {plain : Prop} {g : Graph}

theorem removeUnreachable_trims (hs : g.Consistent) (ctx : Context) :
    Succeeds (removeUnreachable g) ctx (Attempt ctx fun g' ctx' =>
      ctx.Grows ctx' ∧ ∃ gone, gone ≠ [] ∧ g.Trimmed gone g') := by
  refine (Succeeds.works (Graph.removeUnreachable_works hs.tidy hs.closed) ctx).bind ?_
  rintro ⟨gone, g'⟩ _ ⟨rfl, ht⟩
  cases gone with
  | nil => exact .pure .nothing
  | cons a gone =>
    refine (emit_spec _ _).bind ?_
    rintro _ _ rfl
    exact .pure (.success ⟨Context.grows_logged _ _, a :: gone, cons_ne_nil _ _, ht⟩)

theorem removeUnreachable_works (hs : g.Sound ctx plain) :
    Succeeds (removeUnreachable g) ctx (Reduced plain ctx g) := by
  refine (removeUnreachable_trims hs.toConsistent ctx).mono fun r ctx' hr => hr.mono ?_
  rintro g' ⟨hgrows, gone, hgone, ht⟩
  exact .of_blocks hs hgrows (ht.shrinks hgone) ht.entry fun hb => .inl (ht.blocks hb)

end Reduce

end Structurer
