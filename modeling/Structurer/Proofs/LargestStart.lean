/-
**The largest start is carved out.**

A start is what the entry reaches without coming through some other node, its middle.  It may be carved
out if it has at least two nodes, if at least one node besides the middle is left, and if there is no
cycle inside and no edge from outside.  The largest such start is replaced by one node, whatever the code of
the graph, and nothing happens if there is none.
-/

import Structurer.Proofs.Shrinking
import Structurer.Proofs.Start

namespace Structurer

open Engine Fallible Structurer.Graph List

namespace Start

variable {g : Graph} {c : Candidate} {middle : NodeId} {nodes : List NodeId}

/-- The nodes that the entry reaches without coming through `middle`, if they may be carved out. -/
structure Eligible (g : Graph) (middle : NodeId) (nodes : List NodeId) : Prop where
  live : middle ∈ g.ids
  ne_entry : middle ≠ g.entry
  nodup : nodes.Nodup
  mem_iff : ∀ id, id ∈ nodes ↔ ∃ path, g.chart.Path g.entry path id ∧ middle ∉ path
  two : 2 ≤ nodes.length
  behind : nodes.length + 2 ≤ g.size
  acyclic : ∀ id path, g.chart.Path id path id → path ⊆ nodes → path.length = 1
  closed : ∀ p id, id ∈ nodes → g.chart.Targets p id → p ∈ nodes

/-! ### Cycles -/

theorem length_le_of_path {rank : NodeId → Nat}
    (hrank : ∀ {p id}, id ∈ nodes → g.chart.Targets p id → rank p < rank id) {first last : NodeId}
    {path : List NodeId} (hpath : g.chart.Path first path last) (hinside : path ⊆ nodes) :
    rank first + path.length ≤ rank last + 1 := by
  induction hpath with
  | here => exact Nat.le_refl _
  | @step path p id _ ht ih =>
    have hle := ih fun x hx => hinside (mem_append_left _ hx)
    have hlt := hrank (hinside (mem_append_right _ (mem_singleton_self id))) ht
    rw [length_append, length_singleton]
    omega

theorem exists_path_of_transGen {a b : NodeId}
    (h : Relation.TransGen (fun p id => id ∈ nodes ∧ g.chart.Targets p id) a b) :
    ∃ path, g.chart.Path a path b ∧ 2 ≤ path.length ∧ path ⊆ a :: nodes := by
  induction h with
  | @single b h => exact ⟨[a] ++ [b], .step .here h.2, Nat.le_refl _, by simp [h.1]⟩
  | @tail b d _ h ih =>
    obtain ⟨path, hpath, htwo, hinside⟩ := ih
    refine ⟨path ++ [d], hpath.step h.2, ?_, ?_⟩
    · rw [length_append]
      omega
    · exact append_subset.2 ⟨hinside, by simp [h.1]⟩

theorem Eligible.ranked (h : Eligible g middle nodes) :
    ∃ rank : NodeId → Nat, ∀ {p id}, id ∈ nodes → g.chart.Targets p id → rank p < rank id := by
  have hcycle : ∀ id, ¬ Relation.TransGen (fun p id => id ∈ nodes ∧ g.chart.Targets p id) id id := by
    intro id hid
    obtain ⟨_, _, hmem, _⟩ := Relation.TransGen.tail'_iff.1 hid
    obtain ⟨path, hpath, htwo, hinside⟩ := exists_path_of_transGen hid
    have hone := h.acyclic id path hpath fun x hx => by
      rcases mem_cons.1 (hinside hx) with rfl | hx
      · exact hmem
      · exact hx
    omega
  obtain ⟨rank, hrank⟩ := Chart.exists_rank_along (fun {_ _} hr => hr.1) hcycle
  exact ⟨rank, fun hid ht => hrank ⟨hid, ht⟩⟩

/-! ### What is looked for -/

theorem Fits.eligible (h : Fits g c) : Eligible g c.middle c.nodes where
  live := live_iff_mem.1 h.middle
  ne_entry := h.ne_entry
  nodup := h.reached.nodup
  mem_iff id := h.reached.mem_iff.trans Chart.inReach_some_iff
  two := h.two
  behind := h.behind
  acyclic := by
    intro id path hpath hinside
    obtain ⟨rank, hrank⟩ := h.ranked
    have hle := length_le_of_path hrank hpath hinside
    have hpos := hpath.length_pos
    omega
  closed p id hid ht := h.closed hid ht

theorem Eligible.exists_fits (h : Eligible g middle nodes) (hC : g.chart.Closed) :
    ∃ nodes', Fits g ⟨middle, nodes'⟩ ∧ nodes'.length = nodes.length := by
  obtain ⟨nodes', _, hnodes'⟩ := reachable_works hC.landing hC.entry (some middle)
  have hperm : nodes'.Perm nodes :=
    hnodes'.perm h.nodup fun {id} => (h.mem_iff id).trans Chart.inReach_some_iff.symm
  have hlen := hperm.length_eq
  obtain ⟨rank, hrank⟩ := h.ranked
  refine ⟨nodes', ⟨h.ne_entry, live_iff_mem.2 h.live, hnodes', hlen ▸ h.two, hlen ▸ h.behind, ?_, rank,
    fun hid ht => hrank (hperm.mem_iff.1 hid) ht⟩, hlen⟩
  intro p id hid ht
  exact hperm.mem_iff.2 (h.closed p id (hperm.mem_iff.1 hid) ht)

theorem not_eligible (hC : g.chart.Closed)
    (h : Chosen (Fits g) (·.middle) (·.nodes.length) g.ids none) (middle : NodeId) (nodes : List NodeId) :
    ¬ Eligible g middle nodes := by
  intro hstart
  obtain ⟨nodes', hfits, _⟩ := hstart.exists_fits hC
  exact h.none rfl _ hfits hstart.live

theorem length_le_of_chosen (hC : g.chart.Closed)
    (h : Chosen (Fits g) (·.middle) (·.nodes.length) g.ids (some c)) :
    (∀ m others, Eligible g m others → others.length ≤ c.nodes.length) ∧
      ∃ before after, g.ids = before ++ c.middle :: after ∧
        ∀ m ∈ before, ∀ others, Eligible g m others → others.length < c.nodes.length := by
  refine ⟨fun m others hstart => ?_, ?_⟩
  · obtain ⟨nodes', hfits, hlen⟩ := hstart.exists_fits hC
    exact hlen ▸ h.largest rfl _ hfits hstart.live
  · obtain ⟨before, after, hids, hfirst⟩ := h.first rfl
    refine ⟨before, after, hids, fun m hm others hstart => ?_⟩
    obtain ⟨nodes', hfits, hlen⟩ := hstart.exists_fits hC
    exact hlen ▸ hfirst _ hfits hm

theorem extractStart_of_empty (h : g.ids = []) (ctx : Context) :
    Succeeds (extractStart g) ctx fun r _ => r = none := by
  have hfind : Works (find g) (· = none) := by
    rw [find, h]
    exact .pure rfl
  unfold extractStart
  refine (Succeeds.works hfind ctx).bind ?_
  rintro _ _ ⟨rfl, rfl⟩
  exact .pure rfl

end Start

open Start

/-- **The largest start is replaced by a new entry that leads to its middle.**  The work never fails, and
changes the graph exactly if some start may be carved out.  No start has more nodes than the one that is
carved out, and none with an earlier middle has as many.  Only the middle follows on it.  The new graph
has the other nodes, in the same order, and the new entry, which nothing leads to; its links are in
order. -/
theorem extractStart_largest {g : Graph} (numbered : g.Numbered) (linked : g.checkLinks = .ok ())
    (forked : g.chart.Forked) (ctx : Context) :
    ∃ r ctx', Yields (extractStart g) ctx r ctx' ∧
      ((∃ g', r = some g') ↔ ∃ middle nodes, Eligible g middle nodes) ∧
      ∀ g', r = some g' → ∃ middle nodes, Eligible g middle nodes ∧
        (∀ m others, Eligible g m others → others.length ≤ nodes.length) ∧
        (∃ before after, g.ids = before ++ middle :: after ∧
          ∀ m ∈ before, ∀ others, Eligible g m others → others.length < nodes.length) ∧
        (∀ path id, g.chart.Path g.entry path id → id ∉ nodes → middle ∈ path) ∧
        g'.size = g.size - nodes.length + 1 ∧ g'.checkLinks = .ok () ∧
        g'.entry ∉ g.ids ∧ g'.ids = g.ids.filter (· ∉ nodes) ++ [g'.entry] ∧
        (∃ n, g'.get? g'.entry = some n ∧ n.exit = .seq middle) ∧
        ∀ p, ¬ g'.chart.Targets p g'.entry := by
  by_cases hne : g.nodes = []
  · have hids : g.ids = [] := by rw [ids, hne]; rfl
    obtain ⟨_, ctx', hy, rfl⟩ := extractStart_of_empty hids ctx
    refine ⟨none, ctx', hy, iff_of_false (by simp) ?_, fun g' hg' => by cases hg'⟩
    rintro ⟨middle, nodes, h⟩
    have hlive := h.live
    rw [hids] at hlive
    cases hlive
  have hs := numbered.consistent hne linked
  obtain ⟨r, ctx', hy, _, found, hchosen, hnone, hsome⟩ := extractStart_spec hs forked ctx
  refine ⟨r, ctx', hy, ?_⟩
  cases found with
  | none =>
      have hr := hnone rfl
      subst hr
      refine ⟨iff_of_false (by simp) ?_, fun g' hg' => by cases hg'⟩
      rintro ⟨middle, nodes, h⟩
      exact not_eligible hs.closed hchosen middle nodes h
  | some c =>
      obtain ⟨g', id, b, rfl, hrep, hexit, _⟩ := hsome c rfl
      have hfits := hchosen.sound rfl
      have hentry : g'.entry = id := hrep.entry
      obtain ⟨hlargest, hfirst⟩ := length_le_of_chosen hs.closed hchosen
      refine ⟨iff_of_true ⟨g', rfl⟩ ⟨c.middle, c.nodes, hfits.eligible⟩, fun g'' hg'' => ?_⟩
      cases hg''
      refine ⟨c.middle, c.nodes, hfits.eligible, hlargest, hfirst, fun path id hpath hid => ?_, ?_,
        (hrep.consistent hfits hs.closed hexit).checkLinks, ?_, by rw [hentry, hrep.ids], ?_,
        by rw [hentry]; exact hrep.not_targets hfits hs.closed hexit⟩
      · by_contra hmiddle
        exact hid ((hfits.eligible.mem_iff id).2 ⟨path, hpath, hmiddle⟩)
      · have hsize := hrep.size
        have hbehind := hfits.behind
        omega
      · rw [hentry]
        exact fun hid => hrep.new (live_iff_mem.2 hid) rfl
      · obtain ⟨n, hn, rfl⟩ := get?_of_block? hrep.block
        exact ⟨n, hentry ▸ hn, hexit⟩

def twinWays : Graph :=
  let n (value : Int32) (exit : Exit) : Node := { Node.new [.i32Const value] [] [] with exit }
  recalculateInputs ⟨[(⟨0⟩, n 0 (.branch ⟨1⟩ ⟨2⟩)), (⟨2⟩, n 2 (.seq ⟨4⟩)), (⟨1⟩, n 1 (.seq ⟨3⟩)),
    (⟨4⟩, n 4 .ret), (⟨3⟩, n 3 .ret)], 5, ⟨0⟩⟩

theorem extractStart_largest_twinWays :
    ∃ ctx ctx' g' nodes, Yields (extractStart twinWays) ctx (some g') ctx' ∧ Eligible twinWays ⟨2⟩ nodes ∧
      (∀ m others, Eligible twinWays m others → others.length ≤ nodes.length) ∧
      g'.ids = [⟨2⟩, ⟨4⟩, ⟨5⟩] ∧ g'.checkLinks = .ok () ∧ ∀ p, ¬ g'.chart.Targets p ⟨5⟩ := by
  have hforked : twinWays.chart.Forked := by
    intro id b hb
    obtain ⟨n, hn, rfl⟩ := get?_of_block? hb
    have hnodes : ∀ e ∈ twinWays.nodes, e.2.outputs.Nodup := by decide
    exact hnodes _ (mem_of_lookup hn)
  have hlinked : twinWays.checkLinks = .ok () := by rfl
  obtain ⟨r, ctx', hy, _, hsome⟩ := extractStart_largest ⟨by decide, by decide⟩ hlinked hforked
    (openContext .standard)
  have hrun : comesTo (extractStart twinWays) (openContext .standard)
      (·.any fun g' => g'.ids = [⟨2⟩, ⟨4⟩, ⟨5⟩] ∧ g'.entry = ⟨5⟩ ∧
        (g'.get? ⟨5⟩).map (·.exit) = some (.seq ⟨2⟩)) = true := by
    decide +kernel
  obtain ⟨r', _, hy', hr'⟩ := yields_of_comesTo hrun
  obtain ⟨rfl, rfl⟩ := hy.unique hy'
  cases r with
  | none => cases hr'
  | some g' =>
      obtain ⟨hids, hentry, hexit⟩ := of_decide_eq_true hr'
      obtain ⟨middle, nodes, h, hlargest, _, _, _, hlinks, _, _, ⟨n, hn, hnext⟩, hlast⟩ := hsome g' rfl
      rw [hentry] at hn hlast
      rw [hn, Option.map_some, hnext] at hexit
      cases hexit
      exact ⟨_, ctx', g', nodes, hy, h, hlargest, hids, hlinks, hlast⟩

end Structurer
