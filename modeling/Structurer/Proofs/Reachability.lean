/-
**The search for the nodes within reach is exact.**

Where every edge leads to a node, the search from a node finds the nodes on the paths from there that do
not come through the node to be avoided, each of them once, and the nearer ones first.  Its bound on the
number of nodes to be left is never what ends it.  The nodes that the entry does not reach can then be
taken out, and nothing else changes.
-/

import Structurer.Proofs.Shrinking

namespace Structurer.Graph

open Fallible

variable {g : Graph} {start : NodeId} {avoid : Option NodeId} {reached queue : List NodeId}

theorem walk_add (hL : g.chart.Landing) {fuel : Nat} (h : Walking g start avoid reached queue)
    (hfuel : g.size < fuel + reached.length) (more : Nat) :
    g.walk avoid (fuel + more) reached queue = g.walk avoid fuel reached queue := by
  induction fuel generalizing reached queue with
  | zero =>
    have hlen := h.length_le
    omega
  | succ fuel ih =>
    rw [Nat.add_right_comm]
    cases queue with
    | nil => rfl
    | cons id queue =>
      obtain ⟨b, hb⟩ := h.live id (by simp)
      obtain ⟨n, hnode, hn, _⟩ := works_node hb
      have hrest := ih (h.step hL hn) (by rw [List.length_append, List.length_singleton]; omega)
      show (g.node id >>= _) = (g.node id >>= _)
      rw [hnode]
      exact hrest

theorem removeUnreachable_erases (hL : g.chart.Landing) (hentry : g.chart.Live g.entry) :
    Works g.removeUnreachable fun e => e.2 = e.1.foldl erase g ∧
      ∀ id, id ∈ e.1 ↔ id ∈ g.ids ∧ ¬ ∃ nodes, g.chart.Path g.entry nodes id := by
  refine (reachable_works hL hentry none).bind fun found hfound => .pure ⟨rfl, fun id => ?_⟩
  rw [Chart.exists_path_iff, ← Chart.inReach_none_iff, ← hfound.mem_iff]
  simp

/-- **The search for the nodes within reach is exact.**  It comes to a result whatever its bound, as long
as that exceeds the number of nodes.  The nodes found are those on some path from the start that does not
come through the node to be avoided, and none of them is nearer to the start than one before it.  Without
the nodes out of reach of the entry, a graph keeps its other nodes as they are, in the same order, and
its links stay in order. -/
theorem reachable_exact (landing : g.chart.Landing) (live : start ∈ g.ids) (avoid : Option NodeId) :
    (∃ found, g.reachable start avoid = .ok found ∧
      (∀ fuel, g.size < fuel →
        g.walk avoid fuel [] (if some start = avoid then [] else [start]) = .ok found) ∧
      found.Nodup ∧
      (∀ id, id ∈ found ↔
        ∃ nodes last, g.chart.Path start nodes last ∧ (∀ x ∈ nodes, some x ≠ avoid) ∧ id ∈ nodes) ∧
      (some start = avoid → found = []) ∧
      found.Pairwise fun a b => g.chart.distance avoid start a ≤ g.chart.distance avoid start b) ∧
    (g.entry ∈ g.ids → ∃ gone g', g.removeUnreachable = .ok (gone, g') ∧
      (∀ id, id ∈ gone ↔ id ∈ g.ids ∧ ¬ ∃ nodes, g.chart.Path g.entry nodes id) ∧
      g'.ids = g.ids.filter (· ∉ gone) ∧ g'.entry = g.entry ∧
      (∀ id ∈ g'.ids, g'.chart.block? id = g.chart.block? id) ∧
      (g.Numbered → g.checkLinks = .ok () → g'.checkLinks = .ok ())) := by
  have hlive := live_iff_mem.2 live
  refine ⟨?_, fun hentry => ?_⟩
  · obtain ⟨found, hfound, hreached⟩ := reachable_works landing hlive avoid
    refine ⟨found, hfound, fun fuel hfuel => ?_, hreached.nodup, fun id => ?_, fun hs => ?_,
      hreached.sorted⟩
    · obtain ⟨more, rfl⟩ : ∃ more, fuel = (g.size + 1) + more := ⟨fuel - (g.size + 1), by omega⟩
      rw [walk_add landing (walking_begin hlive) (by simp)]
      exact hfound
    · rw [hreached.mem_iff]
      constructor
      · rintro ⟨nodes, hpath, havoid⟩
        exact ⟨nodes, id, hpath, havoid, hpath.end_mem⟩
      · rintro ⟨nodes, last, hpath, havoid, hid⟩
        exact hpath.inReach havoid hid
    · refine List.eq_nil_iff_forall_not_mem.2 fun id hid => ?_
      exact (hreached.mem_iff.1 hid).start_ne hs
  · obtain ⟨⟨gone, g'⟩, hremove, hg', hgone⟩ := removeUnreachable_erases landing (live_iff_mem.2 hentry)
    dsimp only at hg' hgone
    obtain ⟨hentry', hblocks⟩ := chart_eraseAll g gone
    refine ⟨gone, g', hremove, hgone, by rw [hg', ids_eraseAll], by rw [hg']; exact hentry', ?_, ?_⟩
    · intro id hid
      rw [hg', ids_eraseAll] at hid
      rw [hg', hblocks, if_neg (by simpa using (List.mem_filter.1 hid).2)]
    · intro hnumbered hlinked
      have hs := hnumbered.consistent (by rintro h; simp [ids, h] at hentry) hlinked
      obtain ⟨e, he, htrimmed⟩ := removeUnreachable_works hs.tidy hs.closed
      cases he.symm.trans hremove
      exact htrimmed.toConsistent.checkLinks

def detours : Graph :=
  let n : Node := .new [] [] []
  recalculateInputs ⟨[(⟨6⟩, { n with exit := .seq ⟨5⟩ }), (⟨0⟩, { n with exit := .branch ⟨1⟩ ⟨2⟩ }),
    (⟨5⟩, n), (⟨1⟩, { n with exit := .seq ⟨3⟩ }), (⟨4⟩, { n with exit := .seq ⟨5⟩ }),
    (⟨2⟩, { n with exit := .branch ⟨3⟩ ⟨4⟩ }), (⟨7⟩, { n with exit := .branch ⟨6⟩ ⟨7⟩ }),
    (⟨3⟩, { n with exit := .branch ⟨1⟩ ⟨5⟩ })], 8, ⟨0⟩⟩

theorem reachable_exact_detours :
    detours.reachable ⟨0⟩ (some ⟨3⟩) = .ok [⟨0⟩, ⟨1⟩, ⟨2⟩, ⟨4⟩, ⟨5⟩] ∧
      (∀ id, id ∈ ([⟨0⟩, ⟨1⟩, ⟨2⟩, ⟨4⟩, ⟨5⟩] : List NodeId) ↔ ∃ nodes last,
        detours.chart.Path ⟨0⟩ nodes last ∧ (∀ x ∈ nodes, some x ≠ some ⟨3⟩) ∧ id ∈ nodes) ∧
      detours.chart.distance (some ⟨3⟩) ⟨0⟩ ⟨4⟩ ≤ detours.chart.distance (some ⟨3⟩) ⟨0⟩ ⟨5⟩ ∧
      ∃ g', detours.removeUnreachable = .ok ([⟨6⟩, ⟨7⟩], g') ∧
        g'.ids = [⟨0⟩, ⟨5⟩, ⟨1⟩, ⟨4⟩, ⟨2⟩, ⟨3⟩] ∧ g'.checkLinks = .ok () := by
  have hfound : detours.reachable ⟨0⟩ (some ⟨3⟩) = .ok [⟨0⟩, ⟨1⟩, ⟨2⟩, ⟨4⟩, ⟨5⟩] := by
    rw [← toOption_eq_some_iff]
    decide +kernel
  have hgone : detours.removeUnreachable.toOption.map (·.1) = some [⟨6⟩, ⟨7⟩] := by decide +kernel
  have hlinked : detours.checkLinks = .ok () := by rfl
  obtain ⟨⟨found, hsearch, _, _, hmem, _, hsorted⟩, hremoved⟩ :=
    reachable_exact (landing_of_nodes (by decide)) (by decide : ⟨0⟩ ∈ detours.ids) (some ⟨3⟩)
  cases hfound.symm.trans hsearch
  obtain ⟨gone, g', hremove, _, hids, _, _, hlinks⟩ := hremoved (by decide)
  rw [hremove] at hgone
  cases hgone
  refine ⟨hfound, hmem, ?_, g', hremove, ?_, hlinks ⟨by decide, by decide⟩ hlinked⟩
  · simp only [List.pairwise_cons] at hsorted
    exact hsorted.2.2.2.1 ⟨5⟩ (by decide)
  · rw [hids]
    decide

end Structurer.Graph
