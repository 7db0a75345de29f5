/-
**Separators dominate their fronts.**

A separator is looked for by its front alone: what it reaches must not hold the entry and must be entered
only through it.  Where the entry reaches every node, this is the same as to say that every path from the
entry into the front comes through the separator.  The search finds a separator whenever there is one, and
one whose two sides are as balanced as they can be.
-/

import Structurer.Proofs.Shrinking
import Structurer.Proofs.Split

namespace Structurer.Split

open Fallible Structurer.Graph List

variable {g : Graph} {c : Candidate} {s : NodeId} {front : List NodeId}

/-- A node other than the entry that leads on to at least one more node, none of which is the entry, and
that every path from the entry to one of them comes through. -/
structure Separates (g : Graph) (s : NodeId) (front : List NodeId) : Prop where
  live : s ∈ g.ids
  ne_entry : s ≠ g.entry
  goes_on : ∀ n, g.get? s = some n → n.exit ≠ .ret
  nodup : front.Nodup
  mem_iff : ∀ id, id ∈ front ↔ ∃ nodes, g.chart.Path s nodes id
  apart : g.entry ∉ front
  dominates : ∀ id ∈ front, ∀ nodes, g.chart.Path g.entry nodes id → s ∈ nodes
  two : 2 ≤ front.length

theorem Fits.mem_path (h : Fits g c) {id : NodeId} {nodes : List NodeId}
    (hpath : g.chart.Path g.entry nodes id) (hid : id ∈ c.front) : c.separator ∈ nodes := by
  induction hpath with
  | here => exact absurd hid h.apart
  | @step nodes p id _ ht ih =>
    by_cases hsep : id = c.separator
    · exact mem_append_right _ (mem_singleton.2 hsep.symm)
    · exact mem_append_left _ (ih (h.closed hid hsep ht))

theorem Fits.separates (h : Fits g c) : Separates g c.separator c.front where
  live := live_iff_mem.1 h.live
  ne_entry := h.separator_ne
  goes_on := by
    intro n hn hret
    obtain ⟨id, ht⟩ := h.exists_targets
    rw [targets_iff_of_get? hn, hret] at ht
    cases ht
  nodup := h.reached.nodup
  mem_iff id := by rw [h.reached.mem_iff, Chart.inReach_none_iff, Chart.exists_path_iff]
  apart := h.apart
  dominates id hid nodes hpath := h.mem_path hpath hid
  two := h.two

theorem Separates.closed (h : Separates g s front)
    (hreach : ∀ id ∈ g.ids, ∃ nodes, g.chart.Path g.entry nodes id) {p id : NodeId} (hid : id ∈ front)
    (hne : id ≠ s) (ht : g.chart.Targets p id) : p ∈ front := by
  have hp : p ∈ g.ids := by
    obtain ⟨b, hb, _⟩ := ht
    exact live_iff_mem.1 ⟨b, hb⟩
  obtain ⟨nodes, hpath⟩ := hreach p hp
  have hmem : s ∈ nodes := by
    rcases mem_append.1 (h.dominates id hid _ (hpath.step ht)) with hmem | hmem
    · exact hmem
    · exact absurd (mem_singleton.1 hmem).symm hne
  exact (h.mem_iff p).2 (Chart.exists_path_iff.2 (hpath.onward hmem))

theorem Separates.exists_fits (h : Separates g s front) (hC : g.chart.Closed)
    (hreach : ∀ id ∈ g.ids, ∃ nodes, g.chart.Path g.entry nodes id) :
    ∃ front', Fits g ⟨s, front'⟩ ∧ front'.length = front.length := by
  have hlive := live_iff_mem.2 h.live
  obtain ⟨front', _, hfront'⟩ := reachable_works hC.landing hlive none
  have hperm : front'.Perm front := hfront'.perm h.nodup fun {id} => by
    rw [h.mem_iff, Chart.inReach_none_iff, Chart.exists_path_iff]
  refine ⟨front', ⟨hlive, hfront', hperm.length_eq ▸ h.two, mt hperm.mem_iff.1 h.apart, ?_⟩,
    hperm.length_eq⟩
  intro p id hid hne ht
  exact hperm.mem_iff.2 (h.closed hreach (hperm.mem_iff.1 hid) hne ht)

/-- **The search finds the most balanced separator, if there is one.**  It never fails.  What it finds
dominates its front: every path from the entry to a node of the front comes through the separator, and no
path leads out of the front again.  Both sides are smaller than the graph, also with one more node for
the way out of the back. -/
theorem find_separates (numbered : g.Numbered) (linked : g.checkLinks = .ok ())
    (reachable : ∀ id ∈ g.ids, ∃ nodes, g.chart.Path g.entry nodes id) :
    ∃ r, find g = .ok r ∧
      (∀ c, r = some c → Separates g c.separator c.front ∧
        (∀ id ∈ c.front, ∀ nodes last, g.chart.Path id nodes last → nodes ⊆ c.front) ∧
        c.front.length < g.size ∧ g.size - c.front.length + 1 < g.size ∧
        ∀ s front, Separates g s front →
          min front.length (g.size - front.length) ≤ min c.front.length (g.size - c.front.length)) ∧
      (r = none → ∀ s front, ¬ Separates g s front) := by
  by_cases hne : g.nodes = []
  · -- there is nothing to be looked at
    have hids : g.ids = [] := by rw [ids, hne]; rfl
    refine ⟨none, by rw [find, hids]; rfl, fun c hc => ?_, fun _ s front h => ?_⟩
    · cases hc
    · have hlive := h.live
      rw [hids] at hlive
      cases hlive
  have hs := numbered.consistent hne linked
  obtain ⟨r, hfind, hchosen⟩ := find_works hs.tidy hs.closed
  refine ⟨r, hfind, fun c hc => ?_, fun hnone s front h => ?_⟩
  · have hfits := hchosen.sound hc
    have hlt := hfits.length_lt hs.closed
    have htwo := hfits.two
    refine ⟨hfits.separates, fun id hid nodes last hpath x hx => ?_, hlt, by omega, fun s front h => ?_⟩
    · obtain ⟨nodes', hpath', _⟩ := hpath.upTo hx
      rw [hfits.separates.mem_iff, Chart.exists_path_iff] at hid ⊢
      exact hid.trans (Chart.exists_path_iff.1 ⟨nodes', hpath'⟩)
    · obtain ⟨front', hfits', hlen⟩ := h.exists_fits hs.closed reachable
      have hle := hchosen.largest hc _ hfits' h.live
      rwa [Candidate.balance, Candidate.balance, hlen] at hle
  · obtain ⟨front', hfits', _⟩ := h.exists_fits hs.closed reachable
    exact hchosen.none hnone _ hfits' h.live

def chainedLoops : Graph :=
  let n (value : Int32) (exit : Exit) : Node := { Node.new [.i32Const value] [] [] with exit }
  recalculateInputs ⟨[(⟨0⟩, n 0 (.branch ⟨1⟩ ⟨2⟩)), (⟨1⟩, n 1 (.branch ⟨2⟩ ⟨3⟩)),
    (⟨2⟩, n 2 (.branch ⟨1⟩ ⟨3⟩)), (⟨3⟩, n 3 (.branch ⟨4⟩ ⟨5⟩)), (⟨4⟩, n 4 (.branch ⟨5⟩ ⟨6⟩)),
    (⟨5⟩, n 5 (.branch ⟨4⟩ ⟨6⟩)), (⟨6⟩, n 6 .ret)], 7, ⟨0⟩⟩

theorem find_separates_chainedLoops :
    find chainedLoops = .ok (some ⟨⟨3⟩, [⟨3⟩, ⟨4⟩, ⟨5⟩, ⟨6⟩]⟩) ∧
      (∀ nodes, chainedLoops.chart.Path ⟨0⟩ nodes ⟨6⟩ → ⟨3⟩ ∈ nodes) ∧
      ∀ s front, Separates chainedLoops s front → min front.length (7 - front.length) ≤ 3 := by
  have hfind : find chainedLoops = .ok (some ⟨⟨3⟩, [⟨3⟩, ⟨4⟩, ⟨5⟩, ⟨6⟩]⟩) := by
    rw [← toOption_eq_some_iff]
    decide +kernel
  have hlinked : chainedLoops.checkLinks = .ok () := by rfl
  have hreachable : ∀ id ∈ chainedLoops.ids, ∃ nodes, chainedLoops.chart.Path chainedLoops.entry nodes id := by
    have hfound : chainedLoops.reachable chainedLoops.entry none = .ok chainedLoops.ids := by
      rw [← toOption_eq_some_iff]
      decide +kernel
    obtain ⟨found, hsearch, hreached⟩ := reachable_works (landing_of_nodes (by decide))
      (live_iff_mem.2 (by decide) : chainedLoops.chart.Live chainedLoops.entry) none
    cases hfound.symm.trans hsearch
    exact fun id hid => Chart.exists_path_iff.2 (hreached.path id hid)
  obtain ⟨r, hr, hsome, _⟩ := find_separates ⟨by decide, by decide⟩ hlinked hreachable
  cases hfind.symm.trans hr
  obtain ⟨hseparates, _, _, _, hbest⟩ := hsome _ rfl
  exact ⟨hfind, hseparates.dominates ⟨6⟩ (by decide), hbest⟩

end Structurer.Split
