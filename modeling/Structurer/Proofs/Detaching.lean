/-
**Moving a region out of a graph.**

A region is split off a graph without loss: its nodes come under their positions in the region, with
their code, their stacks and the edges between them, and the nodes that are left behind do not change at
all.  Where the nodes are no region, nothing happens to the graph, also when it is changed in place: all
conditions are looked at before the first node is taken out.
-/

import Structurer.Proofs.Reachability
import Structurer.Proofs.Region

namespace Structurer.Graph

open Fallible List

variable {g part rest : Graph} {region gone : List NodeId} {entry id : NodeId}

/-! ### In place -/

def take (id : NodeId) : StateT Graph (Except Fault) Node := fun g => g.removeNode id

def detach (region : List NodeId) (entry : NodeId) :
    StateT Graph (Except Fault) (Except SplitError Graph) := do
  if region.contains entry then
    match (← get).crossing? region with
    | some e => return .error e
    | none => return .ok (← ofRegion region (← region.mapM take) entry)
  else return .error (.entryOutside entry)

theorem run_mapM_take : (region.mapM take).run g = g.removeNodes region := by
  induction region generalizing g with
  | nil => rfl
  | cons id region ih =>
    rw [mapM_cons, StateT.run_bind, removeNodes]
    refine congrArg (g.removeNode id >>= ·) (funext fun e => ?_)
    rw [StateT.run_bind, ih]
    rfl

theorem run_detach (g : Graph) (region : List NodeId) (entry : NodeId) :
    (detach region entry).run g = (g.splitOff region entry).map fun r =>
      (r.map (·.1), (r.toOption.map (·.2)).getD g) := by
  unfold detach splitOff
  split
  next =>
    rw [StateT.run_bind, StateT.run_get, pure_bind]
    cases g.crossing? region with
    | some e => rfl
    | none =>
      dsimp only
      rw [StateT.run_bind, run_mapM_take]
      cases g.removeNodes region with
      | error e => rfl
      | ok e =>
        simp only [ok_bind, StateT.run_bind]
        cases ofRegion region e.1 entry with
        | error | ok => rfl
  next => rfl

/-! ### What is left behind -/

theorem get?_eraseAll (h : ∀ a ∈ gone, a ≠ id ∧ ¬ g.chart.Targets a id) :
    (gone.foldl Graph.erase g).get? id = g.get? id := by
  induction gone generalizing g with
  | nil => rfl
  | cons a gone ih =>
    obtain ⟨hne, hnot⟩ := h a (.head _)
    rw [foldl_cons, ih, get?_erase_of_ne hne.symm hnot]
    intro c hc
    rw [chart_erase, Chart.targets_erase]
    obtain ⟨hne, hnot⟩ := h c (.tail _ hc)
    exact ⟨hne, fun ht => hnot ht.2⟩

theorem Parted.get?_rest (h : Parted g region entry part rest) (hid : id ∉ region) :
    rest.get? id = g.get? id := by
  rw [h.rest_eq]
  refine get?_eraseAll fun a ha => ⟨?_, fun ht => hid ((h.apart a id ht).1 ha)⟩
  rintro rfl
  exact hid ha

theorem Parted.consistent (h : Parted g region entry part rest) : part.Consistent := by
  have hlive : ∀ id ∈ region, part.chart.Live (renamed region id) := by
    intro id hid
    obtain ⟨b, hb⟩ := h.live id hid
    exact ⟨_, by rw [h.part_block id hid, hb]; rfl⟩
  refine ⟨h.part_tidy, ?_, fun p id ht => ?_⟩
  · rw [chart_entry, h.part_entry]
    exact hlive entry h.entry_mem
  · obtain ⟨_, _, new, hnew, _, _, rfl⟩ := h.exists_targets ht
    exact hlive new hnew

theorem Parted.node_at (h : Parted g region entry part rest) {i : Nat} (hi : i < region.length) :
    ∃ old new, g.get? region[i] = some old ∧ part.get? ⟨i⟩ = some new ∧ new.index = i ∧
      new.block = old.block.withExit (old.exit.map (renamed region)) := by
  have hmem : region[i] ∈ region := getElem_mem hi
  obtain ⟨b, hb⟩ := h.live _ hmem
  obtain ⟨old, hold, rfl⟩ := get?_of_block? hb
  have hpart := h.part_block _ hmem
  rw [hb, renamed, h.nodup.idxOf_getElem] at hpart
  obtain ⟨new, hnew, hblock⟩ := get?_of_block? hpart
  exact ⟨old, new, hold, hnew, h.part_index hnew, hblock⟩

theorem Tidy.splitOff_cases (hg : g.Tidy) (hnd : region.Nodup) (hlive : region ⊆ g.ids) (entry : NodeId) :
    ((∃ e, g.splitOff region entry = .ok (.error e)) ∧
      (entry ∉ region ∨ ∃ p id, g.chart.Targets p id ∧ ¬ (p ∈ region ↔ id ∈ region))) ∨
    ∃ part rest, g.splitOff region entry = .ok (.ok (part, rest)) ∧ Parted g region entry part rest := by
  by_cases hentry : entry ∈ region
  · cases hcross : g.crossing? region with
    | some e =>
      refine .inl ⟨⟨e, by rw [splitOff, if_pos (by simpa using hentry), hcross]⟩, .inr ?_⟩
      by_contra hnone
      have hapart : ∀ p id, g.chart.Targets p id → (p ∈ region ↔ id ∈ region) := by
        intro p id ht
        by_contra hne
        exact hnone ⟨p, id, ht, hne⟩
      rw [(crossing?_eq_none_iff hg.nodup).2 hapart] at hcross
      cases hcross
    | none =>
      obtain ⟨r, hr, part, rest, rfl, hparted⟩ := hg.splitOff_works hentry hnd
        (fun id hid => live_iff_mem.2 (hlive hid)) ((crossing?_eq_none_iff hg.nodup).1 hcross)
      exact .inr ⟨part, rest, hr, hparted⟩
  · exact .inl ⟨⟨.entryOutside entry, by rw [splitOff, if_neg (by simpa using hentry)]⟩, .inl hentry⟩

/-- **A region moves out without loss, or nothing changes.**  The only obstacles are an entry outside and
an edge with one end inside and one outside.  If there is one, the graph in place ends as it was.
Otherwise the `i`-th node of the region becomes node `i` of a graph of its own, with the same code and
stacks and its edges renamed.  The links of that graph are in order, and a node that is left behind is the
same node as before. -/
theorem detach_moves_region (numbered : g.Numbered) (linked : g.checkLinks = .ok ())
    (nodup : region.Nodup) (live : region ⊆ g.ids) (entry : NodeId) :
    ((∃ e, g.splitOff region entry = .ok (.error e)) ↔
      entry ∉ region ∨ ∃ p id, g.chart.Targets p id ∧ ¬ (p ∈ region ↔ id ∈ region)) ∧
    (∀ e, g.splitOff region entry = .ok (.error e) → (detach region entry).run g = .ok (.error e, g)) ∧
    ((¬ ∃ e, g.splitOff region entry = .ok (.error e)) →
      ∃ part rest, g.splitOff region entry = .ok (.ok (part, rest)) ∧
        (detach region entry).run g = .ok (.ok part, rest) ∧
        part.ids = (List.range region.length).map NodeId.mk ∧ part.entry = renamed region entry ∧
        (∀ i (_ : i < region.length), ∃ old new, g.get? region[i] = some old ∧ part.get? ⟨i⟩ = some new ∧
          new.body = old.body ∧ new.inputStack = old.inputStack ∧ new.outputStack = old.outputStack ∧
          new.exit = old.exit.map (renamed region) ∧ new.index = i) ∧
        part.checkLinks = .ok () ∧
        rest.ids = g.ids.filter (· ∉ region) ∧ rest.entry = g.entry ∧
        ∀ id ∈ rest.ids, rest.get? id = g.get? id) := by
  have htidy := numbered.tidy (checkLinks_eq_ok_iff.1 linked)
  refine ⟨?_, fun e he => by rw [run_detach, he]; rfl, fun hnone => ?_⟩
  · rcases htidy.splitOff_cases nodup live entry with ⟨herror, hobstacle⟩ | ⟨part, rest, hsplit, hparted⟩
    · exact iff_of_true herror hobstacle
    · refine iff_of_false ?_ ?_
      · rintro ⟨e, he⟩
        cases hsplit.symm.trans he
      · rintro (hentry | ⟨p, id, ht, hcross⟩)
        · exact hentry hparted.entry_mem
        · exact hcross (hparted.apart p id ht)
  · obtain ⟨part, rest, hsplit, hparted⟩ :=
      (htidy.splitOff_cases nodup live entry).resolve_left fun herror => hnone herror.1
    refine ⟨part, rest, hsplit, by rw [run_detach, hsplit]; rfl, hparted.part_ids, hparted.part_entry,
      fun i hi => ?_, hparted.consistent.checkLinks, hparted.rest_ids, hparted.rest_entry, fun id hid => ?_⟩
    · obtain ⟨old, new, hold, hnew, hindex, hblock⟩ := hparted.node_at hi
      have hbody := congrArg Block.body hblock
      have hinput := congrArg Block.inputStack hblock
      have houtput := congrArg Block.outputStack hblock
      have hexit := congrArg Block.exit hblock
      exact ⟨old, new, hold, hnew, hbody, hinput, houtput, hexit, hindex⟩
    · rw [hparted.rest_ids] at hid
      exact hparted.get?_rest (by simpa using (List.mem_filter.1 hid).2)

def islands : Graph :=
  let n (value : Int32) (exit : Exit) : Node := { Node.new [.i32Const value] [] [] with exit }
  recalculateInputs ⟨[(⟨0⟩, n 0 (.branch ⟨1⟩ ⟨0⟩)), (⟨4⟩, n 4 (.branch ⟨2⟩ ⟨5⟩)),
    (⟨1⟩, n 1 (.branch ⟨0⟩ ⟨3⟩)), (⟨2⟩, n 2 (.seq ⟨4⟩)), (⟨3⟩, n 3 .ret), (⟨5⟩, n 5 .ret)], 6, ⟨0⟩⟩

theorem detach_moves_region_islands :
    (∃ part rest, (detach [⟨4⟩, ⟨5⟩, ⟨2⟩] ⟨2⟩).run islands = .ok (.ok part, rest) ∧
      part.ids = [⟨0⟩, ⟨1⟩, ⟨2⟩] ∧ part.entry = ⟨2⟩ ∧ part.checkLinks = .ok () ∧
      (∃ old new, islands.get? ⟨4⟩ = some old ∧ part.get? ⟨0⟩ = some new ∧ new.body = old.body ∧
        new.exit = .branch ⟨2⟩ ⟨1⟩) ∧
      rest.ids = [⟨0⟩, ⟨1⟩, ⟨3⟩] ∧ rest.get? ⟨0⟩ = islands.get? ⟨0⟩) ∧
    ∃ e, (detach [⟨4⟩, ⟨2⟩] ⟨2⟩).run islands = .ok (.error e, islands) := by
  have hnumbered : islands.Numbered := ⟨by decide, by decide⟩
  have hlinked : islands.checkLinks = .ok () := by rfl
  have hapart : islands.crossing? [⟨4⟩, ⟨5⟩, ⟨2⟩] = none := by decide
  have hcross : islands.crossing? [⟨4⟩, ⟨2⟩] = some (.crossing ⟨4⟩ ⟨5⟩) := by decide
  have hnodup : [⟨4⟩, ⟨5⟩, (⟨2⟩ : NodeId)].Nodup := by decide
  constructor
  · obtain ⟨part, rest, _, hrun, hids, hentry, hnodes, hlinks, hrest, _, hkept⟩ :=
      (detach_moves_region hnumbered hlinked hnodup (by decide) ⟨2⟩).2.2 (by
        rw [splitOff, if_pos (by decide), hapart]
        rintro ⟨e, he⟩
        obtain ⟨_, _, he⟩ := bind_eq_ok_iff.1 he
        obtain ⟨_, _, he⟩ := bind_eq_ok_iff.1 he
        cases he)
    obtain ⟨old, new, hold, hnew, hbody, _, _, hexit, _⟩ := hnodes 0 (by decide)
    have hids' : rest.ids = [⟨0⟩, ⟨1⟩, ⟨3⟩] := hrest.trans (by decide)
    refine ⟨part, rest, hrun, hids.trans (by decide), hentry.trans (by decide), hlinks,
      ⟨old, new, hold, hnew, hbody, ?_⟩, hids', hkept ⟨0⟩ (by rw [hids']; decide)⟩
    rw [hexit, ← Option.some.inj hold]
    rfl
  · refine ⟨_, (detach_moves_region hnumbered hlinked (by decide) (by decide) ⟨2⟩).2.1
      (.crossing ⟨4⟩ ⟨5⟩) ?_⟩
    rw [splitOff, if_pos (by decide), hcross]

end Structurer.Graph
