/-
**Regions split off.**

A region is moved into a graph of its own, where its nodes are known by their positions in the region.
What is left of the old graph, and what the new one means, is described here by their charts: the
blocks of the region are gone from the one, and the other has them under new identifiers, with the
targets of their edges renamed.
-/

import Structurer.Proofs.Reach

namespace Structurer.Graph

open Fallible List

variable {g part rest : Graph} {region : List NodeId} {entry id : NodeId} {taken : List Node}

theorem renamed_inj {a b : NodeId} (ha : a ∈ region) (h : renamed region a = renamed region b) :
    a = b :=
  (idxOf_inj ha).1 (congrArg NodeId.serial h)

theorem crossing?_eq_none_iff (hg : g.ids.Nodup) : g.crossing? region = none ↔
    ∀ p id, g.chart.Targets p id → (p ∈ region ↔ id ∈ region) := by
  simp only [crossing?, findSome?_eq_none_iff, Option.map_eq_none_iff, find?_eq_none,
    bne_iff_ne, ne_eq, not_not, contains_eq_mem, decide_eq_decide]
  constructor
  · rintro h p id ⟨b, hb, hid⟩
    obtain ⟨n, hn, rfl⟩ := get?_of_block? hb
    exact h (p, n) ((get?_eq_some_iff hg).1 hn) id hid
  · rintro h ⟨p, n⟩ hp id hid
    exact h p id ((targets_iff_of_get? ((get?_eq_some_iff hg).2 hp)).2 hid)

open Classical in
theorem Tidy.isClosed_works (hg : g.Tidy) (hlive : ∀ id ∈ region, g.chart.Live id)
    (apart : Option NodeId) :
    Works (g.isClosed region apart) fun r => r = true ↔
      ∀ id ∈ region, some id ≠ apart → ∀ p, g.chart.Targets p id → p ∈ region := by
  let closed (id : NodeId) : Prop := some id ≠ apart → ∀ p, g.chart.Targets p id → p ∈ region
  refine .of_eq (allM_eq_ok (q := fun id => decide (closed id)) fun id hid => ?_)
    (all_eq_true.trans (forall₂_congr fun _ _ => decide_eq_true_iff))
  obtain ⟨b, hb⟩ := hlive id hid
  obtain ⟨n, hn, _⟩ := get?_of_block? hb
  split
  next hapart => simp [closed, hapart, pure, Except.pure]
  next hapart =>
    have hinputs : ∀ p, p ∈ n.inputs.toList ↔ g.chart.Targets p id := fun p => hg.mem_inputs_iff hn
    rw [node_eq_ok_iff.2 hn, ok_bind]
    refine congrArg Except.ok (Bool.eq_iff_iff.2 ?_)
    rw [all_eq_true, decide_eq_true_iff]
    simp [closed, hapart, hinputs]

/-! ### Nodes taken out -/

theorem Tidy.removeNodes_works (hg : g.Tidy) (hnd : region.Nodup)
    (hlive : ∀ id ∈ region, g.chart.Live id) :
    Works (g.removeNodes region) fun e =>
      e.1.map (fun n => some n.block) = region.map g.chart.block? ∧ e.2 = region.foldl Graph.erase g := by
  induction region generalizing g with
  | nil => exact .pure ⟨rfl, rfl⟩
  | cons a region ih =>
    obtain ⟨ha, hnd⟩ := nodup_cons.1 hnd
    obtain ⟨b, hb⟩ := hlive a (.head _)
    obtain ⟨htidy, hchart, _⟩ := hg.erase a
    have hsame : ∀ id ∈ region, (g.erase a).chart.block? id = g.chart.block? id := by
      intro id hid
      rw [hchart, Chart.erase_of_ne]
      rintro rfl
      exact ha hid
    have hlive' : ∀ id ∈ region, (g.erase a).chart.Live id := by
      intro id hid
      unfold Chart.Live
      rw [hsame id hid]
      exact hlive id (.tail _ hid)
    refine (works_removeNode hb).bind ?_
    rintro ⟨n, g'⟩ ⟨rfl, rfl⟩
    refine (ih htidy hnd hlive').bind ?_
    rintro ⟨ns, g'⟩ ⟨hns, rfl⟩
    refine .pure ⟨?_, rfl⟩
    rw [map_cons, map_cons, hns, hb, map_congr_left hsame]

theorem Tidy.of_removeNodes (hg : g.Tidy) (h : g.removeNodes region = .ok (taken, rest)) :
    region.Nodup ∧ ∀ id ∈ region, g.chart.Live id := by
  induction region generalizing g taken rest with
  | nil => exact ⟨.nil, nofun⟩
  | cons a region ih =>
    obtain ⟨⟨n, g₁⟩, hremove, h⟩ := bind_eq_ok_iff.1 h
    obtain ⟨⟨ns, g₂⟩, hrest, _⟩ := bind_eq_ok_iff.1 h
    cases hm : g.get? a with
    | none => simp [Graph.removeNode, hm] at hremove
    | some m =>
      cases (removeNode_eq_ok hm).symm.trans hremove
      obtain ⟨htidy, hchart, _⟩ := hg.erase a
      obtain ⟨hnd, hlive⟩ := ih htidy hrest
      rw [hchart] at hlive
      simp only [Chart.live_erase] at hlive
      refine ⟨nodup_cons.2 ⟨fun ha => (hlive a ha).1 rfl, hnd⟩, ?_⟩
      intro id hid
      rcases mem_cons.1 hid with rfl | hid
      · exact ⟨n.block, block?_of_get? hm⟩
      · exact (hlive id hid).2

/-! ### The graph of a region -/

theorem ids_regionNodes :
    (regionNodes region taken).map (·.1) = (List.range taken.length).map NodeId.mk := by
  refine ext_getElem (by simp [regionNodes]) fun k h₁ h₂ => ?_
  simp [regionNodes]

theorem nodup_serials (k : Nat) : ((List.range k).map NodeId.mk).Nodup :=
  nodup_range.map fun _ _ h => congrArg NodeId.serial h

theorem regionGraph_tidy (entry : NodeId)
    (htaken : taken.map (fun n => some n.block) = region.map g.chart.block?) :
    (regionGraph region taken entry).Tidy ∧
      (regionGraph region taken entry).ids = (List.range region.length).map NodeId.mk ∧
      ∀ id ∈ region, (regionGraph region taken entry).chart.block? (renamed region id) =
        (g.chart.block? id).map fun b => b.withExit (b.exit.map (renamed region)) := by
  have hlen : taken.length = region.length := by
    have := congrArg List.length htaken
    simpa using this
  obtain ⟨g₀, hg₀⟩ : ∃ g₀ : Graph, g₀ = ⟨regionNodes region taken, taken.length, renamed region entry⟩ :=
    ⟨_, rfl⟩
  have hids : g₀.ids = (List.range region.length).map NodeId.mk := by
    rw [hg₀, ← hlen]
    exact ids_regionNodes
  have hnd₀ : g₀.ids.Nodup := hids ▸ nodup_serials _
  have hissued : ∀ id ∈ g₀.ids, id.serial < g₀.nextSerial := by
    rw [hids, hg₀]
    simp [hlen]
  obtain ⟨htidy, hchart, hids', _⟩ := tidy_recalculateInputs hnd₀ hissued
  obtain ⟨hsame, _⟩ := same_renumber g₀.recalculateInputs
  have heq : regionGraph region taken entry = g₀.recalculateInputs.renumber := by
    rw [hg₀]
    rfl
  rw [heq]
  refine ⟨htidy.renumber, hsame.ids.trans (hids'.trans hids), fun id hid => ?_⟩
  rw [hsame.chart, hchart]
  -- the node at the position of `id` is the one that was taken out under `id`
  have hk : region.idxOf id < taken.length := hlen ▸ idxOf_lt_length_iff.2 hid
  have hn : g.chart.block? id = some (taken[region.idxOf id]).block := by
    have h := congrArg (·[region.idxOf id]?) htaken
    simpa [getElem?_map, getElem?_eq_getElem hk,
      getElem?_eq_getElem (hlen ▸ hk : region.idxOf id < region.length)] using h.symm
  have hget : g₀.get? (renamed region id) =
      some { taken[region.idxOf id] with
        exit := (taken[region.idxOf id]).exit.map (renamed region) } := by
    rw [get?_eq_some_iff hnd₀, hg₀]
    refine mem_iff_getElem.2 ⟨region.idxOf id, by simpa [regionNodes] using hk, ?_⟩
    simp [regionNodes, renamed]
  rw [block?_of_get? hget, hn]
  rfl

theorem index_regionGraph
    (hids : (regionGraph region taken entry).ids = (List.range region.length).map NodeId.mk) {n : Node}
    (h : (regionGraph region taken entry).get? id = some n) : n.index = id.serial := by
  have hindex : n.index = (regionGraph region taken entry).ids.idxOf id := index_renumber h
  have hmem : id ∈ (regionGraph region taken entry).ids := mem_ids_iff.2 ⟨n, h⟩
  rw [hids] at hindex hmem
  obtain ⟨k, hk, hid⟩ := getElem_of_mem hmem
  rw [hindex, ← hid, (nodup_serials region.length).idxOf_getElem k hk]
  simp

/-! ### Graphs in two parts -/

/-- A graph in two parts: a region under new identifiers, and what is left. -/
structure Parted (g : Graph) (region : List NodeId) (entry : NodeId) (part rest : Graph) : Prop where
  nodup : region.Nodup
  live : ∀ id ∈ region, g.chart.Live id
  entry_mem : entry ∈ region
  apart : ∀ p id, g.chart.Targets p id → (p ∈ region ↔ id ∈ region)
  rest_tidy : rest.Tidy
  rest_entry : rest.entry = g.entry
  rest_eq : rest = region.foldl Graph.erase g
  rest_block : ∀ id, rest.chart.block? id = if id ∈ region then none else g.chart.block? id
  part_tidy : part.Tidy
  part_entry : part.entry = renamed region entry
  part_ids : part.ids = (List.range region.length).map NodeId.mk
  part_serial : part.nextSerial = region.length
  part_index : ∀ {id n}, part.get? id = some n → n.index = id.serial
  part_block : ∀ id ∈ region, part.chart.block? (renamed region id) =
    (g.chart.block? id).map fun b => b.withExit (b.exit.map (renamed region))

namespace Parted

theorem exists_renamed (h : Parted g region entry part rest) (hid : part.chart.Live id) :
    ∃ old ∈ region, renamed region old = id := by
  have hmem := live_iff_mem.1 hid
  rw [h.part_ids] at hmem
  obtain ⟨k, hk, rfl⟩ := mem_map.1 hmem
  have hk : k < region.length := mem_range.1 hk
  exact ⟨region[k], getElem_mem hk, by rw [renamed, h.nodup.idxOf_getElem]⟩

theorem exists_targets (h : Parted g region entry part rest) {p : NodeId}
    (ht : part.chart.Targets p id) :
    ∃ old ∈ region, ∃ new ∈ region, g.chart.Targets old new ∧ renamed region old = p ∧
      renamed region new = id := by
  obtain ⟨b, hb, hid⟩ := ht
  obtain ⟨old, hold, rfl⟩ := h.exists_renamed ⟨b, hb⟩
  rw [h.part_block old hold] at hb
  obtain ⟨c, hc, rfl⟩ := Option.map_eq_some_iff.1 hb
  rw [Block.withExit_exit, Exit.outputs_map] at hid
  obtain ⟨new, hnew, rfl⟩ := mem_map.1 hid
  have ht : g.chart.Targets old new := ⟨c, hc, hnew⟩
  exact ⟨old, hold, new, (h.apart old new ht).1 hold, ht, rfl, rfl⟩

end Parted

private theorem parted_of_removeNodes (hg : g.Tidy) (hentry : entry ∈ region)
    (hnd : region.Nodup) (hlive : ∀ id ∈ region, g.chart.Live id)
    (hcross : ∀ p id, g.chart.Targets p id → (p ∈ region ↔ id ∈ region))
    (htaken : taken.map (fun n => some n.block) = region.map g.chart.block?) :
    Parted g region entry (regionGraph region taken entry) (region.foldl Graph.erase g) := by
  obtain ⟨hrestEntry, hblocks⟩ := chart_eraseAll g region
  obtain ⟨hpart, hids, hpartBlocks⟩ := regionGraph_tidy entry htaken
  have hlen : taken.length = region.length := by
    have := congrArg List.length htaken
    simpa using this
  exact ⟨hnd, hlive, hentry, hcross, hg.eraseAll region, hrestEntry, rfl, hblocks, hpart, rfl, hids, hlen,
    index_regionGraph hids, hpartBlocks⟩

/-- **A region that was split off, and what is left.** -/
theorem Tidy.parted (hg : g.Tidy) (h : g.splitOff region entry = .ok (.ok (part, rest))) :
    Parted g region entry part rest := by
  unfold Graph.splitOff at h
  split at h
  next hentry =>
    split at h
    next => cases h
    next hcross =>
      obtain ⟨⟨ns, g'⟩, hremove, h⟩ := bind_eq_ok_iff.1 h
      obtain ⟨hnd, hlive⟩ := hg.of_removeNodes hremove
      obtain ⟨e, he, hns, hrest⟩ := hg.removeNodes_works hnd hlive
      cases he.symm.trans hremove
      obtain ⟨_, hpart, h⟩ := bind_eq_ok_iff.1 h
      cases h
      cases eq_regionGraph hpart
      subst hrest
      exact parted_of_removeNodes hg (by simpa using hentry) hnd hlive
        ((crossing?_eq_none_iff hg.nodup).1 hcross) hns
  next => cases h

theorem Tidy.splitOff_works (hg : g.Tidy) (hentry : entry ∈ region) (hnd : region.Nodup)
    (hlive : ∀ id ∈ region, g.chart.Live id)
    (hcross : ∀ p id, g.chart.Targets p id → (p ∈ region ↔ id ∈ region)) :
    Works (g.splitOff region entry) fun r => ∃ part rest, r = .ok (part, rest) ∧
      Parted g region entry part rest := by
  unfold Graph.splitOff
  rw [if_pos (by simpa using hentry), (crossing?_eq_none_iff hg.nodup).2 hcross]
  refine (hg.removeNodes_works hnd hlive).bind ?_
  rintro ⟨ns, g'⟩ ⟨hns, rfl⟩
  have hinside : ∀ n ∈ ns, ∀ out ∈ n.outputs, out ∈ region := by
    intro n hn out hout
    have hblock : some n.block ∈ region.map g.chart.block? := hns ▸ mem_map_of_mem hn
    obtain ⟨id, hid, hb⟩ := mem_map.1 hblock
    exact (hcross id out ⟨n.block, hb, hout⟩).1 hid
  dsimp only
  rw [ofRegion_eq_ok hentry hinside, ok_bind]
  exact .pure ⟨_, _, rfl, parted_of_removeNodes hg hentry hnd hlive hcross hns⟩

theorem size_eq_length (g : Graph) : g.size = g.ids.length := by
  simp [size, ids]

theorem size_renumber (g : Graph) : g.renumber.size = g.size := by
  rw [size_eq_length, (same_renumber g).1.ids, size_eq_length]

theorem Parted.rest_serial (h : Parted g region entry part rest) : rest.nextSerial = g.nextSerial := by
  rw [h.rest_eq, nextSerial_eraseAll]

theorem Parted.rest_ids (h : Parted g region entry part rest) :
    rest.ids = g.ids.filter (· ∉ region) := by
  rw [h.rest_eq, ids_eraseAll]

theorem Parted.size_add (h : Parted g region entry part rest) (hg : g.Tidy) :
    rest.size + region.length = g.size := by
  have hregion : region.Perm (g.ids.filter (· ∈ region)) := by
    refine (perm_ext_iff_of_nodup h.nodup (hg.nodup.filter _)).2 fun id => ?_
    rw [mem_filter, decide_eq_true_eq]
    exact (and_iff_right_of_imp fun hid => live_iff_mem.1 (h.live id hid)).symm
  have hall := (filter_append_perm (fun id => decide (id ∈ region)) g.ids).length_eq
  rw [length_append, ← hregion.length_eq, ← size_eq_length] at hall
  rw [size_eq_length, h.rest_ids, ← hall, Nat.add_comm]
  simp only [decide_not]

end Structurer.Graph
