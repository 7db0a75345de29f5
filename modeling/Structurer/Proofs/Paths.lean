/-
**Paths through a chart.**

A path is given by the nodes it comes through, its first and its last one included.  What can be reached
without coming through some node, and how far away it is, is said in terms of such paths.
-/

import Mathlib.Logic.Relation
import Mathlib.Order.Lattice.Nat
import Structurer.Proofs.Chart

namespace Structurer.Chart

open List

open Relation (ReflTransGen)

variable {G : Chart} {avoid : Option NodeId} {start p id x : NodeId} {nodes : List NodeId}

/-! ### Paths -/

/-- The nodes of a path, from the first to the last: each of them leads to the next. -/
inductive Path (G : Chart) (start : NodeId) : List NodeId → NodeId → Prop where
  | here : Path G start [start] start
  | step {nodes : List NodeId} {p id : NodeId} (h : Path G start nodes p) (ht : G.Targets p id) :
      Path G start (nodes ++ [id]) id

theorem Path.start_mem (h : G.Path start nodes id) : start ∈ nodes := by
  induction h with
  | here => exact mem_singleton_self start
  | step _ _ ih => exact mem_append_left _ ih

theorem Path.end_mem (h : G.Path start nodes id) : id ∈ nodes := by
  cases h with
  | here => exact mem_singleton_self start
  | step => exact mem_append_right _ (mem_singleton_self id)

theorem Path.length_pos (h : G.Path start nodes id) : 0 < nodes.length :=
  length_pos_of_mem h.start_mem

theorem Path.upTo (h : G.Path start nodes id) (hx : x ∈ nodes) :
    ∃ nodes', G.Path start nodes' x ∧ nodes' <+: nodes := by
  induction h with
  | here =>
    cases mem_singleton.1 hx
    exact ⟨[start], .here, prefix_rfl⟩
  | @step nodes p id h ht ih =>
    rcases mem_append.1 hx with hx | hx
    · obtain ⟨nodes', hpath, hbegins⟩ := ih hx
      exact ⟨nodes', hpath, hbegins.trans (prefix_append _ _)⟩
    · cases mem_singleton.1 hx
      exact ⟨_, h.step ht, prefix_rfl⟩

theorem Path.onward (h : G.Path start nodes id) (hx : x ∈ nodes) : ReflTransGen G.Targets x id := by
  induction h with
  | here =>
    cases mem_singleton.1 hx
    exact .refl
  | step _ ht ih =>
    rcases mem_append.1 hx with hx | hx
    · exact (ih hx).tail ht
    · cases mem_singleton.1 hx
      exact .refl

theorem exists_path_iff : (∃ nodes, G.Path start nodes id) ↔ ReflTransGen G.Targets start id := by
  constructor
  · rintro ⟨nodes, h⟩
    exact h.onward h.start_mem
  · intro h
    induction h with
    | refl => exact ⟨[start], .here⟩
    | tail _ ht ih =>
      obtain ⟨nodes, hpath⟩ := ih
      exact ⟨_, hpath.step ht⟩

/-! ### Reachability -/

def InReach (G : Chart) (avoid : Option NodeId) (start id : NodeId) : Prop :=
  ∃ nodes, G.Path start nodes id ∧ ∀ x ∈ nodes, some x ≠ avoid

theorem inReach_start (h : some start ≠ avoid) : G.InReach avoid start start :=
  ⟨[start], .here, fun _ hx => mem_singleton.1 hx ▸ h⟩

theorem InReach.start_ne (h : G.InReach avoid start id) : some start ≠ avoid := by
  obtain ⟨nodes, hpath, havoid⟩ := h
  exact havoid start hpath.start_mem

theorem InReach.ne (h : G.InReach avoid start id) : some id ≠ avoid := by
  obtain ⟨nodes, hpath, havoid⟩ := h
  exact havoid id hpath.end_mem

theorem inReach_none_iff : G.InReach none start id ↔ ReflTransGen G.Targets start id := by
  rw [← exists_path_iff]
  exact exists_congr fun nodes => and_iff_left fun x _ => by simp

theorem inReach_some_iff {a : NodeId} :
    G.InReach (some a) start id ↔ ∃ nodes, G.Path start nodes id ∧ a ∉ nodes := by
  refine exists_congr fun nodes => and_congr_right fun _ => ?_
  exact ⟨fun h ha => h a ha rfl, fun h x hx he => h (Option.some.inj he ▸ hx)⟩

theorem InReach.path (h : G.InReach avoid start id) : ReflTransGen G.Targets start id :=
  exists_path_iff.1 (h.imp fun _ hpath => hpath.1)

theorem Path.inReach (h : G.Path start nodes id) (havoid : ∀ x ∈ nodes, some x ≠ avoid)
    (hx : x ∈ nodes) : G.InReach avoid start x := by
  obtain ⟨nodes', hpath, hbegins⟩ := h.upTo hx
  exact ⟨nodes', hpath, fun y hy => havoid y (hbegins.subset hy)⟩

/-! ### Distances -/

/-- The number of edges of a shortest path that does not come through `avoid`. -/
noncomputable def distance (G : Chart) (avoid : Option NodeId) (start id : NodeId) : Nat :=
  sInf {k | ∃ nodes, G.Path start nodes id ∧ (∀ x ∈ nodes, some x ≠ avoid) ∧ nodes.length = k + 1}

theorem Path.distance_lt (h : G.Path start nodes id) (havoid : ∀ x ∈ nodes, some x ≠ avoid) :
    G.distance avoid start id < nodes.length := by
  have hpos := h.length_pos
  have hle : G.distance avoid start id ≤ nodes.length - 1 :=
    Nat.sInf_le ⟨nodes, h, havoid, by omega⟩
  omega

theorem InReach.exists_shortest (h : G.InReach avoid start id) :
    ∃ nodes, G.Path start nodes id ∧ (∀ x ∈ nodes, some x ≠ avoid) ∧
      nodes.length = G.distance avoid start id + 1 := by
  obtain ⟨nodes, hpath, havoid⟩ := h
  have hpos := hpath.length_pos
  have hne : {k | ∃ nodes, G.Path start nodes id ∧ (∀ x ∈ nodes, some x ≠ avoid) ∧
      nodes.length = k + 1}.Nonempty := ⟨nodes.length - 1, nodes, hpath, havoid, by omega⟩
  exact Nat.sInf_mem hne

theorem InReach.step (h : G.InReach avoid start p) (ht : G.Targets p id) (hne : some id ≠ avoid) :
    G.InReach avoid start id ∧ G.distance avoid start id ≤ G.distance avoid start p + 1 := by
  obtain ⟨nodes, hpath, havoid, hlength⟩ := h.exists_shortest
  have havoid' : ∀ x ∈ nodes ++ [id], some x ≠ avoid := by
    intro x hx
    rcases mem_append.1 hx with hx | hx
    · exact havoid x hx
    · exact mem_singleton.1 hx ▸ hne
  have hlt := (hpath.step ht).distance_lt havoid'
  rw [length_append, length_singleton] at hlt
  exact ⟨⟨_, hpath.step ht, havoid'⟩, by omega⟩

theorem InReach.exists_before (h : G.InReach avoid start id) (hne : id ≠ start) :
    ∃ p, G.InReach avoid start p ∧ G.Targets p id ∧
      G.distance avoid start p < G.distance avoid start id := by
  obtain ⟨nodes, hpath, havoid, hlength⟩ := h.exists_shortest
  cases hpath with
  | here => exact absurd rfl hne
  | @step nodes p _ hpath ht =>
    have havoid' : ∀ x ∈ nodes, some x ≠ avoid := fun x hx => havoid x (mem_append_left _ hx)
    have hlt := hpath.distance_lt havoid'
    rw [length_append, length_singleton] at hlength
    exact ⟨p, ⟨nodes, hpath, havoid'⟩, ht, by omega⟩

/-- **What lies outside a set of nodes is farther away than the nodes through which the set can be
left.**  The nodes of `done` lead into the set only, so a path that leaves it does so through one of the
others. -/
theorem InReach.lt_distance (inside done : NodeId → Prop) {d : Nat} (hstart : inside start)
    (hdone : ∀ {p id}, done p → G.Targets p id → some id ≠ avoid → inside id)
    (hothers : ∀ {p}, inside p → ¬ done p → d ≤ G.distance avoid start p)
    (h : G.InReach avoid start id) (hid : ¬ inside id) : d < G.distance avoid start id := by
  -- by induction on the distance: the node before the last is either inside or outside as well
  induction hk : G.distance avoid start id using Nat.strongRecOn generalizing id with
  | ind k ih =>
    subst hk
    have hne : id ≠ start := fun he => hid (he ▸ hstart)
    obtain ⟨p, hp, ht, hlt⟩ := h.exists_before hne
    by_cases hin : inside p
    · have hle := hothers hin fun hd => hid (hdone hd ht h.ne)
      omega
    · have hlt' := ih _ hlt hp hin rfl
      omega

end Structurer.Chart
