/-
**The search for nodes that lead into no cycle is exact.**

While a search goes on, the nodes being looked at are on one trail, each of them leads to those that
were begun after it, and what was judged was judged rightly.  A node is judged once all its
successors were met.  One that is still being looked at leads to the node and is led to from it, so
both of them lead into a cycle; of the others it is known whether they do.
-/

import Structurer.Graph.Ends
import Structurer.Proofs.Acyclic

namespace Structurer.Graph

open Fallible Relation List

variable {g : Graph} {s : Search} {marks : Marks} {trail : List NodeId} {id : NodeId} {n : Node}

/-! ### Judgements -/

theorem Marks.met_of_lookup {m : Option Bool} (h : marks.lookup id = some m) : marks.met id = true := by
  rw [met, h]
  rfl

theorem Marks.isEnd_iff : marks.isEnd id = true ↔ marks.lookup id = some (some true) := beq_iff_eq

theorem Marks.lookup_cons (marks : Marks) (id x : NodeId) (m : Option Bool) :
    List.lookup x ((id, m) :: marks) = if x = id then some m else marks.lookup x := by
  rw [List.lookup_cons]
  by_cases hx : x = id
  · rw [if_pos hx, beq_iff_eq.2 hx]
  · rw [if_neg hx, beq_eq_false_iff_ne.2 hx]

/-- What is known, and the trail of the nodes being looked at, the last one first. -/
structure Tracing (g : Graph) (marks : Marks) (trail : List NodeId) : Prop where
  nodup : trail.Nodup
  live : ∀ id ∈ trail, g.chart.Live id
  unknown : ∀ {id}, marks.lookup id = some none ↔ id ∈ trail
  judged : ∀ {id b}, marks.lookup id = some (some b) → (b = true ↔ ¬ g.chart.Circles id)
  chained : trail.Pairwise fun a b => ReflTransGen g.chart.Targets b a

theorem Tracing.begin (h : Tracing g marks trail) (hid : g.chart.Live id) (hmet : marks.met id = false)
    (hlast : ∀ p ∈ trail.head?, g.chart.Targets p id) :
    Tracing g ((id, none) :: marks) (id :: trail) where
  nodup := by
    refine nodup_cons.2 ⟨fun hmem => ?_, h.nodup⟩
    rw [Marks.met_of_lookup (h.unknown.2 hmem)] at hmet
    cases hmet
  live := forall_mem_cons.2 ⟨hid, h.live⟩
  unknown := by
    intro x
    rw [Marks.lookup_cons, mem_cons]
    by_cases hx : x = id
    · simp [hx]
    · simp [hx, h.unknown]
  judged := by
    intro x b hx
    rw [Marks.lookup_cons] at hx
    split at hx
    · cases hx
    · exact h.judged hx
  chained := by
    refine pairwise_cons.2 ⟨fun p hp => ?_, h.chained⟩
    -- every node on the trail leads to the last one
    cases trail with
    | nil => cases hp
    | cons last trail =>
      have hedge := hlast last rfl
      rcases mem_cons.1 hp with rfl | hp
      · exact .single hedge
      · exact .tail ((pairwise_cons.1 h.chained).1 p hp) hedge

theorem Tracing.isEnd_iff (h : Tracing g marks (id :: trail)) {out : NodeId}
    (hout : g.chart.Targets id out) (hmet : marks.met out = true) :
    marks.isEnd out = true ↔ ¬ g.chart.Circles out := by
  obtain ⟨m, hm⟩ := Option.isSome_iff_exists.1 hmet
  rw [Marks.isEnd_iff, hm]
  cases m with
  | some b => simpa using h.judged hm
  | none =>
    have hback : ReflTransGen g.chart.Targets out id := by
      rcases mem_cons.1 (h.unknown.1 hm) with rfl | hmem
      · exact .refl
      · exact (pairwise_cons.1 h.chained).1 out hmem
    have hcircles : g.chart.Circles out := .of_cycle (TransGen.tail' hback hout)
    simp [hcircles]

theorem Tracing.judge (h : Tracing g marks (id :: trail)) (hn : g.get? id = some n)
    (hmet : ∀ out, g.chart.Targets id out → marks.met out = true) :
    Tracing g ((id, some (n.outputs.all marks.isEnd)) :: marks) trail where
  nodup := (nodup_cons.1 h.nodup).2
  live := (forall_mem_cons.1 h.live).2
  unknown := by
    intro x
    rw [Marks.lookup_cons]
    by_cases hx : x = id
    · subst hx
      simp [(nodup_cons.1 h.nodup).1]
    · rw [if_neg hx, h.unknown, mem_cons, or_iff_right hx]
  judged := by
    intro x b hb
    rw [Marks.lookup_cons] at hb
    split at hb
    next hx =>
      subst hx
      cases hb
      rw [all_eq_true, Chart.circles_iff, not_exists]
      refine forall_congr' fun out => ?_
      rw [not_and, targets_iff_of_get? hn]
      refine imp_congr_right fun hout => ?_
      have ht := (targets_iff_of_get? hn).2 hout
      exact h.isEnd_iff ht (hmet out ht)
    next => exact h.judged hb
  chained := (pairwise_cons.1 h.chained).2

/-! ### Searches -/

def Awaits (g : Graph) (met : NodeId → Prop) (e : NodeId × List NodeId) : Prop :=
  (∀ out ∈ e.2, g.chart.Targets e.1 out) ∧ ∀ out, g.chart.Targets e.1 out → out ∈ e.2 ∨ met out

theorem Awaits.mono {met met' : NodeId → Prop} {e : NodeId × List NodeId} (h : Awaits g met e)
    (hmet : ∀ out, met out → met' out) : Awaits g met' e :=
  ⟨h.1, fun out ht => (h.2 out ht).imp_right (hmet out)⟩

/-- What holds during a search. -/
structure Searching (g : Graph) (s : Search) : Prop where
  tracing : Tracing g s.marks (s.path.map (·.1))
  awaited : ∀ e ∈ s.path, Awaits g (fun out => s.marks.met out = true) e

theorem enter_works (hid : g.chart.Live id) (h : Tracing g s.marks (s.path.map (·.1)))
    (hmet : s.marks.met id = false) (hlast : ∀ e ∈ s.path.head?, g.chart.Targets e.1 id)
    (hawait : ∀ e ∈ s.path, Awaits g (fun out => out = id ∨ s.marks.met out = true) e) :
    Works (g.enter s id) fun s' => Searching g s' ∧
      ∀ x, x = id ∨ s.marks.met x = true → s'.marks.met x = true := by
  obtain ⟨n, hn⟩ := mem_ids_iff.1 (live_iff_mem.1 hid)
  have hgrows : ∀ x, x = id ∨ s.marks.met x = true → Marks.met ((id, none) :: s.marks) x = true := by
    intro x hx
    rw [Marks.met_cons, Bool.or_eq_true, beq_iff_eq]
    exact hx
  refine .of_eq (a := ⟨(id, none) :: s.marks, (id, n.outputs.reverse) :: s.path⟩) ?_
    ⟨⟨h.begin hid hmet ?_, ?_⟩, hgrows⟩
  · rw [enter, node_eq_ok_iff.2 hn]
    rfl
  · intro p hp
    rw [head?_map] at hp
    obtain ⟨e, he, rfl⟩ := Option.map_eq_some_iff.1 hp
    exact hlast e he
  · intro e he
    rcases mem_cons.1 he with rfl | he
    · have hout : ∀ out, out ∈ n.outputs.reverse ↔ g.chart.Targets id out := by
        intro out
        rw [mem_reverse, targets_iff_of_get? hn]
        rfl
      exact ⟨fun out => (hout out).1, fun out ht => .inl ((hout out).2 ht)⟩
    · exact (hawait e he).mono hgrows

theorem Searching.step (hL : g.chart.Landing) (h : Searching g s) :
    Works (g.step s) fun s' => Searching g s' ∧ ∀ x, s.marks.met x = true → s'.marks.met x = true := by
  obtain ⟨marks, path⟩ := s
  cases path with
  | nil => exact .of_eq rfl ⟨h, fun _ hx => hx⟩
  | cons e path =>
    obtain ⟨id, rest⟩ := e
    obtain ⟨htracing, hawait⟩ := h
    obtain ⟨⟨houts, hwait⟩, hawait⟩ := forall_mem_cons.1 hawait
    cases rest with
    | cons out rest =>
      have hedge : g.chart.Targets id out := houts out (.head _)
      have hrest : Awaits g (fun x => x = out ∨ marks.met x = true) (id, rest) := by
        refine ⟨fun x hx => houts x (.tail _ hx), fun x hx => ?_⟩
        rcases hwait x hx with hmem | hmet
        · exact (mem_cons.1 hmem).symm.imp_right .inl
        · exact .inr (.inr hmet)
      show Works (if marks.met out = true then .ok ⟨marks, (id, rest) :: path⟩
        else g.enter ⟨marks, (id, rest) :: path⟩ out) _
      split
      next hmet =>
        refine .of_eq rfl ⟨⟨htracing, forall_mem_cons.2 ⟨?_, hawait⟩⟩, fun _ hx => hx⟩
        exact hrest.mono fun x hx => hx.elim (fun he => he ▸ hmet) fun hx => hx
      next hmet =>
        refine (enter_works (s := ⟨marks, (id, rest) :: path⟩) (hL hedge) htracing
          (by simpa using hmet) ?_ ?_).mono ?_
        · rintro e ⟨⟩
          exact hedge
        · exact forall_mem_cons.2 ⟨hrest, fun e he => (hawait e he).mono fun _ => .inr⟩
        · rintro s' ⟨hs', hgrows⟩
          exact ⟨hs', fun x hx => hgrows x (.inr hx)⟩
    | nil =>
      obtain ⟨n, hn⟩ := mem_ids_iff.1 (live_iff_mem.1 (htracing.live id (.head _)))
      have hmet : ∀ out, g.chart.Targets id out → marks.met out = true := fun out ht =>
        (hwait out ht).resolve_left not_mem_nil
      have hgrows : ∀ x, marks.met x = true →
          Marks.met ((id, some (n.outputs.all marks.isEnd)) :: marks) x = true := by
        intro x hx
        rw [Marks.met_cons, hx, Bool.or_true]
      refine .of_eq (a := ⟨(id, some (n.outputs.all marks.isEnd)) :: marks, path⟩) ?_
        ⟨⟨htracing.judge hn hmet, fun e he => (hawait e he).mono hgrows⟩, hgrows⟩
      show (g.node id >>= fun n => Pure.pure (⟨(id, some (n.outputs.all marks.isEnd)) :: marks, path⟩ :
        Search)) = _
      rw [node_eq_ok_iff.2 hn]
      rfl

theorem Searching.run (hL : g.chart.Landing) (h : Searching g s) :
    Works (g.search s) fun marks => Tracing g marks [] ∧ ∀ x, s.marks.met x = true → marks.met x = true := by
  induction hr : s.remaining g using Nat.strongRecOn generalizing s with
  | ind r ih =>
    rw [search_eq]
    split
    next hpath =>
      refine .of_eq rfl ⟨?_, fun _ hx => hx⟩
      have := h.tracing
      rwa [hpath] at this
    next hpath =>
      obtain ⟨s', hs', h', hgrows⟩ := h.step hL
      rw [hs', ok_bind]
      refine (ih _ (hr ▸ step_remaining hpath hs') h' rfl).mono ?_
      rintro marks ⟨hmarks, hgrows'⟩
      exact ⟨hmarks, fun x hx => hgrows' x (hgrows x hx)⟩

theorem searchFrom_works (hL : g.chart.Landing) (h : Tracing g marks []) (hid : g.chart.Live id) :
    Works (g.searchFrom marks id) fun marks' => Tracing g marks' [] ∧
      ∀ x, x = id ∨ marks.met x = true → marks'.met x = true := by
  unfold searchFrom
  split
  next hmet => exact .pure ⟨h, fun x hx => hx.elim (fun he => he ▸ hmet) fun hx => hx⟩
  next hmet =>
    refine (enter_works (s := ⟨marks, []⟩) hid h (by simpa using hmet) nofun nofun).bind ?_
    rintro s ⟨hs, hgrows⟩
    refine (hs.run hL).mono ?_
    rintro marks' ⟨hmarks', hgrows'⟩
    exact ⟨hmarks', fun x hx => hgrows' x (hgrows x hx)⟩

/-! ### The nodes found -/

theorem searches_work (hL : g.chart.Landing) :
    Works (g.ids.foldlM g.searchFrom []) fun marks => Tracing g marks [] ∧
      ∀ id ∈ g.ids, marks.met id = true := by
  refine Works.foldlM (I := fun done marks => Tracing g marks [] ∧ ∀ id ∈ done, marks.met id = true) ?_
    ⟨⟨nodup_nil, nofun, ?_, nofun, .nil⟩, nofun⟩
  · rintro done id rest marks hids ⟨hmarks, hdone⟩
    have hlive : g.chart.Live id := by
      rw [live_iff_mem, hids]
      simp
    refine (searchFrom_works hL hmarks hlive).mono ?_
    rintro marks' ⟨hmarks', hgrows⟩
    refine ⟨hmarks', fun x hx => hgrows x ?_⟩
    rcases mem_append.1 hx with hx | hx
    · exact .inr (hdone x hx)
    · exact .inl (mem_singleton.1 hx)
  · intro id
    exact ⟨nofun, nofun⟩

theorem mem_ends (hL : g.chart.Landing) :
    Works g.ends fun found => found.Sublist g.ids ∧
      ∀ id, id ∈ found ↔ id ∈ g.ids ∧ ¬ g.chart.Circles id := by
  refine (searches_work hL).bind ?_
  rintro marks ⟨hmarks, hmet⟩
  refine .pure ⟨filter_sublist, fun id => ?_⟩
  rw [mem_filter]
  refine and_congr_right fun hid => ?_
  obtain ⟨m, hm⟩ := Option.isSome_iff_exists.1 (hmet id hid)
  rw [Marks.isEnd_iff, hm]
  cases m with
  | none => exact absurd (hmarks.unknown.1 hm) not_mem_nil
  | some b => simpa using hmarks.judged hm

/-- **Exactly the nodes are found from which no cycle can be reached**, in the order of the graph and
without repetition.  So control does not leave them, and there is no cycle among them.  The search ends:
every step leaves less to do. -/
theorem ends_exact (nodup : g.ids.Nodup) (landing : g.chart.Landing) :
    (∀ s s', s.path ≠ [] → g.step s = .ok s' → s'.remaining g < s.remaining g) ∧
    ∃ found, g.ends = .ok found ∧ found.Sublist g.ids ∧ found.Nodup ∧
      (∀ id, id ∈ found ↔ id ∈ g.ids ∧ ¬ ∃ c, ReflTransGen g.chart.Targets id c ∧
        TransGen g.chart.Targets c c) ∧
      (∀ p id, p ∈ found → g.chart.Targets p id → id ∈ found) ∧
      ∀ id ∈ found, ¬ TransGen g.chart.Targets id id := by
  obtain ⟨found, hends, hsub, hmem⟩ := mem_ends landing
  refine ⟨fun s s' => step_remaining, found, hends, hsub, hsub.nodup nodup, hmem,
    fun p id hp ht => ?_, fun id hid hcycle => ?_⟩
  · refine (hmem id).2 ⟨live_iff_mem.1 (landing ht), fun hid => ?_⟩
    exact ((hmem p).1 hp).2 (Chart.circles_iff.2 ⟨id, ht, hid⟩)
  · exact ((hmem id).1 hid).2 (.of_cycle hcycle)

def tangledWays : Graph :=
  let n : Node := .new [] [] []
  ⟨[(⟨0⟩, { n with exit := .branch ⟨1⟩ ⟨3⟩ }), (⟨1⟩, { n with exit := .branch ⟨2⟩ ⟨3⟩ }),
    (⟨2⟩, { n with exit := .seq ⟨1⟩ }), (⟨3⟩, { n with exit := .branch ⟨4⟩ ⟨5⟩ }), (⟨4⟩, n),
    (⟨5⟩, { n with exit := .branch ⟨4⟩ ⟨4⟩ }), (⟨6⟩, { n with exit := .seq ⟨6⟩ }),
    (⟨7⟩, { n with exit := .branch ⟨6⟩ ⟨5⟩ }), (⟨8⟩, { n with exit := .seq ⟨5⟩ })], 9, ⟨0⟩⟩

theorem ends_exact_tangledWays :
    tangledWays.ends = .ok [⟨3⟩, ⟨4⟩, ⟨5⟩, ⟨8⟩] ∧
      ∀ id, id ∈ ([⟨3⟩, ⟨4⟩, ⟨5⟩, ⟨8⟩] : List NodeId) ↔ id ∈ tangledWays.ids ∧
        ¬ ∃ c, ReflTransGen tangledWays.chart.Targets id c ∧ TransGen tangledWays.chart.Targets c c := by
  have hends : tangledWays.ends = .ok [⟨3⟩, ⟨4⟩, ⟨5⟩, ⟨8⟩] := by
    rw [← toOption_eq_some_iff]
    decide +kernel
  obtain ⟨_, found, hfound, _, _, hmem, _⟩ := ends_exact (g := tangledWays) (by decide)
    (landing_of_nodes (by decide))
  cases hends.symm.trans hfound
  exact ⟨hends, hmem⟩

end Structurer.Graph
