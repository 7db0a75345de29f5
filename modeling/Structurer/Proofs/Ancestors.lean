/-
**How nesting respects the edges of a graph.**

Where a node of a tree is nested is found by climbing: the chains of nodes around two predecessors are
followed outwards, first the longer one down to the length of the other and then both together, until
they meet.  The parents and depths that are looked up on the way are those of the nodes placed so far.
The climb ends at the innermost node around both, which is what the places of the predecessors have in
common.

The code of the tree is laid out by positions, which sorts the places by the order of their digits.
A node lies behind its predecessors in that order, and within the same block as they do.
-/

import Mathlib.Data.List.Induction
import Mathlib.Order.Lattice
import Structurer.Proofs.TreeBehaviour

namespace Structurer

open Engine Iteration LinearTree List Function
open Relation (ReflTransGen TransGen)

namespace LinearTree

/-! ### Climbing -/

section Loops

variable {α : Type} {cond : α → Prop} [DecidablePred cond] {step : α → α} {a : α}

/-- A loop that goes on while a condition holds, nothing if it goes on for ever. -/
noncomputable def whileDo (cond : α → Prop) [DecidablePred cond] (step : α → α) (a : α) : Option α :=
  iter (fun a => some (if cond a then .inl (step a) else .inr a)) a

theorem whileDo_of (h : cond a) : whileDo cond step a = whileDo cond step (step a) :=
  iter_of_inl (by rw [if_pos h])

theorem whileDo_of_not (h : ¬ cond a) : whileDo cond step a = some a :=
  iter_of_inr (by rw [if_neg h])

end Loops

section Climb

variable (parent : Option Nat → Option Nat) (depth : Option Nat → Nat)

/-- Where the ways outwards from two nodes meet; `none` inside is the root of the tree. -/
noncomputable def meet (a b : Option Nat) : Option (Option Nat) := do
  let a ← whileDo (fun a => depth b < depth a) parent a
  let b ← whileDo (fun b => depth a < depth b) parent b
  let r ← whileDo (fun r => r.1 ≠ r.2) (fun r => (parent r.1, parent r.2)) (a, b)
  return r.1

/-- Where the ways outwards from several nodes meet. -/
noncomputable def commonAncestor : List (Option Nat) → Option (Option Nat)
  | [] => some none
  | a :: as => as.foldlM (meet parent depth) a

end Climb

def parents (placed : List Placed) : Option Nat → Option Nat :=
  placed.foldl (fun parent x => update parent (some x.position) x.anchor) fun _ => none

def depths (placed : List Placed) : Option Nat → Nat :=
  placed.foldl (fun depth x => update depth (some x.position) (depth x.anchor + 1)) fun _ => 0

/-- Parents and depths that agree with places, as far as some nodes are concerned. -/
structure Climbing (known : Option Nat → Prop) (place : Option Nat → Place)
    (parent : Option Nat → Option Nat) (depth : Option Nat → Nat) : Prop where
  inj : ∀ {a b}, place a = place b → a = b
  closed : ∀ {a}, known a → known (parent a)
  place_parent : ∀ {a}, known a → place (parent a) = (place a).dropLast
  depth_eq : ∀ {a}, known a → depth a = (place a).length

theorem eq_of_prefix_iff {p q : Place} (h : ∀ r, r <+: p ↔ r <+: q) : p = q :=
  ((h p).1 prefix_rfl).eq_of_length_le ((h q).2 prefix_rfl).length_le

namespace Climbing

variable {known : Option Nat → Prop} {place : Option Nat → Place} {parent : Option Nat → Option Nat}
  {depth : Option Nat → Nat} {a b : Option Nat}

section

variable (h : Climbing known place parent depth)

include h

theorem climb (ha : known a) (m : Nat) :
    ∃ c, whileDo (fun a => m < depth a) parent a = some c ∧ known c ∧ place c = (place a).take m := by
  induction hl : (place a).length generalizing a with
  | zero =>
    refine ⟨a, whileDo_of_not (by simp [h.depth_eq ha, hl]), ha, ?_⟩
    rw [length_eq_zero_iff.1 hl, take_nil]
  | succ l ih =>
    by_cases hm : m < depth a
    · have hparent := h.place_parent ha
      obtain ⟨c, hc, hknown, hplace⟩ := ih (h.closed ha) (by rw [hparent]; simp [hl])
      refine ⟨c, by rw [whileDo_of]; exacts [hc, hm], hknown, ?_⟩
      rw [h.depth_eq ha] at hm
      rw [hplace, hparent, dropLast_eq_take, take_take]
      congr 1
      omega
    · refine ⟨a, whileDo_of_not hm, ha, (take_of_length_le ?_).symm⟩
      rw [h.depth_eq ha] at hm
      omega

theorem climb_both (ha : known a) (hb : known b) (hl : (place a).length = (place b).length) :
    ∃ c, whileDo (fun r => r.1 ≠ r.2) (fun r => (parent r.1, parent r.2)) (a, b) = some (c, c) ∧
      known c ∧ place c = commonPrefix (place a) (place b) := by
  have same : ∀ a, known a → ∃ c, whileDo (fun r => r.1 ≠ r.2)
      (fun r => (parent r.1, parent r.2)) (a, a) = some (c, c) ∧
        known c ∧ place c = commonPrefix (place a) (place a) := fun a ha =>
    ⟨a, whileDo_of_not (by simp), ha, eq_of_prefix_iff fun r => by
      rw [prefix_commonPrefix_iff, and_self]⟩
  induction hn : (place a).length generalizing a b with
  | zero =>
    have hab : place a = place b := by
      rw [length_eq_zero_iff.1 hn, length_eq_zero_iff.1 (hl.symm.trans hn)]
    cases h.inj hab
    exact same a ha
  | succ l ih =>
    by_cases hab : a = b
    · cases hab
      exact same a ha
    · have hne : place a ≠ place b := fun heq => hab (h.inj heq)
      obtain ⟨c, hc, hknown, hplace⟩ := ih (h.closed ha) (h.closed hb)
        (by simp [h.place_parent ha, h.place_parent hb, hl]) (by simp [h.place_parent ha, hn])
      refine ⟨c, by rw [whileDo_of]; exacts [hc, hab], hknown, ?_⟩
      rw [hplace, h.place_parent ha, h.place_parent hb]
      -- what begins both of two different places of one length is shorter than they are
      refine eq_of_prefix_iff fun r => ?_
      rw [prefix_commonPrefix_iff, prefix_commonPrefix_iff, dropLast_eq_take,
        dropLast_eq_take, prefix_take_iff, prefix_take_iff]
      constructor
      · rintro ⟨⟨ha, -⟩, hb, -⟩
        exact ⟨ha, hb⟩
      · rintro ⟨hra, hrb⟩
        have hlt : r.length ≠ (place a).length := by
          intro heq
          exact hne ((hra.eq_of_length heq).symm.trans (hrb.eq_of_length (heq.trans hl)))
        have hle := hra.length_le
        exact ⟨⟨hra, by omega⟩, hrb, by omega⟩

theorem meet_eq (ha : known a) (hb : known b) :
    ∃ c, meet parent depth a b = some c ∧ known c ∧
      place c = commonPrefix (place a) (place b) := by
  obtain ⟨a', ha', hka, hpa⟩ := h.climb ha (depth b)
  obtain ⟨b', hb', hkb, hpb⟩ := h.climb hb (depth a')
  have hda := h.depth_eq hka
  rw [h.depth_eq hb] at hpa
  rw [hda] at hpb
  have hlen : (place a').length = (place b').length := by
    rw [hpb, hpa]
    simp
  obtain ⟨c, hc, hkc, hpc⟩ := h.climb_both hka hkb hlen
  refine ⟨c, ?_, hkc, ?_⟩
  · simp only [meet, ha', hb', hc, Option.bind_eq_bind, Option.bind_some]
    rfl
  · rw [hpc, hpb, hpa]
    refine eq_of_prefix_iff fun r => ?_
    simp only [prefix_commonPrefix_iff, prefix_take_iff, length_take]
    constructor
    · rintro ⟨⟨ha, -⟩, hb, -⟩
      exact ⟨ha, hb⟩
    · rintro ⟨hra, hrb⟩
      have hle := hra.length_le
      have hle' := hrb.length_le
      exact ⟨⟨hra, by omega⟩, hrb, by omega⟩

/-- **The climb ends, at the common ancestor.** -/
theorem commonAncestor_eq (hroot : place none = []) {as : List (Option Nat)}
    (has : ∀ a ∈ as, known a) :
    ∃ c, commonAncestor parent depth as = some c ∧ place c = commonPlace (as.map place) := by
  cases as with
  | nil => exact ⟨none, rfl, hroot⟩
  | cons a as =>
    rw [forall_mem_cons] at has
    obtain ⟨ha, has⟩ := has
    show ∃ c, as.foldlM (meet parent depth) a = some c ∧
      place c = (as.map place).foldl commonPrefix (place a)
    induction as generalizing a with
    | nil => exact ⟨a, rfl, rfl⟩
    | cons b as ih =>
      rw [forall_mem_cons] at has
      obtain ⟨c, hc, hkc, hpc⟩ := h.meet_eq ha has.1
      rw [foldlM_cons, hc, map_cons, foldl_cons, ← hpc]
      exact ih c hkc has.2

end

end Climbing

variable {ls : Locals} {p : Plan} {T : Tree} {before after pieces : List Placed} {x y z : Placed}
  {id : NodeId} {n : Node} {around : Place} {count k : Nat} {anchor : Option Nat} {body : Body}

/-! ### Parents and depths -/

def Known (placed : List Placed) (a : Option Nat) : Prop :=
  ∀ k, a = some k → ∃ y ∈ placed, y.position = k

theorem Known.mono (h : Known before anchor) (hsub : before ⊆ pieces) : Known pieces anchor :=
  fun k hk => (h k hk).imp fun _ hy => ⟨hsub hy.1, hy.2⟩

section Arrays

variable (h : Grown p ls count T) (hfull : ∀ k < count, Known T.placed (some k))

include h hfull

theorem Grown.known_of_lt (heq : T.placed = before ++ x :: after)
    (hlt : ∀ k, anchor = some k → k < x.position) : Known before anchor := by
  intro k hk
  have hsorted := h.sorted
  rw [heq, map_append, map_cons, pairwise_append, pairwise_cons] at hsorted
  obtain ⟨y, hy, rfl⟩ := hfull k (Nat.lt_trans (hlt k hk) (h.below x (by simp [heq]))) k rfl
  have hlt := hlt _ hk
  rw [heq, mem_append, mem_cons] at hy
  rcases hy with hy | rfl | hy
  · exact ⟨y, hy, rfl⟩
  · omega
  · have := hsorted.2.1.1 _ (mem_map_of_mem hy)
    omega

theorem Grown.climbing (hp : p.Ordered) (hbefore : before <+: T.placed) :
    Climbing (Known before) T.inner (parents before) (depths before) := by
  obtain ⟨after, hafter⟩ := hbefore
  induction before using List.reverseRecOn generalizing after with
  | nil =>
    have hnone : ∀ {a : Option Nat}, Known [] a → a = none := by
      intro a ha
      cases a with
      | none => rfl
      | some k => simpa using ha k rfl
    refine ⟨h.inner_inj, fun _ k hk => (by cases hk), fun ha => ?_, fun ha => ?_⟩ <;>
      rw [hnone ha] <;> rfl
  | append_singleton before x ih =>
    rw [append_assoc, singleton_append] at hafter
    replace ih := ih (x :: after) hafter
    obtain ⟨id, n, around, hpiece⟩ := h.pieces x (by simp [← hafter])
    have hanchor : Known before x.anchor :=
      h.known_of_lt hfull hafter.symm (h.around_eq hp hpiece).2
    have hsub : before ⊆ before ++ [x] := subset_append_left ..
    -- the new node, or one that was there before
    have hcases : ∀ {a : Option Nat}, Known (before ++ [x]) a →
        a = some x.position ∨ a ≠ some x.position ∧ Known before a := by
      intro a ha
      by_cases hax : a = some x.position
      · exact .inl hax
      · refine .inr ⟨hax, fun k hk => ?_⟩
        obtain ⟨y, hy, rfl⟩ := ha k hk
        rcases mem_append.1 hy with hy | hy
        · exact ⟨y, hy, rfl⟩
        · rw [mem_singleton.1 hy] at hk
          exact absurd hk hax
    have hparents : parents (before ++ [x]) =
        update (parents before) (some x.position) x.anchor := by simp [parents]
    have hdepths : depths (before ++ [x]) =
        update (depths before) (some x.position) (depths before x.anchor + 1) := by
      simp [depths]
    rw [hparents, hdepths]
    refine ⟨h.inner_inj, fun ha => ?_, fun ha => ?_, fun ha => ?_⟩ <;>
      rcases hcases ha with rfl | ⟨hne, hold⟩
    · rw [update_self]
      exact hanchor.mono hsub
    · rw [update_of_ne hne]
      exact (ih.closed hold).mono hsub
    · rw [update_self, h.inner_some hp hpiece, dropLast_concat]
    · rw [update_of_ne hne, ih.place_parent hold]
    · rw [update_self, ih.depth_eq hanchor, h.inner_some hp hpiece, length_append,
        length_singleton]
    · rw [update_of_ne hne, ih.depth_eq hold]

end Arrays

/-! ### The code of a tree -/

/-- Code made of pieces.  They lie in the block of `around` from the position `k` on, each followed by
the pieces nested in it. -/
inductive Lays (T : Tree) : (around : Place) → (k : Nat) → (pieces : List Placed) → Body → Prop
  | nil {around : Place} {k : Nat} : Lays T around k [] []
  | piece {around : Place} {k : Nat} {x : Placed} {inner rest : List Placed} {nested body : Body}
      (place : T.placeOf x.position = around ++ [x.position]) (later : k ≤ x.position)
      (inside : Lays T (around ++ [x.position]) (x.position + 1) inner nested)
      (behind : Lays T around (x.position + 1) rest body) :
      Lays T around k (x :: (inner ++ rest)) (x.whole nested ++ body)

theorem Lays.begins (h : Lays T around k pieces body) (hz : z ∈ pieces) :
    ∃ j, k ≤ j ∧ around ++ [j] <+: T.placeOf z.position := by
  induction h with
  | nil => cases hz
  | @piece around k x inner rest nested body place later inside behind ihin ihbehind =>
    rcases mem_cons.1 hz with rfl | hz
    · exact ⟨_, later, place ▸ prefix_rfl⟩
    rcases mem_append.1 hz with hz | hz
    · obtain ⟨j, -, hj⟩ := ihin hz
      exact ⟨_, later, (prefix_append _ _).trans hj⟩
    · obtain ⟨j, hle, hj⟩ := ihbehind hz
      exact ⟨j, by omega, hj⟩

theorem lt_of_prefixes {p q r : Place} {i j : Nat} (hij : i < j) (hp : r ++ [i] <+: p)
    (hq : r ++ [j] <+: q) : p < q := by
  obtain ⟨p', rfl⟩ := hp
  obtain ⟨q', rfl⟩ := hq
  rw [append_assoc, append_assoc]
  exact append_left_lt (cons_lt_cons_iff.2 (.inl hij))

theorem lt_of_concat_prefix {p q : Place} {i : Nat} (h : q ++ [i] <+: p) : q < p := by
  obtain ⟨p', rfl⟩ := h
  have hlt : q ++ [] < q ++ (i :: p') := append_left_lt (nil_lt_cons i p')
  simpa using hlt

/-- **The pieces of a tree lie in the order of their places.** -/
theorem Lays.sorted (h : Lays T around k pieces body) :
    pieces.Pairwise fun x y => T.placeOf x.position < T.placeOf y.position := by
  induction h with
  | nil => exact .nil
  | piece place later inside behind ihin ihbehind =>
    rw [pairwise_cons, pairwise_append]
    refine ⟨fun z hz => ?_, ihin, ihbehind, fun y hy z hz => ?_⟩
    · rcases mem_append.1 hz with hz | hz
      · obtain ⟨j, -, hj⟩ := inside.begins hz
        exact lt_of_concat_prefix (place ▸ hj)
      · obtain ⟨j, hle, hj⟩ := behind.begins hz
        exact lt_of_prefixes hle (place ▸ prefix_rfl) hj
    · obtain ⟨i, -, hi⟩ := inside.begins hy
      obtain ⟨j, hle, hj⟩ := behind.begins hz
      exact lt_of_prefixes hle ((prefix_append _ _).trans hi) hj

section Layout

variable (hp : p.Ordered) (h : Grown p ls count T) (hfull : ∀ k < count, Known T.placed (some k))

include hp h

theorem Grown.start_le_of_prefix (hz : z ∈ T.placed) (hpre : T.inner anchor <+: T.inner z.anchor) :
    start anchor ≤ z.position := by
  cases anchor with
  | none => exact Nat.zero_le _
  | some a =>
    obtain ⟨q, hq⟩ := getLast?_eq_some_iff.1 (h.getLast?_inner (some a))
    rw [hq] at hpre
    obtain ⟨id, n, around, hpiece⟩ := h.pieces z hz
    cases hanchor : z.anchor with
    | none =>
      rw [hanchor] at hpre
      simpa using prefix_nil.1 hpre
    | some b =>
      rw [hanchor] at hpre
      have hle := (h.last_of_prefix hp b hpre).2
      have hlt := (h.around_eq hp hpiece).2 b hanchor
      show a + 1 ≤ z.position
      omega

include hfull

theorem Grown.nested_in (hz : z ∈ T.placed) (hpre : T.inner anchor <+: T.inner z.anchor) :
    ∃ y ∈ T.placed, y.anchor = anchor ∧ (z = y ∨ T.inner (some y.position) <+: T.inner z.anchor) := by
  obtain ⟨more, hmore⟩ := hpre
  cases more with
  | nil =>
    rw [append_nil] at hmore
    exact ⟨z, hz, (h.inner_inj hmore).symm, .inl rfl⟩
  | cons j more =>
    have hpre : T.inner anchor ++ [j] <+: T.inner z.anchor := ⟨more, by simp [← hmore]⟩
    cases hb : z.anchor with
    | none => simp [hb, Tree.inner] at hmore
    | some b =>
      rw [hb] at hpre
      obtain ⟨heq, hle⟩ := h.last_of_prefix hp b hpre
      obtain ⟨id, n, around, hpiece⟩ := h.pieces z hz
      have hlt := (h.around_eq hp hpiece).2 b hb
      have hcount := h.below z hz
      obtain ⟨y, hy, rfl⟩ := hfull j (by omega) j rfl
      obtain ⟨id', n', around', hpiece'⟩ := h.pieces y hy
      have hinner := h.inner_some hp hpiece'
      refine ⟨y, hy, ?_, .inr ?_⟩
      · have hsame : T.inner anchor ++ [y.position] = T.inner y.anchor ++ [y.position] :=
          heq.trans hinner
        exact (h.inner_inj (append_cancel_right hsame)).symm
      · rw [show T.inner (some y.position) = _ from heq.symm]
        exact hpre

theorem Grown.lays (fuel : Nat) (hfuel : count ≤ start anchor + fuel) :
    ∃ pieces, Lays T (T.inner anchor) (start anchor) pieces (assemble T.placed fuel anchor) ∧
      pieces ⊆ T.placed ∧ ∀ z ∈ T.placed, T.inner anchor <+: T.inner z.anchor → z ∈ pieces := by
  induction fuel generalizing anchor with
  | zero =>
    refine ⟨[], .nil, nil_subset _, fun z hz hpre => ?_⟩
    have hle := h.start_le_of_prefix hp hz hpre
    have hlt := h.below z hz
    omega
  | succ fuel ih =>
    have hall : ∀ k rest, start anchor ≤ k → Rest T anchor k rest → ∃ pieces,
        Lays T (T.inner anchor) k pieces
          (rest.flatMap fun x => x.whole (assemble T.placed fuel (some x.position))) ∧
        pieces ⊆ T.placed ∧ ∀ y ∈ rest, ∀ z ∈ T.placed,
          z = y ∨ T.inner (some y.position) <+: T.inner z.anchor → z ∈ pieces := by
      intro k rest hk hrest
      induction rest generalizing k with
      | nil => exact ⟨[], .nil, nil_subset _, fun y hy => absurd hy not_mem_nil⟩
      | cons x rest ihrest =>
        obtain ⟨hx, hanchor, hle⟩ := hrest.placed x (.head _)
        obtain ⟨id, n, around, hpiece⟩ := h.pieces x hx
        have hinner := h.inner_some hp hpiece
        rw [hanchor] at hinner
        have hstart : start (some x.position) = x.position + 1 := rfl
        obtain ⟨inner, hin, hinsub, hinall⟩ := ih (show count ≤ start (some x.position) + fuel by omega)
        obtain ⟨others, hout, houtsub, houtall⟩ := ihrest (x.position + 1) (by omega) hrest.tail
        rw [hinner] at hin
        refine ⟨x :: (inner ++ others), .piece (hinner ▸ rfl) hle hin hout, ?_, ?_⟩
        · exact cons_subset.2 ⟨hx, append_subset.2 ⟨hinsub, houtsub⟩⟩
        · intro y hy z hz hzy
          rcases mem_cons.1 hy with rfl | hy
          · rcases hzy with rfl | hpre
            · exact .head _
            · exact .tail _ (mem_append_left _ (hinall z hz hpre))
          · exact .tail _ (mem_append_right _ (houtall y hy z hz hzy))
    obtain ⟨pieces, hlays, hsub, hmem⟩ := hall _ _ (Nat.le_refl _) (h.rest_begin hp anchor)
    refine ⟨pieces, hlays, hsub, fun z hz hpre => ?_⟩
    obtain ⟨y, hy, ha, hzy⟩ := h.nested_in hp hfull hz hpre
    exact hmem y (mem_filter.2 ⟨hy, by simpa using ha⟩) z hz hzy

end Layout

/-! ### Nodes and their predecessors -/

/-- The positions of everything that can make a node run, the root for what comes from outside. -/
def Plan.anchors (p : Plan) (position : Nat) (id : NodeId) (n : Node) : List (Option Nat) :=
  if p.first position = true then [none]
  else (n.inputs.toList.map fun input => some (p.order.idxOf input)) ++
    (p.extra.lookup id).toList.map fun _ => none

/-- How a node is nested with respect to its predecessors: the climb from them ends at the node around
it, which is the innermost one that is around all of them or one of them itself, and the root if control
can come in from outside; the node lies in the same block as they do, and behind them. -/
structure Nests (p : Plan) (T : Tree) (pieces : List Placed) (id : NodeId) (n : Node) (x : Placed) :
    Prop where
  climb : ∀ before after, T.placed = before ++ x :: after →
    commonAncestor (parents before) (depths before) (p.anchors x.position id n) = some x.anchor
  deepest : ∀ a, T.inner a <+: T.inner x.anchor ↔
    ∀ b ∈ p.anchors x.position id n, T.inner a <+: T.inner b
  root : p.extra.lookup id ≠ none → x.anchor = none
  within : T.placeOf x.position = T.inner x.anchor ++ [x.position]
  behind : ∀ input ∈ n.inputs.toList, ∃ y ∈ pieces, p.order[y.position]? = some input ∧
    [y, x].Sublist pieces ∧ T.inner x.anchor <+: T.placeOf y.position

theorem Piece.around_eq_commonPlace (h : Piece p ls T id n around x) :
    p.anchors x.position id n ≠ [] ∧
      around = commonPlace ((p.anchors x.position id n).map T.inner) := by
  rw [h.nested]
  unfold Plan.anchors
  by_cases hfirst : p.first x.position = true
  · rw [if_pos hfirst, if_pos hfirst]
    exact ⟨by simp, rfl⟩
  · rw [if_neg hfirst, if_neg hfirst]
    refine ⟨fun hnil => ?_, ?_⟩
    · rw [append_eq_nil_iff, map_eq_nil_iff, map_eq_nil_iff] at hnil
      exact h.runs.resolve_left hfirst (by simp [Plan.triggers, hnil.1, hnil.2])
    · rw [map_append, List.map_map, List.map_map]
      rfl

theorem pair_sublist {α : Type} {r : α → α → Prop} {l : List α} {a b : α} (hl : l.Pairwise r)
    (hr : ∀ {a b}, r a b → ¬ r b a) (ha : a ∈ l) (hb : b ∈ l) (hab : r a b) : [a, b].Sublist l := by
  obtain ⟨s, t, rfl⟩ := append_of_mem hb
  rw [pairwise_append, pairwise_cons] at hl
  rcases mem_append.1 ha with ha | ha
  · exact (singleton_sublist.2 ha).append (singleton_sublist.2 (.head _))
  · rcases mem_cons.1 ha with rfl | ha
    · exact absurd hab (hr hab)
    · exact absurd hab (hr (hl.2.1.1 a ha))

theorem Grown.nests (hp : p.Ordered) (h : Grown p ls count T)
    (hfull : ∀ k < count, Known T.placed (some k)) (hlays : Lays T [] 0 pieces body)
    (hmem : ∀ z ∈ T.placed, z ∈ pieces) (hx : x ∈ T.placed) (hpiece : Piece p ls T id n around x) :
    Nests p T pieces id n x := by
  obtain ⟨hne, hcommon⟩ := hpiece.around_eq_commonPlace
  have hinner := (h.around_eq hp hpiece).1
  have hearlier := hp.earlier hpiece.order hpiece.node
  refine ⟨fun before after heq => ?_, fun a => ?_, fun hextra => ?_, hinner ▸ hpiece.place, ?_⟩
  · have hknown : ∀ a ∈ p.anchors x.position id n, Known before a := by
      intro a ha
      refine h.known_of_lt hfull heq fun k hk => ?_
      rw [hk] at ha
      unfold Plan.anchors at ha
      split at ha
      · simp at ha
      · simp only [mem_append, mem_map, Option.some.injEq, reduceCtorEq, and_false,
          exists_false, or_false] at ha
        obtain ⟨input, hinput, rfl⟩ := ha
        exact hearlier input hinput
    obtain ⟨c, hc, hplace⟩ := (h.climbing hfull hp ⟨_, heq.symm⟩).commonAncestor_eq rfl hknown
    rw [hc, h.inner_inj (hplace.trans (hcommon.symm.trans hinner))]
  · rw [← hinner, hcommon, prefix_commonPlace_iff (by simpa using hne), forall_mem_map]
  · rw [hpiece.anchor]
    by_cases hfirst : p.first x.position = true
    · rw [hpiece.outermost hfirst]
      rfl
    · rw [hpiece.of_extra (by simpa using hfirst) hextra]
      rfl
  · intro input hinput
    have hlt := hearlier input hinput
    obtain ⟨y, hy, hpos⟩ := hfull _ (Nat.lt_trans hlt (h.below x hx)) _ rfl
    have hfirst : p.first x.position = false := by
      simp only [Plan.first, Bool.and_eq_false_iff, decide_eq_false_iff_not]
      exact .inr (by omega)
    have hpre := hpiece.inputs hfirst input hinput
    rw [← hpos] at hpre hlt
    have horder : p.order[y.position]? = some input := by
      obtain ⟨hlen, -⟩ := List.getElem?_eq_some_iff.1 hpiece.order
      have hidx : p.order.idxOf input < p.order.length := by omega
      rw [hpos, getElem?_eq_getElem hidx, getElem_idxOf hidx]
    refine ⟨y, hmem y hy, horder, ?_, hinner ▸ hpre⟩
    refine pair_sublist hlays.sorted (fun hab => List.lt_asymm hab) (hmem y hy) (hmem x hx) ?_
    rw [hpiece.place]
    -- the predecessor is the node around, or nested in an earlier node of the same block
    obtain ⟨more, hmore⟩ := hpre
    cases more with
    | nil => exact lt_of_concat_prefix (by rw [← hmore, append_nil])
    | cons j more =>
      have hj : around ++ [j] <+: T.placeOf y.position := ⟨more, by simp [← hmore]⟩
      have hle := (h.last_of_prefix hp _ hj).2
      exact lt_of_prefixes (by omega) hj prefix_rfl

/-- Can control come into a tree at a node? -/
def Opens (g : Graph) (extra : List (NodeId × LocalId)) (entry : TreeEntry) (id : NodeId) : Prop :=
  if entry = .flagsOnly then extra.lookup id ≠ none else id = g.entry

section Tree

variable {ctx ctx' : Context} {g : Graph} {extra : List (NodeId × LocalId)} {entry : TreeEntry}

theorem Built.known (B : Built ctx g extra entry ctx' p T) (hg : g.Tidy)
    (hreached : ∀ id ∈ g.ids, ∃ s, Opens g extra entry s ∧
      ReflTransGen g.chart.Targets s id) :
    ∀ k < p.order.length, Known T.placed (some k) := by
  intro k hk _ hk'
  cases hk'
  have hid : p.order[k]? = some p.order[k] := getElem?_eq_getElem hk
  obtain ⟨b, hb⟩ := B.order.mem.1 (getElem_mem hk)
  obtain ⟨n, hn, -⟩ := Graph.get?_of_block? hb
  have hn' : p.graph.get? p.order[k] = some n := by rw [B.graph_eq, hn]
  refine B.grown.present hk hid hn' ?_
  obtain ⟨s, hs, hpath⟩ := hreached _ (Graph.live_iff_mem.1 ⟨b, hb⟩)
  rcases ReflTransGen.cases_tail hpath with heq | ⟨m, -, ht⟩
  · unfold Opens at hs
    split at hs
    next hentry =>
      obtain ⟨f, hf⟩ := Option.ne_none_iff_exists'.1 hs
      exact .inr (ne_nil_of_mem (mem_triggers_iff.2 (.inr (by rw [B.extra_eq, heq, hf]))))
    next hentry =>
      have hhead := B.head hentry
      rw [head?_eq_getElem?, ← hs, ← heq] at hhead
      have hzero := (B.ordered hg).idxOf_eq hhead
      rw [(B.ordered hg).idxOf_eq hid] at hzero
      exact .inl (by simp [Plan.first, B.entry_eq, hentry, hzero])
  · obtain ⟨b', hb', hout⟩ := ht
    obtain ⟨m', hm', rfl⟩ := Graph.get?_of_block? hb'
    obtain ⟨fl, m'', hfl, hm'', hfor⟩ := B.flags.lookup B.order.nodup (B.order.mem.2 ⟨_, hb'⟩)
    rw [hm'] at hm''
    cases hm''
    obtain ⟨f, hf⟩ := hfor.exists_toward hout
    have hinput := (hg.mem_inputs_iff hn).2 ⟨_, hb', hout⟩
    exact .inr (ne_nil_of_mem (mem_triggers_iff.2 (.inl ⟨m, hinput, fl, m', hfl,
      by rw [B.graph_eq, hm'], hf⟩)))

theorem Built.perm (B : Built ctx g extra entry ctx' p T) (hg : g.Tidy)
    (hfull : ∀ k < p.order.length, Known T.placed (some k)) (hlays : Lays T [] 0 pieces body)
    (hsub : pieces ⊆ T.placed) (hmem : T.placed ⊆ pieces) :
    (pieces.map fun x => p.order[x.position]?).Perm (g.ids.map some) := by
  have hget : ∀ x ∈ pieces, ∃ id, p.order[x.position]? = some id := fun x hx =>
    ⟨_, getElem?_eq_getElem (B.grown.below x (hsub hx))⟩
  refine (perm_ext_iff_of_nodup (pairwise_map.2 ?_) ?_).2 fun o => ?_
  · refine hlays.sorted.imp_of_mem fun {x y} hx _ hlt heq => ?_
    obtain ⟨id, hid⟩ := hget x hx
    have hsame : x.position = y.position :=
      ((B.ordered hg).idxOf_eq hid).symm.trans ((B.ordered hg).idxOf_eq (heq.symm.trans hid))
    rw [hsame] at hlt
    exact List.lt_irrefl _ hlt
  · exact (nodup_map_iff (Option.some_injective _)).2 hg.nodup
  · simp only [mem_map]
    constructor
    · rintro ⟨x, hx, rfl⟩
      obtain ⟨id, hid⟩ := hget x hx
      exact ⟨id, Graph.live_iff_mem.1 (B.order.mem.1 (mem_of_getElem? hid)), hid.symm⟩
    · rintro ⟨id, hid, rfl⟩
      have hidx := idxOf_lt_length_iff.2 (B.order.mem.2 (Graph.live_iff_mem.2 hid))
      obtain ⟨x, hx, hxpos⟩ := hfull _ hidx _ rfl
      refine ⟨x, hmem hx, ?_⟩
      rw [hxpos, getElem?_eq_getElem hidx, getElem_idxOf hidx]

end Tree

end LinearTree

/-- **Nesting respects every edge.**  The links of the graph are consistent, the arms of its branches
differ, it has no cycle, and every node can be reached from where control comes in.  Then a tree is
built.  The piece of every node is in its code once.  The climb from the predecessors of a node ends at
the innermost node around all of them, the root if control can come in from outside; the node lies
directly in the block of that node, as its predecessors do at some depth, and behind them. -/
theorem solveLinearTree_nests {ctx : Context} {g : Graph} {extra : List (NodeId × LocalId)}
    {entry : TreeEntry} (numbered : g.Numbered) (links : g.linkError? = none)
    (nonempty : entry ≠ .flagsOnly → g.nodes ≠ []) (forked : g.chart.Forked)
    (acyclic : ∀ id, ¬ TransGen g.chart.Targets id id)
    (reached : ∀ id ∈ g.ids, ∃ s, Opens g extra entry s ∧
      ReflTransGen g.chart.Targets s id) (slots : ctx.locals.Valid) :
    ∃ ctx' p T pieces code,
      Yields (solveLinearTree g extra entry) ctx (some (clear p.flagIds ++ code ++ [.unreachable]))
        ctx' ∧
      Built ctx g extra entry ctx' p T ∧ Lays T [] 0 pieces code ∧
      (pieces.map fun x => p.order[x.position]?).Perm (g.ids.map some) ∧
      ∀ x ∈ pieces, ∃ id n, Piece p ctx'.locals T id n (T.inner x.anchor) x ∧
        Nests p T pieces id n x := by
  have hg : g.Tidy := numbered.tidy links
  have hC : g.nodes ≠ [] → g.chart.Closed := fun hne => (hg.linkError?_eq_none_iff hne).1 links
  have hL : g.chart.Landing := by
    rintro p id ⟨b, hb, hout⟩
    obtain ⟨n, hn, -⟩ := Graph.get?_of_block? hb
    exact (hC (ne_nil_of_mem (Graph.mem_of_lookup hn))).landing ⟨b, hb, hout⟩
  obtain ⟨rank, hrank⟩ := Chart.exists_rank_along (fun {_ _} ht => Graph.live_iff_mem.1 (hL ht)) acyclic
  -- an entry from which all nodes are reached has no predecessors
  have hentry : entry ≠ .flagsOnly → ∀ p, ¬ g.chart.Targets p g.entry := by
    intro hne p ht
    obtain ⟨b, hb, hout⟩ := ht
    obtain ⟨s, hs, hpath⟩ := reached p (Graph.live_iff_mem.1 ⟨b, hb⟩)
    rw [Opens, if_neg hne] at hs
    rw [hs] at hpath
    exact acyclic _ (.tail' hpath ⟨b, hb, hout⟩)
  obtain ⟨r, ctx', hyields, -, hbuilt, hsome⟩ :=
    solveLinearTree_works ctx hg hL forked extra fun hne => (hC (nonempty hne)).entry
  obtain ⟨body, rfl⟩ := Option.ne_none_iff_exists'.1 (hsome rank hrank hentry)
  obtain ⟨p, T, B, rfl⟩ := hbuilt slots body rfl
  have hp := B.ordered hg
  have hfull := B.known hg reached
  have hfuel : p.order.length ≤ start none + (p.order.length + 1) := by omega
  obtain ⟨pieces, hlays, hsub, hmem⟩ := B.grown.lays hp hfull (p.order.length + 1) hfuel
  replace hmem : ∀ z ∈ T.placed, z ∈ pieces := fun z hz => hmem z hz nil_prefix
  refine ⟨ctx', p, T, pieces, _, hyields, B, hlays, B.perm hg hfull hlays hsub hmem, fun x hx => ?_⟩
  obtain ⟨id, n, around, hpiece⟩ := B.grown.pieces x (hsub hx)
  obtain ⟨heq, -⟩ := B.grown.around_eq hp hpiece
  cases heq
  exact ⟨id, n, hpiece, B.grown.nests hp hfull hlays hmem (hsub hx) hpiece⟩

theorem solveLinearTree_nests_forkedGraph :
    ∃ ctx ctx', ∃ p : Plan, ∃ T pieces code,
      Yields (solveLinearTree forkedGraph [] .onStack) ctx
        (some (clear p.flagIds ++ code ++ [.unreachable])) ctx' ∧
      Lays T [] 0 pieces code ∧
      (pieces.map fun x => p.order[x.position]?).Perm (forkedGraph.ids.map some) ∧
      ∃ x ∈ pieces, ∃ n, p.order[x.position]? = some ⟨3⟩ ∧ Nests p T pieces ⟨3⟩ n x := by
  have hnum : forkedGraph.Numbered := ⟨by decide, by decide⟩
  have hforward : ∀ e ∈ forkedGraph.nodes, e.2.outputs.Nodup ∧
      ∀ out ∈ e.2.outputs, e.1.serial < out.serial := by decide
  have hforked : forkedGraph.chart.Forked := by
    intro id b hb
    obtain ⟨n, hn, rfl⟩ := Graph.get?_of_block? hb
    exact (hforward _ (Graph.mem_of_lookup hn)).1
  have hacyclic : ∀ id, ¬ TransGen forkedGraph.chart.Targets id id := by
    intro id h
    have hlt : TransGen (· < ·) id.serial id.serial := by
      refine h.lift NodeId.serial ?_
      rintro p id ⟨b, hb, hout⟩
      obtain ⟨n, hn, rfl⟩ := Graph.get?_of_block? hb
      exact (hforward _ (Graph.mem_of_lookup hn)).2 id hout
    rw [Relation.transGen_eq_self] at hlt
    exact Nat.lt_irrefl _ hlt
  have hreached : ∀ id ∈ forkedGraph.ids, ∃ s, Opens forkedGraph [] .onStack s ∧
      ReflTransGen forkedGraph.chart.Targets s id := by
    have hone : ∀ id ∈ [⟨1⟩, ⟨2⟩], ReflTransGen forkedGraph.chart.Targets ⟨0⟩ id :=
      fun id hid => .single ⟨_, rfl, hid⟩
    have htwo : ∀ id ∈ [⟨3⟩, ⟨4⟩], ReflTransGen forkedGraph.chart.Targets ⟨0⟩ id :=
      fun id hid => (hone ⟨2⟩ (by decide)).tail ⟨_, rfl, hid⟩
    intro id hid
    refine ⟨⟨0⟩, rfl, ?_⟩
    rcases mem_cons.1 hid with rfl | hid
    · exact .refl
    rcases mem_append.1 (show id ∈ [⟨1⟩, ⟨2⟩] ++ [⟨3⟩, ⟨4⟩] from hid) with hid | hid
    · exact hone id hid
    · exact htwo id hid
  have hslots : (openContext .standard).locals.Valid :=
    ⟨by simp [openContext, Context.initial], by simp [openContext, Context.initial]⟩
  obtain ⟨ctx', p, T, pieces, code, hyields, -, hlays, hperm, hnests⟩ := solveLinearTree_nests hnum
    (by decide) (fun _ => by decide) hforked hacyclic hreached hslots
  refine ⟨_, ctx', p, T, pieces, code, hyields, hlays, hperm, ?_⟩
  obtain ⟨x, hx, hthree⟩ := mem_map.1 (hperm.mem_iff.2 (mem_map_of_mem (by decide : ⟨3⟩ ∈ forkedGraph.ids)))
  obtain ⟨id, n, hpiece, hn⟩ := hnests x hx
  cases hpiece.order.symm.trans hthree
  exact ⟨x, hx, n, hthree, hn⟩

end Structurer
