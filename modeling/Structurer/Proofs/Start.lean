/-
**The start of a graph is carved out.**

The nodes before the middle have no predecessor outside and no cycle, so they are an acyclic graph whose
entry nothing leads to.  Its tree leaves by a jump for the middle, and one node that holds the tree takes
the place of them all.
-/

import Structurer.Proofs.Cutting
import Structurer.Proofs.Tree

namespace Structurer

open Engine Fallible Iteration Machine Chart Structurer.Graph LinearTree List

variable {g start g' : Graph} {K : LocalId → Prop} {plain : Prop} {ctx ctx₁ ctx' : Context}
  {n : Node} {c : Start.Candidate} {label : LoopLabel} {first : LocalId} {p : Plan} {T : Tree}
  {id : NodeId} {b : Block}

theorem Graph.Tidy.newEntry (hg : g.Tidy) (hfree : ∀ p, ¬ g.chart.Targets p ⟨g.nextSerial⟩)
    (n : Node) (exit : Exit) :
    Works ((g.addNode n).2.setExit (g.addNode n).1 exit) fun g' =>
      ({ g' with entry := (g.addNode n).1 }.renumber : Graph).Tidy ∧
        ({ g' with entry := (g.addNode n).1 }.renumber : Graph).chart =
          (g.chart.insert ⟨g.nextSerial⟩ (n.block.withExit exit)).withEntry ⟨g.nextSerial⟩ ∧
        ({ g' with entry := (g.addNode n).1 }.renumber : Graph).ids = g.ids ++ [⟨g.nextSerial⟩] := by
  obtain ⟨hid, htidy, hchart, hids, _⟩ := hg.addNode n hfree
  have hlive : (g.addNode n).2.chart.Live (g.addNode n).1 := by
    rw [hid, hchart]
    exact (live_insert _).2 (.inl rfl)
  obtain ⟨g', hg', htidy', hids', _, hchart'⟩ := htidy.setExit hlive exit
  refine .of_eq hg' ?_
  have hentry : ({ g' with entry := (g.addNode n).1 } : Graph).Tidy :=
    ⟨htidy'.nodup, htidy'.issued, htidy'.exact⟩
  obtain ⟨hsame, _⟩ := same_renumber { g' with entry := (g.addNode n).1 }
  refine ⟨hentry.renumber, ?_, ?_⟩
  · have hblocks : g'.chart.block? =
        (g.chart.insert ⟨g.nextSerial⟩ (n.block.withExit exit)).block? := by
      funext j
      rw [hchart', hid, hchart]
      by_cases hj : j = ⟨g.nextSerial⟩
      · subst hj
        rw [update_self, withEntry_block?, insert_self, insert_self]
        rfl
      · rw [update_of_ne _ hj, withEntry_block?, insert_of_ne _ hj, insert_of_ne _ hj]
    rw [hsame.chart]
    show Chart.mk g'.chart.block? (g.addNode n).1 = _
    rw [hblocks, hid]
    rfl
  · rw [hsame.ids]
    show g'.ids = _
    rw [hids', hids]

namespace Start

variable {region nodes : List NodeId}

/-- Some nodes before a middle, not all others, that nothing leads back into and that can be ranked. -/
structure Fits (g : Graph) (c : Candidate) : Prop where
  ne_entry : c.middle ≠ g.entry
  middle : g.chart.Live c.middle
  reached : Reached g g.entry (some c.middle) c.nodes
  two : 2 ≤ c.nodes.length
  behind : c.nodes.length + 2 ≤ g.size
  closed : ∀ {p id}, id ∈ c.nodes → g.chart.Targets p id → p ∈ c.nodes
  ranked : ∃ rank : NodeId → Nat, ∀ {p id}, id ∈ c.nodes → g.chart.Targets p id → rank p < rank id

theorem isClosedAcyclic_works (hg : g.Tidy) (hC : g.chart.Closed) (hF : g.chart.Forked)
    (hnd : region.Nodup) (hlive : ∀ id ∈ region, g.chart.Live id) :
    Works (isClosedAcyclic g region) fun r => r = true ↔
      (∀ {p id}, id ∈ region → g.chart.Targets p id → p ∈ region) ∧
        ∃ rank : NodeId → Nat, ∀ {p id}, id ∈ region → g.chart.Targets p id → rank p < rank id := by
  unfold isClosedAcyclic
  refine (hg.isClosed_works hlive none).bind fun closed hclosed => ?_
  cases closed with
  | false =>
    refine .pure ⟨nofun, fun h => ?_⟩
    exact absurd (hclosed.2 fun id hid _ p ht => h.1 hid ht) nofun
  | true =>
    have hinside : ∀ {p id}, id ∈ region → g.chart.Targets p id → p ∈ region := fun {p id} hid ht =>
      hclosed.1 rfl id hid nofun p ht
    refine (takesAll_works hg hC.landing hF hnd fun id hid => live_iff_mem.1 (hlive id hid)).mono ?_
    rintro r ⟨order, hsorted, hr⟩
    have hsub := subperm_of_subset hsorted.nodup hsorted.subset
    rw [hr]
    refine ⟨fun hlen => ⟨hinside, (order.idxOf ·), fun {p id} hid hp => ?_⟩, ?_⟩
    · -- an order of all the nodes ranks them
      have hall := (hsub.perm_of_length_le (Nat.le_of_eq hlen.symm)).symm.subset
      exact (hsorted.before (hall hid) hp).2
    · rintro ⟨_, rank, hrank⟩
      have hall := hsorted.subset_order rank fun {p id} hid hp => ⟨hinside hid hp, hrank hid hp⟩
      exact Nat.le_antisymm hsub.length_le (subperm_of_subset hnd hall).length_le

theorem Fits.of_reached (h : Fits g c) (hnodes : Reached g g.entry (some c.middle) nodes) :
    Fits g ⟨c.middle, nodes⟩ ∧ c.nodes.length = nodes.length := by
  have hperm : c.nodes.Perm nodes := h.reached.perm hnodes.nodup hnodes.mem_iff
  have hmem : ∀ {id}, id ∈ nodes ↔ id ∈ c.nodes := hperm.mem_iff.symm
  obtain ⟨rank, hrank⟩ := h.ranked
  refine ⟨⟨h.ne_entry, h.middle, hnodes, hperm.length_eq ▸ h.two, hperm.length_eq ▸ h.behind, ?_,
    rank, fun hid ht => hrank (hmem.1 hid) ht⟩, hperm.length_eq⟩
  intro p id hid ht
  exact hmem.2 (h.closed (hmem.1 hid) ht)

theorem improve_works (hg : g.Tidy) (hC : g.chart.Closed) (hF : g.chart.Forked)
    (best : Option Candidate) {middle : NodeId} (hmiddle : g.chart.Live middle) :
    Works (improve g best middle) (Improved (Fits g) (·.middle) (·.nodes.length) best middle) := by
  unfold improve
  split
  next heq => exact .pure (.kept fun c hc hkey => absurd (hkey.trans heq) hc.ne_entry)
  next hne =>
    refine (reachable_works hC.landing hC.entry (some middle)).bind fun nodes hnodes => ?_
    have hmost : ∀ c, Fits g c → c.middle = middle → c.nodes.length ≤ nodes.length := by
      rintro c hc rfl
      exact (hc.of_reached hnodes).2.le
    split
    next hlength =>
      refine .pure (.kept fun c hc hkey => ?_)
      subst hkey
      obtain ⟨hfits, _⟩ := hc.of_reached hnodes
      have htwo := hfits.two
      have hbehind := hfits.behind
      dsimp only at htwo hbehind
      omega
    next hlength =>
      split
      next hbest =>
        -- the best so far has as many nodes
        refine .pure (.kept fun c hc hkey => ?_)
        have hle := hmost c hc hkey
        cases best with
        | none =>
          have hzero : nodes.length ≤ 0 := hbest
          omega
        | some b => exact ⟨b, rfl, hle.trans hbest⟩
      next hbest =>
        refine (isClosedAcyclic_works hg hC hF hnodes.nodup hnodes.live).bind fun r hr => .pure ?_
        split
        next htrue =>
          obtain ⟨hclosed, hranked⟩ := hr.1 htrue
          have hfits : Fits g ⟨middle, nodes⟩ :=
            ⟨hne, hmiddle, hnodes, by dsimp only; omega, by dsimp only; omega, hclosed, hranked⟩
          refine .taken hfits rfl hmost fun b hb => ?_
          subst hb
          exact Nat.lt_of_not_le hbest
        next hfalse =>
          refine .kept fun c hc hkey => ?_
          subst hkey
          obtain ⟨hfits, _⟩ := hc.of_reached hnodes
          exact absurd (hr.2 ⟨hfits.closed, hfits.ranked⟩) hfalse

theorem find_works (hg : g.Tidy) (hC : g.chart.Closed) (hF : g.chart.Forked) :
    Works (find g) (Chosen (Fits g) (·.middle) (·.nodes.length) g.ids) :=
  .choose fun _ hmem best => improve_works hg hC hF best (live_iff_mem.2 hmem)

/-! ### The start by itself -/

def passage (c : Candidate) (label : LoopLabel) (first : LocalId) : Passage :=
  ⟨label, first, [], (· = c.middle)⟩

variable {J : StackType → NodeId → Body → Prop} {g₁ rest : Graph}

theorem Fits.apart (h : Fits g c) (hsev : g.Severed J (· == c.middle) c.nodes g₁) {p id : NodeId}
    (hp : g₁.chart.Targets p id) : p ∈ c.nodes ↔ id ∈ c.nodes := by
  obtain ⟨b', hb', hid⟩ := hp
  by_cases hmem : p ∈ c.nodes
  · obtain ⟨b, hb⟩ := h.reached.live p hmem
    obtain ⟨b₁, hb₁, hin⟩ := hsev.inside hmem hb
    cases hb'.symm.trans hb₁
    obtain ⟨_, n, hn, rfl, hstay⟩ := hin.of_mem hid
    have hne : some id ≠ some c.middle := by simpa using hstay
    exact iff_of_true hmem (h.reached.closed p hmem id ⟨b, hb, hn⟩ hne)
  · rw [hsev.outside hmem] at hb'
    exact iff_of_false hmem fun hid' => hmem (h.closed hid' ⟨b', hb', hid⟩)

theorem Fits.entry_mem (h : Fits g c) : g.entry ∈ c.nodes :=
  h.reached.start_mem (by simpa using h.ne_entry.symm)

theorem Fits.middle_not_mem (h : Fits g c) : c.middle ∉ c.nodes :=
  fun hmem => h.reached.avoids _ hmem rfl

theorem Fits.rank_le (h : Fits g c) {rank : NodeId → Nat}
    (hrank : ∀ {p id}, id ∈ c.nodes → g.chart.Targets p id → rank p < rank id) {id : NodeId}
    (hid : id ∈ c.nodes) : rank g.entry ≤ rank id := by
  have hpath := h.reached.path id hid
  induction hpath with
  | refl => exact Nat.le_refl _
  | tail _ hp ih => exact Nat.le_trans (ih (h.closed hid hp)) (Nat.le_of_lt (hrank hid hp))

theorem Fits.splitOff_works (h : Fits g c) (hsev : g.Severed J (· == c.middle) c.nodes g₁) :
    Works (g₁.splitOff c.nodes g.entry) fun r => ∃ start rest, r = .ok (start, rest) ∧
      Parted g₁ c.nodes g.entry start rest := by
  refine hsev.tidy.splitOff_works h.entry_mem h.reached.nodup (fun id hid => ?_) fun p id => h.apart hsev
  obtain ⟨b, hb⟩ := h.reached.live id hid
  obtain ⟨b', hb', _⟩ := hsev.inside hid hb
  exact ⟨b', hb'⟩

theorem Fits.carved (h : Fits g c) (hsev : g.Severed J (· == c.middle) c.nodes g₁)
    (hpart : Parted g₁ c.nodes g.entry start rest) : Carved J (Named c.nodes) g.chart start.chart where
  block := by
    rintro i j b ⟨hi, rfl⟩ hb
    obtain ⟨b', hb', hin⟩ := hsev.inside hi hb
    refine ⟨_, by rw [hpart.part_block i hi, hb']; rfl, hin.map ?_⟩
    rintro n n' hn ⟨rfl, hstay⟩
    have hne : some n' ≠ some c.middle := by simpa using hstay
    exact ⟨h.reached.closed i hi n' ⟨b, hb, hn⟩ hne, rfl⟩
  cover := by
    intro j hj
    obtain ⟨i, hi, rfl⟩ := hpart.exists_renamed hj
    exact ⟨i, ⟨hi, rfl⟩, h.reached.live i hi⟩

/-- A start as a graph of its own. -/
structure Uprooted (J : StackType → NodeId → Body → Prop) (g : Graph) (c : Candidate) (start : Graph) :
    Prop where
  fits : Fits g c
  carved : Carved J (Named c.nodes) g.chart start.chart
  tidy : start.Tidy
  entry : start.entry = renamed c.nodes g.entry

theorem Uprooted.live_entry (h : Uprooted J g c start) (hC : g.chart.Closed) :
    ∃ b b', g.chart.block? g.entry = some b ∧ start.chart.block? start.entry = some b' ∧
      b'.inputStack = b.inputStack := by
  obtain ⟨b, hb⟩ := hC.entry
  obtain ⟨b', hb', hin⟩ := h.carved.block ⟨h.fits.entry_mem, rfl⟩ hb
  exact ⟨b, b', hb, by rw [h.entry]; exact hb', hin.inputStack⟩

theorem Uprooted.closed (h : Uprooted J g c start) (hC : g.chart.Closed) : start.chart.Closed := by
  obtain ⟨_, b', _, hb', _⟩ := h.live_entry hC
  exact h.carved.closed hC ⟨b', hb'⟩

theorem Uprooted.forked (h : Uprooted J g c start) (hF : g.chart.Forked) : start.chart.Forked := by
  intro j b' hb'
  exact nodup_region h.carved hF hb'

theorem Uprooted.ranked (h : Uprooted J g c start) :
    (∃ rank : NodeId → Nat, ∀ {p id}, start.chart.Targets p id → rank p < rank id) ∧
      ∀ p, ¬ start.chart.Targets p start.entry := by
  obtain ⟨rank, hrank⟩ := h.fits.ranked
  refine ⟨ranked_region h.carved fun _ hid ht => hrank hid ht, ?_⟩
  intro p ht
  obtain ⟨i, n, ⟨hi, _⟩, ⟨hn, hname⟩, hin⟩ := h.carved.exists_targets ht
  rw [h.entry] at hname
  cases renamed_inj h.fits.entry_mem hname
  exact absurd (h.fits.rank_le hrank hi) (Nat.not_le.2 (hrank hn hin))

/-- A start as a graph of its own whose edges to the middle leave through a passage. -/
structure Potted (plain : Prop) (ctx : Context) (g : Graph) (c : Candidate) (label : LoopLabel)
    (first : LocalId) (ctx₁ : Context) (start : Graph) : Prop extends
    Uprooted ((passage c label first).Leaves (ctx.regime plain) g.chart ctx₁.locals) g c start where
  grows : ctx.Grows ctx₁
  flag : ctx.locals.Flag ctx₁.locals first
  fresh : (ctx.regime plain).Lacks label

section Potted

variable {w : World} {s t : State}

theorem signposted {known ls : Locals} (h : known.Flag ls first) :
    (passage c label first).Signposted known ls :=
  ⟨h, nofun, nofun⟩

theorem Potted.signposted (h : Potted plain ctx g c label first ctx₁ start) :
    (passage c label first).Signposted ctx.locals ctx₁.locals :=
  Start.signposted h.flag

section

variable (h : Potted plain ctx g c label first ctx₁ start) (hf : ctx.Fine) (hs : g.Sound ctx plain)

include h hf hs

theorem Potted.sound : start.Sound (ctx₁.inside label) plain :=
  h.carved.sound hf hs h.grows h.signposted h.fresh h.tidy ⟨h.fits.entry_mem, h.entry⟩

theorem Potted.stops (B : Built (ctx₁.inside label) start [] .unconditional (ctx'.inside label) p T) :
    ((ctx'.regime plain).inLoop label []).Stops [] (treeCode p T ++ [.unreachable]) := by
  obtain ⟨_, b', _, hb', _⟩ := h.live_entry hs.closed
  have hv : (ctx'.inside label).locals.Valid := B.grows.valid (h.grows.valid hf.valid)
  have hstops := B.stops (R := (ctx'.inside label).regime plain) h.tidy (h.sound hf hs).closed rfl hv
    ((h.sound hf hs).typed.mono (B.grows.regime plain)) (by simp [Integers]) hb'
  rw [Context.regime_inside] at hstops
  exact hstops

/-- **The tree of a start runs until the walk comes to the middle.** -/
theorem Potted.meets (hF : g.chart.Forked) (hstrict : ctx.settings.strictReferences = true)
    (B : Built (ctx₁.inside label) start [] .unconditional (ctx'.inside label) p T)
    (hK : ctx'.locals.SlotsAre K)
    (hw : Waits (ctx.regime plain) K g.chart ctx'.locals (g.entry, s) t)
    (hlow : (passage c label first).Raised none t) :
    Meets (g.chart.step K w) (Departs (g.chart.step K w)
      ((passage c label first).Landed (ctx.regime plain) K g.chart ctx₁.locals) label) (g.entry, s)
      (exec w (treeCode p T ++ [.unreachable]) t) := by
  have hv₁ : ctx₁.locals.Valid := h.grows.valid hf.valid
  have L : Layout (ctx.regime plain) K g.chart ctx₁.locals :=
    ⟨hs.typed, hs.closed, hstrict, h.grows.locals, hv₁, .of_extends B.grows.locals hK⟩
  have L' : Layout ((ctx₁.inside label).regime plain) K start.chart ctx'.locals :=
    ⟨(h.sound hf hs).typed, (h.sound hf hs).closed,
      (congrArg (·.strictReferences) h.grows.settings).trans hstrict,
      B.grows.locals, B.grows.valid hv₁, hK⟩
  have S : Sited ((ctx₁.inside label).regime plain) K (ctx₁.inside label) start [] .unconditional
      (ctx'.inside label) p T := ⟨B, h.tidy, h.forked hF, L', .refl _, nofun⟩
  obtain ⟨b, b', hb, hb', hin⟩ := h.live_entry hs.closed
  have hinside := Inside.begin (M := Named c.nodes) h.grows.locals B.grows.locals
    h.signposted ⟨h.fits.entry_mem, h.entry⟩ hw hlow
  have hwaits := hinside.waits (T := (ctx₁.inside label).regime plain) rfl hb hb' hin hw
  have htree := S.meets_parked (w := w) hwaits ⟨nofun, nofun⟩
  have hrun : Refines Le (start.chart.walk K w start.entry ((t.withStack s.stack).restrict ctx₁.locals))
      (exec w (treeCode p T ++ [.unreachable]) t) := by
    rw [exec_append]
    exact (htree.andThen fun _ _ h => h.elim).endsAs.refines
  exact (h.carved.meets_walk L h.signposted h.fresh hinside).departs_trans hrun

end

end Potted

/-! ### The rest with a new entry -/

/-- The graph with one node in the place of its start. -/
structure Replaced (g : Graph) (c : Candidate) (id : NodeId) (b : Block) (g' : Graph) : Prop where
  tidy : g'.Tidy
  entry : g'.chart.entry = id
  new : ∀ {j}, g.chart.Live j → j ≠ id
  ids : g'.ids = g.ids.filter (· ∉ c.nodes) ++ [id]
  block : g'.chart.block? id = some b
  others : ∀ {j}, j ≠ id → g'.chart.block? j = if j ∈ c.nodes then none else g.chart.block? j
  size : g'.size + c.nodes.length = g.size + 1

section Replaced

variable {j : NodeId} {b' : Block}

theorem replaced_works (hg : g.Tidy) (hC : g.chart.Closed)
    (hsev : g.Severed J (· == c.middle) c.nodes g₁)
    (hpart : Parted g₁ c.nodes g.entry start rest) (n : Node) :
    Works ((rest.addNode n).2.setExit (rest.addNode n).1 (.seq c.middle)) fun g' =>
      Replaced g c ⟨rest.nextSerial⟩ (n.block.withExit (.seq c.middle))
        { g' with entry := (rest.addNode n).1 }.renumber := by
  have hrest : ∀ j, rest.chart.block? j = if j ∈ c.nodes then none else g.chart.block? j := by
    intro j
    rw [hpart.rest_block j]
    split
    · rfl
    next hj => exact hsev.outside hj
  have hnew : ∀ {j}, g.chart.Live j → j ≠ ⟨rest.nextSerial⟩ := by
    rintro j hj rfl
    have hissued := hg.issued _ (live_iff_mem.1 hj)
    rw [hpart.rest_serial, hsev.serial] at hissued
    exact Nat.lt_irrefl _ hissued
  have hfree : ∀ p, ¬ rest.chart.Targets p ⟨rest.nextSerial⟩ := by
    rintro p ⟨b, hb, hout⟩
    rw [hrest] at hb
    split at hb
    · cases hb
    · exact hnew (hC.targets p _ ⟨b, hb, hout⟩) rfl
  refine (hpart.rest_tidy.newEntry hfree n (.seq c.middle)).mono ?_
  rintro g' ⟨htidy, hchart, hids⟩
  refine ⟨htidy, by rw [hchart]; rfl, hnew, by rw [hids, hpart.rest_ids, hsev.ids],
    by rw [hchart]; exact insert_self _, fun {j} hj => ?_, ?_⟩
  · rw [hchart, withEntry_block?, insert_of_ne _ hj, hrest]
  · have hsize := hpart.size_add hsev.tidy
    rw [size_eq_length g₁, hsev.ids, ← size_eq_length] at hsize
    rw [size_eq_length, hids, length_append, ← size_eq_length, length_singleton]
    omega

section

variable (h : Replaced g c id b g') (hfits : Fits g c)

include h hfits

theorem Replaced.middle : g'.chart.block? c.middle = g.chart.block? c.middle := by
  rw [h.others (h.new hfits.middle), if_neg hfits.middle_not_mem]

theorem Replaced.size_lt : g'.size < g.size := by
  have hsize := h.size
  have htwo := hfits.two
  omega

theorem Replaced.old (hC : g.chart.Closed) (hj : j ≠ id) (hb' : g'.chart.block? j = some b') :
    j ∉ c.nodes ∧ g.chart.block? j = some b' ∧
      ∀ out ∈ b'.exit.outputs, out ∉ c.nodes ∧ out ≠ id := by
  rw [h.others hj] at hb'
  split at hb'
  · cases hb'
  next hnot =>
    refine ⟨hnot, hb', fun out hout => ?_⟩
    have hout' : out ∉ c.nodes := fun hmem => hnot (hfits.closed hmem ⟨b', hb', hout⟩)
    exact ⟨hout', h.new (hC.targets j out ⟨b', hb', hout⟩)⟩

theorem Replaced.consistent (hC : g.chart.Closed) (hexit : b.exit = .seq c.middle) :
    g'.Consistent where
  tidy := h.tidy
  closed := by
    refine ⟨⟨b, by rw [h.entry, h.block]⟩, ?_⟩
    rintro j k ⟨b', hb', hk⟩
    by_cases hj : j = id
    · subst hj
      cases h.block.symm.trans hb'
      rw [hexit] at hk
      cases mem_singleton.1 hk
      obtain ⟨bm, hbm⟩ := hfits.middle
      exact ⟨bm, by rw [h.middle hfits, hbm]⟩
    · obtain ⟨_, hb, houts⟩ := h.old hfits hC hj hb'
      obtain ⟨hk', hne⟩ := houts k hk
      obtain ⟨bk, hbk⟩ := hC.targets j k ⟨b', hb, hk⟩
      exact ⟨bk, by rw [h.others hne, if_neg hk', hbk]⟩

theorem Replaced.not_targets (hC : g.chart.Closed) (hexit : b.exit = .seq c.middle) (p : NodeId) :
    ¬ g'.chart.Targets p id := by
  rintro ⟨b', hb', hid⟩
  by_cases hp : p = id
  · subst hp
    cases h.block.symm.trans hb'
    rw [hexit] at hid
    exact h.new hfits.middle (mem_singleton.1 hid).symm
  · exact ((h.old hfits hC hp hb').2.2 id hid).2 rfl

theorem Replaced.sound (hs : g.Sound ctx plain) (hgrows : ctx.Grows ctx')
    (hexit : b.exit = .seq c.middle)
    (hout : ∀ {bm}, g.chart.block? c.middle = some bm → b.outputStack = bm.inputStack)
    (hbody : (ctx'.regime plain).Leads b.inputStack b.body b.outputStack) :
    g'.Sound ctx' plain where
  toConsistent := h.consistent hfits hs.closed hexit
  typed := by
    have hT := hs.typed.mono (hgrows.regime plain)
    constructor
    · intro j b' hb'
      by_cases hj : j = id
      · subst hj
        cases h.block.symm.trans hb'
        unfold Block.Typed
        rw [hexit]
        exact hbody
      · exact hT.blocks (h.old hfits hs.closed hj hb').2.1
    · intro j b' k bk hb' hk hbk
      by_cases hj : j = id
      · subst hj
        cases h.block.symm.trans hb'
        rw [hexit] at hk
        cases mem_singleton.1 hk
        rw [h.middle hfits] at hbk
        rw [hout hbk]
        exact .refl _ _
      · obtain ⟨_, hb, houts⟩ := h.old hfits hs.closed hj hb'
        obtain ⟨hk', hne⟩ := houts k hk
        rw [h.others hne, if_neg hk'] at hbk
        exact hT.edges hb hk hbk

/-- **The new graph does what the graph does** if the new block comes to the middle as the walk does. -/
theorem Replaced.improves (hs : g.Sound ctx plain) (hexit : b.exit = .seq c.middle)
    (hbody : ∀ w s, Good (ctx.regime plain) g.chart (g.entry, s) →
      g.chart.Tracks K w (fun a t => a.1 = c.middle ∧
      Good (ctx.regime plain) g.chart a ∧ Le (a.2.forget K) t) (g.entry, s)
      (exec w b.body (s.forget K))) :
    g.chart.Improves (ctx.regime plain) K g'.chart := by
  intro w s s' hg hle
  refine walk_refines (M := fun i j => (i = g.entry ∧ j = id) ∨ (j = i ∧ i ∉ c.nodes ∧ i ≠ id)) ?_
    ⟨.inl ⟨rfl, h.entry⟩, hg, hle⟩
  rintro ⟨i, t⟩ ⟨j, t'⟩ hbeside
  have hstay : ∀ {n}, g.chart.Live n → n ∉ c.nodes → n ∉ c.nodes ∧ n ≠ id :=
    fun hlive hnot => ⟨hnot, h.new hlive⟩
  rcases hbeside.blocks with ⟨hi, hj⟩ | ⟨rfl, hnot, hne⟩
  · -- the new block runs until the walk is in front of the middle
    subst hi hj
    have hmeets := (hbody w t hbeside.good).through_trans (exec_le w b.body hbeside.le.forget_right)
      fun a u u' hu hle => ⟨hu.1, hu.2.1, hu.2.2.trans hle⟩
    have hmiddle := hstay hfits.middle hfits.middle_not_mem
    unfold Met
    rw [step_of_block h.block, hexit]
    refine Meets.along (hmeets.map fun a r hr => ?_)
    cases r with
    | jump | returned | trapped | stuck => exact hr
    | next u =>
      obtain ⟨ha, hgood, hlu⟩ := hr
      refine ⟨⟨.inr ⟨ha.symm, ha ▸ hmiddle⟩, hgood, hlu⟩, ?_⟩
      rintro rfl
      exact hfits.ne_entry ha.symm
  · obtain ⟨b', hb', _⟩ := hbeside.good.block
    have hsame : g'.chart.block? j = some b' := by rw [h.others hne, if_neg hnot, hb']
    refine met_alike hs.typed hs.closed hb' hsame rfl (alike_refl fun n hn => .inr ⟨rfl, ?_⟩)
      hbeside.good hbeside.le
    exact hstay (hs.closed.targets j n ⟨b', hb', hn⟩) fun hmem => hnot (hfits.closed hmem ⟨b', hb', hn⟩)

end

end Replaced

/-! ### The steps together -/

def Parks (g : Graph) (c : Candidate) (label : LoopLabel) (ls : Locals) (stack : StackType) (m : NodeId)
    (code : Body) : Prop :=
  m = c.middle ∧ ∃ id b n store, g.chart.block? id = some b ∧ m ∈ b.exit.outputs ∧ b.outputStack = stack ∧
    g.get? m = some n ∧ ls.Stores n.inputStack store ∧ code = store ++ [.br label]

theorem Parks.leaves {label : LoopLabel} {ls : Locals} {stack : StackType} {m : NodeId}
    {code : Body} (h : Parks g c label ls stack m code) (hs : g.Sound ctx plain) (first : LocalId) :
    (passage c label first).Leaves (ctx.regime plain) g.chart ls stack m code := by
  obtain ⟨hm, id, b, n, store, hb, hout, rfl, hn, hstore, rfl⟩ := h
  refine ⟨hm, n.inputStack, store, hs.typed.edges hb hout (block?_of_get? hn), ?_, hstore, ?_⟩
  · intro b' hb'
    cases (block?_of_get? hn).symm.trans hb'
    exact .refl _ _
  · simp [passage, Passage.raise]

theorem Fits.cut_works (h : Fits g c) (hg : g.Tidy) (hn : g.get? c.middle = some n)
    (label : LoopLabel) (ctx : Context) :
    Succeeds (c.nodes.foldlM (inlineExits (· == c.middle)
      fun _ => return (← storeStack n.inputStack) ++ [.br label]) g) ctx fun g₁ ctx₁ =>
        ctx.Grows ctx₁ ∧ g.Severed (Parks g c label ctx₁.locals) (· == c.middle) c.nodes g₁ := by
  let J : Context → StackType → NodeId → Body → Prop := fun ctx₁ => Parks g c label ctx₁.locals
  have hJ : ∀ {ctx₁ ctx₂ stack m code}, ctx₁.Grows ctx₂ → J ctx₁ stack m code → J ctx₂ stack m code := by
    rintro ctx₁ ctx₂ stack m code hgrows ⟨hm, id, b, n, store, hb, hout, hstack, hn, hstore, hcode⟩
    exact ⟨hm, id, b, n, store, hb, hout, hstack, hn, hstore.mono hgrows.locals, hcode⟩
  refine Severed.foldlM (T := Engine.triples) (J := J) Context.Grows.refl Context.Grows.trans ?_
    h.reached.nodup hg
  intro done g₁ id ctx₂ _ hid hnot hsev
  obtain ⟨b, hb⟩ := h.reached.live id hid
  refine Severed.inlineExits (T := Engine.triples) (J := J) Context.Grows.refl Context.Grows.trans hJ hsev
    hb hnot fun m hm hleaving ctx₃ _ => ?_
  have hmiddle : m = c.middle := by simpa using hleaving
  subst hmiddle
  refine (storeStack_spec ctx₃ n.inputStack).bind ?_
  rintro store ctx₄ ⟨hgrows, hstore⟩
  exact .pure ⟨hgrows, rfl, id, b, n, store, hb, hm, rfl, hn, hstore, rfl⟩

end Start

/-- A graph with fewer nodes that does what a graph does, if stacks of one shape are the same. -/
structure Shortened (plain : Prop) (ctx : Context) (g : Graph) (ctx' : Context) (g' : Graph) : Prop where
  grows : ctx.Grows ctx'
  sound : g'.Sound ctx' plain
  size : g'.size < g.size
  entry : ∀ {b b'}, g.chart.block? g.entry = some b → g'.chart.block? g'.entry = some b' →
    b'.inputStack = b.inputStack
  improves : plain → ctx.settings.strictReferences = true → ∀ K, ctx'.locals.SlotsAre K →
    g.chart.Improves (ctx.regime plain) K g'.chart

theorem Solves.of_shortened {ctx' ctx'' : Context} {g' : Graph} (h : Shortened plain ctx g ctx' g')
    (hsol : Solves plain ctx' g' n ctx'') : Solves plain ctx g n ctx'' where
  grows := h.grows.trans hsol.grows
  exit := hsol.exit
  input := by
    intro b hb
    obtain ⟨b', hb'⟩ := h.sound.closed.entry
    have hfit : (ctx'.regime plain).Fits n.inputStack b'.inputStack := hsol.input hb'
    rw [h.entry hb hb'] at hfit
    unfold Regime.Fits at hfit
    rwa [h.grows.strict] at hfit
  stops := hsol.stops
  refines := by
    intro hp hstrict hsize K hK w s hg
    obtain ⟨b, hb, ht⟩ := hg.block
    obtain ⟨b', hb'⟩ := h.sound.closed.entry
    have hgood : Good (ctx'.regime plain) g'.chart (g'.entry, s) :=
      ⟨⟨b', hb', by rw [h.entry hb hb']; exact ht⟩, hg.proper.mono h.grows.locals.get⟩
    have himproves := h.improves hp hstrict K (.of_extends hsol.grows.locals hK) w s s hg le_forget
    exact himproves.le_trans (hsol.refines hp
      (by rw [h.grows.settings, hstrict]) (Nat.le_trans (Nat.le_of_lt h.size) hsize) K hK w s hgood)

namespace Start

variable {bm : Block} {store load : Body}

theorem Uprooted.tree_works {J : StackType → NodeId → Body → Prop} (h : Uprooted J g c start)
    (hC : g.chart.Closed) (hF : g.chart.Forked) (label : LoopLabel) (ctx : Context) :
    Succeeds (withLoop label (solveLinearTree start [] .unconditional)) ctx fun r ctx' =>
      ∃ ctx₁ body, (ctx.inside label).Grows ctx₁ ∧ ctx' = ctx₁.outside label ∧ r = some body ∧
        (ctx.locals.Valid → ∃ p T, Built (ctx.inside label) start [] .unconditional ctx₁ p T ∧
          body = treeCode p T ++ [.unreachable]) := by
  obtain ⟨⟨rank, hrank⟩, hfree⟩ := h.ranked
  have htree := solveLinearTree_works (ctx.inside label) h.tidy (h.closed hC).landing (h.forked hF) []
    fun _ : TreeEntry.unconditional ≠ .flagsOnly => (h.closed hC).entry
  refine (withLoop_agrees (htree.mono ?_).agrees).left
  rintro r ctx₁ ⟨hgrows, hbuilt, hsome⟩
  obtain ⟨body, rfl⟩ := Option.ne_none_iff_exists'.1 (hsome rank hrank fun _ => hfree)
  exact ⟨ctx₁, body, hgrows, rfl, rfl, fun hv => hbuilt hv body rfl⟩

def code (label : LoopLabel) (first : LocalId) (p : Plan) (T : Tree) (store load : Body) : Body :=
  store ++ oneShotLoop label first (treeCode p T ++ [.unreachable]) [] ++ load

section

variable (h : Potted plain ctx g c label first ctx₁ start) (hf : ctx.Fine) (hs : g.Sound ctx plain)
  (hgrows : ctx.Grows ctx')
  (B : Built (ctx₁.inside label) start [] .unconditional (ctx'.inside label) p T)
  (hstore : ctx'.locals.Stores b.inputStack store) (hload : ctx'.locals.Loads bm.inputStack load)

include h hf hs hgrows B hstore hload

theorem Potted.leads_code :
    (ctx'.regime plain).Leads b.inputStack (code label first p T store load) bm.inputStack := by
  have hv : (ctx'.regime plain).checker.locals.Valid := hgrows.valid hf.valid
  have hstore' : (ctx'.regime plain).Leads b.inputStack store [] := Locals.Stores.leads hv hstore
  have hload' : (ctx'.regime plain).Leads [] load bm.inputStack := Locals.Loads.leads hv hload
  have hloop : (ctx'.regime plain).Leads []
      (oneShotLoop label first (treeCode p T ++ [.unreachable]) []) [] :=
    leads_oneShot (h.flag.mono B.grows.locals).integer ((h.stops hf hs B).leads []) (.nil [])
  exact (hstore'.append hloop).append hload'

theorem Potted.meets_code (hF : g.chart.Forked) (hstrict : ctx.settings.strictReferences = true)
    (hb : g.chart.block? g.entry = some b) (hbm : g.chart.block? c.middle = some bm)
    (hK : ctx'.locals.SlotsAre K) {w : World} {s : State}
    (hg : Good (ctx.regime plain) g.chart (g.entry, s)) :
    g.chart.Tracks K w (fun a t => a.1 = c.middle ∧
      Good (ctx.regime plain) g.chart a ∧ Le (a.2.forget K) t) (g.entry, s)
      (exec w (code label first p T store load) (s.forget K)) := by
  have L : Layout (ctx.regime plain) K g.chart ctx'.locals :=
    ⟨hs.typed, hs.closed, hstrict, hgrows.locals, hgrows.valid hf.valid, hK⟩
  refine meets_passed (c := passage c label first) L
    (Start.signposted (h.flag.mono B.grows.locals)) h.fresh rfl B.grows.locals hb hg hstore ?_
    (fun t hw hlow => h.meets hf hs hF hstrict B hK hw hlow)
  rintro n b' rfl hb'
  cases hbm.symm.trans hb'
  exact hload

theorem Potted.shortened (hF : g.chart.Forked) (hb : g.chart.block? g.entry = some b)
    (hbm : g.chart.block? c.middle = some bm)
    (hrep : Replaced g c id ⟨code label first p T store load, b.inputStack, bm.inputStack,
      .seq c.middle⟩ g') :
    Shortened plain ctx g ctx' g' where
  grows := hgrows
  sound := by
    refine hrep.sound h.fits hs hgrows rfl (fun {bm'} hbm' => ?_) (h.leads_code hf hs hgrows B hstore hload)
    cases hbm.symm.trans hbm'
    rfl
  size := hrep.size_lt h.fits
  entry := by
    intro b₀ b' hb₀ hb'
    cases hb.symm.trans hb₀
    rw [← chart_entry, hrep.entry, hrep.block] at hb'
    cases hb'
    rfl
  improves _ hstrict K hK := hrep.improves h.fits hs rfl fun w s hg =>
    h.meets_code hf hs hgrows B hstore hload hF hstrict hb hbm hK hg

end

end Start

open Start in
/-- **One node takes the place of the largest start.**  Nothing is asked of the code of the graph; if it
is sound, the new graph does the same. -/
theorem extractStart_spec (hs : g.Consistent) (hF : g.chart.Forked) (ctx : Context) :
    Succeeds (extractStart g) ctx fun r ctx' => ctx.Grows ctx' ∧
      ∃ found, Chosen (Fits g) (·.middle) (·.nodes.length) g.ids found ∧ (found = none → r = none) ∧
        ∀ c, found = some c → ∃ g' id b, r = some g' ∧ Replaced g c id b g' ∧ b.exit = .seq c.middle ∧
          ∀ plain, ctx.Fine → g.Sound ctx plain → Shortened plain ctx g ctx' g' := by
  unfold extractStart
  refine (Succeeds.works (find_works hs.tidy hs.closed hF) ctx).bind ?_
  rintro found ctx ⟨rfl, hchosen⟩
  cases found with
  | none => exact .pure ⟨.refl ctx, none, hchosen, fun _ => rfl, nofun⟩
  | some c =>
    have hfits := hchosen.sound rfl
    obtain ⟨bm, hbm⟩ := hfits.middle
    refine (Succeeds.works (works_node hbm) _).bind ?_
    rintro n ctx ⟨rfl, hn, rfl⟩
    refine (Succeeds.emit _).bind fun _ ctx₁ hg₁ => ?_
    refine (freshLabel_spec ctx₁).bind fun label ctx₂ hlabel => ?_
    have hg₂ := hg₁.trans hlabel.grows
    refine (freshFlag_spec ctx₂ "firstRun").bind ?_
    rintro first ctx₃ ⟨hg₃, hflag⟩
    refine (hfits.cut_works hs.tidy hn label ctx₃).bind ?_
    rintro g₁ ctx₄ ⟨hg₄, hsev⟩
    obtain ⟨b, hb⟩ := hs.closed.entry
    obtain ⟨b₁, hb₁, hin₁⟩ := hsev.inside hfits.entry_mem hb
    refine (Succeeds.works (works_node hb₁) _).bind ?_
    rintro n₁ ctx₄ ⟨rfl, hn₁, rfl⟩
    refine (Succeeds.works (hfits.splitOff_works hsev) _).bind ?_
    rintro _ ctx₄ ⟨rfl, start, rest, rfl, hpart⟩
    have hgrows₄ := hg₂.trans (hg₃.trans hg₄)
    have U : Uprooted (Parks g c label ctx₄.locals) g c start :=
      ⟨hfits, hfits.carved hsev hpart, hpart.part_tidy, hpart.part_entry⟩
    refine (U.tree_works hs.closed hF label ctx₄).bind ?_
    rintro _ _ ⟨ctx₆, body, hg₆, rfl, rfl, hbuilt⟩
    refine (storeStack_spec _ n₁.inputStack).bind ?_
    rintro store ctx₇ ⟨hg₇, hstore⟩
    refine (loadStack_spec _ n.inputStack).bind ?_
    rintro load ctx' ⟨hg₈, hload⟩
    refine (Succeeds.works (replaced_works hs.tidy hs.closed hsev hpart _) _).bind ?_
    rintro g' ctx' ⟨rfl, hrep⟩
    have hgrows : ctx.Grows ctx' := hgrows₄.trans (hg₆.outside.trans (hg₇.trans hg₈))
    refine .pure ⟨hgrows, some c, hchosen, nofun, fun c' hc' => ?_⟩
    cases hc'
    refine ⟨_, _, _, rfl, hrep, rfl, fun plain hf hsound => ?_⟩
    have hfresh : (ctx.regime plain).Lacks label :=
      hg₂.lacks.1 (hlabel.fresh (hg₁.fine hf) plain)
    have hflag' := ((hflag (hg₂.valid hf.valid)).since hg₂.locals).mono hg₄.locals
    have hcarved := (hfits.carved (hsev.mono fun _ _ _ h => h.leaves hsound first) hpart)
    have P : Potted plain ctx g c label first ctx₄ start :=
      ⟨⟨hfits, hcarved, U.tidy, U.entry⟩, hgrows₄, hflag', hfresh⟩
    obtain ⟨p, T, hB, rfl⟩ := hbuilt (hgrows₄.valid hf.valid)
    have B : Built (ctx₄.inside label) start [] .unconditional (ctx'.inside label) p T :=
      hB.mono P.tidy (hg₆.reenter (hg₇.trans hg₈))
    have hstack : n₁.inputStack = b.inputStack := hin₁.inputStack
    rw [hstack] at hstore hrep
    exact P.shortened hf hsound hgrows B (hstore.mono hg₈.locals) hload hF hb hbm hrep

/-- **A graph whose start is carved out is smaller and does the same.** -/
theorem extractStart_works (hf : ctx.Fine) (hs : g.Sound ctx plain) (hF : g.chart.Forked) :
    Succeeds (extractStart g) ctx fun r ctx' =>
      ctx.Grows ctx' ∧ ∀ g', r = some g' → Shortened plain ctx g ctx' g' := by
  refine (extractStart_spec hs.toConsistent hF ctx).mono ?_
  rintro r ctx' ⟨hgrows, found, _, hnone, hsome⟩
  refine ⟨hgrows, fun g' hg' => ?_⟩
  cases found with
  | none => exact absurd (hnone rfl) (by simp [hg'])
  | some c =>
    obtain ⟨g'', _, _, hr, _, _, hshort⟩ := hsome c rfl
    cases hr.symm.trans hg'
    exact hshort plain hf hs

end Structurer
