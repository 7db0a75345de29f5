/-
**The two sides of a separator.**

The front of a separator is entered only through it and never left.  Where the back led to the separator
it now leads to a node that parks the stack and jumps past the loop around the back, so control comes to
the front, once, with the stack of the separator.
-/

import Structurer.Proofs.Cutting

namespace Structurer

open Engine Fallible Iteration Machine Chart Structurer.Graph List

variable {door : NodeId} {front back : Graph}

theorem Locals.Stores.comment {ls : Locals} {stack : StackType} {note code : Body}
    (hnote : note.hasNoCode = true) (h : ls.Stores stack code) : ls.Stores stack (note ++ code) := by
  obtain ⟨note', ids, hnote', rfl, hparked⟩ := h
  refine ⟨note ++ note', ids, ?_, (append_assoc ..).symm, hparked⟩
  simp [Body.hasNoCode] at hnote hnote' ⊢
  grind

namespace Split

variable {g : Graph} {c : Candidate}

/-- A node whose front does not hold the entry and is entered only through the node. -/
structure Fits (g : Graph) (c : Candidate) : Prop where
  live : g.chart.Live c.separator
  reached : Reached g c.separator none c.front
  two : 2 ≤ c.front.length
  apart : g.entry ∉ c.front
  closed : ∀ {p id}, id ∈ c.front → id ≠ c.separator → g.chart.Targets p id → p ∈ c.front

theorem Fits.separator_mem (h : Fits g c) : c.separator ∈ c.front :=
  h.reached.start_mem (by simp)

theorem Fits.separator_ne (h : Fits g c) : c.separator ≠ g.entry := by
  intro he
  exact h.apart (he ▸ h.separator_mem)

theorem Fits.exists_targets (h : Fits g c) : ∃ id, g.chart.Targets c.separator id := by
  by_contra hnone
  have hfront : c.front ⊆ [c.separator] := by
    intro id hid
    rcases Relation.ReflTransGen.cases_head (h.reached.path id hid) with rfl | ⟨x, hx, _⟩
    · exact mem_singleton_self _
    · exact absurd ⟨x, hx⟩ hnone
  have hlen := (subperm_of_subset h.reached.nodup hfront).length_le
  exact absurd h.two (Nat.not_le_of_lt (Nat.lt_succ_of_le hlen))

theorem Fits.of_reached (h : Fits g c) {front : List NodeId} (hfront : Reached g c.separator none front) :
    Fits g ⟨c.separator, front⟩ ∧ c.balance g = Candidate.balance g ⟨c.separator, front⟩ := by
  have hperm : c.front.Perm front := h.reached.perm hfront.nodup hfront.mem_iff
  have hmem : ∀ {id}, id ∈ front ↔ id ∈ c.front := hperm.mem_iff.symm
  refine ⟨⟨h.live, hfront, hperm.length_eq ▸ h.two, mt hmem.1 h.apart, ?_⟩, ?_⟩
  · intro p id hid hne ht
    exact hmem.2 (h.closed (hmem.1 hid) hne ht)
  · unfold Candidate.balance
    rw [hperm.length_eq]

theorem improve_works (hg : g.Tidy) (hC : g.chart.Closed) (best : Option Candidate) {separator : NodeId}
    (hsep : g.chart.Live separator) :
    Works (improve g best separator)
      (Improved (Fits g) (·.separator) (Candidate.balance g) best separator) := by
  obtain ⟨b, hb⟩ := hsep
  unfold improve
  refine (works_node hb).bind fun n hn => ?_
  by_cases hskip : separator = g.entry ∨ n.exit.isRet
  · simp only [if_pos hskip]
    refine .pure (.kept fun c hc hkey => ?_)
    subst hkey
    rcases hskip with hentry | hret
    · exact absurd hentry hc.separator_ne
    · obtain ⟨id, ht⟩ := hc.exists_targets
      rw [targets_iff_of_get? hn.1, Exit.isRet_iff.1 hret] at ht
      cases ht
  simp only [if_neg hskip]
  refine (reachable_works hC.landing ⟨b, hb⟩ none).bind fun front hfront => ?_
  by_cases hbad : front.length < 2 ∨ g.entry ∈ front
  · simp only [if_pos hbad]
    refine .pure (.kept fun c hc hkey => ?_)
    subst hkey
    have hfits := (hc.of_reached hfront).1
    rcases hbad with hshort | hentry
    · exact absurd hfits.two (Nat.not_le_of_lt hshort)
    · exact absurd hentry hfits.apart
  simp only [if_neg hbad]
  refine (hg.isClosed_works hfront.live (some separator)).bind fun closed hclosed => ?_
  cases closed with
  | false =>
    refine .pure (.kept fun c hc hkey => ?_)
    subst hkey
    have hfits := (hc.of_reached hfront).1
    exact absurd (hclosed.2 fun id hid hne p ht => hfits.closed hid (hne <| congrArg some ·) ht) nofun
  | true =>
  simp only [not_or, Nat.not_lt] at hbad
  have hfits : Fits g ⟨separator, front⟩ := ⟨⟨b, hb⟩, hfront, hbad.1, hbad.2, fun {p id} hid hne ht =>
    hclosed.1 rfl id hid (fun heq => hne (Option.some.inj heq)) p ht⟩
  have hmost : ∀ c, Fits g c → c.separator = separator →
      c.balance g ≤ Candidate.balance g ⟨separator, front⟩ := by
    rintro c hc rfl
    exact (hc.of_reached hfront).2.le
  cases best with
  | none => exact .pure (.taken hfits rfl hmost nofun)
  | some best =>
    refine .pure ?_
    split
    next hlarger =>
      refine .taken hfits rfl hmost fun b hb => ?_
      cases hb
      exact hlarger
    next hnot => exact .kept fun c hc hkey => ⟨best, rfl, (hmost c hc hkey).trans (Nat.not_lt.1 hnot)⟩

theorem find_works (hg : g.Tidy) (hC : g.chart.Closed) :
    Works (find g) (Chosen (Fits g) (·.separator) (Candidate.balance g) g.ids) :=
  .choose fun _ hmem best => improve_works hg hC best (live_iff_mem.2 hmem)

theorem Fits.leaves (h : Fits g c) {p id : NodeId} (hp : p ∈ c.front) (ht : g.chart.Targets p id) :
    id ∈ c.front :=
  h.reached.closed p hp id ht (by simp)

theorem Fits.length_lt (h : Fits g c) (hC : g.chart.Closed) : c.front.length < g.size := by
  have hnd : (g.entry :: c.front).Nodup := nodup_cons.2 ⟨h.apart, h.reached.nodup⟩
  have hsub : g.entry :: c.front ⊆ g.ids := by
    intro id hid
    rcases mem_cons.1 hid with rfl | hid
    · exact live_iff_mem.1 hC.entry
    · exact live_iff_mem.1 (h.reached.live id hid)
  have hle := (subperm_of_subset hnd hsub).length_le
  rwa [length_cons, ← size_eq_length] at hle

/-! ### A way out of the back -/

/-- The edges of the back to the separator lead to a new node. -/
structure Rerouted (g : Graph) (c : Candidate) (door : NodeId) (b : Block) (g₁ : Graph) : Prop where
  tidy : g₁.Tidy
  entry : g₁.entry = g.entry
  new : ¬ g.chart.Live door
  size : g₁.size = g.size + 1
  block : g₁.chart.block? door = some b
  front : ∀ {id}, id ∈ c.front → g₁.chart.block? id = g.chart.block? id
  back : ∀ {id}, id ∉ c.front → id ≠ door → g₁.chart.block? id =
    (g.chart.block? id).map fun b => b.withExit (b.exit.retarget c.separator door)

theorem Fits.reroute_works (h : Fits g c) (hg : g.Tidy) (hC : g.chart.Closed) {sep n : Node}
    (hsep : g.get? c.separator = some sep) :
    Works ((sep.inputs.toList.filter (· ∉ c.front)).foldlM
      (fun g' source => g'.redirectEdge source c.separator (g.addNode n).1) (g.addNode n).2)
      (Rerouted g c (g.addNode n).1 n.block) := by
  have hnew : ¬ g.chart.Live ⟨g.nextSerial⟩ := fun hlive =>
    Nat.lt_irrefl _ (hg.issued _ (live_iff_mem.1 hlive))
  obtain ⟨hid, htidy, hchart, hids, _⟩ := hg.addNode n fun p hp => hnew (hC.targets p _ hp)
  have hne : g.nodes ≠ [] := by
    intro hnil
    have hmem := live_iff_mem.1 hC.entry
    simp [ids, hnil] at hmem
  rw [entryWith_of_ne_nil hne] at hchart
  rw [hid]
  have hsource : ∀ p, p ∈ sep.inputs.toList.filter (· ∉ c.front) ↔
      g.chart.Targets p c.separator ∧ p ∉ c.front := by
    intro p
    have hmem : p ∈ sep.inputs.toList ↔ g.chart.Targets p c.separator := hg.mem_inputs_iff hsep
    rw [mem_filter, hmem, decide_eq_true_eq]
  have hlive : ∀ p ∈ sep.inputs.toList.filter (· ∉ c.front), (g.addNode n).2.chart.Live p := by
    intro p hp
    obtain ⟨b, hb, _⟩ := ((hsource p).1 hp).1
    rw [hchart]
    exact (live_insert _).2 (Or.inr ⟨b, hb⟩)
  obtain ⟨g₁, hg₁, htidy₁, hids₁, _, hentry₁, hblock₁⟩ := htidy.redirectSources
    (sep.inputs.nodup.filter _) hlive (f := fun g' source =>
      g'.redirectEdge source c.separator ⟨g.nextSerial⟩) fun _ => rfl
  refine .of_eq hg₁ ⟨htidy₁, ?_, hnew, ?_, ?_, fun {id} hfront => ?_, fun {id} hback hdoor => ?_⟩
  · rw [← chart_entry, hentry₁, hchart]
    rfl
  · rw [size_eq_length, hids₁, hids, length_append, ← size_eq_length, length_singleton]
  · have hnot : (⟨g.nextSerial⟩ : NodeId) ∉ sep.inputs.toList.filter (· ∉ c.front) := by
      intro hmem
      obtain ⟨b, hb, _⟩ := ((hsource _).1 hmem).1
      exact hnew ⟨b, hb⟩
    rw [hblock₁, if_neg hnot, hchart, withEntry_block?, insert_self]
  · have hnot : id ∉ sep.inputs.toList.filter (· ∉ c.front) := fun hmem =>
      ((hsource id).1 hmem).2 hfront
    have hne : id ≠ ⟨g.nextSerial⟩ := by
      rintro rfl
      exact hnew (h.reached.live _ hfront)
    rw [hblock₁, if_neg hnot, hchart, withEntry_block?, insert_of_ne _ hne]
  · rw [hblock₁, hchart, withEntry_block?, insert_of_ne _ hdoor]
    split
    · rfl
    next hnot =>
      exact (map_retarget_of_not (fun ht => hnot ((hsource id).2 ⟨ht, hback⟩)) _).symm

/-! ### The two sides -/

section Sides

variable {J : StackType → NodeId → Body → Prop} {b₀ : Block} {g₁ : Graph}

def Stands (c : Candidate) (door i j : NodeId) : Prop := (j = i ∧ i ∉ c.front) ∨ (i = c.separator ∧ j = door)

theorem Rerouted.not_mem (h : Rerouted g c door b₀ g₁) (hfits : Fits g c) : door ∉ c.front :=
  fun hmem => h.new (hfits.reached.live _ hmem)

theorem Fits.stands (hfits : Fits g c) {p n : NodeId} (hp : p ∉ c.front) (ht : g.chart.Targets p n) :
    Stands c door n (if n = c.separator then door else n) := by
  by_cases hn : n = c.separator
  · rw [if_pos hn]
    exact .inr ⟨hn, rfl⟩
  · rw [if_neg hn]
    exact .inl ⟨rfl, fun hmem => hp (hfits.closed hmem hn ht)⟩

theorem Stands.not_mem {i j : NodeId} (h : Stands c door i j) (hdoor : door ∉ c.front) : j ∉ c.front := by
  obtain ⟨rfl, hi⟩ | ⟨_, rfl⟩ := h
  · exact hi
  · exact hdoor

theorem Rerouted.apart (h : Rerouted g c door b₀ g₁) (hfits : Fits g c) (hexit : b₀.exit = .ret)
    {p id : NodeId} (ht : g₁.chart.Targets p id) : p ∈ c.front ↔ id ∈ c.front := by
  obtain ⟨b, hb, hid⟩ := ht
  by_cases hp : p ∈ c.front
  · rw [h.front hp] at hb
    exact iff_of_true hp (hfits.leaves hp ⟨b, hb, hid⟩)
  by_cases hdoor : p = door
  · subst hdoor
    cases h.block.symm.trans hb
    rw [hexit] at hid
    cases hid
  rw [h.back hp hdoor] at hb
  obtain ⟨b', hb', rfl⟩ := Option.map_eq_some_iff.1 hb
  rw [Block.withExit_exit, Exit.retarget, Exit.outputs_map] at hid
  obtain ⟨n, hn, rfl⟩ := mem_map.1 hid
  exact iff_of_false hp ((hfits.stands hp ⟨b', hb', hn⟩).not_mem (h.not_mem hfits))

theorem Rerouted.splitOff_works (h : Rerouted g c door b₀ g₁) (hfits : Fits g c)
    (hexit : b₀.exit = .ret) :
    Works (g₁.splitOff c.front c.separator) fun r => ∃ front back, r = .ok (front, back) ∧
      Parted g₁ c.front c.separator front back := by
  refine h.tidy.splitOff_works hfits.separator_mem hfits.reached.nodup (fun id hid => ?_)
    fun p id => h.apart hfits hexit
  obtain ⟨b, hb⟩ := hfits.reached.live id hid
  exact ⟨b, (h.front hid).trans hb⟩

theorem Rerouted.carved {bs : Block} {code : Body} {out : StackType}
    (h : Rerouted g c door ⟨code, bs.inputStack, out, .ret⟩ g₁) (hfits : Fits g c)
    (hpart : Parted g₁ c.front c.separator front back) (hbs : g.chart.block? c.separator = some bs)
    (hj : J bs.inputStack c.separator code) : Carved J (Stands c door) g.chart back.chart where
  block := by
    rintro i j b hij hb
    have hnot := hij.not_mem (h.not_mem hfits)
    obtain ⟨rfl, hi⟩ | ⟨rfl, rfl⟩ := hij
    · have hdoor : j ≠ door := by
        rintro rfl
        exact h.new ⟨b, hb⟩
      refine ⟨_, by rw [hpart.rest_block, if_neg hnot, h.back hnot hdoor, hb]; rfl, .kept ?_⟩
      refine Exit.Alike.map (M := Eq) (alike_refl fun _ _ => rfl) fun {n n'} hn heq => ?_
      subst heq
      exact hfits.stands hnot ⟨b, hb, hn⟩
    · cases hbs.symm.trans hb
      exact ⟨_, by rw [hpart.rest_block, if_neg hnot, h.block], .gate hj⟩
  cover := by
    rintro j ⟨b, hb⟩
    rw [hpart.rest_block] at hb
    split at hb
    · cases hb
    next hj =>
      by_cases hdoor : j = door
      · exact ⟨c.separator, .inr ⟨rfl, hdoor⟩, hfits.live⟩
      · rw [h.back hj hdoor] at hb
        obtain ⟨b, hb, _⟩ := Option.map_eq_some_iff.1 hb
        exact ⟨j, .inl ⟨rfl, hj⟩, b, hb⟩

theorem Rerouted.size_lt (h : Rerouted g c door b₀ g₁) (hfits : Fits g c) (hC : g.chart.Closed)
    (hpart : Parted g₁ c.front c.separator front back) : back.size < g.size ∧ front.size < g.size := by
  have hback := hpart.size_add h.tidy
  have hfront : front.size = c.front.length := by
    rw [size_eq_length, hpart.part_ids, length_map, length_range]
  have hsize := h.size
  have htwo := hfits.two
  have hlt := hfits.length_lt hC
  constructor <;> omega

end Sides

/-! ### The two sides solved -/

def passage (c : Candidate) (label : LoopLabel) (first : LocalId) : Passage :=
  ⟨label, first, [], (· = c.separator)⟩

/-- The front and the back, each a graph of its own. -/
structure Divided (plain : Prop) (ctx : Context) (g : Graph) (c : Candidate) (label : LoopLabel)
    (first : LocalId) (door : NodeId) (ctx₁ : Context) (front back : Graph) : Prop where
  fits : Fits g c
  grows : ctx.Grows ctx₁
  fresh : (ctx.regime plain).Lacks label
  signposted : (passage c label first).Signposted ctx.locals ctx₁.locals
  carved : Carved ((passage c label first).Leaves (ctx.regime plain) g.chart ctx₁.locals)
    (Stands c door) g.chart back.chart
  back_tidy : back.Tidy
  back_entry : back.entry = g.entry
  back_size : back.size < g.size
  copied : Carved (fun _ _ _ => False) (Named c.front) g.chart front.chart
  front_tidy : front.Tidy
  front_entry : front.entry = renamed c.front c.separator
  front_size : front.size < g.size

theorem leaves_separator (label : LoopLabel) (first : LocalId) {R : Regime} {ls : Locals} {bs : Block}
    {note leave : Body} (hbs : g.chart.block? c.separator = some bs) (hnote : note.hasNoCode = true)
    (hleave : ls.Stores bs.inputStack leave) :
    (passage c label first).Leaves R g.chart ls bs.inputStack c.separator
      (note ++ leave ++ [.br label]) := by
  refine ⟨rfl, bs.inputStack, note ++ leave, .refl _ _, fun b hb => ?_, hleave.comment hnote, ?_⟩
  · cases hbs.symm.trans hb
    exact .refl _ _
  · simp [Passage.raise, passage]

section Divided

variable {plain : Prop} {ctx ctx₁ ctx₂ ctx₃ ctx' : Context} {label : LoopLabel} {first : LocalId}
  {b bs : Block} {n m : Node} {store load enter : Body} {K : LocalId → Prop} {w : World}
  {s t : State}

theorem Divided.stands_entry (h : Divided plain ctx g c label first door ctx₁ front back) :
    Stands c door g.entry back.entry :=
  .inl ⟨h.back_entry, h.fits.apart⟩

def code (label : LoopLabel) (first : LocalId) (store once enter frontBody : Body) : Body :=
  store ++ oneShotLoop label first once [] ++ enter ++ frontBody

theorem Divided.meets_front (h : Divided plain ctx g c label first door ctx₁ front back)
    (hs : g.Sound ctx plain) (hgrows : ctx.Grows ctx₂) (hsol : Solves plain ctx₂ front m ctx₃)
    (hplain : plain) (hstrict : ctx.settings.strictReferences = true) (hsize : g.size ≤ 2 ^ 31)
    (hK : ctx₃.locals.SlotsAre K) (hg : Good (ctx.regime plain) g.chart (c.separator, s))
    (hle : Le (s.forget K) t) :
    g.chart.Tracks K w (fun _ _ => False) (c.separator, s) (exec w m.body t) := by
  obtain ⟨b, hb, ht⟩ := hg.block
  obtain ⟨b', hb', hin⟩ := h.copied.block ⟨h.fits.separator_mem, rfl⟩ hb
  rw [← h.front_entry] at hb'
  have hgood : Good (ctx₂.regime plain) front.chart (front.entry, s) :=
    ⟨⟨b', hb', by rw [hin.inputStack]; exact ht⟩, hg.proper.mono hgrows.locals.get⟩
  have hcopy := h.copied.refines (K := K) (w := w) hs.typed hs.closed
    ⟨h.fits.separator_mem, h.front_entry⟩ hg le_forget
  have hrun := hsol.refines hplain (by rw [hgrows.settings, hstrict])
    (Nat.le_trans (Nat.le_of_lt h.front_size) hsize) K hK w s hgood
  have hfull := hrun.le_trans (exec_le w m.body hle)
  exact meets_of_refines (hcopy.le_trans hfull)

/-- **What solves the two sides of a separator solves the graph.** -/
theorem Divided.solves (h : Divided plain ctx g c label first door ctx₁ front back) (hf : ctx.Fine)
    (hs : g.Sound ctx plain) (hb : g.chart.block? g.entry = some b)
    (hbs : g.chart.block? c.separator = some bs)
    (hsol : Solves plain (ctx₁.inside label) back n ctx₂)
    (hsol' : Solves plain (ctx₂.outside label) front m ctx₃) (hgrows : ctx₃.Grows ctx')
    (hload : ctx'.locals.Loads b.inputStack load) (hstore : ctx'.locals.Stores b.inputStack store)
    (henter : ctx'.locals.Loads bs.inputStack enter) :
    Solves plain ctx g (.new (code label first store (load ++ n.body ++ [.unreachable]) enter m.body)
      b.inputStack []) ctx' := by
  have hgrows₂ : ctx.Grows (ctx₂.outside label) := h.grows.trans hsol.grows.outside
  have hgrows₃ : (ctx₂.outside label).Grows ctx' := hsol'.grows.trans hgrows
  have hgrows₁ : ctx₁.Grows ctx' := hsol.grows.outside.trans hgrows₃
  have hgrows₀ : ctx.Grows ctx' := h.grows.trans hgrows₁
  have S : (passage c label first).Signposted ctx.locals ctx'.locals :=
    ⟨h.signposted.first.mono hgrows₁.locals, nofun, nofun⟩
  obtain ⟨b', hb', hin⟩ := h.carved.block h.stands_entry hb
  refine ⟨hgrows₀, rfl, fun {b₀} hb₀ => ?_, ?_, ?_⟩
  · cases hb.symm.trans hb₀
    exact .refl _ _
  · have hv : (ctx'.regime plain).checker.locals.Valid := hgrows₀.valid hf.valid
    have hstore' : (ctx'.regime plain).Leads b.inputStack store [] := Locals.Stores.leads hv hstore
    have henter' : (ctx'.regime plain).Leads [] enter bs.inputStack := Locals.Loads.leads hv henter
    have honce := hsol.leads_once hgrows₃ hv hb' (hin.inputStack.symm ▸ hload)
    obtain ⟨bf, hbf, hinf⟩ := h.copied.block ⟨h.fits.separator_mem, rfl⟩ hbs
    rw [← h.front_entry] at hbf
    have hfits : (ctx'.regime plain).Fits bs.inputStack m.inputStack := by
      rw [← hinf.inputStack]
      exact Regime.Fits.mono (hgrows₃.regime plain) (hsol'.input hbf).symm
    have hfront := (hsol'.stops.mono (hgrows.regime plain)).fits hfits
    exact ((hstore'.append (leads_oneShot S.first.integer honce (.nil []))).append henter').stops hfront
  · intro hplain hstrict hsize K hK w s hg
    have L : Layout (ctx.regime plain) K g.chart ctx'.locals :=
      ⟨hs.typed, hs.closed, hstrict, hgrows₀.locals, hgrows₀.valid hf.valid, hK⟩
    have hls₂ : ctx₂.locals.Extends ctx'.locals := hgrows₃.locals
    have hsize' : back.size ≤ 2 ^ 31 := Nat.le_trans (Nat.le_of_lt h.back_size) hsize
    have hpassed := meets_passed (c := passage c label first) (w := w) L S h.fresh rfl hgrows₁.locals hb
      hg hstore
      (fun {i b₁} hi hb₁ => by
        cases hi
        cases hbs.symm.trans hb₁
        exact henter)
      (fun t hw hlow => h.carved.meets_solved L hf h.grows hgrows₁.locals hls₂ h.signposted h.fresh
        hsol hplain hsize' h.stands_entry hb hload hw hlow)
    show Refines Le _ (exec w (code label first store _ _ _) (s.forget K))
    rw [code, exec_append]
    refine (hpassed.andThen ?_).endsAs.refines
    rintro ⟨i, u⟩ t ⟨rfl, hgood, hle⟩
    exact h.meets_front hs hgrows₂ hsol' hplain hstrict hsize (.of_extends hgrows.locals hK) hgood hle

end Divided

end Split

open Split in
/-- **What solves the two sides of a separator solves the graph.** -/
theorem splitRegions_works {plain : Prop} {ctx : Context} {g : Graph} (hf : ctx.Fine)
    (hs : g.Sound ctx plain) {solve solve' : Graph → EngineM Node}
    (hsolve : SolveBelow plain g.size solve solve') :
    Agrees (splitRegions solve g) (splitRegions solve' g) ctx fun r ctx' =>
      ctx.Grows ctx' ∧ ∀ n, r = some n → Solves plain ctx g n ctx' := by
  unfold splitRegions
  refine (Succeeds.works (find_works hs.tidy hs.closed) ctx).agrees.bind ?_
  rintro r ctx ⟨rfl, hfits⟩
  cases r with
  | none => exact (Succeeds.pure ⟨.refl ctx, nofun⟩).agrees
  | some c =>
    replace hfits := hfits.sound rfl
    obtain ⟨bs, hbs⟩ := hfits.live
    refine (Succeeds.works (works_node hbs) _).agrees.bind ?_
    rintro sep ctx ⟨rfl, hsep, rfl⟩
    refine (Succeeds.emit _).agrees.bind fun _ ctx₁ hg₁ => ?_
    refine (freshLabel_spec ctx₁).agrees.bind fun label ctx₂ hlabel => ?_
    have hg₂ := hg₁.trans hlabel.grows
    refine (freshFlag_spec ctx₂ "firstRun").agrees.bind ?_
    rintro first ctx₃ ⟨hg₃, hflag⟩
    replace hflag := hflag (hg₂.valid hf.valid)
    refine (comment_spec ctx₃ _).agrees.bind ?_
    rintro note ctx₃ ⟨rfl, hnote⟩
    refine (storeStack_spec ctx₃ sep.inputStack).agrees.bind ?_
    rintro leave ctx₄ ⟨hg₄, hleave⟩
    have hgrows₄ := hg₂.trans (hg₃.trans hg₄)
    refine (Succeeds.foldlM_works (hfits.reroute_works hs.tidy hs.closed hsep) _).agrees.bind ?_
    rintro g₁ ctx₄ ⟨rfl, hroute⟩
    refine (Succeeds.works (hroute.splitOff_works hfits rfl) _).agrees.bind ?_
    rintro _ ctx₄ ⟨rfl, front, back, rfl, hpart⟩
    have hfresh : (ctx.regime plain).Lacks label :=
      hg₂.lacks.1 (hlabel.fresh (hg₁.fine hf) plain)
    have hcarved := hroute.carved hfits hpart hbs (leaves_separator label first
      (R := ctx.regime plain) hbs hnote hleave)
    obtain ⟨hbackSize, hfrontSize⟩ := hroute.size_lt hfits hs.closed hpart
    have D : Divided plain ctx g c label first _ ctx₄ front back :=
      { fits := hfits
        grows := hgrows₄
        fresh := hfresh
        signposted := ⟨(hflag.since hg₂.locals).mono hg₄.locals, nofun, nofun⟩
        carved := hcarved
        back_tidy := hpart.rest_tidy
        back_entry := hpart.rest_entry.trans hroute.entry
        back_size := hbackSize
        copied := hpart.copied hroute.front hfits.leaves
        front_tidy := hpart.part_tidy
        front_entry := hpart.part_entry
        front_size := hfrontSize }
    obtain ⟨b, hb⟩ := hs.closed.entry
    obtain ⟨b', hb', hin⟩ := hcarved.block D.stands_entry hb
    refine (Succeeds.works (works_node hb') _).agrees.bind ?_
    rintro n ctx₄ ⟨rfl, _, rfl⟩
    have hissued : label.index < ctx₄.labels.issued := Nat.lt_of_lt_of_le hlabel.issued (hg₃.trans hg₄).issued
    have hfine₄ : (ctx₄.inside label).Fine := (hgrows₄.fine hf).inside hissued
    have hback := D.carved.sound hf hs D.grows D.signposted D.fresh D.back_tidy D.stands_entry
    have hfront := D.copied.sound_copy hs D.front_tidy D.fits.live ⟨D.fits.separator_mem, D.front_entry⟩
    refine (withLoop_agrees (Q := fun backNode ctx₅ => ∃ ctx₆, ctx₅ = ctx₆.outside label ∧
      Solves plain (ctx₄.inside label) back backNode ctx₆)
      ((hsolve hbackSize hfine₄ hback).mono fun _ ctx₆ h => ⟨ctx₆, rfl, h⟩)).bind ?_
    rintro backNode _ ⟨ctx₆, rfl, hsol⟩
    have hgrows₆ := hgrows₄.trans hsol.grows.outside
    refine (hsolve hfrontSize (hgrows₆.fine hf) (hfront.grows hgrows₆)).bind ?_
    intro frontNode ctx₇ hsol'
    refine (loadStack_spec ctx₇ n.inputStack).agrees.bind ?_
    rintro load ctx₈ ⟨hg₈, hload⟩
    refine (storeStack_spec ctx₈ n.inputStack).agrees.bind ?_
    rintro store ctx₉ ⟨hg₉, hstore⟩
    refine (loadStack_spec ctx₉ sep.inputStack).agrees.bind ?_
    rintro enter ctx₁₀ ⟨hg₁₀, henter⟩
    have hstack : n.inputStack = b.inputStack := hin.inputStack
    rw [hstack] at hload hstore ⊢
    have hsolves := D.solves hf hs hb hbs hsol hsol' ((hg₈.trans hg₉).trans hg₁₀)
      (hload.mono (hg₉.trans hg₁₀).locals) (hstore.mono hg₁₀.locals) henter
    refine (Succeeds.pure ⟨hsolves.grows, fun n' hn' => ?_⟩).agrees
    cases hn'
    exact hsolves

end Structurer
