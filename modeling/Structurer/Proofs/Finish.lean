/-
**The end of a graph is carved out.**

Control that comes into the end of a graph stays there, and there are no cycles in it.  So the end is
solved as a tree that is entered by flags.  The rest leaves by jumps, each of which raises the flag of the
node it goes to, and the tree goes on at that node.
-/

import Structurer.Proofs.Cutting
import Structurer.Proofs.Ends
import Structurer.Proofs.Tree

namespace Structurer

open Engine Fallible Iteration Machine Chart Structurer.Graph List

variable {ctx ctx' : Context} {plain : Prop} {ending rest : Graph} {label : LoopLabel}
  {first : LocalId}

/-! ### Nodes that reach no cycle -/

namespace Finish

variable {g : Graph} {finish : List NodeId} {fl : Flags} {id : NodeId} {e : NodeId × LocalId}

/-- Some nodes that control does not leave, and that can be ranked. -/
structure Fits (g : Graph) (finish : List NodeId) : Prop where
  nodup : finish.Nodup
  live : ∀ id ∈ finish, g.chart.Live id
  closed : ∀ {p id}, p ∈ finish → g.chart.Targets p id → id ∈ finish
  ranked : ∃ rank : NodeId → Nat, ∀ {p id}, p ∈ finish → g.chart.Targets p id → rank p < rank id

theorem ends_fits (hg : g.Tidy) (hC : g.chart.Closed) : Works g.ends (Fits g) := by
  refine (mem_ends hC.landing).mono ?_
  rintro finish ⟨hsub, hmem⟩
  obtain ⟨rank, hrank⟩ := Chart.exists_rank hC.landing fun {id} => live_iff_mem.1
  refine ⟨hsub.nodup hg.nodup, fun id hid => live_iff_mem.2 (hsub.subset hid), fun {p id} hp ht => ?_,
    rank, fun hp => hrank ((hmem _).1 hp).2⟩
  exact (hmem id).2 ⟨live_iff_mem.1 (hC.landing ht), fun hid =>
    ((hmem p).1 hp).2 (Chart.circles_iff.2 ⟨id, ht, hid⟩)⟩

theorem isWorthIt_works (hlive : ∀ id ∈ finish, g.chart.Live id) :
    Works (isWorthIt g finish) fun _ => True := by
  rcases finish with _ | ⟨id, _ | ⟨id', finish⟩⟩
  · exact .pure trivial
  · obtain ⟨b, hb⟩ := hlive id (mem_singleton_self id)
    exact (works_node hb).bind fun _ _ => .pure trivial
  · exact .pure trivial

theorem indicesOf_works (hlive : ∀ id ∈ finish, g.chart.Live id) :
    Works (indicesOf g finish) fun indices => indices.map (·.1) = finish := by
  have hindex : ∀ id ∈ finish, (do return (id, (← g.node id).index) : Except Fault (NodeId × Nat)) =
      .ok (id, ((g.get? id).map (·.index)).getD 0) := by
    intro id hid
    obtain ⟨b, hb⟩ := hlive id hid
    obtain ⟨n, hn, _⟩ := get?_of_block? hb
    rw [node_eq_ok_iff.2 hn, hn]
    rfl
  refine .of_eq (mapM_eq_ok hindex) ?_
  rw [map_map]
  exact map_id' _

/-! ### Flags for the nodes of the end -/

def passage (finish : List NodeId) (label : LoopLabel) (first : LocalId) (flags : Flags) : Passage :=
  ⟨label, first, flags, fun n => n ∈ finish ∧ flags.lookup n ≠ none⟩

def triples : Triples (StateT Flags EngineM) (Flags × Context) where
  Ends x c Q := Succeeds (x.run c.1) c.2 fun e ctx => Q e.1 (e.2, ctx)
  pure h := Succeeds.pure h
  lift h hQ := ((Succeeds.works h _).bind fun a _ ha => .pure (ha.1 ▸ hQ a ha.2))
  bind hx hf := by
    rw [StateT.run_bind]
    exact hx.bind fun e ctx he => hf e.1 (e.2, ctx) he

/-- What making flags does: flags that were there stay, and all of them are variables of their own. -/
structure Flagging (finish : List NodeId) (known : Locals) (label : LoopLabel) (first : LocalId)
    (c c' : Flags × Context) : Prop where
  grows : c.2.Grows c'.2
  lookup : ∀ {n f}, c.1.lookup n = some f → c'.1.lookup n = some f
  signposted : c.2.locals.Valid → (passage finish label first c.1).Signposted known c.2.locals →
    (passage finish label first c'.1).Signposted known c'.2.locals

section Flagging

variable {known : Locals} {flag : LocalId} {c c' c'' : Flags × Context}

theorem Flagging.refl (c : Flags × Context) : Flagging finish known label first c c :=
  ⟨.refl _, id, fun _ h => h⟩

theorem Flagging.trans (h : Flagging finish known label first c c')
    (h' : Flagging finish known label first c' c'') : Flagging finish known label first c c'' where
  grows := h.grows.trans h'.grows
  lookup hf := h'.lookup (h.lookup hf)
  signposted hv hs := h'.signposted (h.grows.valid hv) (h.signposted hv hs)

theorem Flagging.of_grows (h : ctx.Grows ctx') :
    Flagging finish known label first (fl, ctx) (fl, ctx') where
  grows := h
  lookup := id
  signposted _ hs := ⟨hs.first.mono h.locals, fun he => ⟨(hs.flag he).1.mono h.locals, (hs.flag he).2⟩,
    hs.unique⟩

theorem lookup_concat (target : NodeId) (n : NodeId) :
    (fl ++ [(target, flag)]).lookup n = (fl.lookup n).or (if n = target then some flag else none) := by
  rw [lookup_append]
  by_cases hn : n = target
  · simp [hn]
  · have hne : (n == target) = false := by simpa using hn
    simp [hn, List.lookup_cons, hne]

theorem Flagging.add {target : NodeId} (h : ctx.Grows ctx') (hknown : known.Extends ctx.locals)
    (hflag : ctx.locals.Flag ctx'.locals flag) :
    Flagging finish known label first (fl, ctx) (fl ++ [(target, flag)], ctx') where
  grows := h
  lookup hf := by
    rw [lookup_concat, hf]
    rfl
  signposted _ hs := by
    have hnew : ∀ {i v}, ctx.locals.get? i = some v → i ≠ flag := by
      rintro i v hi rfl
      rw [hflag.unknown] at hi
      cases hi
    obtain ⟨v, hv, _⟩ := hs.first.integer
    have hold : ∀ {n}, fl.lookup n ≠ some flag := by
      intro n hn
      obtain ⟨v, hv, _⟩ := (hs.flag (mem_of_lookup hn)).1.integer
      exact hnew hv rfl
    refine ⟨hs.first.mono h.locals, fun {e} he => ?_, fun {n m f} hn hm => ?_⟩
    · rcases mem_append.1 he with he | he
      · exact ⟨(hs.flag he).1.mono h.locals, (hs.flag he).2⟩
      · cases mem_singleton.1 he
        exact ⟨hflag.since hknown, (hnew hv).symm⟩
    · have hn : (fl ++ [(target, flag)]).lookup n = some f := hn
      have hm : (fl ++ [(target, flag)]).lookup m = some f := hm
      rw [lookup_concat, Option.or_eq_some_iff] at hn hm
      have hlast : ∀ {k}, (if k = target then some flag else none) = some f → k = target ∧ f = flag := by
        intro k hk
        split at hk
        next heq => exact ⟨heq, by cases hk; rfl⟩
        next => cases hk
      rcases hn with hn | ⟨_, hn⟩ <;> rcases hm with hm | ⟨_, hm⟩
      · exact hs.unique hn hm
      · exact absurd ((hlast hm).2 ▸ hn) hold
      · exact absurd ((hlast hn).2 ▸ hm) hold
      · rw [(hlast hn).1, (hlast hm).1]

theorem ends_lift {α : Type} {x : EngineM α} {Q : α → Context → Prop} (h : Succeeds x ctx Q) :
    triples.Ends (liftM x) (fl, ctx) fun a c => c.1 = fl ∧ Q a c.2 :=
  h.bind fun _ _ ha => Succeeds.pure ⟨rfl, ha⟩

variable {indices : List (NodeId × Nat)}

theorem flagOf_spec (finish : List NodeId) (label : LoopLabel) (first : LocalId) {target : NodeId}
    (hindex : target ∈ indices.map (·.1)) (hv : c.2.locals.Valid) (hknown : known.Extends c.2.locals) :
    triples.Ends (flagOf indices target) c fun flag c' =>
      Flagging finish known label first c c' ∧ c'.1.lookup target = some flag := by
  unfold flagOf
  have hget : triples.Ends (get : StateT Flags EngineM Flags) c fun fl c' => fl = c.1 ∧ c' = c :=
    Succeeds.pure ⟨rfl, rfl⟩
  refine triples.bind hget ?_
  rintro _ c ⟨rfl, rfl⟩
  cases hl : c.1.lookup target with
  | some flag => exact triples.pure ⟨.refl c, hl⟩
  | none =>
    obtain ⟨index, hindex⟩ := mem_keys_iff.1 hindex
    refine triples.bind (triples.lift (.of_eq (entryOf_eq_ok_iff.2 hindex) rfl) (Q := fun _ c' => c' = c)
      fun _ _ => rfl) ?_
    rintro _ c rfl
    refine triples.bind (ends_lift (freshFlag_spec _ _)) ?_
    rintro flag ⟨fl, ctx'⟩ ⟨rfl, hgrows, hflag⟩
    replace hflag := hflag hv
    have hmodify : triples.Ends (modify (· ++ [(target, flag)]) : StateT Flags EngineM Unit)
        (c.1, ctx') fun _ c' => c' = (c.1 ++ [(target, flag)], ctx') := Succeeds.pure rfl
    refine triples.bind hmodify ?_
    rintro _ _ rfl
    refine triples.pure ⟨.add hgrows hknown hflag, ?_⟩
    rw [lookup_concat, hl]
    simp

abbrev Jumps (R : Regime) (G : Chart) (finish : List NodeId) (label : LoopLabel) (first : LocalId)
    (c : Flags × Context) : StackType → NodeId → Body → Prop :=
  (passage finish label first c.1).Leaves R G c.2.locals

variable {R : Regime} {stack : StackType} {n : NodeId} {code : Body}

theorem Jumps.mono (h : Flagging finish known label first c c')
    (hj : Jumps R g.chart finish label first c stack n code) :
    Jumps R g.chart finish label first c' stack n code := by
  obtain ⟨⟨hn, hflag⟩, parked, store, hfits, hb, hstore, rfl⟩ := hj
  obtain ⟨f, hf⟩ := Option.ne_none_iff_exists'.1 hflag
  refine ⟨⟨hn, by rw [h.lookup hf]; simp⟩, parked, store, hfits, hb, hstore.mono h.grows.locals, ?_⟩
  simp only [passage, Passage.raise, hf, h.lookup hf]

theorem jump_spec (hn : n ∈ finish) (hindex : n ∈ indices.map (·.1)) (hv : c.2.locals.Valid)
    (hknown : known.Extends c.2.locals)
    (hfits : ∀ b, g.chart.block? n = some b → R.Fits stack b.inputStack) :
    triples.Ends (jump indices label stack n) c fun code c' =>
      Flagging finish known label first c c' ∧ Jumps R g.chart finish label first c' stack n code := by
  refine triples.bind (flagOf_spec finish label first hindex hv hknown) ?_
  rintro flag ⟨fl, ctx'⟩ ⟨hflagging, hflag⟩
  refine triples.bind (ends_lift (storeStack_spec ctx' stack)) ?_
  rintro store ⟨fl, ctx''⟩ ⟨rfl, hgrows, hstore⟩
  refine triples.pure ⟨hflagging.trans (.of_grows hgrows), ⟨hn, ?_⟩, stack, store, .refl _ _, hfits,
    hstore, ?_⟩
  · show fl.lookup n ≠ none
    rw [hflag]
    simp
  · have hraise : (passage finish label first fl).raise n = [.i32Const 1, .localSet flag] := by
      unfold Passage.raise passage
      rw [hflag]
    rw [hraise, append_assoc]
    rfl

/-- **The edges into the end become jumps.** -/
theorem cutAll_spec (label : LoopLabel) (first : LocalId) (hs : g.Sound ctx plain)
    (hindices : indices.map (·.1) = finish) (hv : c.2.locals.Valid)
    (hknown : ctx.locals.Extends c.2.locals) :
    triples.Ends ((g.ids.filter (· ∉ finish)).foldlM (cutNode finish indices label) g) c fun g₁ c' =>
      Flagging finish ctx.locals label first c c' ∧
        g.Severed (Jumps (ctx.regime plain) g.chart finish label first c') (· ∈ finish)
          (g.ids.filter (· ∉ finish)) g₁ := by
  refine Severed.foldlM (T := triples) (r := Flagging finish ctx.locals label first)
    (J := Jumps (ctx.regime plain) g.chart finish label first) Flagging.refl Flagging.trans ?_
    (hs.tidy.nodup.filter _) hs.tidy
  intro done g₁ id c₁ hle hid hnot hsev
  obtain ⟨b, hb⟩ := live_iff_mem.2 (mem_filter.1 hid).1
  refine triples.bind (triples.lift (works_node ((hsev.outside hnot).trans hb)) (Q := fun n c₂ =>
    c₂ = c₁ ∧ n.block = b) fun n hn => ⟨rfl, hn.2⟩) ?_
  rintro n c₁ ⟨rfl, rfl⟩
  refine Severed.inlineExits (T := triples) (J := Jumps (ctx.regime plain) g.chart finish label first)
    Flagging.refl Flagging.trans Jumps.mono hsev hb hnot fun m hm hleaving c₂ hle₂ => ?_
  have hgrows := (hle.trans hle₂).grows
  have hmem : m ∈ finish := by simpa using hleaving
  exact jump_spec hmem (hindices.symm ▸ hmem) (hgrows.valid hv) (hknown.trans hgrows.locals)
    fun b' hb' => hs.typed.edges hb hm hb'

end Flagging

/-! ### The two halves -/

section Halves

variable {J : StackType → NodeId → Body → Prop} {g₁ : Graph} {head : NodeId}

abbrev Kept (finish : List NodeId) (i j : NodeId) : Prop := j = i ∧ i ∉ finish

section

variable (hsev : g.Severed J (· ∈ finish) (g.ids.filter (· ∉ finish)) g₁)

include hsev

theorem block_eq_of_mem (hid : id ∈ finish) : g₁.chart.block? id = g.chart.block? id :=
  hsev.outside fun hmem => by simpa [hid] using (mem_filter.1 hmem).2

theorem exists_inlined (hid : id ∉ finish) {b : Block} (hb : g.chart.block? id = some b) :
    ∃ b', g₁.chart.block? id = some b' ∧ Inlined J (Kept finish) id b b' := by
  have hmem : id ∈ g.ids.filter (· ∉ finish) :=
    mem_filter.2 ⟨live_iff_mem.1 ⟨b, hb⟩, by simpa using hid⟩
  obtain ⟨b', hb', hin⟩ := hsev.inside hmem hb
  refine ⟨b', hb', hin.weaken fun {n n'} _ hn => ⟨hn.1, by simpa using hn.2⟩⟩

theorem exists_of_inlined (hid : id ∉ finish) {b' : Block} (hb' : g₁.chart.block? id = some b') :
    ∃ b, g.chart.block? id = some b ∧ Inlined J (Kept finish) id b b' := by
  have hlive : g.chart.Live id := by
    by_cases hmem : id ∈ g.ids.filter (· ∉ finish)
    · exact live_iff_mem.2 (mem_filter.1 hmem).1
    · exact ⟨b', (hsev.outside hmem).symm.trans hb'⟩
  obtain ⟨b, hb⟩ := hlive
  obtain ⟨b₁, hb₁, hin⟩ := exists_inlined hsev hid hb
  cases hb'.symm.trans hb₁
  exact ⟨b, hb, hin⟩

end

theorem Fits.splitOff_works (h : Fits g finish)
    (hsev : g.Severed J (· ∈ finish) (g.ids.filter (· ∉ finish)) g₁) (hhead : head ∈ finish) :
    Works (g₁.splitOff finish head) fun r => ∃ ending rest, r = .ok (ending, rest) ∧
      Parted g₁ finish head ending rest := by
  refine hsev.tidy.splitOff_works hhead h.nodup (fun id hid => ?_) fun p id hp => ?_
  · obtain ⟨b, hb⟩ := h.live id hid
    exact ⟨b, (block_eq_of_mem hsev hid).trans hb⟩
  · obtain ⟨b', hb', hid⟩ := hp
    by_cases hmem : p ∈ finish
    · rw [block_eq_of_mem hsev hmem] at hb'
      exact iff_of_true hmem (h.closed hmem ⟨b', hb', hid⟩)
    · obtain ⟨b, hb, hin⟩ := exists_of_inlined hsev hmem hb'
      obtain ⟨_, n, _, rfl, hn⟩ := hin.of_mem hid
      exact iff_of_false hmem hn

theorem carved_rest (hsev : g.Severed J (· ∈ finish) (g.ids.filter (· ∉ finish)) g₁)
    (hpart : Parted g₁ finish head ending rest) : Carved J (Kept finish) g.chart rest.chart where
  block := by
    rintro i j b ⟨rfl, hj⟩ hb
    rw [hpart.rest_block, if_neg hj]
    exact exists_inlined hsev hj hb
  cover := by
    rintro j ⟨b', hb'⟩
    rw [hpart.rest_block] at hb'
    split at hb'
    · cases hb'
    next hj =>
      obtain ⟨b, hb, _⟩ := exists_of_inlined hsev hj hb'
      exact ⟨j, ⟨rfl, hj⟩, b, hb⟩

theorem ids_renamed (hpart : Parted g₁ finish head ending rest) :
    ending.ids = finish.map (renamed finish) := by
  rw [hpart.part_ids]
  refine ext_getElem (by simp) fun k hk hk' => ?_
  simp only [length_map, length_range] at hk
  simp [renamed, hpart.nodup.idxOf_getElem k hk]

end Halves

/-! ### The flags of the tree -/

def entryFlags (finish : List NodeId) (flags : Flags) : List (NodeId × LocalId) :=
  finish.filterMap fun old => (flags.lookup old).map fun flag => (renamed finish old, flag)

theorem entryFlags_eq (hids : ending.ids = finish.map (renamed finish)) :
    ((finish.zip ending.ids).filterMap fun (old, new) =>
      (fl.lookup old).map fun flag => (new, flag)) = entryFlags finish fl := by
  rw [hids, ← map_prod_left_eq_zip, filterMap_map]
  rfl

theorem mem_entryFlags (he : e ∈ entryFlags finish fl) :
    ∃ id ∈ finish, fl.lookup id = some e.2 ∧ e.1 = renamed finish id := by
  obtain ⟨id, hid, hmap⟩ := mem_filterMap.1 he
  obtain ⟨flag, hflag, rfl⟩ := Option.map_eq_some_iff.1 hmap
  exact ⟨id, hid, hflag, rfl⟩

theorem lookup_entryFlags (hid : id ∈ finish) :
    (entryFlags finish fl).lookup (renamed finish id) = fl.lookup id := by
  have hpart : ∀ l ⊆ finish, (l.filterMap fun old => (fl.lookup old).map fun flag =>
      (renamed finish old, flag)).lookup (renamed finish id) = if id ∈ l then fl.lookup id else none := by
    intro l hl
    induction l with
    | nil => simp
    | cons old l ih =>
      have hold : old ∈ finish := hl mem_cons_self
      have ih := ih (subset_of_cons_subset hl)
      by_cases heq : id = old
      · subst heq
        cases hf : fl.lookup id with
        | none => simpa [hf] using ih
        | some f => simp [hf]
      · have hne : (renamed finish id == renamed finish old) = false := by
          simpa using fun h => heq (renamed_inj hid h)
        cases hf : fl.lookup old with
        | none => simpa [hf, heq] using ih
        | some f => simpa [hf, heq, List.lookup_cons, hne] using ih
  rw [entryFlags, hpart finish (List.Subset.refl _), if_pos hid]

/-! ### The two halves solved -/

/-- The end and the rest, each a graph of its own. -/
structure Halved (plain : Prop) (ctx : Context) (g : Graph) (finish : List NodeId) (label : LoopLabel)
    (first : LocalId) (fl : Flags) (ctx₁ : Context) (ending rest : Graph) : Prop where
  fits : Fits g finish
  apart : g.entry ∉ finish
  grows : ctx.Grows ctx₁
  fresh : (ctx.regime plain).Lacks label
  issued : label.index < ctx₁.labels.issued
  signposted : (passage finish label first fl).Signposted ctx.locals ctx₁.locals
  carved : Carved ((passage finish label first fl).Leaves (ctx.regime plain) g.chart ctx₁.locals)
    (Kept finish) g.chart rest.chart
  rest_tidy : rest.Tidy
  rest_entry : rest.entry = g.entry
  rest_size : rest.size < g.size
  copied : Carved (fun _ _ _ => False) (Named finish) g.chart ending.chart
  ending_tidy : ending.Tidy
  ending_entry : ∃ head ∈ finish, ending.entry = renamed finish head

theorem Fits.halved {g₁ : Graph} {head : NodeId} {ctx₁ : Context} (h : Fits g finish)
    (hapart : g.entry ∉ finish) (hhead : head ∈ finish) (hgrows : ctx.Grows ctx₁)
    (hfresh : (ctx.regime plain).Lacks label) (hissued : label.index < ctx₁.labels.issued)
    (hsign : (passage finish label first fl).Signposted ctx.locals ctx₁.locals)
    (hsev : g.Severed ((passage finish label first fl).Leaves (ctx.regime plain) g.chart ctx₁.locals)
      (· ∈ finish) (g.ids.filter (· ∉ finish)) g₁)
    (hpart : Parted g₁ finish head ending rest) :
    Halved plain ctx g finish label first fl ctx₁ ending rest where
  fits := h
  apart := hapart
  grows := hgrows
  fresh := hfresh
  issued := hissued
  signposted := hsign
  carved := carved_rest hsev hpart
  rest_tidy := hpart.rest_tidy
  rest_entry := hpart.rest_entry.trans hsev.entry
  rest_size := by
    have hadd := hpart.size_add hsev.tidy
    rw [size_eq_length g₁, hsev.ids, ← size_eq_length] at hadd
    have hpos : 0 < finish.length := length_pos_of_mem hhead
    omega
  copied := hpart.copied (block_eq_of_mem hsev) h.closed
  ending_tidy := hpart.part_tidy
  ending_entry := ⟨head, hhead, hpart.part_entry⟩

section Halved

open LinearTree

variable {ctx₁ ctx₂ ctx'' : Context} {p : Plan} {T : Tree} {K : LocalId → Prop} {w : World}
  {s t : State} {a : NodeId × State}

section

variable (h : Halved plain ctx g finish label first fl ctx₁ ending rest)

include h

theorem Halved.sound_ending (hs : g.Sound ctx plain) : ending.Sound ctx plain := by
  obtain ⟨head, hhead, hentry⟩ := h.ending_entry
  exact h.copied.sound_copy hs h.ending_tidy (h.fits.live head hhead) ⟨hhead, hentry⟩

theorem Halved.forked_ending (hF : g.chart.Forked) : ending.chart.Forked := by
  intro j b' hb'
  exact nodup_region h.copied hF hb'

theorem Halved.ranked_ending :
    ∃ rank : NodeId → Nat, ∀ {p id}, ending.chart.Targets p id → rank p < rank id := by
  obtain ⟨rank, hrank⟩ := h.fits.ranked
  exact ranked_region h.copied fun hp _ ht => hrank hp ht

theorem Halved.flag (hls : ctx₁.locals.Extends ctx'.locals) (he : e ∈ entryFlags finish fl) :
    ctx.locals.Flag ctx'.locals e.2 := by
  obtain ⟨id, _, hflag, _⟩ := mem_entryFlags he
  exact (h.signposted.flag (e := (id, e.2)) (mem_of_lookup hflag)).1.mono hls

theorem Halved.stops_ending (hf : ctx.Fine) (hs : g.Sound ctx plain) (hgrows : ctx₁.Grows ctx₂)
    (B : Built ctx₂ ending (entryFlags finish fl) .flagsOnly ctx' p T) :
    (ctx'.regime plain).Stops [] (treeCode p T ++ [.unreachable]) := by
  have hgrows' := (h.grows.trans hgrows).trans B.grows
  obtain ⟨b, hb⟩ := (h.sound_ending hs).closed.entry
  refine B.stops (R := ctx'.regime plain) h.ending_tidy (h.sound_ending hs).closed rfl
    (hgrows'.valid hf.valid) ((h.sound_ending hs).typed.mono (hgrows'.regime plain)) ?_ hb
  intro f hmem
  obtain ⟨e, he, rfl⟩ := mem_map.1 hmem
  exact (h.flag (hgrows.trans B.grows).locals he).integer

theorem Halved.solveRest_agrees (hf : ctx.Fine) (hs : g.Sound ctx plain)
    {solve solve' : Graph → EngineM Node} (hsolve : SolveBelow plain g.size solve solve') :
    Agrees (withLoop label (solve rest)) (withLoop label (solve' rest)) ctx₁ fun main ctx' =>
      ∃ ctx₂, ctx' = ctx₂.outside label ∧ Solves plain (ctx₁.inside label) rest main ctx₂ := by
  have hfine : (ctx₁.inside label).Fine := (h.grows.fine hf).inside h.issued
  have hrest := h.carved.sound hf hs h.grows h.signposted h.fresh h.rest_tidy ⟨h.rest_entry, h.apart⟩
  exact withLoop_agrees ((hsolve h.rest_size hfine hrest).mono fun _ ctx₂ hsol => ⟨ctx₂, rfl, hsol⟩)

theorem Halved.tree_works (hf : ctx.Fine) (hs : g.Sound ctx plain) (hF : g.chart.Forked)
    (hgrows : ctx₁.Grows ctx₂) :
    Succeeds (solveLinearTree ending (entryFlags finish fl) .flagsOnly) ctx₂ fun r ctx' =>
      ∃ p T, Built ctx₂ ending (entryFlags finish fl) .flagsOnly ctx' p T ∧
        r = some (treeCode p T ++ [.unreachable]) := by
  refine (solveLinearTree_spec ((h.grows.trans hgrows).valid hf.valid) h.ending_tidy
    (h.sound_ending hs).closed (h.forked_ending hF) (entryFlags finish fl) .flagsOnly).mono ?_
  rintro r ctx' ⟨_, hbuilt, hsome⟩
  obtain ⟨rank, hrank⟩ := h.ranked_ending
  obtain ⟨body, rfl⟩ := Option.ne_none_iff_exists'.1 (hsome rank hrank fun h => absurd rfl h)
  obtain ⟨p, T, B, rfl⟩ := hbuilt body rfl
  exact ⟨p, T, B, rfl⟩

/-- **The tree of the end goes on at the node whose flag is raised.** -/
theorem Halved.meets_ending (hf : ctx.Fine) (hs : g.Sound ctx plain) (hF : g.chart.Forked)
    (hstrict : ctx.settings.strictReferences = true) (hgrows : ctx₁.Grows ctx₂)
    (B : Built ctx₂ ending (entryFlags finish fl) .flagsOnly ctx' p T) (hK : ctx'.locals.SlotsAre K)
    (hlanded : (passage finish label first fl).Landed (ctx.regime plain) K g.chart ctx₁.locals a t) :
    g.chart.Tracks K w (fun _ _ => False) a
      (exec w (treeCode p T ++ [.unreachable]) t) := by
  obtain ⟨i, u⟩ := a
  obtain ⟨⟨hi, hflag⟩, hwaits, hraised⟩ := hlanded
  have hgrows' := (h.grows.trans hgrows).trans B.grows
  have hv := hgrows'.valid hf.valid
  have L : Layout (ctx.regime plain) K ending.chart ctx'.locals :=
    ⟨(h.sound_ending hs).typed, (h.sound_ending hs).closed, hstrict, hgrows'.locals, hv, hK⟩
  have S : Sited (ctx.regime plain) K ctx₂ ending (entryFlags finish fl) .flagsOnly ctx' p T := by
    refine ⟨B, h.ending_tidy, h.forked_ending hF, L, (h.grows.trans hgrows).locals, fun e he => ⟨?_, ?_⟩⟩
    · obtain ⟨v, hv, _⟩ := (h.flag hgrows.locals he).integer
      rw [hv]
      simp
    · exact Signal.of_flag (h.sound_ending hs).typed (h.flag (hgrows.trans B.grows).locals he)
  obtain ⟨b, hb, _⟩ := hwaits.good.block
  obtain ⟨b', hb', hin⟩ := h.copied.block ⟨hi, rfl⟩ hb
  have hcalls : Calls (entryFlags finish fl) t (· = renamed finish i) := by
    refine ⟨fun e he => ?_, fun {y f} hy => ?_⟩
    · obtain ⟨id, _, hid, _⟩ := mem_entryFlags he
      exact ⟨_, hraised.flag hid⟩
    · obtain ⟨id, hmem, hid, rfl⟩ := mem_entryFlags (mem_of_lookup hy)
      rw [isSet_iff (hraised.flag hid)]
      by_cases heq : i = id
      · simp [heq]
      · have hne : renamed finish id ≠ renamed finish i := fun h => heq (renamed_inj hmem h).symm
        simp [heq, hne]
  have htree := S.meets_flagged (w := w)
    ((hwaits.mono (hgrows.trans B.grows).locals).other hb hb' hin.inputStack)
    (by rw [lookup_entryFlags hi]; exact hflag) hcalls
  have hrun : Refines Le (ending.chart.walk K w (renamed finish i) u)
      (exec w (treeCode p T ++ [.unreachable]) t) := by
    rw [exec_append]
    exact (htree.andThen fun _ _ h => h.elim).endsAs.refines
  have hcopy := h.copied.refines (K := K) (w := w) hs.typed hs.closed ⟨hi, rfl⟩ hwaits.good le_forget
  exact meets_of_refines (hcopy.le_trans hrun)

end

def code (label : LoopLabel) (first : LocalId) (fl : Flags) (store once endBody : Body) : Body :=
  store ++ clear (fl.map (·.2)) ++ oneShotLoop label first once endBody ++ [.unreachable]

variable {b : Block} {n : Node} {store load : Body}

/-- **The two halves solve the graph.** -/
theorem Halved.solves (h : Halved plain ctx g finish label first fl ctx₁ ending rest)
    (hf : ctx.Fine) (hs : g.Sound ctx plain) (hF : g.chart.Forked)
    (hb : g.chart.block? g.entry = some b) (hsol : Solves plain (ctx₁.inside label) rest n ctx₂)
    (B : Built (ctx₂.outside label) ending (entryFlags finish fl) .flagsOnly ctx' p T)
    (hgrows : ctx'.Grows ctx'') (hload : ctx''.locals.Loads b.inputStack load)
    (hstore : ctx''.locals.Stores b.inputStack store) :
    Solves plain ctx g (.new (code label first fl store (load ++ n.body ++ [.unreachable])
      (treeCode p T ++ [.unreachable])) b.inputStack []) ctx'' := by
  have hgrows₂ : ctx₁.Grows (ctx₂.outside label) := hsol.grows.outside
  have hgrows₁ : ctx₁.Grows ctx'' := (hgrows₂.trans B.grows).trans hgrows
  have hgrows₀ : ctx.Grows ctx'' := h.grows.trans hgrows₁
  have hB := B.mono h.ending_tidy hgrows
  have S : (passage finish label first fl).Signposted ctx.locals ctx''.locals := by
    refine ⟨h.signposted.first.mono hgrows₁.locals, fun he => ?_, h.signposted.unique⟩
    exact ⟨(h.signposted.flag he).1.mono hgrows₁.locals, (h.signposted.flag he).2⟩
  obtain ⟨b', hb', hin⟩ := h.carved.block ⟨rfl, h.apart⟩ hb
  have hb'' : rest.chart.block? rest.entry = some b' := by rw [h.rest_entry, hb']
  refine ⟨hgrows₀, rfl, fun {b₀} hb₀ => ?_, ?_, ?_⟩
  · cases hb.symm.trans hb₀
    exact .refl _ _
  · have hv : (ctx''.regime plain).checker.locals.Valid := hgrows₀.valid hf.valid
    have hle : Regime.Le (ctx''.regime plain) ((ctx''.regime plain).inLoop label []) :=
      Regime.le_inLoop (hgrows₀.lacks.2 h.fresh) []
    have hstore' : (ctx''.regime plain).Leads b.inputStack store [] := Locals.Stores.leads hv hstore
    have hclear : (ctx''.regime plain).Leads [] (clear (fl.map (·.2))) [] := leads_clear fun f hmem => by
      obtain ⟨e, he, rfl⟩ := mem_map.1 hmem
      exact (S.flag he).1.integer
    have honce := hsol.leads_once (B.grows.trans hgrows) hv hb''
      (hin.inputStack.symm ▸ hload)
    have hother : ((ctx''.regime plain).inLoop label []).Leads [] (treeCode p T ++ [.unreachable]) [] :=
      ((h.stops_ending hf hs hgrows₂ hB).mono hle).leads []
    exact ((hstore'.append hclear).append (leads_oneShot S.first.integer honce hother)).stops
      Regime.stops_unreachable
  · intro hplain hstrict hsize K hK w s hg
    have L : Layout (ctx.regime plain) K g.chart ctx''.locals :=
      ⟨hs.typed, hs.closed, hstrict, hgrows₀.locals, hgrows₀.valid hf.valid, hK⟩
    have hls₂ : ctx₂.locals.Extends ctx''.locals := (B.grows.trans hgrows).locals
    have hsize' : rest.size ≤ 2 ^ 31 := Nat.le_trans (Nat.le_of_lt h.rest_size) hsize
    have hdetour := meets_detour (c := passage finish label first fl) (w := w)
      (N := fun _ _ => False) L S h.fresh hb hg hstore
      (fun t hw hlow => h.carved.meets_solved L hf h.grows hgrows₁.locals hls₂ h.signposted h.fresh hsol
        hplain hsize' ⟨h.rest_entry, h.apart⟩ hb hload hw hlow)
      (fun a t hlanded => h.meets_ending hf hs hF hstrict hgrows₂ hB hK hlanded)
      (fun _ _ _ h _ => h)
    show Refines Le _ (exec w (code label first fl store _ _) (s.forget K))
    rw [code, exec_append]
    exact (hdetour.andThen fun _ _ h => h.elim).endsAs.refines


end Halved

end Finish

open Finish LinearTree in
/-- **The tree of the end and what solves the rest solve the graph.** -/
theorem extractFinish_works {g : Graph} (hf : ctx.Fine) (hs : g.Sound ctx plain)
    (hF : g.chart.Forked) {solve solve' : Graph → EngineM Node}
    (hsolve : SolveBelow plain g.size solve solve') :
    Agrees (extractFinish solve g) (extractFinish solve' g) ctx fun r ctx' =>
      ctx.Grows ctx' ∧ ∀ n, r = some n → Solves plain ctx g n ctx' := by
  have hnone : Agrees (pure none : EngineM (Option Node)) (pure none) ctx fun r ctx' =>
      ctx.Grows ctx' ∧ ∀ n, r = some n → Solves plain ctx g n ctx' :=
    (Succeeds.pure ⟨.refl ctx, nofun⟩).agrees
  unfold extractFinish
  refine (Succeeds.works (ends_fits hs.tidy hs.closed) ctx).agrees.bind ?_
  rintro finish ctx ⟨rfl, hfits⟩
  cases finish with
  | nil => exact hnone
  | cons head tail =>
    dsimp only
    generalize hlist : head :: tail = finish at hfits ⊢
    have hhead : head ∈ finish := by simp [← hlist]
    clear hlist
    refine (Succeeds.works (isWorthIt_works hfits.live) ctx).agrees.bind ?_
    rintro worth ctx ⟨rfl, _⟩
    by_cases hworth : (!worth || decide (g.entry ∈ finish)) = true
    · simp only [if_pos hworth]
      exact hnone
    simp only [if_neg hworth]
    have hapart : g.entry ∉ finish := by
      intro hmem
      simp [hmem] at hworth
    refine (Succeeds.emit _).agrees.bind fun _ ctx₁ hg₁ => ?_
    refine (freshLabel_spec ctx₁).agrees.bind fun label ctx₂ hlabel => ?_
    have hg₂ := hg₁.trans hlabel.grows
    refine (freshFlag_spec ctx₂ "firstRun").agrees.bind ?_
    rintro first ctx₃ ⟨hg₃, hflag⟩
    replace hflag := hflag (hg₂.valid hf.valid)
    have hgrows₃ := hg₂.trans hg₃
    have hvalid := hgrows₃.valid hf.valid
    refine (Succeeds.works (indicesOf_works hfits.live) ctx₃).agrees.bind ?_
    rintro indices ctx₃ ⟨rfl, hindices⟩
    have hcut : Succeeds _ _ _ :=
      cutAll_spec label first (c := ([], ctx₃)) hs hindices hvalid hgrows₃.locals
    refine hcut.agrees.bind ?_
    rintro ⟨g₁, fl⟩ ctx₄ ⟨hflagging, hsev⟩
    have hsign := hflagging.signposted hvalid ⟨hflag.since hg₂.locals, nofun, nofun⟩
    refine (Succeeds.works (hfits.splitOff_works hsev hhead) _).agrees.bind ?_
    rintro _ ctx₄ ⟨rfl, ending, rest, rfl, hpart⟩
    have H := hfits.halved hapart hhead (hgrows₃.trans hflagging.grows)
      (hg₂.lacks.1 (hlabel.fresh (hg₁.fine hf) plain))
      (Nat.lt_of_lt_of_le hlabel.issued (hg₃.trans hflagging.grows).issued) hsign hsev hpart
    obtain ⟨b, hb⟩ := hs.closed.entry
    obtain ⟨b', hb', hin⟩ := H.carved.block ⟨rfl, hapart⟩ hb
    refine (Succeeds.works (works_node hb') _).agrees.bind ?_
    rintro n ctx₄ ⟨rfl, _, rfl⟩
    refine (H.solveRest_agrees hf hs hsolve).bind ?_
    rintro main _ ⟨ctx₆, rfl, hsol⟩
    rw [entryFlags_eq (ids_renamed hpart)]
    refine (H.tree_works hf hs hF hsol.grows.outside).agrees.bind ?_
    rintro _ ctx₇ ⟨p, T, B, rfl⟩
    refine (loadStack_spec ctx₇ n.inputStack).agrees.bind ?_
    rintro load ctx₈ ⟨hg₈, hload⟩
    refine (storeStack_spec ctx₈ n.inputStack).agrees.bind ?_
    rintro store ctx₉ ⟨hg₉, hstore⟩
    have hstack : n.inputStack = b.inputStack := hin.inputStack
    rw [hstack] at hload hstore ⊢
    have hsolves := H.solves hf hs hF hb hsol B (hg₈.trans hg₉) (hload.mono hg₉.locals) hstore
    refine (Succeeds.pure ⟨hsolves.grows, fun n' hn' => ?_⟩).agrees
    cases hn'
    exact hsolves

end Structurer
