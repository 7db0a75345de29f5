/-
**Strategies move code around.**

A strategy takes a graph apart, solves the parts, and puts their code into one body, inside loops with
new labels.  Edges between the parts become jumps to these loops.
-/

import Structurer.Proofs.Dispatch
import Structurer.Proofs.Rules.Rearrange
import Structurer.Proofs.TreeCode

namespace Structurer

open Engine Fallible Code List Body Work

variable {label : LoopLabel} {p : NodeId → Prop} {g g₀ g' g₁ rest : Graph} {id : NodeId} {n : Node}
  {leaving : NodeId → Bool} {ctx ctx' ctxa ctxb : Context}
  {code : List (NodeId × Body)} {store load main : Body} {nodes region finish : List NodeId}

/-! ### Bodies with jumps at their end -/

/-- A body with jumps to a loop put at its end, if the node may have them. -/
structure Cut (label : LoopLabel) (p : NodeId → Prop) (e e' : NodeId × Body) : Prop where
  id : e'.1 = e.1
  jumps : ∃ jumps, marks e'.2 = marks e.2 ++ jumps ∧
    (∀ m ∈ jumps, m = ⟨[], .jump label⟩) ∧ (jumps = [] ∨ p e.1)

namespace Cut

variable {e e' e'' : NodeId × Body} {k : Landmark} {l l' l'' : List (NodeId × Body)} {n n' : Nat}
  {around around' : List LoopLabel}

theorem refl (e : NodeId × Body) : Cut label p e e :=
  ⟨rfl, [], by simp, nofun, .inl rfl⟩

theorem trans (h : Cut label p e e') (h' : Cut label p e' e'') : Cut label p e e'' := by
  obtain ⟨hid, jumps, hmarks, hjumps, hp⟩ := h
  obtain ⟨hid', jumps', hmarks', hjumps', hp'⟩ := h'
  refine ⟨hid'.trans hid, jumps ++ jumps', ?_, ?_, ?_⟩
  · rw [hmarks', hmarks, append_assoc]
  · intro m hm
    exact (mem_append.1 hm).elim (hjumps m) (hjumps' m)
  · rw [hid] at hp'
    rcases hp with rfl | hp
    · rwa [nil_append]
    · exact .inr hp

theorem tally (h : Cut label p e e') (hk : k ≠ .jump label) :
    Body.tally k e'.2 = Body.tally k e.2 := by
  obtain ⟨_, jumps, hmarks, hjumps, _⟩ := h
  have hnone : jumps.countP (·.landmark = k) = 0 := by
    rw [countP_eq_zero]
    intro m hm
    rw [hjumps m hm, decide_eq_true_eq]
    exact fun heq => hk heq.symm
  rw [Body.tally, hmarks, countP_append, hnone, Nat.add_zero, Body.tally]

theorem scoped_of_not (h : Cut label p e e') (hp : ¬ p e.1) (hs : Body.Scoped n around e.2) :
    Body.Scoped n around e'.2 := by
  obtain ⟨_, jumps, hmarks, _, hj⟩ := h
  rcases hj with rfl | hj
  · rw [append_nil] at hmarks
    exact hs.congr hmarks
  · exact absurd hj hp

theorem scoped_inside (h : Cut label p e e') (hl : n ≤ label.index) (hn : n ≤ n')
    (ha : ∀ l, l ∈ around' ↔ l = label ∨ l ∈ around) (hs : Body.Scoped n around e.2) :
    Body.Scoped n' around' e'.2 := by
  obtain ⟨_, jumps, hmarks, hjumps, _⟩ := h
  have hinside : Body.Scoped n' around' e.2 :=
    (hs.enter hl).mono hn fun l => by rw [ha, mem_cons]
  intro m hm
  rw [hmarks] at hm
  rcases mem_append.1 hm with hm | hm
  · exact hinside m hm
  · rw [hjumps m hm]
    exact .inr ((ha label).2 (.inl rfl))

theorem total (h : List.Forall₂ (Cut label p) l l') (hk : k ≠ .jump label) :
    Code.total k l' = Code.total k l := by
  induction h with
  | nil => rfl
  | cons he _ ih => rw [total_cons, total_cons, ih, he.tally hk]

theorem exists_of_mem (h : List.Forall₂ (Cut label p) l l') (he : e' ∈ l') :
    ∃ e ∈ l, Cut label p e e' :=
  exists_of_forall₂ h.flip he

theorem refl_all (l : List (NodeId × Body)) : List.Forall₂ (Cut label p) l l :=
  forall₂_same.2 fun e _ => refl e

theorem trans_all (h : List.Forall₂ (Cut label p) l l') (h' : List.Forall₂ (Cut label p) l' l'') :
    List.Forall₂ (Cut label p) l l'' := by
  induction h generalizing l'' with
  | nil =>
    cases h'
    exact .nil
  | cons he _ ih =>
    cases h' with
    | cons he' h' => exact .cons (he.trans he') (ih h')

end Cut

/-- A graph with jumps put at the end of some bodies. -/
structure Graph.CutTo (label : LoopLabel) (p : NodeId → Prop) (g g' : Graph) : Prop where
  numbered : g'.Numbered
  code : List.Forall₂ (Cut label p) g.code g'.code

theorem Graph.CutTo.refl (hg : g.Numbered) : g.CutTo label p g :=
  ⟨hg, Cut.refl_all _⟩

theorem Graph.CutTo.change {body : Body} {exit : Exit} (jumps : List Mark) (h : g₀.CutTo label p g)
    (hn : g.get? id = some n) (hp : p id)
    (hg' : (g.modify id fun n => { n with body }).setExit id exit = .ok g')
    (hmarks : marks body = marks n.body ++ jumps)
    (hjumps : ∀ m ∈ jumps, m = ⟨[], .jump label⟩) : g₀.CutTo label p g' := by
  obtain ⟨m, hm, hnum, hcode, _⟩ := Graph.change_eq_ok h.numbered hg'
  cases hn.symm.trans hm
  refine ⟨hnum, Cut.trans_all h.code ?_⟩
  rw [hcode, replaced, forall₂_map_right_iff, forall₂_same]
  intro e he
  split
  next hid =>
    have hbody : e = (id, n.body) := by
      obtain ⟨e', he', rfl⟩ := mem_map.1 he
      have hget : g.get? e'.1 = some e'.2 := h.numbered.get?_of_mem he'
      dsimp only at hid
      rw [hid, hn] at hget
      cases Option.some.inj hget
      rw [hid]
    rw [hbody]
    exact ⟨rfl, jumps, hmarks, hjumps, .inr hp⟩
  next => exact .refl e

def JumpsTo (label : LoopLabel) (b : Body) : Prop := ∀ m ∈ marks b, m = ⟨[], .jump label⟩

theorem inlineExits_cuts {m : Type → Type} [Monad m] [MonadLiftT (Except Fault) m]
    {T : ∀ {α : Type}, m α → (α → Prop) → Prop}
    (hpure : ∀ {α : Type} {a : α} {Q : α → Prop}, Q a → T (pure a : m α) Q)
    (hlift : ∀ {α : Type} {x : Except Fault α} {Q : α → Prop}, Ensures x Q → T (liftM x : m α) Q)
    (hbind : ∀ {α β : Type} {x : m α} {f : α → m β} {Q : α → Prop} {P : β → Prop}, T x Q →
      (∀ a, Q a → T (f a) P) → T (x >>= f) P)
    {jump : NodeId → m Body} (hjump : ∀ id, T (jump id) (JumpsTo label)) (hg : g₀.CutTo label p g)
    (hp : p id) : T (inlineExits leaving jump g id) (g₀.CutTo label p) := by
  refine hbind (hlift (Graph.ensures_node g id)) fun n hn => ?_
  have hkeep : T (pure g : m Graph) (g₀.CutTo label p) := hpure hg
  have hmarks_if : ∀ (params results : StackType) (t : Body),
      marks [.cond params results t []] = marks t := by
    intro params results t
    simp [marks_cons]
  dsimp only
  cases he : n.exit with
  | ret => exact hkeep
  | seq next =>
    dsimp only
    split
    · refine hbind (hjump next) fun code hcode => hlift fun g' hg' => ?_
      exact hg.change _ hn hp hg' (marks_append _ _) hcode
    · exact hkeep
  | branch t f =>
    dsimp only
    split
    · refine hbind (hjump t) fun tcode htcode => hbind (hjump f) fun fcode hfcode => hlift fun g' hg' => ?_
      refine hg.change (marks tcode ++ marks fcode) hn hp hg' ?_ ?_
      · simp [marks_cons]
      · intro m hm
        exact (mem_append.1 hm).elim (htcode m) (hfcode m)
    · refine hbind (hjump t) fun code hcode => hlift fun g' hg' => ?_
      refine hg.change (marks code) hn hp hg' ?_ hcode
      rw [marks_append, hmarks_if]
    · refine hbind (hjump f) fun code hcode => hlift fun g' hg' => ?_
      refine hg.change (marks code) hn hp hg' ?_ hcode
      rw [marks_append, hmarks_if, marks_negate]
    · exact hkeep

/-! ### One new loop -/

def Rearranges (solve : Graph → EngineM Node) : Prop :=
  ∀ {g : Graph}, g.Numbered → ∀ id ctx,
    Moves ctx g.code (solve g) fun n code => [(id, n.body)] = code

theorem Rearranges.rearranged {solve : Graph → EngineM Node} (h : Rearranges solve) (hg : g.Numbered)
    (hx : Yields (solve g) ctx n ctx') (id : NodeId) :
    Rearranged ctx ctx' g.code [(id, n.body)] := by
  obtain ⟨_, rfl, hre⟩ := h hg id ctx n ctx' hx
  exact hre

def MayRearrange (g : Graph) (x : EngineM (Option Node)) : Prop :=
  ∀ id ctx, Moves ctx g.code x fun r code => r.elim g.code (fun n => [(id, n.body)]) = code

/-! ### The dispatch loop -/

namespace Graph

theorem code_sortBreadthFirst (hg : g.Numbered) (h : g.sortBreadthFirst = .ok g') :
    g'.Numbered ∧ g'.code.Perm g.code := by
  obtain ⟨nodes, hperm, rfl⟩ := exists_of_sortBreadthFirst hg.nodup h
  have hsame := sameCode_renumber { g with nodes }
  have hcode : ({ g with nodes } : Graph).code.Perm g.code := hperm.map _
  have hids : ({ g with nodes } : Graph).ids.Perm g.ids := hperm.map _
  refine ⟨hsame.numbered ⟨hids.symm.nodup hg.nodup, fun id hid => hg.issued id (hids.subset hid)⟩, ?_⟩
  rw [hsame.code]
  exact hcode

theorem code_fingerprint {maxLen : Nat} {print : String} (hg : g.Numbered)
    (h : g.fingerprint maxLen = .ok (print, g')) : g'.Numbered ∧ g'.code.Perm g.code := by
  obtain ⟨g₁, h₁, h⟩ := bind_eq_ok_iff.1 h
  obtain ⟨parts, _, h⟩ := bind_eq_ok_iff.1 h
  cases h
  exact code_sortBreadthFirst hg h₁

end Graph

namespace Dispatch

variable {cases : List NodeId} {selector : LocalId}

theorem bare_pushNext {exit : Exit} {push : Instruction}
    (h : pushNext? cases exit = .ok (some push)) : Quiet push := by
  obtain ⟨_, h⟩ := pushNext?_eq_ok_iff.1 h
  cases exit <;> cases h <;> simp [Quiet, marks_cons, number]

theorem bare_pushCase {id : NodeId} {push : Instruction} (h : pushCase cases id = .ok push) :
    Quiet push := by
  obtain ⟨_, rfl⟩ := pushCase_eq_ok_iff.1 h
  simp [Quiet, number]

theorem gives_caseOf (cases : List NodeId) (selector : LocalId) (label : LoopLabel) (n : Node) :
    Gives (caseOf cases selector label n) fun b =>
      ∀ id, Cut label (fun _ => True) (id, n.body) (id, b) := by
  refine (gives_loadStack _).bind fun load hload => (gives_comment _).bind fun note hnote => ?_
  refine (Gives.lift (x := pushNext? cases n.exit) fun _ h => h).bind fun push hpush => ?_
  cases push with
  | none =>
    refine .pure fun id => ⟨rfl, [], ?_, nofun, .inl rfl⟩
    simp only [marks_append]
    rw [hload, hnote]
    simp [marks_cons]
  | some push =>
    have hquiet : push.marks = [] := bare_pushNext hpush
    refine (gives_storeStack _).bind fun store hstore => .pure fun id => ?_
    refine ⟨rfl, [⟨[], .jump label⟩], ?_, by simp, .inr trivial⟩
    simp only [marks_append]
    rw [hload, hnote, hstore]
    simp [marks_cons, hquiet]

theorem gives_cases (cases : List NodeId) (selector : LocalId) (label : LoopLabel)
    (nodes : List (NodeId × Node)) :
    Gives (nodes.mapM fun e => caseOf cases selector label e.2) (List.Forall₂
      (fun e b => Cut label (fun _ => True) (e.1, e.2.body) (e.1, b)) nodes) := by
  refine Gives.mapM (fun e => ?_) nodes
  intro ctx b ctx' h
  exact gives_caseOf cases selector label e.2 ctx b ctx' h e.1

theorem gives_prologue (cases : List NodeId) (selector : LocalId) (entry : NodeId) (n : Node) :
    Gives (prologue cases selector entry n) fun b =>
      Bare b ∨ (marks b = marks n.body ∧ entry ∉ cases) := by
  unfold prologue
  split
  next next _ hcontains =>
    refine (gives_comment _).bind fun note hnote => ?_
    refine (Gives.lift (x := pushCase cases next) fun _ h => h).bind fun push hpush => ?_
    have hquiet : push.marks = [] := bare_pushCase hpush
    refine (gives_storeStack _).bind fun store hstore => ?_
    refine .pure (.inr ⟨?_, by simpa using hcontains⟩)
    simp only [marks_append]
    rw [hnote, hstore]
    simp [marks_cons, hquiet]
  next =>
    refine (gives_storeStack _).bind fun store hstore => ?_
    refine (Gives.lift (x := pushCase cases entry) fun _ h => h).bind fun push hpush => .pure (.inl ?_)
    have hquiet : push.marks = [] := bare_pushCase hpush
    rw [Bare, marks_append, hstore]
    simp [marks_cons, hquiet]

end Dispatch

open Dispatch in
theorem rearranged_dispatch {cases : List (NodeId × Body)} {bodies : List Body}
    {before entryBody : Body} {entry : NodeId} (hnd : (code.map (·.1)).Nodup)
    (hcases : cases.Sublist code) (hentry : (entry, entryBody) ∈ code)
    (hbefore : Bare before ∨ (marks before = marks entryBody ∧ entry ∉ cases.map (·.1)))
    (hbodies : List.Forall₂ (fun e b => Cut ctx.labels.fresh.1 (fun _ => True) e (e.1, b)) cases bodies)
    (selector : LocalId) (id : NodeId) :
    Rearranged ctx ctx.labelled code
      [(id, before ++ [.loop ctx.labels.fresh.1 [] [] [.switch selector bodies], .unreachable])] := by
  refine ⟨.labelled ctx, fun hnest hsc => ?_, fun k hk => ?_⟩
  · have hbefore' : Body.Scoped ctx.labelled.labels.issued ctx.labels.openLoops before := by
      rcases hbefore with hbare | ⟨hsame, _⟩
      · exact Body.scoped_of_marks hbare
      · exact ((hsc _ hentry).mono (Nat.le_succ _) fun _ => Iff.rfl).congr hsame
    have hinside : Body.Scoped ctx.labelled.labels.issued (ctx.labels.fresh.1 :: ctx.labels.openLoops)
        [.switch selector bodies] := by
      refine scoped_switch.2 fun b hb => ?_
      obtain ⟨e, he, hcut⟩ := exists_of_forall₂ hbodies.flip hb
      exact hcut.scoped_inside (Nat.le_refl _) (Nat.le_succ _) (fun l => mem_cons)
        (hsc e (hcases.subset he))
    intro e he
    cases mem_singleton.1 he
    refine Body.scoped_append.2 ⟨hbefore', scoped_cons.2 ⟨?_, ?_⟩⟩
    · exact hinside.loop (Nat.lt_succ_self _) hnest.fresh_not_mem [] []
    · exact Body.scoped_of_marks (by simp [marks_cons])
  · have hsum : (bodies.map (Body.tally k)).sum = total k cases := by
      clear hbefore hcases
      induction hbodies with
      | nil => rfl
      | cons h _ ih => rw [map_cons, sum_cons, total_cons, ih, ← h.tally (hk.ne_jump _)]
    have hloop : Body.tally k [.loop ctx.labels.fresh.1 [] [] [.switch selector bodies], .unreachable] =
        total k cases + if .loop ctx.labels.fresh.1 = k then 1 else 0 := by
      rw [← hsum, ← tally_switch selector, ← tally_loop _ [] []]
      exact tally_congr (by simp [marks_cons])
    have hcode : Body.tally k before + total k cases ≤ total k code := by
      rcases hbefore with hbare | ⟨hsame, hnot⟩
      · rw [tally_of_marks hbare, Nat.zero_add]
        exact (hcases.map _).sum_le_sum fun _ _ => Nat.zero_le _
      · rw [tally_congr hsame]
        have hnd' : ((entry, entryBody) :: cases).Nodup := by
          refine nodup_cons.2 ⟨fun h => hnot (mem_map_of_mem h), ?_⟩
          exact hcases.nodup hnd.of_map
        have hle := sum_map_le_of_subset (fun e => Body.tally k e.2) hnd'
          (cons_subset.2 ⟨hentry, hcases.subset⟩)
        rwa [map_cons, sum_cons] at hle
    have hmade := k.made_labelled ctx
    rw [total_cons, total_nil, tally_append, hloop]
    omega

open Dispatch in
theorem dispatch_rearranges (hg : g.Numbered) {entryNode : Node}
    (hentry : g.get? g.entry = some entryNode) {caseNodes : List (NodeId × Node)}
    (hsub : caseNodes.Sublist g.nodes) (id : NodeId) (ctx : Context) :
    Moves ctx g.code (do
      let selector ← freshFlag "lbl"
      let label ← freshLabel
      let before ← prologue (caseNodes.map (·.1)) selector g.entry entryNode
      let bodies ← caseNodes.mapM fun (_, n) => caseOf (caseNodes.map (·.1)) selector label n
      let body := before ++ [.loop label [] [] [.switch selector bodies], .unreachable]
      return Node.new body entryNode.inputStack []) fun n code => [(id, n.body)] = code := by
  refine .skip (freshFlag _) fun selector ctx _ => Brings.label ?_
  refine .step (.refl _) (steps.prologue _ _ _ _) fun before ctx₁ hon h₁ => ?_
  refine .step hon (steps.mapM (fun _ => steps.caseOf _ _ _ _) _) fun bodies ctx₂ hon h₂ => ?_
  have hids : (caseNodes.map fun e => (e.1, e.2.body)).map (·.1) = caseNodes.map (·.1) := by
    simp [Function.comp_def]
  have hbefore := gives_prologue _ _ _ _ _ _ _ h₁
  rw [← hids] at hbefore
  refine .pure ⟨_, rfl, .onward_right ?_ hon⟩
  exact rearranged_dispatch hg.nodup_code (hsub.map _) (Graph.mem_code_of_get? hentry) hbefore
    (forall₂_map_left_iff.2 (gives_cases _ selector _ caseNodes _ _ _ h₂)) selector id

open Dispatch in
theorem flatDispatch_rearranges : Rearranges flatDispatch := by
  intro g hg id ctx
  refine .get (.lift fun e hprint => ?_)
  obtain ⟨print, g'⟩ := e
  obtain ⟨hg', hperm⟩ := Graph.code_fingerprint hg hprint
  refine .skip (emit _) fun _ ctx _ => .skip (recordFallback _ _) fun _ ctx _ => ?_
  refine .lift fun entryNode hnode => ?_
  intro n ctx' hx
  obtain ⟨_, rfl, hre⟩ := dispatch_rearranges hg' (Graph.node_eq_ok_iff.1 hnode) filter_sublist id
    ctx n ctx' hx
  refine ⟨_, rfl, hre.onward, fun hnest hsc => ?_, fun k hk => ?_⟩
  · exact hre.scopes hnest fun e he => hsc e (hperm.subset he)
  · rw [← total_perm hperm]
    exact hre.total k hk

/-! ### The start of a graph -/

theorem jumpsTo_br (h : Bare store) (label : LoopLabel) : JumpsTo label (store ++ [.br label]) := by
  intro m hm
  rw [marks_append, h] at hm
  simpa [marks_cons] using hm

theorem Graph.CutTo.exists_of_dealt {part : Graph} (hcut : g.CutTo label p g₁)
    (hdealt : g₁.Dealt region part rest) :
    (∀ e ∈ part.code, ∃ e₀ ∈ g.code, e₀.1 ∈ region ∧ ∃ id, Cut label p e₀ (id, e.2)) ∧
      ∀ e ∈ rest.code, ∃ e₀ ∈ g.code, e₀.1 ∉ region ∧ Cut label p e₀ e := by
  constructor
  · intro e he
    obtain ⟨id, hid, hmem⟩ := hdealt.part_code e he
    obtain ⟨e₀, he₀, hcut⟩ := Cut.exists_of_mem hcut.code hmem
    refine ⟨e₀, he₀, ?_, id, hcut⟩
    rw [← hcut.id]
    exact hid
  · intro e he
    rw [hdealt.rest_code] at he
    obtain ⟨he, hid⟩ := mem_filter.1 he
    obtain ⟨e₀, he₀, hcut⟩ := Cut.exists_of_mem hcut.code he
    refine ⟨e₀, he₀, ?_, hcut⟩
    rw [← hcut.id]
    simpa using hid

theorem rearranged_start {start : Graph} (hcut : g.CutTo ctx.labels.fresh.1 (· ∈ nodes) g₁)
    (hdealt : g₁.Dealt nodes start rest) {startBody : Body} (hbody : Gathered start.code startBody)
    (hstore : Bare store) (hload : Bare load) (first : LocalId) (id : NodeId) :
    Rearranged ctx ctx.labelled g.code
      (rest.code ++ [(id, store ++ oneShotLoop ctx.labels.fresh.1 first startBody [] ++ load)]) := by
  obtain ⟨hpart, hrest⟩ := hcut.exists_of_dealt hdealt
  refine ⟨.labelled ctx, fun hnest hsc => ?_, fun k hk => ?_⟩
  · have hinside : Body.Scoped ctx.labelled.labels.issued
        (ctx.labels.fresh.1 :: ctx.labels.openLoops) startBody := by
      refine hbody.scopes _ _ fun e he => ?_
      obtain ⟨e₀, he₀, _, id, hcut⟩ := hpart e he
      exact hcut.scoped_inside (Nat.le_refl _) (Nat.le_succ _) (fun l => mem_cons) (hsc e₀ he₀)
    intro e he
    rcases mem_append.1 he with he | he
    · obtain ⟨e₀, he₀, hout, hcut⟩ := hrest e he
      exact hcut.scoped_of_not hout ((hsc e₀ he₀).mono (Nat.le_succ _) fun _ => Iff.rfl)
    · cases mem_singleton.1 he
      refine Body.scoped_append.2 ⟨Body.scoped_append.2 ⟨Body.scoped_of_marks hstore, ?_⟩,
        Body.scoped_of_marks hload⟩
      exact hinside.oneShotLoop (Body.scoped_of_marks marks_nil) (Nat.lt_succ_self _)
        hnest.fresh_not_mem first
  · have hmade := k.made_labelled ctx
    have hgather := hbody.tally k
    have htotal := hdealt.total k
    rw [Cut.total hcut.code (hk.ne_jump _)] at htotal
    rw [total_append, total_cons, total_nil, tally_append, tally_append,
      tally_of_marks hstore, tally_of_marks hload, tally_oneShotLoop, tally_nil]
    omega

theorem code_newEntry (hg : g.Numbered) {exit : Exit}
    (h : (g.addNode n).2.setExit (g.addNode n).1 exit = .ok g') (entry : NodeId) :
    ({ g' with entry }.renumber : Graph).Numbered ∧
      ({ g' with entry }.renumber : Graph).code = g.code ++ [(⟨g.nextSerial⟩, n.body)] := by
  have hsame := (Graph.sameCode_setExit h).1
  have hentry : Graph.SameCode g' { g' with entry } := ⟨rfl, rfl⟩
  have hall := (hsame.trans hentry).trans (Graph.sameCode_renumber _)
  refine ⟨hall.numbered (hg.addNode n), ?_⟩
  rw [hall.code, Graph.code_addNode]

theorem extractStart_rearranges (hg : g.Numbered) (ctx : Context) :
    Moves ctx g.code (extractStart g) fun r => (r.getD g).Bears := by
  refine .lift fun found _ => ?_
  cases found with
  | none => exact .pure ⟨hg, rfl⟩
  | some c =>
    obtain ⟨middle, nodes⟩ := c
    refine .lift fun middleNode _ => .skip (emit _) fun _ ctx _ => Brings.label ?_
    refine .step (.refl _) (freshFlag _) fun first ctx₁ hon _ => ?_
    refine .step hon (steps.foldlM (fun _ _ => steps.inlineExits
      (fun _ => Work.bind (steps.storeStack _) fun _ => Work.pure _) _ _) _ _)
      fun g₁ ctx₂ hon h₁ => .lift fun entryNode _ => .lift fun region h₂ => ?_
    have hcut : g.CutTo ctx.labels.fresh.1 (· ∈ nodes) g₁ :=
      Gives.foldlM (fun _ _ hid hg => inlineExits_cuts (T := Gives) Gives.pure Gives.lift Gives.bind
        (fun _ => (gives_storeStack _).bind fun store hstore => .pure (jumpsTo_br hstore _)) hg hid)
        (.refl hg) _ _ _ h₁
    cases region with
    | error e => exact .bind fun _ _ _ => .throw
    | ok parts =>
      obtain ⟨start, rest⟩ := parts
      have hdealt := Graph.dealt_of_splitOff h₂ hcut.numbered
      refine .step hon (withLoop _ (steps.solveLinearTree start [] .unconditional))
        fun startBody ctx₃ hon h₃ => ?_
      obtain ⟨ctxIn, htree, _⟩ := yields_withLoop.1 h₃
      cases startBody with
      | none => exact .bind fun _ _ _ => .throw
      | some startBody =>
        refine .step hon (steps.storeStack _) fun store ctx₄ hon h₄ => ?_
        refine .step hon (steps.loadStack _) fun load ctx₅ hon h₅ => .lift fun g₂ h₆ => ?_
        have hgather := solveLinearTree_gathers hdealt.part_numbered _ _ _ _ _ htree startBody rfl
        obtain ⟨hnum, hcode⟩ := code_newEntry hdealt.rest_numbered h₆ _
        refine .pure ⟨_, ⟨hnum, hcode⟩, .onward_right ?_ hon⟩
        exact rearranged_start hcut hdealt hgather (gives_storeStack _ _ _ _ h₄)
          (gives_loadStack _ _ _ _ h₅) first _

/-! ### Parts solved inside a loop -/

theorem scoped_main (hnest : ctx.Nested) (hon : ctx.labelled.Onward ctxa)
    (hmain : Rearranged (ctxa.inside ctx.labels.fresh.1) ctxb code [(id, main)])
    (hsc : Scoped ctxa.labels.issued (ctx.labels.fresh.1 :: ctx.labels.openLoops) code) :
    Body.Scoped ctxb.labels.issued (ctx.labels.fresh.1 :: ctx.labels.openLoops) main := by
  have hopen : ∀ l, l ∈ (ctxa.inside ctx.labels.fresh.1).labels.openLoops ↔
      l ∈ ctx.labels.fresh.1 :: ctx.labels.openLoops := by
    intro l
    show l ∈ ctxa.labels.openLoops ++ [ctx.labels.fresh.1] ↔ _
    rw [hon.openLoops, mem_append, mem_singleton, mem_cons]
    exact or_comm
  have hissued : ∀ l ∈ ctx.labels.fresh.1 :: ctx.labels.openLoops, l.index < ctxa.labels.issued := by
    intro l hl
    refine Nat.lt_of_lt_of_le ?_ hon.issued
    rcases mem_cons.1 hl with rfl | hl
    · exact Nat.lt_succ_self _
    · exact Nat.lt_succ_of_lt (hnest l hl)
  have hinside := hmain.scopes (fun l hl => hissued l ((hopen l).1 hl)) fun e he =>
    (hsc e he).mono (Nat.le_refl _) fun l => (hopen l).symm
  exact (hinside _ (.head _)).mono (Nat.le_refl _) hopen

theorem total_main {k : Landmark} (hon : ctx.labelled.Onward ctxa)
    (hmain : Rearranged (ctxa.inside ctx.labels.fresh.1) ctxb code [(id, main)])
    (hk : k.Kept ctx.settings) :
    Body.tally k main + k.made ctxa.labels.issued ≤ total k code + k.made ctxb.labels.issued := by
  have hsettings : (ctxa.inside ctx.labels.fresh.1).settings = ctx.settings := hon.settings
  have h := hmain.total k (hsettings ▸ hk)
  rw [total_cons, total_nil] at h
  exact h

theorem issued_withLoop (h : ctx' = ctx.outside label) :
    ctx'.labels.issued = ctx.labels.issued := by
  rw [h]
  exact Labels.issued_leave _ _

/-! ### The end of a graph -/

def GivesFrom {σ α : Type} (x : StateT σ EngineM α) (Q : α → Prop) : Prop :=
  ∀ s, Gives (x.run s) fun e => Q e.1

namespace GivesFrom

variable {σ α β : Type}

theorem pure {a : α} {Q : α → Prop} (h : Q a) : GivesFrom (Pure.pure a : StateT σ EngineM α) Q :=
  fun _ => Gives.pure h

theorem bind {x : StateT σ EngineM α} {f : α → StateT σ EngineM β} {Q : α → Prop} {P : β → Prop}
    (hx : GivesFrom x Q) (hf : ∀ a, Q a → GivesFrom (f a) P) : GivesFrom (x >>= f) P := by
  intro s
  rw [StateT.run_bind]
  exact (hx s).bind fun e he => hf e.1 he e.2

theorem ofEngine {x : EngineM α} {Q : α → Prop} (h : Gives x Q) :
    GivesFrom (liftM x : StateT σ EngineM α) Q :=
  fun _ => h.bind fun _ ha => .pure ha

theorem lift {x : Except Fault α} {Q : α → Prop} (h : Ensures x Q) :
    GivesFrom (liftM x : StateT σ EngineM α) Q :=
  fun _ => (Gives.lift h).bind fun _ ha => .pure ha

end GivesFrom

namespace Finish

theorem gives_jump (indices : List (NodeId × Nat)) (label : LoopLabel) (stack : StackType)
    (target : NodeId) : GivesFrom (jump indices label stack target) (JumpsTo label) := by
  refine GivesFrom.bind (Q := fun _ => True) (fun _ => (Gives.trivial _).mono fun _ _ => trivial)
    fun flag _ => ?_
  refine (GivesFrom.ofEngine (gives_storeStack stack)).bind fun store hstore => .pure ?_
  intro m hm
  rw [marks_append, hstore] at hm
  simpa [marks_cons] using hm

theorem gives_cutNodes {indices : List (NodeId × Nat)} (hg : g₀.CutTo label p g)
    (hp : ∀ id ∈ nodes, p id) :
    GivesFrom (nodes.foldlM (cutNode finish indices label) g) (g₀.CutTo label p) := by
  induction nodes generalizing g with
  | nil =>
    rw [foldlM_nil]
    exact .pure hg
  | cons id nodes ih =>
    rw [foldlM_cons]
    refine GivesFrom.bind (Q := g₀.CutTo label p) ?_ fun g' hg' =>
      ih hg' fun j hj => hp j (.tail _ hj)
    refine GivesFrom.bind (Q := fun _ => True) (.lift fun _ _ => trivial) fun n _ => ?_
    exact inlineExits_cuts (T := GivesFrom) GivesFrom.pure GivesFrom.lift GivesFrom.bind
      (gives_jump indices label _) hg (hp id (.head _))

end Finish

theorem rearranged_finish {ending : Graph} (hon : ctx.labelled.Onward ctxa)
    (hon' : ctxa.Onward ctx') (hissued : ctxb.labels.issued ≤ ctx'.labels.issued)
    (hcut : g.CutTo ctx.labels.fresh.1 (· ∉ finish) g₁) (hdealt : g₁.Dealt finish ending rest)
    {endBody clear : Body}
    (hmain : Rearranged (ctxa.inside ctx.labels.fresh.1) ctxb rest.code [(id, main)])
    (hend : Gathered ending.code endBody) (hstore : Bare store) (hload : Bare load)
    (hclear : Bare clear) (first : LocalId) (id' : NodeId) :
    Rearranged ctx ctx' g.code
      [(id', store ++ clear ++ oneShotLoop ctx.labels.fresh.1 first (load ++ main ++ [.unreachable])
        endBody ++ [.unreachable])] := by
  obtain ⟨hpart, hrest⟩ := hcut.exists_of_dealt hdealt
  have hall := (Context.Onward.labelled ctx).trans (hon.trans hon')
  have hmarks : Body.marks (store ++ clear ++ oneShotLoop ctx.labels.fresh.1 first
      (load ++ main ++ [.unreachable]) endBody ++ [.unreachable]) =
      Body.marks (oneShotLoop ctx.labels.fresh.1 first main endBody) := by
    unfold Bare at hstore hload hclear
    simp [marks_cons, marks_oneShotLoop, hstore, hload, hclear]
  have hnew : ctx.labels.issued < ctxa.labels.issued := hon.issued
  refine ⟨hall, fun hnest hsc => ?_, fun k hk => ?_⟩
  · have hmain' := scoped_main hnest hon hmain fun e he => by
      obtain ⟨e₀, he₀, _, hcut⟩ := hrest e he
      exact hcut.scoped_inside (Nat.le_refl _) (Nat.le_of_lt hnew) (fun l => mem_cons) (hsc e₀ he₀)
    have hend' : Body.Scoped ctx'.labels.issued (ctx.labels.fresh.1 :: ctx.labels.openLoops) endBody := by
      refine hend.scopes _ _ fun e he => ?_
      obtain ⟨e₀, he₀, hin, id, hcut⟩ := hpart e he
      exact (hcut.scoped_of_not (not_not.2 hin) (hsc e₀ he₀)).enter (Nat.le_refl _) |>.mono hall.issued
        fun _ => Iff.rfl
    intro e he
    cases mem_singleton.1 he
    exact .congr hmarks ((hmain'.mono hissued fun _ => Iff.rfl).oneShotLoop hend'
      (Nat.lt_of_lt_of_le hnew hon'.issued) hnest.fresh_not_mem first)
  · have hmade := k.made_labelled ctx
    have hmade' := k.made_mono hon.issued
    have hmade'' := k.made_mono hissued
    have hgather := hend.tally k
    have htotal := hdealt.total k
    have hsolved := total_main hon hmain hk
    rw [Cut.total hcut.code (hk.ne_jump _)] at htotal
    rw [total_cons, total_nil, tally_congr hmarks, tally_oneShotLoop]
    omega

theorem extractFinish_rearranges {solve : Graph → EngineM Node} (hwork : ∀ g, Work (solve g))
    (hsolve : Rearranges solve) (hg : g.Numbered) : MayRearrange g (extractFinish solve g) := by
  intro id ctx
  refine Moves.lift fun finish _ => ?_
  cases finish with
  | nil => exact .pure rfl
  | cons head tail =>
    refine .lift fun worth _ => ?_
    dsimp only
    split
    · exact .pure rfl
    · refine .skip (emit _) fun _ ctx _ => Brings.label ?_
      refine .step (.refl _) (freshFlag _) fun first ctx₁ hon _ => .lift fun indices _ => ?_
      refine .step hon (steps.from_foldlM (steps.cutNode _ _ _) _ _ _) fun e ctx₂ hon h₁ => ?_
      obtain ⟨g₁, flags⟩ := e
      refine .lift fun region h₂ => ?_
      have hcut : g.CutTo ctx.labels.fresh.1 (· ∉ head :: tail) g₁ :=
        Finish.gives_cutNodes (.refl hg) (fun id hid => by simpa using (mem_filter.1 hid).2)
          _ _ _ _ h₁
      cases region with
      | error e => exact .bind fun _ _ _ => .throw
      | ok parts =>
        obtain ⟨ending, rest⟩ := parts
        have hdealt := Graph.dealt_of_splitOff h₂ hcut.numbered
        refine .lift fun entryNode _ => ?_
        refine .step (.refl _) (withLoop _ (hwork rest)) fun main ctx₃ hon' h₃ => ?_
        obtain ⟨ctxb, hmain, hctxb⟩ := yields_withLoop.1 h₃
        refine .step (.refl _) (steps.solveLinearTree _ _ _) fun endBody ctx₄ hlast h₄ => ?_
        cases endBody with
        | none => exact .bind fun _ _ _ => .throw
        | some endBody =>
          refine .step hlast (steps.loadStack _) fun load ctx₅ hlast h₅ => ?_
          refine .step hlast (steps.storeStack _) fun store ctx₆ hlast h₆ => ?_
          have hgather := solveLinearTree_gathers hdealt.part_numbered _ _ _ _ _ h₄ endBody rfl
          have hissued : ctxb.labels.issued ≤ ctx₆.labels.issued := by
            rw [← issued_withLoop hctxb]
            exact hlast.issued
          refine .pure ⟨_, rfl, ?_⟩
          exact rearranged_finish hon (hon'.trans hlast) hissued hcut hdealt
            (hsolve.rearranged hdealt.rest_numbered hmain id) hgather (gives_storeStack _ _ _ _ h₆)
            (gives_loadStack _ _ _ _ h₅) (marks_clear _) first id

/-! ### Two halves -/

namespace Graph

theorem walk_ensures {P Q : NodeId → Prop}
    (hnode : ∀ id n, Q id → g.get? id = some n → P id ∧ ∀ j ∈ n.outputs, Q j) {avoid : Option NodeId}
    {fuel : Nat} {reached queue : List NodeId} (hreached : ∀ id ∈ reached, P id)
    (hqueue : ∀ id ∈ queue, Q id) :
    Ensures (g.walk avoid fuel reached queue) fun found => ∀ id ∈ found, P id := by
  fun_induction g.walk avoid fuel reached queue with
  | case1 | case2 => exact .pure hreached
  | case3 reached fuel id queue ih =>
    refine (ensures_node g id).bind fun n hn => ?_
    obtain ⟨hid, hout⟩ := hnode id n (hqueue id (.head _)) hn
    refine ih n (fun j hj => ?_) fun j hj => ?_
    · rcases mem_append.1 hj with hj | hj
      · exact hreached j hj
      · exact mem_singleton.1 hj ▸ hid
    · rcases mem_enqueue.1 hj with hj | ⟨hj, _, _⟩
      · exact hqueue j (.tail _ hj)
      · exact hout j hj

end Graph

namespace Split

theorem find_ensures (g : Graph) : Ensures (find g) fun r => ∀ c, r = some c → c.front ⊆ g.ids := by
  refine Ensures.foldlM (I := fun r : Option Candidate => ∀ c, r = some c → c.front ⊆ g.ids)
    (fun best separator hbest => ?_) (fun _ h => by cases h)
  refine (Ensures.trivial _).bind fun n _ => ?_
  dsimp only
  split
  · exact .pure hbest
  · refine Ensures.bind (Q := fun front => front ⊆ g.ids)
      (Graph.walk_ensures (Q := fun _ => True)
        (fun id n _ hn => ⟨Graph.mem_ids_iff.2 ⟨n, hn⟩, fun _ _ => trivial⟩) nofun fun _ _ => trivial)
      fun front hfront => ?_
    split
    · exact .pure hbest
    refine (Ensures.trivial _).bind fun closed _ => ?_
    split
    · exact .pure hbest
    · split
      · refine .pure fun c hc => ?_
        cases hc
        exact hfront
      · refine .pure fun c hc => ?_
        split at hc
        · cases hc
          exact hfront
        · exact hbest c hc

end Split

theorem rearranged_split {ctxc : Context} {front back : Graph} {exit : NodeId} {leave : Body}
    (hon : ctx.labelled.Onward ctxa) (hon' : ctxa.Onward ctxc)
    (hissued : ctxb.labels.issued ≤ ctxc.labels.issued) (hcode : g₁.code = code ++ [(exit, leave)])
    (hexit : exit ∉ region) (hleave : JumpsTo ctx.labels.fresh.1 leave)
    (hdealt : g₁.Dealt region front back) {backBody frontBody load' : Body} {id' : NodeId}
    (hback : Rearranged (ctxa.inside ctx.labels.fresh.1) ctxb back.code [(id, backBody)])
    (hfront : Rearranged ctxc ctx' front.code [(id', frontBody)]) (hstore : Bare store)
    (hload : Bare load) (hload' : Bare load') (first : LocalId) (id'' : NodeId) :
    Rearranged ctx ctx' code
      [(id'', store ++ oneShotLoop ctx.labels.fresh.1 first (load ++ backBody ++ [.unreachable]) [] ++
        load' ++ frontBody)] := by
  have hhalf := (Context.Onward.labelled ctx).trans (hon.trans hon')
  have hall := hhalf.trans hfront.onward
  have hmarks : Body.marks (store ++ oneShotLoop ctx.labels.fresh.1 first
      (load ++ backBody ++ [.unreachable]) [] ++ load' ++ frontBody) =
      Body.marks (oneShotLoop ctx.labels.fresh.1 first backBody [] ++ frontBody) := by
    unfold Bare at hstore hload hload'
    simp [marks_cons, marks_oneShotLoop, hstore, hload, hload']
  have hnew : ctx.labels.issued < ctxa.labels.issued := hon.issued
  have hin : ∀ e ∈ front.code, ∃ id, (id, e.2) ∈ code := by
    intro e he
    obtain ⟨id, hid, hmem⟩ := hdealt.part_code e he
    rw [hcode] at hmem
    rcases mem_append.1 hmem with hmem | hmem
    · exact ⟨id, hmem⟩
    · cases mem_singleton.1 hmem
      exact absurd hid hexit
  refine ⟨hall, fun hnest hsc => ?_, fun k hk => ?_⟩
  · have hback' := scoped_main hnest hon hback fun e he => by
      rw [hdealt.rest_code, hcode] at he
      rcases mem_append.1 (mem_filter.1 he).1 with he | he
      · exact ((hsc e he).enter (Nat.le_refl _)).mono (Nat.le_of_lt hnew) fun _ => Iff.rfl
      · cases mem_singleton.1 he
        intro m hm
        rw [hleave m hm]
        exact .inr (.head _)
    have hfront' : Body.Scoped ctx'.labels.issued ctx.labels.openLoops frontBody := by
      rw [← hhalf.openLoops]
      refine hfront.scopes (hhalf.nested hnest) (fun e he => ?_) _ (.head _)
      obtain ⟨id, hmem⟩ := hin e he
      rw [hhalf.openLoops]
      exact (hsc _ hmem).mono hhalf.issued fun _ => Iff.rfl
    intro e he
    cases mem_singleton.1 he
    refine .congr hmarks (Body.scoped_append.2 ⟨?_, hfront'⟩)
    exact (hback'.mono (Nat.le_trans hissued hfront.onward.issued) fun _ => Iff.rfl).oneShotLoop
      (Body.scoped_of_marks marks_nil)
      (Nat.lt_of_lt_of_le hnew (Nat.le_trans hon'.issued hfront.onward.issued)) hnest.fresh_not_mem first
  · have hmade := k.made_labelled ctx
    have hmade' := k.made_mono hon.issued
    have hmade'' := k.made_mono hissued
    have hsolved := total_main hon hback hk
    have hsolved' := hfront.total k (hhalf.settings ▸ hk)
    have htotal := hdealt.total k
    have hleave' : Body.tally k leave = 0 := by
      rw [Body.tally, countP_eq_zero]
      intro m hm
      rw [hleave m hm, decide_eq_true_eq]
      exact fun heq => hk.ne_jump _ heq.symm
    rw [hcode, total_append, total_cons, total_nil, hleave'] at htotal
    rw [total_cons, total_nil] at hsolved' ⊢
    rw [tally_congr hmarks, tally_append, tally_oneShotLoop, tally_nil]
    dsimp only at hsolved'
    omega

theorem splitRegions_rearranges {solve : Graph → EngineM Node} (hwork : ∀ g, Work (solve g))
    (hsolve : Rearranges solve) (hg : g.Numbered) : MayRearrange g (splitRegions solve g) := by
  intro id ctx
  refine Moves.lift fun found hfind => ?_
  have hfound := Split.find_ensures g _ hfind
  cases found with
  | none => exact .pure rfl
  | some c =>
    obtain ⟨separator, front⟩ := c
    have hsub : front ⊆ g.ids := hfound _ rfl
    refine .lift fun separatorNode _ => .skip (emit _) fun _ ctx _ => Brings.label ?_
    refine .step (.refl _) (freshFlag _) fun first ctx₁ hon _ => ?_
    refine .step hon (steps.comment _) fun note ctx₂ hon h₁ => ?_
    refine .step hon (steps.storeStack _) fun leave ctx₃ hon h₂ => ?_
    refine .step hon (steps.foldlM (fun _ _ => Work.lift _) _ _) fun g₁ ctx₄ hon h₃ => ?_
    refine .lift fun region h₄ => ?_
    have hleave : JumpsTo ctx.labels.fresh.1 (note ++ leave ++ [.br ctx.labels.fresh.1]) := by
      refine jumpsTo_br ?_ _
      rw [Bare, marks_append, gives_comment _ _ _ _ h₁, gives_storeStack _ _ _ _ h₂]
      rfl
    have hadd := hg.addNode (.new (note ++ leave ++ [.br ctx.labels.fresh.1]) separatorNode.inputStack [])
    have hsame : Graph.SameCode _ g₁ :=
      Gives.foldlM (fun g' _ _ h => .lift fun g'' h' => h.trans (Graph.sameCode_redirectEdge h').1)
        (Graph.SameCode.refl _) _ _ _ h₃
    cases region with
    | error e => exact .bind fun _ _ _ => .throw
    | ok parts =>
      obtain ⟨frontGraph, back⟩ := parts
      have hdealt := Graph.dealt_of_splitOff h₄ (hsame.numbered hadd)
      refine .lift fun entryNode _ => ?_
      refine .step (.refl _) (withLoop _ (hwork back)) fun backNode ctx₅ hloop h₅ => ?_
      obtain ⟨ctxb, hback, hctxb⟩ := yields_withLoop.1 h₅
      refine .bind fun frontNode ctx₆ h₆ => ?_
      refine .step (.refl _) (steps.loadStack _) fun load ctx₇ hlast h₇ => ?_
      refine .step hlast (steps.storeStack _) fun store ctx₈ hlast h₈ => ?_
      refine .step hlast (steps.loadStack _) fun load' ctx₉ hlast h₉ => ?_
      have hexit : (⟨g.nextSerial⟩ : NodeId) ∉ front :=
        fun h => Nat.lt_irrefl _ (hg.issued _ (hsub h))
      refine .pure ⟨_, rfl, .onward_right ?_ hlast⟩
      exact rearranged_split hon hloop (Nat.le_of_eq (issued_withLoop hctxb).symm)
        (hsame.code.trans (Graph.code_addNode g _)) hexit hleave hdealt
        (hsolve.rearranged hdealt.rest_numbered hback id)
        (hsolve.rearranged hdealt.part_numbered h₆ id) (gives_storeStack _ _ _ _ h₈)
        (gives_loadStack _ _ _ _ h₇) (gives_loadStack _ _ _ _ h₉) first id

/-! ### Solving -/

theorem Code.Gathered.rearranged {b : Body} (h : Gathered code b) (ctx : Context) (id : NodeId) :
    Rearranged ctx ctx code [(id, b)] := by
  refine ⟨.refl ctx, fun _ hsc e he => ?_, fun k _ => ?_⟩
  · cases mem_singleton.1 he
    exact h.scopes _ _ hsc
  · rw [total_cons, total_nil]
    exact Nat.add_le_add_right (h.tally k) _

theorem gathered_of_mem {e : NodeId × Body} (h : e ∈ code) : Gathered code e.2 := by
  refine ⟨fun _ _ hsc => hsc e h, fun k => ?_⟩
  have hle := sum_map_le_of_subset (fun e => Body.tally k e.2) (nodup_singleton e)
    (cons_subset.2 ⟨h, nil_subset _⟩)
  rwa [map_singleton, sum_singleton] at hle

theorem solveWithin_rearranges (depth : Nat) : Rearranges (solveWithin depth) := by
  induction depth with
  | zero => exact flatDispatch_rearranges
  | succ depth ih =>
    have hwork := checks.solveWithin depth
    intro g hg id ctx
    rw [solveWithin]
    refine (reduce_rearranges hg ctx).bind fun r code ctx hr => ?_
    obtain ⟨hg₁, rfl⟩ := hr
    cases r with
    | rejected g₁ e => exact Brings.throw
    | solved g₁ =>
      refine .lift fun e h => Brings.pure ⟨_, rfl, ?_⟩
      exact (gathered_of_mem (Graph.mem_code_of_get? (Graph.removeNode_cases h).1)).rearranged _ _
    | stuck g₁ changed =>
      have hsame := Graph.sameCode_renumber g₁
      have hg₂ := hsame.numbered hg₁
      show Moves ctx g₁.code _ _
      rw [← hsame.code]
      refine .skip (emit _) fun _ ctx _ => ?_
      refine .skip (steps.solveLinearTree _ _ _) fun body ctx h₁ => ?_
      cases body with
      | some body =>
        have hgather := solveLinearTree_gathers hg₂ _ _ _ _ _ h₁ body rfl
        refine .skip (emit _) fun _ ctx _ => .lift fun entryNode _ => ?_
        exact Brings.pure ⟨_, rfl, hgather.rearranged _ _⟩
      | none =>
        refine (extractStart_rearranges hg₂ ctx).bind fun start code ctx hstart => ?_
        obtain ⟨hg₃, rfl⟩ := hstart
        cases start with
        | some g₃ => exact .skip (checkStep _ _) fun _ ctx _ => ih hg₃ id ctx
        | none =>
          refine (extractFinish_rearranges hwork ih hg₂ id ctx).bind fun finish code ctx hfinish => ?_
          subst hfinish
          cases finish with
          | some m => exact .pure rfl
          | none =>
            refine .skip (emit _) fun _ ctx _ => ?_
            refine (splitRegions_rearranges hwork ih hg₂ id ctx).bind fun halves code ctx hhalves => ?_
            subst hhalves
            cases halves with
            | some m => exact .pure rfl
            | none => exact flatDispatch_rearranges hg₂ id ctx

/-- **Solving a graph moves its code into one body.** -/
theorem solve_rearranges : Rearranges solve :=
  fun hg => solveWithin_rearranges _ hg

end Structurer
