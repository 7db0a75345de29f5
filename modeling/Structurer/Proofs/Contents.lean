/-
**The code of a graph.**

Where only the code of a graph matters, a graph is a list of bodies under their identifiers.  Each
operation on graphs does something simple to this list: a body is replaced, taken out or added, and
operations on edges leave the list as it is.
-/

import Structurer.Proofs.Landmarks
import Structurer.Proofs.Reach

namespace Structurer

open Fallible List

variable {exit : Exit} {old new : NodeId} {sources gone region : List NodeId}

/-! ### Lists of bodies -/

namespace Code

variable {l l' : List (NodeId × Body)} {id : NodeId} {b b' : Body} {k : Landmark} {n : Nat}
  {around : List LoopLabel} {e : NodeId × Body}

def replaced (id : NodeId) (b : Body) (l : List (NodeId × Body)) : List (NodeId × Body) :=
  l.map fun e => if e.1 = id then (id, b) else e

def total (k : Landmark) (l : List (NodeId × Body)) : Nat := (l.map fun e => Body.tally k e.2).sum

def Scoped (n : Nat) (around : List LoopLabel) (l : List (NodeId × Body)) : Prop :=
  ∀ e ∈ l, Body.Scoped n around e.2

@[simp] theorem total_append : total k (l ++ l') = total k l + total k l' := by simp [total]

@[simp] theorem total_cons (e : NodeId × Body) :
    total k (e :: l) = Body.tally k e.2 + total k l := by simp [total]

@[simp] theorem total_nil : total k [] = 0 := rfl

theorem total_perm (h : l.Perm l') : total k l = total k l' := (h.map _).sum_eq

theorem exists_append (hnd : (l.map (·.1)).Nodup) (h : (id, b) ∈ l) :
    ∃ pre post, l = pre ++ (id, b) :: post ∧ (∀ e ∈ pre, e.1 ≠ id) ∧ ∀ e ∈ post, e.1 ≠ id := by
  obtain ⟨pre, post, rfl⟩ := append_of_mem h
  rw [map_append, map_cons, nodup_append] at hnd
  obtain ⟨_, hpost, hdisj⟩ := hnd
  refine ⟨pre, post, rfl, fun e he => ?_, fun e he heq => ?_⟩
  · exact hdisj e.1 (mem_map_of_mem he) id (.head _)
  · have hmem : e.1 ∈ post.map (·.1) := mem_map_of_mem he
    rw [heq] at hmem
    exact (nodup_cons.1 hpost).1 hmem

theorem replaced_of_ne (h : ∀ e ∈ l, e.1 ≠ id) : replaced id b l = l := by
  refine (map_congr_left fun e he => ?_).trans l.map_id
  exact if_neg (h e he)

theorem total_replaced (hnd : (l.map (·.1)).Nodup) (h : (id, b) ∈ l) (b' : Body) :
    total k (replaced id b' l) + Body.tally k b = total k l + Body.tally k b' := by
  obtain ⟨pre, post, rfl, hpre, hpost⟩ := exists_append hnd h
  have hmid : replaced id b' (pre ++ (id, b) :: post) = pre ++ (id, b') :: post := by
    rw [replaced, map_append, map_cons, if_pos rfl]
    exact congrArg₂ (· ++ (id, b') :: ·) (replaced_of_ne hpre) (replaced_of_ne hpost)
  rw [hmid]
  simp only [total_append, total_cons]
  omega

theorem total_without (hnd : (l.map (·.1)).Nodup) (h : (id, b) ∈ l) :
    total k (l.filter (·.1 ≠ id)) + Body.tally k b = total k l := by
  obtain ⟨pre, post, rfl, hpre, hpost⟩ := exists_append hnd h
  have hpre' : pre.filter (·.1 ≠ id) = pre := filter_eq_self.2 fun e he => by simp [hpre e he]
  have hpost' : post.filter (·.1 ≠ id) = post :=
    filter_eq_self.2 fun e he => by simp [hpost e he]
  rw [filter_append, filter_cons_of_neg (by simp), hpre', hpost']
  simp only [total_append, total_cons]
  omega

theorem total_withoutAll (gone : List (NodeId × Body)) (hnd : (l.map (·.1)).Nodup)
    (hgone : (gone.map (·.1)).Nodup) (h : ∀ e ∈ gone, e ∈ l) :
    total k (l.filter (·.1 ∉ gone.map (·.1))) + total k gone = total k l := by
  induction gone generalizing l with
  | nil => simp
  | cons e gone ih =>
    rw [map_cons, nodup_cons] at hgone
    have hhere := total_without (k := k) hnd (h e (.head _))
    have hlater : total k ((l.filter (·.1 ≠ e.1)).filter (·.1 ∉ gone.map (·.1))) + total k gone =
        total k (l.filter (·.1 ≠ e.1)) := by
      refine ih ((filter_sublist.map _).nodup hnd) hgone.2 fun e' he' => ?_
      refine mem_filter.2 ⟨h e' (.tail _ he'), ?_⟩
      rw [decide_eq_true_eq]
      intro heq
      exact hgone.1 (heq ▸ mem_map_of_mem he')
    have hsame : l.filter (·.1 ∉ (e :: gone).map (·.1)) =
        (l.filter (·.1 ≠ e.1)).filter (·.1 ∉ gone.map (·.1)) := by
      rw [filter_filter]
      refine filter_congr fun e' _ => ?_
      rw [Bool.eq_iff_iff]
      simp only [map_cons, mem_cons, not_or, Bool.and_eq_true, decide_eq_true_eq, ne_eq]
      exact and_comm
    rw [hsame, total_cons]
    omega

theorem total_filter_le (p : NodeId × Body → Bool) : total k (l.filter p) ≤ total k l := by
  induction l with
  | nil => simp
  | cons e l ih =>
    by_cases h : p e = true
    · rw [filter_cons_of_pos h, total_cons, total_cons]
      omega
    · rw [filter_cons_of_neg h, total_cons]
      omega

theorem mem_replaced_of_ne (he : e ∈ l) (h : e.1 ≠ id) : e ∈ replaced id b l :=
  mem_map.2 ⟨e, he, if_neg h⟩

theorem mem_of_mem_replaced (h : e ∈ replaced id b l) : e = (id, b) ∨ e ∈ l := by
  obtain ⟨e', he', rfl⟩ := mem_map.1 h
  split
  · exact .inl rfl
  · exact .inr he'

theorem Scoped.replaced (h : Scoped n around l) (hb : Body.Scoped n around b) (id : NodeId) :
    Scoped n around (replaced id b l) := by
  intro e he
  rcases mem_of_mem_replaced he with rfl | he
  · exact hb
  · exact h e he

theorem Scoped.filter (h : Scoped n around l) (p : NodeId × Body → Bool) :
    Scoped n around (l.filter p) :=
  fun e he => h e (mem_filter.1 he).1

end Code

/-! ### Operations on graphs -/

namespace Graph

open Code (replaced)

variable {g g' : Graph} {id j p entry : NodeId} {n : Node}

def code (g : Graph) : List (NodeId × Body) := g.nodes.map fun e => (e.1, e.2.body)

theorem map_fst_code : g.code.map (·.1) = g.ids := by
  simp [code, ids, Function.comp_def]

/-- No identifier is used twice, and new ones differ from those in use. -/
structure Numbered (g : Graph) : Prop where
  nodup : g.ids.Nodup
  issued : ∀ id ∈ g.ids, id.serial < g.nextSerial

theorem Numbered.nodup_code (h : g.Numbered) : (g.code.map (·.1)).Nodup := by
  rw [map_fst_code]
  exact h.nodup

theorem Tidy.numbered (h : g.Tidy) : g.Numbered := ⟨h.nodup, h.issued⟩

/-- Nothing but edges, predecessors, numbers and the entry may differ. -/
structure SameCode (g g' : Graph) : Prop where
  code : g'.code = g.code
  nextSerial : g'.nextSerial = g.nextSerial

theorem SameCode.refl (g : Graph) : SameCode g g := ⟨rfl, rfl⟩

theorem SameCode.trans {g'' : Graph} (h : SameCode g g') (h' : SameCode g' g'') : SameCode g g'' :=
  ⟨h'.code.trans h.code, h'.nextSerial.trans h.nextSerial⟩

theorem SameCode.ids (h : SameCode g g') : g'.ids = g.ids := by
  rw [← map_fst_code, ← map_fst_code, h.code]

theorem SameCode.numbered (h : SameCode g g') (hg : g.Numbered) : g'.Numbered := by
  constructor
  · rw [h.ids]
    exact hg.nodup
  · rw [h.ids, h.nextSerial]
    exact hg.issued

theorem mem_code_of_get? (h : g.get? id = some n) : (id, n.body) ∈ g.code :=
  mem_map.2 ⟨(id, n), mem_of_lookup h, rfl⟩

theorem Numbered.get?_of_mem (h : g.Numbered) (hn : (id, n) ∈ g.nodes) : g.get? id = some n :=
  (get?_eq_some_iff h.nodup).2 hn

theorem sameCode_modify {f : Node → Node} (hf : ∀ n, (f n).body = n.body) :
    SameCode g (g.modify id f) := by
  refine ⟨?_, rfl⟩
  unfold code modify
  rw [List.map_map]
  refine map_congr_left fun e _ => ?_
  by_cases h : e.1 = id <;> simp [h, hf]

theorem sameCode_addInputs (g : Graph) (outs : List NodeId) (s : NodeId) :
    SameCode g (g.addInputs outs s) := by
  unfold addInputs
  induction outs generalizing g with
  | nil => exact .refl g
  | cons out outs ih =>
    have hstep : SameCode g (g.addInput out s) := sameCode_modify fun _ => rfl
    exact hstep.trans (ih (g.addInput out s))

theorem sameCode_dropInputs (g : Graph) (outs : List NodeId) (s : NodeId) :
    SameCode g (g.dropInputs outs s) := by
  unfold dropInputs
  induction outs generalizing g with
  | nil => exact .refl g
  | cons out outs ih =>
    have hstep : SameCode g (g.dropInput out s) := sameCode_modify fun _ => rfl
    exact hstep.trans (ih (g.dropInput out s))

theorem entry_addInputs (outs : List NodeId) (s : NodeId) : (g.addInputs outs s).entry = g.entry :=
  congrArg Chart.entry (same_addInputs g outs s).chart

theorem entry_dropInputs (g : Graph) (outs : List NodeId) (s : NodeId) :
    (g.dropInputs outs s).entry = g.entry :=
  congrArg Chart.entry (same_dropInputs g outs s).chart

theorem code_modify (hg : g.Numbered) (hn : g.get? id = some n) (f : Node → Node) :
    (g.modify id f).code = replaced id (f n).body g.code := by
  unfold code modify replaced
  rw [List.map_map, List.map_map]
  refine map_congr_left fun e he => ?_
  by_cases h : e.1 = id
  · have hen : e.2 = n := by
      have hget : g.get? e.1 = some e.2 := hg.get?_of_mem he
      rw [h] at hget
      exact Option.some.inj (hget.symm.trans hn)
    simp [h, hen]
  · simp [h]

theorem Numbered.modify (hg : g.Numbered) (id : NodeId) (f : Node → Node) :
    (g.modify id f).Numbered := by
  constructor
  · rw [ids_modify]
    exact hg.nodup
  · rw [ids_modify]
    exact hg.issued

/-! ### Edges -/

theorem setExit_eq_ok (h : g.setExit id exit = .ok g') :
    ∃ n, g.get? id = some n ∧
      g' = (((g.modify id fun n => { n with exit }).dropInputs
        (n.outputs.filter (!exit.targets ·)) id).addInputs exit.outputs id) := by
  obtain ⟨n, hn, h⟩ := bind_eq_ok_iff.1 h
  cases h
  exact ⟨n, node_eq_ok_iff.1 hn, rfl⟩

theorem sameCode_setExit (h : g.setExit id exit = .ok g') : SameCode g g' ∧ g'.entry = g.entry := by
  obtain ⟨n, _, rfl⟩ := setExit_eq_ok h
  refine ⟨?_, ?_⟩
  · have hstep : SameCode g (g.modify id fun n => { n with exit }) := sameCode_modify fun _ => rfl
    exact (hstep.trans (sameCode_dropInputs _ _ _)).trans (sameCode_addInputs _ _ _)
  · rw [entry_addInputs, entry_dropInputs]
    rfl

theorem sameCode_redirectEdge (h : g.redirectEdge p old new = .ok g') :
    SameCode g g' ∧ g'.entry = g.entry := by
  obtain ⟨n, _, h⟩ := bind_eq_ok_iff.1 h
  exact sameCode_setExit h

theorem sameCode_redirectAll {f : Graph → NodeId → Except Fault Graph}
    (hf : ∀ g p g', f g p = .ok g' → SameCode g g' ∧ g'.entry = g.entry)
    (h : sources.foldlM f g = .ok g') : SameCode g g' ∧ g'.entry = g.entry := by
  induction sources generalizing g with
  | nil =>
    cases h
    exact ⟨.refl _, rfl⟩
  | cons p sources ih =>
    rw [foldlM_cons] at h
    obtain ⟨g₁, h₁, h⟩ := bind_eq_ok_iff.1 h
    obtain ⟨hsame, hentry⟩ := hf g p g₁ h₁
    obtain ⟨hsame', hentry'⟩ := ih h
    exact ⟨hsame.trans hsame', hentry'.trans hentry⟩

theorem sameCode_redirectInputs (h : g.redirectInputs old new = .ok g') :
    SameCode g g' ∧ g'.entry = g.entry := by
  obtain ⟨n, _, h⟩ := bind_eq_ok_iff.1 h
  refine sameCode_redirectAll (fun g p g' h => ?_) h
  split at h
  · exact sameCode_redirectEdge h
  · cases h
    exact ⟨.refl g, rfl⟩

/-! ### Nodes taken out -/

theorem code_erase (g : Graph) (id : NodeId) :
    (g.erase id).code = g.code.filter (·.1 ≠ id) ∧ (g.erase id).nextSerial = g.nextSerial ∧
      (g.erase id).entry = g.entry := by
  unfold Graph.erase
  cases hn : g.get? id with
  | none =>
    refine ⟨(filter_eq_self.2 fun e he => ?_).symm, rfl, rfl⟩
    rw [decide_eq_true_eq]
    rintro rfl
    have hmem : e.1 ∈ g.ids := by
      rw [← map_fst_code]
      exact mem_map_of_mem he
    obtain ⟨m, hm⟩ := mem_ids_iff.1 hmem
    rw [hn] at hm
    cases hm
  | some n =>
    have hsame := sameCode_dropInputs { g with nodes := g.nodes.filter (·.1 ≠ id) } n.outputs id
    refine ⟨hsame.code.trans ?_, hsame.nextSerial, entry_dropInputs _ _ _⟩
    unfold code
    rw [filter_map]
    rfl

theorem Numbered.erase (hg : g.Numbered) (id : NodeId) : (g.erase id).Numbered := by
  obtain ⟨hcode, hserial, _⟩ := code_erase g id
  have hsub : (g.erase id).ids.Sublist g.ids := by
    rw [← map_fst_code, ← map_fst_code, hcode]
    exact filter_sublist.map _
  refine ⟨hsub.nodup hg.nodup, fun j hj => ?_⟩
  rw [hserial]
  exact hg.issued j (hsub.subset hj)

theorem removeNode_cases {e : Node × Graph} (h : g.removeNode id = .ok e) :
    g.get? id = some e.1 ∧ e.2 = g.erase id := by
  cases hn : g.get? id with
  | none => simp [Graph.removeNode, hn] at h
  | some n =>
    cases (removeNode_eq_ok hn).symm.trans h
    exact ⟨rfl, rfl⟩

theorem code_eraseAll (g : Graph) (gone : List NodeId) :
    (gone.foldl Graph.erase g).code = g.code.filter (·.1 ∉ gone) ∧
      (gone.foldl Graph.erase g).nextSerial = g.nextSerial ∧
      (gone.foldl Graph.erase g).entry = g.entry := by
  induction gone generalizing g with
  | nil => simp
  | cons a gone ih =>
    obtain ⟨hcode, hserial, hentry⟩ := code_erase g a
    obtain ⟨hcode', hserial', hentry'⟩ := ih (g.erase a)
    refine ⟨?_, hserial'.trans hserial, hentry'.trans hentry⟩
    rw [foldl_cons, hcode', hcode, filter_filter]
    refine filter_congr fun e _ => ?_
    simp [Bool.and_comm]

theorem Numbered.eraseAll (hg : g.Numbered) (gone : List NodeId) :
    (gone.foldl Graph.erase g).Numbered := by
  induction gone generalizing g with
  | nil => exact hg
  | cons a gone ih => exact ih (hg.erase a)

/-! ### Orphans -/

def Orphan (g : Graph) (id : NodeId) : Prop := ∀ p, ¬ g.Lists id p

theorem eraseOrphan_of_orphan (h : g.Orphan id) (hne : id ≠ g.entry) :
    g.eraseOrphan id = g.erase id := by
  unfold Graph.eraseOrphan
  cases hn : g.get? id with
  | none => simp [Graph.erase, hn]
  | some n =>
    have hempty : n.inputs.toList.isEmpty = true := by
      rw [List.isEmpty_iff, eq_nil_iff_forall_not_mem]
      exact fun p hp => h p ⟨n, hn, hp⟩
    simp [hempty, hne]

theorem eraseOrphan_cases (g : Graph) (id : NodeId) :
    g.eraseOrphan id = g.erase id ∨ g.eraseOrphan id = g := by
  unfold Graph.eraseOrphan
  split
  · split
    · exact .inl rfl
    · exact .inr rfl
  · exact .inr rfl

theorem Orphan.erase (h : g.Orphan id) (j : NodeId) : (g.erase j).Orphan id :=
  fun p hp => h p (lists_erase.1 hp).2.1

theorem orphan_setExit (h : g.setExit id exit = .ok g') (hn : g.get? id = some n)
    (hj : j ∈ n.outputs) (hexit : j ∉ exit.outputs) (honly : ∀ p, g.Lists j p → p = id) :
    g'.Orphan j := by
  obtain ⟨m, hm, rfl⟩ := setExit_eq_ok h
  cases hn.symm.trans hm
  intro p hp
  rcases lists_addInputs.1 hp with hp | ⟨hj', _⟩
  · obtain ⟨hp, hnot⟩ := lists_dropInputs.1 hp
    have hp : g.Lists j p :=
      (lists_modify (f := fun n : Node => { n with exit }) fun _ => rfl).1 hp
    refine hnot ⟨mem_filter.2 ⟨hj, ?_⟩, honly p hp⟩
    simpa [Exit.targets] using hexit
  · exact hexit hj'

/-! ### New nodes, order and numbers -/

theorem code_addNode (g : Graph) (n : Node) :
    (g.addNode n).2.code = g.code ++ [(⟨g.nextSerial⟩, n.body)] := by
  have hsame := sameCode_addInputs g n.outputs ⟨g.nextSerial⟩
  rw [← hsame.code]
  unfold code
  exact map_append

theorem Numbered.addNode (hg : g.Numbered) (n : Node) : (g.addNode n).2.Numbered := by
  have hids : (g.addNode n).2.ids = g.ids ++ [⟨g.nextSerial⟩] := by
    rw [← map_fst_code, code_addNode, map_append, map_fst_code]
    rfl
  refine ⟨?_, ?_⟩
  · rw [hids, nodup_append]
    refine ⟨hg.nodup, by simp, fun a ha b hb heq => ?_⟩
    rw [mem_singleton] at hb
    have hlt := hg.issued a ha
    rw [heq, hb] at hlt
    exact Nat.lt_irrefl _ hlt
  · rw [hids]
    intro j hj
    show j.serial < g.nextSerial + 1
    rcases mem_append.1 hj with hj | hj
    · exact Nat.lt_succ_of_lt (hg.issued j hj)
    · rw [mem_singleton.1 hj]
      exact Nat.lt_succ_self _

theorem sameCode_recalculateInputs (g : Graph) : SameCode g g.recalculateInputs := by
  refine ⟨?_, rfl⟩
  simp [code, recalculateInputs, Function.comp_def]

theorem sameCode_renumber (g : Graph) : SameCode g g.renumber := by
  refine ⟨?_, rfl⟩
  unfold code renumber
  refine ext_getElem (by simp) fun k h₁ h₂ => ?_
  simp

theorem code_removeUnreachable (h : g.removeUnreachable = .ok (gone, g')) :
    ∃ reached, g.reachable g.entry none = .ok reached ∧
      g'.code = g.code.filter (·.1 ∈ reached) ∧ (g.Numbered → g'.Numbered) := by
  obtain ⟨reached, hreached, h⟩ := bind_eq_ok_iff.1 h
  cases h
  refine ⟨reached, hreached, ?_, fun hg => hg.eraseAll _⟩
  rw [(code_eraseAll g _).1]
  refine filter_congr fun e he => ?_
  have hid : e.1 ∈ g.ids := by
    rw [← map_fst_code]
    exact mem_map_of_mem he
  simp [hid]

/-! ### Regions -/

theorem removeNodes_eq_ok {ns : List Node} (h : g.removeNodes region = .ok (ns, g'))
    (hg : g.Numbered) :
    g' = region.foldl Graph.erase g ∧ (∀ n ∈ ns, ∃ id ∈ region, (id, n.body) ∈ g.code) ∧
      ∀ k, (ns.map fun n => Body.tally k n.body).sum + Code.total k g'.code =
        Code.total k g.code := by
  induction region generalizing g ns with
  | nil =>
    cases h
    exact ⟨rfl, by simp, by simp⟩
  | cons id region ih =>
    rw [Graph.removeNodes] at h
    obtain ⟨⟨n, g₁⟩, h₁, h⟩ := bind_eq_ok_iff.1 h
    obtain ⟨⟨ns', g₂⟩, h₂, h⟩ := bind_eq_ok_iff.1 h
    cases h
    obtain ⟨hn, rfl⟩ := removeNode_cases h₁
    obtain ⟨hrest, hbodies, htotal⟩ := ih h₂ (hg.erase id)
    have hcode := (code_erase g id).1
    refine ⟨hrest, fun m hm => ?_, fun k => ?_⟩
    · rcases mem_cons.1 hm with rfl | hm
      · exact ⟨id, .head _, mem_code_of_get? hn⟩
      · obtain ⟨j, hj, hmem⟩ := hbodies m hm
        rw [hcode] at hmem
        exact ⟨j, .tail _ hj, (mem_filter.1 hmem).1⟩
    · have hhere := Code.total_without (k := k) hg.nodup_code (mem_code_of_get? hn)
      have hlater := htotal k
      rw [hcode] at hlater
      dsimp only at hhere
      rw [map_cons, sum_cons]
      omega

/-- The code of a graph dealt out to a region and what is left. -/
structure Dealt (g : Graph) (region : List NodeId) (part rest : Graph) : Prop where
  rest_code : rest.code = g.code.filter (·.1 ∉ region)
  rest_numbered : rest.Numbered
  part_code : ∀ e ∈ part.code, ∃ id ∈ region, (id, e.2) ∈ g.code
  part_numbered : part.Numbered
  total : ∀ k, Code.total k part.code + Code.total k rest.code = Code.total k g.code

theorem code_regionGraph (ns : List Node) :
    (regionGraph region ns entry).code = ns.mapIdx fun k n => (⟨k⟩, n.body) := by
  unfold regionGraph regionNodes
  rw [(sameCode_renumber _).code, (sameCode_recalculateInputs _).code]
  refine ext_getElem (by simp [code]) fun k h₁ h₂ => ?_
  simp [code]

theorem numbered_regionGraph (region : List NodeId) (ns : List Node) (entry : NodeId) :
    (regionGraph region ns entry).Numbered := by
  have hids : (regionGraph region ns entry).ids = (List.range ns.length).map NodeId.mk := by
    rw [← map_fst_code, code_regionGraph]
    refine ext_getElem (by simp) fun k h₁ h₂ => ?_
    simp
  refine ⟨?_, ?_⟩
  · rw [hids]
    exact nodup_range.map fun a b h => by simpa using h
  · rw [hids]
    intro j hj
    obtain ⟨k, hk, rfl⟩ := mem_map.1 hj
    exact mem_range.1 hk

theorem dealt_of_splitOff {part rest : Graph} (h : g.splitOff region entry = .ok (.ok (part, rest)))
    (hg : g.Numbered) : Dealt g region part rest := by
  unfold splitOff at h
  split at h
  · split at h
    · cases h
    · obtain ⟨⟨ns, g₁⟩, hns, h⟩ := bind_eq_ok_iff.1 h
      obtain ⟨part', hpart, h⟩ := bind_eq_ok_iff.1 h
      cases h
      cases eq_regionGraph hpart
      obtain ⟨rfl, hbodies, htotal⟩ := removeNodes_eq_ok hns hg
      refine ⟨(code_eraseAll g region).1, hg.eraseAll region, fun e he => ?_,
        numbered_regionGraph region ns entry, fun k => ?_⟩
      · rw [code_regionGraph] at he
        obtain ⟨i, hi, rfl⟩ := mem_mapIdx.1 he
        exact hbodies _ (getElem_mem hi)
      · rw [← htotal k, code_regionGraph, Code.total]
        refine congrArg (List.sum · + _) (ext_getElem (by simp) fun i h₁ h₂ => ?_)
        simp
  · cases h

end Graph

end Structurer
