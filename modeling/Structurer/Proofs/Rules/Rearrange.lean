/-
**Rules move code around.**

No rule of the reducer makes code of its own beyond loops with new labels, comments and the like: it
moves the code of nodes into other nodes, or drops it.
-/

import Structurer.Proofs.Rearranging

namespace Structurer

open Engine Fallible Code List Body

variable {body : Body} {f : Node → Node} {exit : Exit} {arm : Arm} {ctx : Context} {rule : Rule}

/-! ### Rules that clear the ground -/

namespace Reduce

open Structurer.Graph

variable {g g' g₀ g₁ : Graph} {s : Settings} {id next j : NodeId} {n : Node}

abbrev Shuffling (s : Settings) (g : Graph) (x : Except Fault (Option Graph)) : Prop :=
  Ensures x fun r => ∀ g', r = some g' → g.Shuffles s g'

theorem marks_eraseIdx {b : Body} {k : Nat} {i : Instruction} (h : b[k]? = some i)
    (hi : Quiet i) : Body.marks (b.eraseIdx k) = Body.marks b := by
  obtain ⟨hk, hget⟩ := List.getElem?_eq_some_iff.1 h
  have hsplit : b = b.take k ++ i :: b.drop (k + 1) := by
    rw [← hget, getElem_cons_drop, take_append_drop]
  have hi : i.marks = [] := hi
  rw [eraseIdx_eq_take_drop_succ]
  conv_rhs => rw [hsplit]
  rw [marks_append, marks_append, marks_cons, hi, nil_append]

section

variable (hg : g.Numbered)

include hg

theorem constantBranch?_quiet {k : Nat} (h : constantBranch? g = some (id, k, next)) (hn : g.get? id = some n) :
    ∃ v : Int32, n.body[k]? = some (.i32Const v) := by
  obtain ⟨⟨id', m⟩, hm, hsome⟩ := exists_of_findSome?_eq_some h
  dsimp only at hsome
  cases he : m.exit with
  | seq | ret => rw [he] at hsome; cases hsome
  | branch t f =>
    rw [he] at hsome
    obtain ⟨j, _, hsome⟩ := Option.bind_eq_some_iff.1 hsome
    obtain ⟨i, hi, hsome⟩ := Option.bind_eq_some_iff.1 hsome
    cases i with
    | i32Const v =>
      cases hsome
      cases (hg.get?_of_mem hm).symm.trans hn
      exact ⟨v, hi⟩
    | _ => cases hsome

theorem foldConstantBranch_shuffles : Shuffling s g (foldConstantBranch g) := by
  unfold foldConstantBranch
  split
  · exact .nothing
  next id k next hfound =>
    intro r hr g' hg'
    obtain ⟨g₁, h₁, hr⟩ := bind_eq_ok_iff.1 hr
    cases hr
    cases hg'
    refine shuffles_change hg h₁ fun n hn => ?_
    obtain ⟨v, hv⟩ := constantBranch?_quiet hg hfound hn
    exact marks_eraseIdx hv (Instruction.marks_i32Const v)

theorem shuffles_moveEntry (old new : NodeId) : g.Shuffles s (moveEntry g old new) := by
  refine SameCode.shuffles ?_ hg
  unfold moveEntry
  split
  · exact ⟨rfl, rfl⟩
  · exact .refl g

theorem bypassEmptyNode_shuffles : Shuffling s g (bypassEmptyNode g) := by
  unfold bypassEmptyNode
  split
  · exact .nothing
  next old new _ =>
    intro r hr g' hg'
    obtain ⟨g₁, h₁, hr⟩ := bind_eq_ok_iff.1 hr
    cases hr
    cases hg'
    have hsame := (sameCode_redirectInputs h₁).1.shuffles (s := s) hg
    have hmoved := hsame.trans (shuffles_moveEntry hsame.numbered old new)
    exact hmoved.trans (shuffles_erase hmoved.numbered _)

theorem mergeDuplicates_shuffles : Shuffling s g (mergeDuplicates g) := by
  unfold mergeDuplicates
  split
  · exact .nothing
  · intro r hr g' hg'
    obtain ⟨g₁, h₁, hr⟩ := bind_eq_ok_iff.1 hr
    cases hr
    cases hg'
    have hsame := (sameCode_redirectInputs h₁).1.shuffles (s := s) hg
    exact hsame.trans (shuffles_erase hsame.numbered _)

theorem smallReturn?_ensures :
    Ensures (smallReturn? g s.smallReturnLimit) fun r => ∀ e, r = some e →
      g.get? e.1 = some e.2 ∧ ∀ k : Landmark, k.Kept s → tally k e.2.body = 0 := by
  refine (Ensures.findM? (P := fun e => ∀ k : Landmark, k.Kept s → tally k e.2.body = 0)
    fun e _ => ?_).mono fun r hr e he => ⟨hg.get?_of_mem (hr e he).1, (hr e he).2⟩
  by_cases hsmall : e.2.exit = .ret ∧ e.1 ≠ g.entry ∧ e.2.body.real.length < s.smallReturnLimit ∧
      ¬ e.2.body.any (·.isStructured)
  · intro r _ _ k hk
    obtain ⟨_, _, hlen, hflat⟩ := hsmall
    cases k with
    | call => exact absurd hlen (by rw [hk.2]; exact Nat.not_lt_zero _)
    | loop l => exact tally_loop_of_flat (Bool.eq_false_iff.2 hflat) l
    | jump => exact hk.elim
  · dsimp only
    rw [if_neg hsmall]
    exact .fails

omit hg in
theorem returnFrom_shuffles (hg : g₀.Shuffles s g) (hmem : ∃ j, (j, body) ∈ g₀.code)
    (hnone : ∀ k : Landmark, k.Kept s → tally k body = 0) (p : NodeId) :
    Ensures (returnFrom body g p) fun g' => g₀.Shuffles s g' := by
  intro g' h
  obtain ⟨n, hn, hnum, hcode, _⟩ := change_eq_ok hg.numbered h
  obtain ⟨j, hj⟩ := hmem
  have hn := mem_code_of_get? hn
  refine ⟨hnum, fun m around hsc => ?_, fun k hk => ?_⟩
  · have hsc' := hg.scopes m around hsc
    rw [hcode]
    exact hsc'.replaced (scoped_append.2 ⟨hsc' _ hn, hsc _ hj⟩) p
  · have htotal := total_replaced (k := k) hg.numbered.nodup_code hn (n.body ++ body)
    have hold := hg.total k hk
    rw [tally_append, hnone k hk] at htotal
    rw [hcode]
    dsimp only
    omega

theorem inlineSmallReturn_shuffles : Shuffling s g (inlineSmallReturn s.smallReturnLimit g) := by
  refine (smallReturn?_ensures (s := s) hg).bind fun r hr => ?_
  split
  · exact .nothing
  next id n =>
    obtain ⟨hn, hnone⟩ := hr (id, n) rfl
    refine (Ensures.trivial _).bind fun preds _ => ?_
    refine (Ensures.foldlM (I := fun g' => g.Shuffles s g') (fun g' p h => ?_)
      ((SameCode.refl g).shuffles hg)).bind fun g₁ h₁ => .pure fun g' hg' => ?_
    · exact returnFrom_shuffles h ⟨id, mem_code_of_get? hn⟩ hnone p
    · cases hg'
      exact h₁.trans (shuffles_eraseOrphan h₁.numbered _)

theorem shuffles_merge (id : NodeId) {last : Node} (hlast : g.get? j = some last)
    (hf : ∀ n, ∃ pre post, (f n).body = pre ++ post ∧
      (pre = n.body ∧ post = last.body ∨ pre = last.body ∧ post = n.body)) :
    g.Shuffles s ((g.erase j).modify id f) := by
  have hcode := (code_erase g j).1
  have hlast := mem_code_of_get? hlast
  have hnum := hg.erase j
  cases hn : (g.erase j).get? id with
  | none =>
    have hsame : SameCode (g.erase j) ((g.erase j).modify id f) := by
      refine ⟨?_, rfl⟩
      unfold code Graph.modify
      rw [List.map_map]
      refine map_congr_left fun e he => ?_
      have hne : e.1 ≠ id := by
        rintro rfl
        rw [hnum.get?_of_mem he] at hn
        cases hn
      simp [hne]
    exact (shuffles_erase hg j).trans (hsame.shuffles hnum)
  | some n =>
    obtain ⟨pre, post, hbody, hparts⟩ := hf n
    have hn' := mem_code_of_get? hn
    have hmem : (id, n.body) ∈ g.code := by
      rw [hcode] at hn'
      exact (mem_filter.1 hn').1
    have hchanged := code_modify hnum hn f
    refine ⟨hnum.modify id f, fun m around hsc => ?_, fun k _ => ?_⟩
    · have hscoped : Body.Scoped m around (f n).body := by
        rw [hbody, scoped_append]
        rcases hparts with ⟨rfl, rfl⟩ | ⟨rfl, rfl⟩
        · exact ⟨hsc _ hmem, hsc _ hlast⟩
        · exact ⟨hsc _ hlast, hsc _ hmem⟩
      rw [hchanged, hcode]
      exact (hsc.filter _).replaced hscoped id
    · have hreplaced := total_replaced (k := k) hnum.nodup_code hn' (f n).body
      have hwithout := total_without (k := k) hg.nodup_code hlast
      have htally : tally k (f n).body = tally k n.body + tally k last.body := by
        rw [hbody, tally_append]
        rcases hparts with ⟨rfl, rfl⟩ | ⟨rfl, rfl⟩ <;> omega
      rw [hchanged]
      rw [hcode] at hreplaced ⊢
      omega

theorem mergeSequence_shuffles : Shuffling s g (mergeSequence g) := by
  refine (Ensures.trivial _).bind fun r _ => ?_
  split
  · exact .nothing
  next prev curr =>
    intro r hr g' hg'
    obtain ⟨g₁, h₁, hr⟩ := bind_eq_ok_iff.1 hr
    obtain ⟨⟨first, g₂⟩, h₂, hr⟩ := bind_eq_ok_iff.1 hr
    cases hr
    cases hg'
    have hsame := (sameCode_redirectInputs h₁).1.shuffles (s := s) hg
    obtain ⟨hfirst, rfl⟩ := removeNode_cases h₂
    have hmerged := shuffles_merge (s := s) hsame.numbered curr
      (f := fun n => { n with body := first.body ++ n.body, inputStack := first.inputStack })
      hfirst fun n => ⟨first.body, n.body, rfl, .inr ⟨rfl, rfl⟩⟩
    exact (hsame.trans hmerged).trans (shuffles_moveEntry hmerged.numbered prev curr)

/-! ### Branches -/

/-- **Nodes absorbed into another one**, which were entered only from there, or may be copied. -/
theorem absorb_shuffles (gone : List (NodeId × Node))
    (h : (g.modify id f).setExit id exit = .ok g')
    (hf : ∀ n, (f n).exit = n.exit ∧ (f n).inputs = n.inputs) (hgone : (gone.map (·.1)).Nodup)
    (habsorb : ∀ e ∈ gone, g.get? e.1 = some e.2 ∧ g.Absorbable s.allowDuplication e.1 id ∧
      e.1 ∉ exit.outputs)
    (houts : ∀ n, g.get? id = some n → ∀ e ∈ gone, e.1 ∈ n.outputs)
    (hmarks : ∀ n, Body.marks (f n).body =
      Body.marks n.body ++ gone.flatMap fun e => Body.marks e.2.body) :
    g.Shuffles s (gone.foldl (fun g e => g.eraseOrphan e.1) g') := by
  obtain ⟨n, hn, hnum, hcode, hentry⟩ := change_eq_ok hg h
  have hmem := mem_code_of_get? hn
  have hscope : ∀ m around, Scoped m around g.code → Scoped m around g'.code := by
    intro m around hsc
    rw [hcode]
    refine hsc.replaced (fun mark hmark => ?_) id
    rw [hmarks, mem_append, mem_flatMap] at hmark
    rcases hmark with hmark | ⟨e, he, hmark⟩
    · exact hsc _ hmem mark hmark
    · exact hsc _ (mem_code_of_get? (habsorb e he).1) mark hmark
  have hshrink : ∀ {g₁ : Graph}, g₁.Numbered →
      g₁.Shuffles s (gone.foldl (fun g e => g.eraseOrphan e.1) g₁) := by
    clear hmarks habsorb houts hgone
    induction gone with
    | nil => exact fun hg₁ => (SameCode.refl _).shuffles hg₁
    | cons e gone ih =>
      intro g₁ hg₁
      have hstep := shuffles_eraseOrphan (s := s) hg₁ e.1
      exact hstep.trans (ih hstep.numbered)
  refine ⟨(hshrink hnum).numbered, fun m around hsc => (hshrink hnum).scopes m around
    (hscope m around hsc), fun k hk => ?_⟩
  -- without copies all of them are orphans now, and go away
  have horphan : ∀ e ∈ gone, g'.Orphan e.1 ∧ e.1 ≠ g'.entry := by
    intro e he
    obtain ⟨_, ha, hexit⟩ := habsorb e he
    refine ⟨orphan_change h hf hn (houts n hn e he) hexit (ha.only hk.allowDuplication), ?_⟩
    rw [hentry]
    exact ha.entry
  have herase : ∀ {l : List (NodeId × Node)} {g₁ : Graph}, (∀ e ∈ l, g₁.Orphan e.1 ∧ e.1 ≠ g₁.entry) →
      l.foldl (fun g e => g.eraseOrphan e.1) g₁ = (l.map (·.1)).foldl Graph.erase g₁ := by
    intro l
    induction l with
    | nil => exact fun _ => rfl
    | cons e l ih =>
      intro g₁ hl
      obtain ⟨ho, hne⟩ := hl e (.head _)
      rw [foldl_cons, map_cons, foldl_cons, eraseOrphan_of_orphan ho hne]
      refine ih fun e' he' => ?_
      obtain ⟨ho', hne'⟩ := hl e' (.tail _ he')
      refine ⟨ho'.erase e.1, ?_⟩
      rw [(code_erase g₁ e.1).2.2]
      exact hne'
  rw [herase horphan, (code_eraseAll g' _).1]
  have hcount := total_withoutAll (k := k) (gone.map fun e => (e.1, e.2.body)) hnum.nodup_code
    (by simpa [Function.comp_def] using hgone) (by
      intro e he
      obtain ⟨e', he', rfl⟩ := mem_map.1 he
      rw [hcode]
      exact mem_replaced_of_ne (mem_code_of_get? (habsorb e' he').1) (habsorb e' he').2.1.ne)
  have hsum : tally k (f n).body =
      tally k n.body + total k (gone.map fun e => (e.1, e.2.body)) := by
    rw [tally, hmarks, countP_append, tally]
    clear herase horphan hcount hshrink hmarks habsorb houts hgone
    induction gone with
    | nil => rfl
    | cons e gone ih =>
      rw [flatMap_cons, countP_append, map_cons, total_cons, tally]
      dsimp only
      omega
  have hreplaced := total_replaced (k := k) hg.nodup_code hmem (f n).body
  rw [← hcode] at hreplaced
  have hids : (gone.map fun e => (e.1, e.2.body)).map (·.1) = gone.map (·.1) := by
    simp [Function.comp_def]
  rw [hids] at hcount
  omega

theorem absorbBoth_shuffles {t e : NodeId} {nt ne : Node} (hn : g.get? id = some n)
    (he : n.exit = .branch t e) (hte : t ≠ e)
    (ht : g.get? t = some nt ∧ g.Absorbable s.allowDuplication t id ∧ t ∉ exit.outputs)
    (hel : g.get? e = some ne ∧ g.Absorbable s.allowDuplication e id ∧ e ∉ exit.outputs)
    (h : (g.modify id f).setExit id exit = .ok g')
    (hf : ∀ n, (f n).exit = n.exit ∧ (f n).inputs = n.inputs)
    (hmarks : ∀ n, Body.marks (f n).body =
      Body.marks n.body ++ (Body.marks nt.body ++ Body.marks ne.body)) :
    g.Shuffles s ((g'.eraseOrphan t).eraseOrphan e) := by
  refine absorb_shuffles hg [(t, nt), (e, ne)] h hf (by simpa using hte) ?_ ?_ (by simpa using hmarks)
  · simpa using ⟨ht, hel⟩
  · intro m hm
    cases hn.symm.trans hm
    simp [Node.outputs, he, Exit.outputs]

theorem joinTerminating_shuffles : Shuffling s g (joinTerminating s.allowDuplication g) := by
  have hfind : Ensures (terminating? s.allowDuplication g) fun r => ∀ e, r = some e →
      (∃ n, g.get? e.1 = some n ∧ n.exit = .branch e.2.1 e.2.2) ∧ e.2.1 ≠ e.2.2 ∧
        g.Absorbable s.allowDuplication e.2.1 e.1 ∧ g.Absorbable s.allowDuplication e.2.2 e.1 := by
    refine ensures_findNode hg fun id n hn => ?_
    dsimp only
    cases he : n.exit with
    | seq | ret => exact .nothing
    | branch t f =>
      by_cases htf : t = f
      · dsimp only
        rw [if_pos htf]
        exact .nothing
      · dsimp only
        rw [if_neg htf]
        refine (Ensures.andM (.mono (.trivial _) fun _ _ _ => trivial)
          (Ensures.andM (.mono (.trivial _) fun _ _ _ => trivial)
            ((ensures_canAbsorb g _ t id).andM (ensures_canAbsorb g _ f id)))).bind fun r hr => ?_
        refine .pure fun e h => ?_
        split at h
        next happlies =>
          cases h
          obtain ⟨_, _, ht, hf⟩ := hr happlies
          exact ⟨⟨n, hn, he⟩, htf, ht, hf⟩
        next => cases h
  refine hfind.bind fun r hr => ?_
  split
  · exact .nothing
  next id t f =>
    obtain ⟨⟨n, hn, he⟩, hne, ht, hf⟩ := hr _ rfl
    refine (ensures_node g t).bind fun nt hnt => (ensures_node g f).bind fun nf hnf => ?_
    intro r hr g' hg'
    obtain ⟨g₁, h₁, hr⟩ := bind_eq_ok_iff.1 hr
    cases hr
    cases hg'
    exact absorbBoth_shuffles hg hn he hne ⟨hnt, ht, not_mem_nil⟩ ⟨hnf, hf, not_mem_nil⟩ h₁
      (fun _ => ⟨rfl, rfl⟩) fun n => by simp [marks_cons]

theorem absorbArm_shuffles (hn : g.get? id = some n) (harm : arm ∈ n.exit.arms)
    (hne : arm.target ≠ arm.other) (habs : g.Absorbable s.allowDuplication arm.target id) :
    Ensures (absorbArm g id arm) fun g' => g.Shuffles s g' := by
  refine (ensures_node g arm.target).bind fun nt hnt => ?_
  intro g' hr
  obtain ⟨g₁, h₁, hr⟩ := bind_eq_ok_iff.1 hr
  cases hr
  refine absorb_shuffles hg [(arm.target, nt)] h₁ (fun _ => ⟨rfl, rfl⟩) (by simp) ?_ ?_
    fun n => by simp [marks_cons, marks_toward]
  · intro e he
    cases mem_singleton.1 he
    exact ⟨hnt, habs, by simpa [Exit.outputs] using hne⟩
  · intro m hm e he
    cases hn.symm.trans hm
    cases mem_singleton.1 he
    exact (mem_outputs_of_arm harm).1

theorem joinArm_shuffles {p : NodeId → Arm → Prop} {x : Arm → Except Fault Bool}
    [∀ id arm, Decidable (p id arm)] (hp : ∀ id arm, p id arm → arm.target ≠ arm.other) :
    Shuffling s g (do
      match ← g.firstArm? fun id arm =>
        if p id arm then x arm <&&> g.canAbsorb s.allowDuplication arm.target id else return false with
      | none => return none
      | some (id, arm) => return some (← absorbArm g id arm)) := by
  refine (ensures_firstArm? hg (P := fun id arm => arm.target ≠ arm.other ∧
    g.Absorbable s.allowDuplication arm.target id) fun id arm => ?_).bind fun r hr => ?_
  · split
    next h =>
      refine (Ensures.andM (.mono (.trivial _) fun _ _ _ => trivial)
        (ensures_canAbsorb g _ arm.target id)).mono fun r hr ht => ⟨hp id arm h, (hr ht).2⟩
    next => exact .fails
  split
  · exact .nothing
  next id arm =>
    obtain ⟨n, hn, harm, hne, habs⟩ := hr _ rfl
    refine (absorbArm_shuffles hg hn harm hne habs).bind fun g₁ h₁ => .pure fun g' hg' => ?_
    cases hg'
    exact h₁

theorem joinConverging_shuffles : Shuffling s g (joinConverging s.allowDuplication g) := by
  have hfind : Ensures (diamond? s.allowDuplication g) fun r => ∀ d, r = some d →
      (∃ n, g.get? d.branch = some n ∧ n.exit = .branch d.ifTrue d.ifFalse) ∧
        (d.ifTrue ≠ d.ifFalse ∧ d.join ≠ d.ifTrue ∧ d.join ≠ d.ifFalse) ∧
        g.Absorbable s.allowDuplication d.ifTrue d.branch ∧
        g.Absorbable s.allowDuplication d.ifFalse d.branch := by
    refine ensures_findNode hg fun id n hn => ?_
    dsimp only
    cases he : n.exit with
    | seq | ret => exact .nothing
    | branch t f =>
      refine (Ensures.trivial _).bind fun nt _ => (Ensures.trivial _).bind fun nf _ => ?_
      split
      next join join' _ _ =>
        split
        next hshape =>
          refine ((ensures_canAbsorb g _ t id).andM (ensures_canAbsorb g _ f id)).bind fun r hr => ?_
          refine .pure fun e h => ?_
          split at h
          next happlies =>
            cases h
            exact ⟨⟨n, hn, he⟩, hshape.2, hr happlies⟩
          next => cases h
        next => exact .nothing
      next => exact .nothing
  refine hfind.bind fun r hr => ?_
  split
  · exact .nothing
  next d =>
    obtain ⟨⟨n, hn, he⟩, ⟨hne, hjt, hjf⟩, ht, hf⟩ := hr _ rfl
    refine (ensures_node g d.ifTrue).bind fun nt hnt => (ensures_node g d.ifFalse).bind fun nf hnf => ?_
    intro r hr g' hg'
    obtain ⟨g₁, h₁, hr⟩ := bind_eq_ok_iff.1 hr
    cases hr
    cases hg'
    exact absorbBoth_shuffles hg hn he hne ⟨hnt, ht, by simpa [Exit.outputs] using hjt.symm⟩
      ⟨hnf, hf, by simpa [Exit.outputs] using hjf.symm⟩ h₁ (fun _ => ⟨rfl, rfl⟩)
      fun n => by simp [marks_cons]

/-! ### Cycles -/

theorem mergeTwoNodeCycle_shuffles : Shuffling s g (mergeTwoNodeCycle g) := by
  refine (Ensures.trivial _).bind fun r _ => ?_
  split
  · exact .nothing
  next keep absorbed =>
    intro r hr g' hg'
    obtain ⟨⟨last, g₁⟩, h₁, hr⟩ := bind_eq_ok_iff.1 hr
    obtain ⟨g₂, h₂, hr⟩ := bind_eq_ok_iff.1 hr
    cases hr
    cases hg'
    obtain ⟨hlast, rfl⟩ := removeNode_cases h₁
    have hmerged := shuffles_merge (s := s) hg keep
      (f := fun n => { n with body := n.body ++ last.body, outputStack := last.outputStack })
      hlast fun n => ⟨n.body, last.body, rfl, .inl ⟨rfl, rfl⟩⟩
    exact hmerged.trans ((sameCode_setExit h₂).1.shuffles hmerged.numbered)

def Rearranging (ctx : Context) (g : Graph) (x : EngineM (Option Graph)) : Prop :=
  Moves ctx g.code x fun r => (r.getD g).Bears

theorem rearranging_lift {x : Except Fault (Option Graph)}
    (h : Shuffling ctx.settings g x) : Rearranging ctx g (liftM x) := by
  intro r ctx' hy
  obtain ⟨hx, rfl⟩ := yields_lift.1 hy
  cases r with
  | none => exact ⟨_, ⟨hg, rfl⟩, .refl _ _⟩
  | some g' => exact ⟨_, ⟨(h _ hx g' rfl).numbered, rfl⟩, (h _ hx g' rfl).rearranged⟩

theorem rearranged_loop (gone : List (NodeId × Body)) (params results : Node → StackType)
    (round : Node → Body) (hg₁ : g₁.Numbered)
    (hcode : g₁.code = g.code.filter (·.1 ∉ gone.map (·.1))) (hgone : (gone.map (·.1)).Nodup)
    (hsub : ∀ e ∈ gone, e ∈ g.code) (h : (g₁.modify id f).setExit id exit = .ok g')
    (hbody : ∀ n, Body.marks (f n).body =
      Body.marks [.loop ctx.labels.fresh.1 (params n) (results n) (round n)])
    (hscoped : ∀ n m around, ctx.labels.fresh.1 ∈ around → Body.Scoped m around n.body →
      Scoped m around gone → Body.Scoped m around (round n))
    (htally : ∀ n k, k ≠ .jump ctx.labels.fresh.1 →
      tally k (round n) = tally k n.body + total k gone) :
    ∃ after, g'.Bears after ∧ Rearranged ctx ctx.labelled g.code after := by
  obtain ⟨n, hn, hnum, hnew, _⟩ := Graph.change_eq_ok hg₁ h
  have hmem := mem_code_of_get? hn
  refine ⟨_, ⟨hnum, rfl⟩, .labelled ctx, fun hnest hsc => ?_, fun k hk => ?_⟩
  · have hold : Scoped ctx.labels.issued ctx.labels.openLoops g₁.code := by
      rw [hcode]
      exact hsc.filter _
    have henter : ∀ {b : Body}, Body.Scoped ctx.labels.issued ctx.labels.openLoops b →
        Body.Scoped (ctx.labels.issued + 1) (ctx.labels.fresh.1 :: ctx.labels.openLoops) b :=
      fun hb => (hb.enter (Nat.le_refl _)).mono (Nat.le_succ _) fun _ => Iff.rfl
    have hround := hscoped n (ctx.labels.issued + 1) (ctx.labels.fresh.1 :: ctx.labels.openLoops)
      (.head _) (henter (hold _ hmem)) fun e he => henter (hsc e (hsub e he))
    rw [hnew]
    refine (hold.mono (Nat.le_succ _)).replaced ?_ id
    exact (hround.loop (Nat.lt_succ_self _) hnest.fresh_not_mem (params n) (results n)).congr (hbody n)
  · have hreplaced := total_replaced (k := k) hg₁.nodup_code hmem (f n).body
    have hwithout := total_withoutAll (k := k) gone hg.nodup_code hgone hsub
    rw [tally_congr (hbody n), tally_loop, htally n k (hk.ne_jump _), ← hnew] at hreplaced
    rw [← hcode] at hwithout
    have hmade := k.made_labelled ctx
    omega

omit hg in
theorem tally_jump {label : LoopLabel} {k : Landmark} (h : k ≠ .jump label) :
    tally k [.br label] = 0 ∧ tally k [.brIf label] = 0 := by
  simp [tally, marks_cons, h.symm]

theorem makeEndlessLoop_rearranges : Rearranging ctx g (makeEndlessLoop g) := by
  unfold makeEndlessLoop
  split
  · exact .pure ⟨hg, rfl⟩
  next id _ =>
    refine Brings.label (.lift fun g₁ h₁ => .pure ?_)
    refine rearranged_loop hg [] (fun n => n.inputStack) (fun _ => [])
      (fun n => n.body ++ [.br ctx.labels.fresh.1]) hg (by simp) (by simp) (by simp) h₁
      (fun n => by simp [marks_cons]) ?_ ?_
    · intro n m around hlabel hn _
      exact scoped_append.2 ⟨hn, (scoped_jump hlabel).1⟩
    · intro n k hk
      rw [tally_append, (tally_jump hk).1]
      rfl

theorem makeWhileLoop_rearranges : Rearranging ctx g (makeWhileLoop g) := by
  refine Moves.lift fun site _ => ?_
  cases site with
  | none => exact .pure ⟨hg, rfl⟩
  | some e =>
    obtain ⟨id, arm⟩ := e
    refine Brings.label (.lift fun g₁ h₁ => .pure ?_)
    refine rearranged_loop hg [] (fun n => n.inputStack) (fun n => n.outputStack)
      (fun n => arm.toward n.body ++ [.brIf ctx.labels.fresh.1]) hg (by simp) (by simp) (by simp) h₁
      (fun _ => rfl) ?_ ?_
    · intro n m around hlabel hn _
      exact scoped_append.2 ⟨hn.congr (marks_toward arm n.body), (scoped_jump hlabel).2⟩
    · intro n k hk
      rw [tally_append, (tally_jump hk).2, tally_congr (marks_toward arm n.body)]
      rfl

theorem closeCircle_rearranges {circle : Node} (hn : g.get? arm.target = some circle)
    (hbody : Body.marks body = Body.marks circle.body ++ [⟨[], .jump ctx.labels.fresh.1⟩])
    (h : closeCircle (g.erase arm.target) id arm ctx.labels.fresh.1 body = .ok g') :
    ∃ after, g'.Bears after ∧ Rearranged ctx ctx.labelled g.code after := by
  refine rearranged_loop hg [(arm.target, circle.body)] (fun n => n.inputStack) (fun n => n.outputStack)
    (fun n => arm.toward n.body ++ [.cond n.outputStack n.outputStack body []]) (hg.erase _) ?_
    (by simp) ?_ h (fun _ => rfl) ?_ ?_
  · rw [(code_erase g arm.target).1]
    simp
  · intro e he
    cases mem_singleton.1 he
    exact mem_code_of_get? hn
  · intro n m around hlabel hn hgone
    refine scoped_append.2 ⟨hn.congr (marks_toward arm n.body), scoped_cond.2 ⟨?_, ?_⟩⟩
    · refine Body.Scoped.congr (a := circle.body ++ [.br ctx.labels.fresh.1]) ?_
        (scoped_append.2 ⟨hgone _ (.head _), (scoped_jump hlabel).1⟩)
      rw [hbody]
      simp [marks_cons]
    · exact scoped_of_marks marks_nil
  · intro n k hk
    have hsame : tally k body = tally k (circle.body ++ [.br ctx.labels.fresh.1]) := by
      refine tally_congr ?_
      rw [hbody]
      simp [marks_cons]
    rw [tally_append, tally_cond, hsame, tally_append, (tally_jump hk).1,
      tally_congr (marks_toward arm n.body)]
    simp

theorem makeSmallCircle_rearranges : Rearranging ctx g (makeSmallCircle g) := by
  refine Moves.lift fun site _ => ?_
  cases site with
  | none => exact .pure ⟨hg, rfl⟩
  | some e =>
    obtain ⟨id, arm⟩ := e
    refine Brings.label (.lift fun e h₁ => ?_)
    obtain ⟨circle, g₁⟩ := e
    obtain ⟨hn, rfl⟩ := removeNode_cases h₁
    refine .lift fun g₂ h₂ => .pure ?_
    exact closeCircle_rearranges hg hn (by simp [marks_cons]) h₂

theorem makeTwoExitCircle_rearranges : Rearranging ctx g (makeTwoExitCircle g) := by
  refine Moves.lift fun site _ => ?_
  cases site with
  | none => exact .pure ⟨hg, rfl⟩
  | some e =>
    obtain ⟨id, arm⟩ := e
    refine Brings.label (.lift fun e h₁ => ?_)
    obtain ⟨circle, g₁⟩ := e
    obtain ⟨hn, rfl⟩ := removeNode_cases h₁
    refine .lift fun g₂ h₂ => .pure ?_
    refine closeCircle_rearranges hg hn ?_ h₂
    split <;> simp [marks_cons]

theorem removeTrivialBranch_rearranges : Rearranging ctx g (removeTrivialBranch g) := by
  unfold removeTrivialBranch
  split
  · exact .pure ⟨hg, rfl⟩
  · refine Moves.skip (Work.steps.comment _) fun note ctx₁ hnote => .lift fun g₁ h₁ => ?_
    obtain ⟨rfl, rfl⟩ := yields_comment.1 hnote
    have hshuffles := shuffles_change (s := ctx₁.settings) hg h₁ fun n _ => by
      unfold commentCode
      split <;> simp [marks_cons]
    exact Brings.pure ⟨_, ⟨hshuffles.numbered, rfl⟩, hshuffles.rearranged⟩

theorem removeUnreachable_rearranges : Rearranging ctx g (removeUnreachable g) := by
  refine Moves.lift fun e h₁ => ?_
  obtain ⟨gone, g₁⟩ := e
  obtain ⟨reached, _, hcode, hnum⟩ := code_removeUnreachable h₁
  dsimp only
  split
  · exact .pure ⟨hg, rfl⟩
  · refine Moves.skip (Work.emit _) fun _ ctx₁ _ => ?_
    have hshuffles : g.Shuffles ctx₁.settings g₁ := by
      refine ⟨hnum hg, fun m around hsc => ?_, fun k _ => ?_⟩
      · rw [hcode]
        exact hsc.filter _
      · rw [hcode]
        exact total_filter_le _
    exact Brings.pure ⟨_, ⟨hnum hg, rfl⟩, hshuffles.rearranged⟩

/-! ### The reducer -/

/-- **Every rule rearranges code.** -/
theorem rules_rearrange (h : rule ∈ rules) : Rearranging ctx g (rule.apply g) := by
  simp only [rules, mem_cons, not_mem_nil, or_false] at h
  rcases h with rfl | rfl | rfl | rfl | rfl | rfl | rfl | rfl | rfl | rfl | rfl | rfl | rfl | rfl | rfl |
    rfl
  · exact rearranging_lift hg (foldConstantBranch_shuffles hg)
  · exact removeTrivialBranch_rearranges hg
  · exact removeUnreachable_rearranges hg
  · exact rearranging_lift hg (bypassEmptyNode_shuffles hg)
  · exact rearranging_lift hg (mergeDuplicates_shuffles hg)
  · exact Moves.get (rearranging_lift hg (inlineSmallReturn_shuffles hg))
  · exact rearranging_lift hg (mergeSequence_shuffles hg)
  · exact Moves.get (rearranging_lift hg (joinTerminating_shuffles hg))
  · exact Moves.get (rearranging_lift hg (joinArm_shuffles hg fun _ _ h => h.1))
  · exact makeEndlessLoop_rearranges hg
  · exact makeWhileLoop_rearranges hg
  · exact Moves.get (rearranging_lift hg (joinArm_shuffles hg fun _ _ h => h.1))
  · exact Moves.get (rearranging_lift hg (joinConverging_shuffles hg))
  · exact rearranging_lift hg (mergeTwoNodeCycle_shuffles hg)
  · exact makeSmallCircle_rearranges hg
  · exact makeTwoExitCircle_rearranges hg

def Leaves (g : Graph) (x : EngineM Reduction) : Prop :=
  ∀ ctx, Moves ctx g.code x fun r => r.graph.Bears

theorem exhaust_rearranges (hrule : rule ∈ rules) (fuel : Nat) (changed : Bool) :
    Leaves g (exhaust rule fuel g changed) := by
  induction fuel generalizing g changed with
  | zero => exact fun ctx => .pure ⟨hg, rfl⟩
  | succ fuel ih =>
    intro ctx
    rw [exhaust]
    refine (rules_rearrange hg hrule).bind fun r code ctx hr => ?_
    obtain ⟨hg₁, rfl⟩ := hr
    cases r with
    | none => exact .pure ⟨hg, rfl⟩
    | some g₁ =>
      refine .skip (Work.logApplied _ _) fun _ ctx _ => .skip (Work.checkError? _ _) fun e ctx _ => ?_
      cases e with
      | some e => exact .pure ⟨hg₁, rfl⟩
      | none =>
        dsimp only
        split
        · exact .pure ⟨hg₁, rfl⟩
        · exact ih hg₁ true ctx

theorem pass_rearranges {todo : List Rule} (htodo : todo ⊆ rules) (changed : Bool) : Leaves g (pass todo g changed) := by
  induction todo generalizing g changed with
  | nil => exact fun ctx => .pure ⟨hg, rfl⟩
  | cons rule todo ih =>
    intro ctx
    rw [pass]
    refine (exhaust_rearranges hg (htodo (.head _)) _ changed ctx).bind fun r code ctx hr => ?_
    obtain ⟨hg₁, rfl⟩ := hr
    cases r with
    | stuck g₁ changed₁ => exact ih hg₁ (fun _ h => htodo (.tail _ h)) changed₁ ctx
    | _ => exact .pure ⟨hg₁, rfl⟩

theorem passes_rearranges (fuel : Nat) (changed : Bool) : Leaves g (passes fuel g changed) := by
  induction fuel generalizing g changed with
  | zero => exact fun ctx => .pure ⟨hg, rfl⟩
  | succ fuel ih =>
    intro ctx
    rw [passes]
    refine (pass_rearranges hg (fun _ h => h) false ctx).bind fun r code ctx hr => ?_
    obtain ⟨hg₁, rfl⟩ := hr
    split
    · exact ih hg₁ true ctx
    · exact .pure ⟨hg₁, rfl⟩
    · exact .pure ⟨hg₁, rfl⟩

end

end Reduce

/-- **The reducer rearranges code.** -/
theorem reduce_rearranges {g : Graph} (hg : g.Numbered) : Reduce.Leaves g (reduce g) := by
  unfold reduce
  split
  · exact fun ctx => .pure ⟨hg, rfl⟩
  · exact Reduce.passes_rearranges hg _ false

end Structurer
