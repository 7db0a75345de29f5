/-
**Comments are inert in steady code.**

Structuring a graph and structuring the same graph without comments go the same way, step by step, until two
nodes are merged as duplicates while there are blocks: whether they are depends on comments inside the blocks.
As long as that does not happen, and if the code is steady, both come to the same node, comments aside.
-/

import Structurer.Proofs.BareSolving
import Structurer.Proofs.Unduplicated

namespace Structurer

open Engine Fallible List Mirrors Work Node
open Body (Made)
open Graph.Bares (OfRule)

variable {ctx ctx' : Context} {rule : Rule} {g₀ g : Graph}

/-! ### Duplicates -/

theorem Body.any_isStructured_of_same {a b : Body} (h : Body.same a b = true) :
    a.any (·.isStructured) = b.any (·.isStructured) := by
  have hone : ∀ {i j : Instruction}, i.same j = true → i.isStructured = j.isStructured := by
    intro i j h
    unfold Instruction.same at h
    split at h <;> first | rfl | cases h
  induction a generalizing b with
  | nil => cases b <;> first | rfl | cases h
  | cons i a ih =>
    cases b with
    | nil => cases h
    | cons j b =>
      obtain ⟨hi, hb⟩ := Bool.and_eq_true_iff.1 h
      rw [any_cons, any_cons, hone hi, ih hb]

theorem Body.real_eq_bare {body : Body} (h : body.any (·.isStructured) = false) : body.real = bare body := by
  rw [bare_eq_map]
  refine ((map_congr_left fun i hi => ?_).trans (map_id _)).symm
  exact Instruction.bare_of_simple (by simpa using any_eq_false.1 h i (mem_of_mem_filter hi))

namespace Reduce

variable {keepId dupId entry : NodeId} {keep dup : Node} {l : List (NodeId × Node)}

theorem sameNode_bare (h : sameNode keepId dupId keep dup = true) :
    sameNode keepId dupId keep.bare dup.bare = true := by
  simp only [sameNode, Bool.and_eq_true] at h ⊢
  have hcode := Body.same_bare _ _ h.2
  rw [Body.bare_real, Body.bare_real] at hcode
  refine ⟨h.1, ?_⟩
  rwa [Body.sameCode, Node.bare_body, Node.bare_body, Body.real_bare, Body.real_bare]

theorem sameNode_of_bare (hkeep : keep.body.any (·.isStructured) = false)
    (h : sameNode keepId dupId keep.bare dup.bare = true) : sameNode keepId dupId keep dup = true := by
  simp only [sameNode, Bool.and_eq_true] at h ⊢
  refine ⟨h.1, ?_⟩
  have hcode : Body.same (Body.bare keep.body) (Body.bare dup.body) = true := by
    simpa [Body.sameCode, Body.real_bare] using h.2
  have hdup : dup.body.any (·.isStructured) = false := by
    rw [← Body.any_isStructured_bare, ← Body.any_isStructured_of_same hcode, Body.any_isStructured_bare, hkeep]
  rwa [Body.sameCode, Body.real_eq_bare hkeep, Body.real_eq_bare hdup]

theorem find?_eq_none_of_bare
    (h : (l.map fun e => (e.1, e.2.bare)).find? (fun e => e.1 ≠ entry && sameNode keepId e.1 keep.bare e.2) =
      none) : l.find? (fun e => e.1 ≠ entry && sameNode keepId e.1 keep e.2) = none := by
  rw [find?_map, Option.map_eq_none_iff, find?_eq_none] at h
  refine find?_eq_none.2 fun e he hdup => h e he ?_
  rw [Bool.and_eq_true] at hdup
  exact Bool.and_eq_true_iff.2 ⟨hdup.1, sameNode_bare hdup.2⟩

theorem duplicates?_eq_none_of_bare (h : duplicates? entry (l.map fun e => (e.1, e.2.bare)) = none) :
    duplicates? entry l = none := by
  induction l with
  | nil => rfl
  | cons e l ih =>
    rw [map_cons, duplicates?] at h
    rw [duplicates?]
    split at h
    · cases h
    next hnone =>
      rw [find?_eq_none_of_bare hnone]
      exact ih h

theorem duplicates?_of_bare (h : duplicates? entry (l.map fun e => (e.1, e.2.bare)) = some (keepId, dupId))
    (hkeep : ∀ n, (keepId, n) ∈ l → n.body.any (·.isStructured) = false) :
    duplicates? entry l = some (keepId, dupId) := by
  induction l with
  | nil => cases h
  | cons e l ih =>
    obtain ⟨id, n⟩ := e
    rw [map_cons, duplicates?] at h
    rw [duplicates?]
    split at h
    next dup m hfind =>
      cases h
      have hsame : (fun e : NodeId × Node => e.1 ≠ entry && sameNode id e.1 n e.2) =
          fun e => e.1 ≠ entry && sameNode id e.1 n.bare e.2.bare := by
        funext e
        rw [Bool.eq_iff_iff, Bool.and_eq_true, Bool.and_eq_true]
        exact and_congr_right fun _ => ⟨sameNode_bare, sameNode_of_bare (hkeep n (.head _))⟩
      rw [find?_map] at hfind
      obtain ⟨d, hd, he⟩ := Option.map_eq_some_iff.1 hfind
      cases he
      have hd' : l.find? (fun e => e.1 ≠ entry && sameNode id e.1 n.bare e.2.bare) = some d := hd
      rw [hsame, hd']
    next hnone =>
      rw [find?_eq_none_of_bare hnone]
      exact ih h fun n hn => hkeep n (.tail _ hn)

end Reduce

def Graph.Blockless (g : Graph) : Prop := ∀ e ∈ g.code, e.2.any (·.isStructured) = false

theorem Graph.Bares.mergeDuplicates (h : g₀.Bares g) :
    Follows (fun r₀ r => OfRule r₀ r ∨ ∃ g₁, r₀ = some g₁ ∧ ¬ g₁.Blockless) (Reduce.mergeDuplicates g₀)
      (Reduce.mergeDuplicates g) := by
  intro r₀ r hr₀ hr
  rw [Reduce.mergeDuplicates, h.entry] at hr₀
  rw [Reduce.mergeDuplicates] at hr
  have hnodes : g₀.nodes = g.nodes.map fun e => (e.1, e.2.bare) := by rw [h.eq, bare_nodes]
  cases hd : Reduce.duplicates? g.entry g₀.nodes with
  | none =>
    rw [hd] at hr₀
    rw [Reduce.duplicates?_eq_none_of_bare (hnodes ▸ hd)] at hr
    cases hr₀
    cases hr
    exact .inl .none
  | some e =>
    obtain ⟨keep, dup⟩ := e
    rw [hd] at hr₀
    obtain ⟨g₂, hg₂, hr₀⟩ := bind_eq_ok_iff.1 hr₀
    cases hr₀
    by_cases hblockless : (g₂.erase dup).Blockless
    · obtain ⟨l₁, l₂, _, m, hsplit, hm, -⟩ := Reduce.duplicates?_eq_some hd
      have hne : keep ≠ dup := by
        have hnd : g₀.ids.Nodup := h.ids ▸ h.numbered.nodup
        rw [Graph.ids, hsplit, map_append, nodup_append] at hnd
        rintro rfl
        exact (nodup_cons.1 hnd.2.1).1 (mem_map.2 ⟨_, hm, rfl⟩)
      -- the node that is kept is still there
      have hkept : ∀ n, (keep, n) ∈ g.nodes → n.body.any (·.isStructured) = false := by
        intro n hn
        rw [← Body.any_isStructured_bare]
        refine hblockless (keep, Body.bare n.body) ?_
        rw [(code_erase g₂ dup).1, (sameCode_redirectInputs hg₂).1.code]
        refine mem_filter.2 ⟨mem_map.2 ⟨(keep, n.bare), ?_, rfl⟩, decide_eq_true hne⟩
        rw [hnodes]
        exact mem_map_of_mem hn
      rw [Reduce.duplicates?_of_bare (hnodes ▸ hd) hkept] at hr
      obtain ⟨g₂', hg₂', hr⟩ := bind_eq_ok_iff.1 hr
      cases hr
      exact .inl (.some ((h.redirectInputs dup keep g₂ g₂' hg₂ hg₂').erase dup))
    · exact .inr ⟨_, rfl, hblockless⟩

theorem mem_intersperse_of_mem {α : Type} {a sep : α} {l : List α} (h : a ∈ l) : a ∈ l.intersperse sep := by
  induction l with
  | nil => cases h
  | cons b l ih =>
    cases l with
    | nil => exact h
    | cons c l =>
      rcases mem_cons.1 h with rfl | h
      · exact .head _
      · exact .tail _ (.tail _ (ih h))

theorem Body.end_infix_inline {body : Body} (locals : Locals) (h : body.any (·.isStructured) = true) :
    "end".toList <:+: (Body.inline locals body).toList := by
  have hlast : ∀ {i : Instruction}, i.isStructured = true → "end" ∈ i.render locals 0 := by
    intro i hi
    have hend : indented 0 "end" = "end" := by simp [indented, String.join]
    cases i with
    | cond p r t e =>
      cases e <;> simp [Instruction.render, hend]
    | loop =>
      rw [Instruction.render, hend]
      exact mem_append_right _ (.head _)
    | switch =>
      rw [Instruction.render, hend]
      exact mem_append_right _ (.tail _ (.tail _ (.head _)))
    | _ => cases hi
  have hmem : "end" ∈ Body.render locals body := by
    obtain ⟨i, hi, hblock⟩ := any_eq_true.1 h
    unfold Body.render
    induction body with
    | nil => cases hi
    | cons j body ih =>
      rw [Body.renderAt, mem_append]
      rcases mem_cons.1 hi with rfl | hi
      · exact .inl (hlast hblock)
      · exact .inr (ih (any_eq_true.2 ⟨i, hi, hblock⟩) hi)
  have htrim : String.ofList (Text.trim "end".toList) = "end" := by decide
  rw [Body.inline, String.toList_intercalate, intercalate]
  exact infix_of_mem_flatten (mem_intersperse_of_mem (mem_map.2 ⟨"end", mem_map.2 ⟨"end", hmem, htrim⟩, rfl⟩))

theorem Graph.blockless_of_dump (locals : Locals)
    (h : ∀ line ∈ g.dump locals, ¬ "end".toList <:+: line.toList) : g.Blockless := by
  intro e he
  obtain ⟨⟨id, n⟩, hmem, rfl⟩ := mem_map.1 he
  refine Bool.eq_false_iff.2 fun hblock => h _ (mem_map_of_mem hmem) ?_
  refine (Body.end_infix_inline locals hblock).trans (IsSuffix.isInfix ?_)
  show _ <:+ (_ ++ Body.inline locals n.body).toList
  rw [String.toList_append]
  exact suffix_append _ _

/-! ### The log -/

def Event.isDeepMerge : Event → Bool
  | .applied rule _ dump =>
      rule == "merge duplicate nodes" && dump.any fun line => "end".toList <:+: line.toList
  | _ => false

def Context.NoDeepMerge (ctx : Context) : Prop := ∀ e ∈ ctx.log, e.isDeepMerge = false

instance (ctx : Context) : Decidable ctx.NoDeepMerge := inferInstanceAs (Decidable (∀ e ∈ ctx.log, _))

namespace Engine

variable {α β γ δ : Type} {R : α → β → Prop} {S : γ → δ → Prop} {x x' : EngineM α}
  {y y' : EngineM β} {k : β → EngineM δ}

theorem Work.noDeepMerge (h : Work x) {a : α} (hx : Yields x ctx a ctx') (hu : ctx'.NoDeepMerge) :
    ctx.NoDeepMerge := by
  have hup := h.upkeep ctx
  rw [hx] at hup
  exact fun e he => hu e (hup.log.subset he)

theorem Work.option {f : Option α → EngineM β} (hnone : Work (f none)) (hsome : ∀ a, Work (f (some a)))
    (r : Option α) : Work (f r) := by
  cases r with
  | none => exact hnone
  | some a => exact hsome a

/-! ### Work that goes the same way -/

def MirrorsIf (R : α → β → Prop) (x : EngineM α) (y : EngineM β) : Prop :=
  ∀ ctx ctx₂ a ctx' b ctx₂', ctx.Muted ctx₂ → Yields x ctx a ctx' → Yields y ctx₂ b ctx₂' → ctx'.NoDeepMerge →
    R a b ∧ ctx'.Muted ctx₂'

theorem Mirrors.weaken (h : Mirrors R x y) : MirrorsIf R x y :=
  fun ctx ctx₂ a ctx' b ctx₂' hm hx hy _ => h ctx ctx₂ a ctx' b ctx₂' hm hx hy

theorem Mirrors.bindIf {f : α → EngineM γ} (hx : Mirrors R x y)
    (hf : ∀ a b, R a b → MirrorsIf S (f a) (k b)) : MirrorsIf S (x >>= f) (y >>= k) := by
  intro ctx ctx₂ c ctx' d ctx₂' hm hxf hyk hu
  obtain ⟨a, ctx₁, ha, hc⟩ := yields_bind.1 hxf
  obtain ⟨b, ctx₃, hb, hd⟩ := yields_bind.1 hyk
  obtain ⟨hab, hm'⟩ := hx ctx ctx₂ a ctx₁ b ctx₃ hm ha hb
  exact hf a b hab ctx₁ ctx₃ c ctx' d ctx₂' hm' hc hd hu

namespace MirrorsIf

theorem pure {a : α} {b : β} (h : R a b) : MirrorsIf R (Pure.pure a : EngineM α) (Pure.pure b) :=
  (Mirrors.pure h).weaken

theorem bind {f : α → EngineM γ} (hx : MirrorsIf R x y) (hwork : ∀ a, Work (f a))
    (hf : ∀ a b, R a b → MirrorsIf S (f a) (k b)) : MirrorsIf S (x >>= f) (y >>= k) := by
  intro ctx ctx₂ c ctx' d ctx₂' hm hxf hyk hu
  obtain ⟨a, ctx₁, ha, hc⟩ := yields_bind.1 hxf
  obtain ⟨b, ctx₃, hb, hd⟩ := yields_bind.1 hyk
  -- the log at the end holds the log in between, so that the condition holds there too
  obtain ⟨hab, hm'⟩ := hx ctx ctx₂ a ctx₁ b ctx₃ hm ha hb ((hwork a).noDeepMerge hc hu)
  exact hf a b hab ctx₁ ctx₃ c ctx' d ctx₂' hm' hc hd hu

theorem ite {p : Prop} [Decidable p] (h : MirrorsIf R x y) (h' : MirrorsIf R x' y') :
    MirrorsIf R (if p then x else x') (if p then y else y') := by
  split
  · exact h
  · exact h'

theorem withLoop (label : LoopLabel) (h : MirrorsIf R x y) :
    MirrorsIf R (withLoop label x) (withLoop label y) := by
  intro ctx ctx₂ a ctx' b ctx₂' hm hx hy hu
  obtain ⟨ctx₁, hwork, rfl⟩ := yields_withLoop.1 hx
  obtain ⟨ctx₃, hwork₂, rfl⟩ := yields_withLoop.1 hy
  obtain ⟨hab, hm'⟩ := h _ _ a ctx₁ b ctx₃ (hm.inside label) hwork hwork₂ hu
  exact ⟨hab, hm'.outside label⟩

theorem merged {f : Unit → EngineM α} (hwork : ∀ u, Work (f u)) {g : Graph} (h : ¬ g.Blockless)
    (y : EngineM β) : MirrorsIf R (Reduce.logApplied "merge duplicate nodes" g >>= f) y := by
  intro ctx ctx₂ a ctx' b ctx₂' hm hx _ hu
  refine absurd (Graph.blockless_of_dump ctx.locals fun line hline hend => ?_) h
  obtain ⟨u, ctx₁, happlied, hx⟩ := yields_bind.1 hx
  have hu₁ := (hwork u).noDeepMerge hx hu
  rw [← yields_logApplied.1 happlied] at hu₁
  have hshown : (Event.applied "merge duplicate nodes" g.size (g.dump ctx.locals)).level.shown ctx.verbosity =
      true := by
    rw [hm.traced]
    rfl
  have hmem : Event.applied "merge duplicate nodes" g.size (g.dump ctx.locals) ∈
      (ctx.logged (.applied "merge duplicate nodes" g.size (g.dump ctx.locals))).log := by
    rw [Context.logged, hshown]
    simp
  have hdeep := hu₁ _ hmem
  rw [Event.isDeepMerge, beq_self_eq_true, Bool.true_and, any_eq_false] at hdeep
  exact hdeep line hline (decide_eq_true hend)

end MirrorsIf

end Engine

/-! ### The reducer -/

/-- Reductions that ended in the same way, comments aside. -/
inductive Reduction.Bares : Reduction → Reduction → Prop where
  | solved {g₀ g : Graph} (h : g₀.Bares g) : Bares (.solved g₀) (.solved g)
  | stuck {g₀ g : Graph} (h : g₀.Bares g) (changed : Bool) : Bares (.stuck g₀ changed) (.stuck g changed)
  | rejected (g₀ g : Graph) (e₀ e : StructureError) : Bares (.rejected g₀ e₀) (.rejected g e)

theorem Graph.Bares.weight {g₀ g : Graph} (h : g₀.Bares g) : g₀.weight = g.weight := by
  rw [h.eq]
  simp [Graph.weight, bare_nodes, filter_map, Function.comp_def]

theorem Reduce.apply_of_name (hrule : rule ∈ Reduce.rules)
    (hname : rule.name = "merge duplicate nodes") (g : Graph) :
    rule.apply g = liftM (Reduce.mergeDuplicates g) := by
  simp only [Reduce.rules, mem_cons, not_mem_nil, or_false] at hrule
  rcases hrule with rfl | rfl | rfl | rfl | rfl | rfl | rfl | rfl | rfl | rfl | rfl | rfl | rfl | rfl |
    rfl | rfl
  all_goals first | rfl | exact absurd hname (by decide)

namespace Engine.MirrorsIf

theorem exhaust (hrule : rule ∈ Reduce.rules) (h : g₀.Bares g) (fuel : Nat) (changed : Bool) :
    MirrorsIf Reduction.Bares (Reduce.exhaust rule fuel g₀ changed) (Reduce.exhaust rule fuel g changed) := by
  induction fuel generalizing g₀ g changed with
  | zero => exact pure (.stuck h changed)
  | succ fuel ih =>
    unfold Reduce.exhaust
    refine Mirrors.bindIf (R := fun r₀ r => OfRule r₀ r ∨
      rule.name = "merge duplicate nodes" ∧ ∃ g₁, r₀ = some g₁ ∧ ¬ g₁.Blockless) ?_ fun r₀ r hr => ?_
    · by_cases hname : rule.name = "merge duplicate nodes"
      · rw [Reduce.apply_of_name hrule hname, Reduce.apply_of_name hrule hname]
        exact (lift h.mergeDuplicates).mono fun _ _ => .imp_right fun hr => ⟨hname, hr⟩
      · exact (rules hrule hname h).mono fun _ _ => .inl
    rcases hr with hr | ⟨hname, g₁, rfl, hdeep⟩
    · cases hr with
      | none => exact pure (.stuck h changed)
      | @some g₁ g₁' h₁ =>
        refine (logApplied _ _ _).bindIf fun _ _ _ => ?_
        refine (checkError? h₁ _).bindIf fun e₀ e he => ?_
        cases e₀ with
        | some e₀ =>
          cases e with
          | some e => exact pure (.rejected _ _ _ _)
          | none => cases he.2 rfl
        | none =>
          rw [he.1 rfl]
          dsimp only
          rw [h₁.isSolved]
          exact ite (pure (.solved h₁)) (ih h₁ true)
    -- the merge goes into the log and stays there, whatever follows
    · rw [hname]
      refine merged (fun _ => .bind (.checkError? g₁ _) fun e => ?_) hdeep _
      cases e with
      | some e => exact .pure _
      | none => exact steps.ite (.pure _) (checks.exhaust (steps.rules hrule) fuel g₁ true)

theorem pass {rules : List Rule} (hrules : ∀ rule ∈ rules, rule ∈ Reduce.rules) (h : g₀.Bares g)
    (changed : Bool) :
    MirrorsIf Reduction.Bares (Reduce.pass rules g₀ changed) (Reduce.pass rules g changed) := by
  induction rules generalizing g₀ g changed with
  | nil => exact pure (.stuck h changed)
  | cons rule rules ih =>
    have hrest : ∀ rule ∈ rules, rule ∈ Reduce.rules := fun rule hr => hrules rule (.tail _ hr)
    unfold Reduce.pass
    rw [h.weight]
    refine (exhaust (hrules rule (.head _)) h _ changed).bind (fun r => ?_) fun r₀ r hr => ?_
    · split
      · exact checks.pass (fun rule hr => steps.rules (hrest rule hr)) _ _
      · exact .pure _
    · cases hr with
      | solved h₁ => exact pure (.solved h₁)
      | stuck h₁ changed₁ => exact ih hrest h₁ changed₁
      | rejected => exact pure (.rejected _ _ _ _)

theorem passes (h : g₀.Bares g) (fuel : Nat) (changed : Bool) :
    MirrorsIf Reduction.Bares (Reduce.passes fuel g₀ changed) (Reduce.passes fuel g changed) := by
  induction fuel generalizing g₀ g changed with
  | zero => exact pure (.stuck h changed)
  | succ fuel ih =>
    refine (pass (fun _ hr => hr) h false).bind (fun r => ?_) fun r₀ r hr => ?_
    · split
      · exact checks.passes _ _ _
      · exact .pure _
      · exact .pure _
    · cases hr with
      | solved h₁ => exact pure (.solved h₁)
      | stuck h₁ changed₁ =>
        cases changed₁ with
        | true => exact ih h₁ true
        | false => exact pure (.stuck h₁ changed)
      | rejected => exact pure (.rejected _ _ _ _)

/-- **The reducer goes the same way with and without comments.** -/
theorem reduce (h : g₀.Bares g) : MirrorsIf Reduction.Bares (reduce g₀) (reduce g) := by
  unfold Structurer.reduce
  rw [h.isSolved, h.weight]
  exact ite (pure (.solved h)) (passes h _ false)

/-! ### The solver -/

abbrev Solves (x y : EngineM Node) : Prop := MirrorsIf (fun n₀ n => n₀ = n.bare) x y

/-- **The end of a graph.** -/
theorem extractFinish {solve : Graph → EngineM Node}
    (hsolve : ∀ {g₀ g : Graph}, g₀.Bares g → Solves (solve g₀) (solve g)) (h : g₀.Bares g) :
    MirrorsIf (Option.Rel fun n₀ n => n₀ = n.bare) (extractFinish solve g₀) (extractFinish solve g) := by
  have hends : g₀.ends = g.ends := by rw [h.eq, Graph.ends_bare]
  have hworth : ∀ finish, Finish.isWorthIt g₀ finish = Finish.isWorthIt g finish := by
    intro finish
    rw [h.eq, Finish.isWorthIt_bare]
  have hindices : ∀ finish, Finish.indicesOf g₀ finish = Finish.indicesOf g finish := by
    intro finish
    rw [h.eq, Finish.indicesOf_bare]
  unfold Structurer.extractFinish
  simp only [h.entry, h.ids, hworth, hindices]
  refine (lift (.of_eq hends)).bindIf ?_
  rintro finish _ rfl
  cases finish with
  | nil => exact pure .none
  | cons head tail =>
    refine (lift (.of_eq rfl)).bindIf ?_
    rintro worth _ rfl
    refine ite (pure .none) ((Mirrors.emit _ _).bindIf fun _ _ _ => Mirrors.freshLabel.bindIf ?_)
    rintro label _ rfl
    refine (Mirrors.freshFlag _).bindIf ?_
    rintro first _ rfl
    refine (lift (.of_eq rfl)).bindIf ?_
    rintro indices _ rfl
    refine (MirrorsFrom.cutNodes (head :: tail) _ _ label h []).bindIf ?_
    rintro ⟨g₁, flags⟩ ⟨g₁', _⟩ ⟨h₁, rfl⟩
    refine (lift (h₁.splitOff (head :: tail) head)).bindIf fun r₀ r hr => ?_
    rcases r₀ with e | ⟨ending₀, rest₀⟩
    · exact (Mirrors.violation _ _ _).weaken
    obtain ⟨ending, rest, rfl, hending, hrest⟩ := hr ending₀ rest₀ rfl
    refine (lift (hrest.node g.entry)).bindIf ?_
    rintro _ entry ⟨rfl, _⟩
    -- only the rest of the graph goes through the reducer again; the end is a tree
    refine (withLoop label (hsolve hrest)).bind (fun main => ?_) ?_
    · refine .bind (steps.solveLinearTree _ _ _) fun body => ?_
      split
      · exact .bind (.violation _ _) fun _ => .throw _
      · exact .bind (steps.loadStack _) fun _ => .bind (steps.storeStack _) fun _ => .pure _
    · rintro _ main rfl
      dsimp only
      rw [hending.ids, hending.eq]
      refine (Mirrors.solveLinearTree ending _ .flagsOnly).bindIf fun c₀ c hc => ?_
      cases hc with
      | none => exact (Mirrors.violation _ _ _).weaken
      | some heq =>
        refine (Mirrors.loadStack _).bindIf fun load₀ load hload =>
          (Mirrors.storeStack _).bindIf fun store₀ store hstore => pure (.some ?_)
        rw [heq, hload.bare, hstore.bare]
        simp [new, Node.bare, bare_oneShotLoop, LinearTree.bare_clear]

/-- **Two halves of a graph.** -/
theorem splitRegions {solve : Graph → EngineM Node} (hwork : ∀ g, Work (solve g))
    (hsolve : ∀ {g₀ g : Graph}, g₀.Bares g → Solves (solve g₀) (solve g)) (h : g₀.Bares g) :
    MirrorsIf (Option.Rel fun n₀ n => n₀ = n.bare) (splitRegions solve g₀) (splitRegions solve g) := by
  unfold Structurer.splitRegions
  rw [h.eq, Split.find_bare, ← h.eq]
  refine (lift (.of_eq rfl)).bindIf ?_
  rintro _ (_ | ⟨separator, front⟩) rfl
  · exact pure .none
  refine (lift (h.node separator)).bindIf ?_
  rintro _ separatorNode ⟨rfl, _⟩
  refine (Mirrors.emit _ _).bindIf fun _ _ _ => Mirrors.freshLabel.bindIf ?_
  rintro label _ rfl
  refine (Mirrors.freshFlag _).bindIf ?_
  rintro first _ rfl
  refine (Mirrors.comment _).bindIf fun note₀ note hnote =>
    (Mirrors.storeStack _).bindIf fun leave₀ leave hleave => ?_
  have hcode : Made (note₀ ++ leave₀ ++ [.br label]) (note ++ leave ++ [.br label]) :=
    (hnote.append hleave).append ⟨rfl, by simp [Body.isEqz, Instruction.numericOp?]⟩
  have hexit : new (note₀ ++ leave₀ ++ [.br label]) separatorNode.inputStack [] =
      (new (note ++ leave ++ [.br label]) separatorNode.inputStack []).bare := by
    rw [hcode.bare]
    rfl
  -- the new node gets the same identifier in both graphs, so the same edges are led to it
  obtain ⟨hid, hadded⟩ := h.addNode hexit hcode.steady
  dsimp only [bare_inputStack, bare_inputs]
  rw [hid]
  refine (foldlM (R := Graph.Bares) (fun _ _ source h' => lift (h'.redirectEdge source _ _)) _
    hadded).bindIf fun g₁ g₁' h₁ => ?_
  refine (lift (h₁.splitOff front separator)).bindIf fun r₀ r hr => ?_
  rcases r₀ with e | ⟨part₀, rest₀⟩
  · exact (Mirrors.violation _ _ _).weaken
  obtain ⟨part, rest, rfl, hpart, hrest⟩ := hr part₀ rest₀ rfl
  dsimp only
  rw [hrest.entry]
  refine (lift (hrest.node rest.entry)).bindIf ?_
  rintro _ entry ⟨rfl, _⟩
  refine (withLoop label (hsolve hrest)).bind (fun back => ?_) ?_
  · exact .bind (hwork _) fun _ => .bind (steps.loadStack _) fun _ => .bind (steps.storeStack _) fun _ =>
      .bind (steps.loadStack _) fun _ => .pure _
  rintro _ back rfl
  refine (hsolve hpart).bind (fun front => ?_) ?_
  · exact .bind (steps.loadStack _) fun _ => .bind (steps.storeStack _) fun _ => .bind (steps.loadStack _) fun _ => .pure _
  rintro _ front rfl
  refine (Mirrors.loadStack _).bindIf fun load₀ load hload => (Mirrors.storeStack _).bindIf
    fun store₀ store hstore => (Mirrors.loadStack _).bindIf fun enter₀ enter henter => pure (.some ?_)
  rw [hload.bare, hstore.bare, henter.bare]
  simp [new, Node.bare, bare_oneShotLoop]

/-- **The solver comes to the same node with and without comments.** -/
theorem solveWithin (depth : Nat) (h : g₀.Bares g) :
    Solves (solveWithin depth g₀) (solveWithin depth g) := by
  induction depth generalizing g₀ g with
  | zero =>
    rw [h.eq]
    exact (Mirrors.flatDispatch g).weaken
  | succ depth ih =>
    have hwork := checks.solveWithin depth
    refine (reduce h).bind (fun r => ?_) fun r₀ r hr => ?_
    -- whatever comes after the reducer is work, so that nothing leaves the log
    · cases r with
      | rejected g' e => exact .throw _
      | solved g' => exact .bind (.lift _) fun _ => .pure _
      | stuck g' changed =>
        refine .bind (.emit _) fun _ => .bind (steps.solveLinearTree _ _ _) (.option ?_ fun _ => ?_)
        · refine .bind (steps.extractStart _) (.option (.bind (steps.extractFinish hwork _) (.option ?_ .pure)) ?_)
          · exact .bind (.emit _) fun _ => .bind (steps.splitRegions hwork _) (.option (steps.flatDispatch _) .pure)
          · exact fun _ => .bind (.checkStep _ _) fun _ => hwork _
        · exact .bind (.emit _) fun _ => .bind (.lift _) fun _ => .pure _
    cases hr with
    | rejected => exact (throw _ _).weaken
    | @solved g₁ g₁' h₁ =>
      dsimp only
      rw [h₁.entry]
      exact (lift (h₁.removeNode g₁'.entry)).bindIf fun r₀ r hr => pure hr.1
    | @stuck g₁ g₁' h₁ changed =>
      -- the ways to solve a graph in their order: each is found in both runs or in neither
      have h₂ := h₁.renumber
      dsimp only
      generalize g₁.renumber = g₂ at h₂ ⊢
      generalize g₁'.renumber = g₂' at h₂ ⊢
      refine (Mirrors.emit _ _).bindIf fun _ _ _ => ?_
      rw [h₂.eq]
      refine (Mirrors.solveLinearTree g₂' [] .onStack).bindIf fun c₀ c hc => ?_
      cases hc with
      | some heq =>
        refine (Mirrors.emit _ _).bindIf fun _ _ _ =>
          (lift (g₂'.follows_node_bare g₂'.entry)).bindIf ?_
        rintro _ entry rfl
        refine pure ?_
        rw [heq]
        rfl
      | none =>
        rw [← h₂.eq]
        refine (Mirrors.extractStart h₂).bindIf fun start₀ start hstart => ?_
        cases hstart with
        | some h₃ => exact (Mirrors.checkStep _ _ _).bindIf fun _ _ _ => ih h₃
        | none =>
          refine (extractFinish ih h₂).bind (.option ?_ .pure) fun finish₀ finish hfinish => ?_
          · exact .bind (.emit _) fun _ => .bind (steps.splitRegions hwork _)
              (.option (steps.flatDispatch _) .pure)
          cases hfinish with
          | some heq => exact pure heq
          | none =>
            refine (Mirrors.emit _ _).bindIf fun _ _ _ =>
              (splitRegions hwork ih h₂).bind (.option (steps.flatDispatch _) .pure)
                fun halves₀ halves hhalves => ?_
            cases hhalves with
            | some heq => exact pure heq
            | none =>
              rw [h₂.eq]
              exact (Mirrors.flatDispatch g₂').weaken

end Engine.MirrorsIf

/-! ### Structuring -/

namespace Graph

variable {g' : Graph}

theorem Numbered.of_bare (h : g.bare.Numbered) : g.Numbered :=
  ⟨by rw [← ids_bare]; exact h.nodup, by rw [← ids_bare]; exact h.issued⟩

theorem steady_bare_iff : g.bare.Steady ↔ g.Steady := by
  simp only [Steady, code, bare_nodes, List.map_map, mem_map, forall_exists_index, and_imp,
    forall_apply_eq_imp_iff₂, Function.comp_apply, bare_body, Body.Steady, Body.bare_bare]

theorem Bares.closeReturns (h : g₀.Bares g) : g₀.closeReturns.Bares g.closeReturns where
  eq := by rw [h.eq, bare_closeReturns]
  steady := by
    intro e he
    obtain ⟨_, he', rfl⟩ := mem_map.1 he
    obtain ⟨e', hmem, rfl⟩ := mem_map.1 he'
    have hs : Body.Steady e'.2.body := h.steady _ (mem_map_of_mem hmem)
    show Body.Steady e'.2.closed.body
    unfold closed
    split
    · exact hs.append rfl
    · exact hs
  numbered := (code_closeReturns h.numbered).1

theorem Bares.normalize (hnum : g.Numbered) (hs : g.Steady) (hx : Yields (normalize g) ctx g' ctx') :
    g'.bare.Bares g' := by
  obtain ⟨_, gone, g₁, hgone, rfl, _, _⟩ := yields_normalize.1 hx
  have hrebuilt : Bares _ g.recalculateInputs := (Bares.mk rfl hs hnum).recalculateInputs
  have hwithin : g₁.bare.Bares g₁ := by
    have hleft : g.bare.recalculateInputs.removeUnreachable = .ok (gone, g₁.bare) := by
      rw [← bare_recalculateInputs, removeUnreachable_bare, hgone]
      rfl
    exact (hrebuilt.removeUnreachable _ _ hleft hgone).2
  have hclosed := hwithin.closeReturns.renumber
  exact ⟨rfl, hclosed.steady, hclosed.numbered⟩

end Graph

/-- **Structuring steady code without comments comes to the same node, comments aside**, if no nodes are
merged beside blocks. -/
theorem structureGraph_bare {ctx₂ ctx₂' : Context} {g : Graph} {n₀ n : Node} (h : ctx.Muted ctx₂)
    (hnum : g.Numbered) (hs : g.Steady) (hx : Yields (structureGraph g.bare) ctx n₀ ctx')
    (hy : Yields (structureGraph g) ctx₂ n ctx₂') (hu : ctx'.NoDeepMerge) :
    n₀ = n.bare ∧ ctx'.Muted ctx₂' := by
  obtain ⟨_, g₀, ctx₁, hnormal₀, hsolve₀, _⟩ := yields_structureGraph.1 hx
  obtain ⟨_, g', ctx₃, hnormal, hsolve, _⟩ := yields_structureGraph.1 hy
  obtain ⟨ctx₁', hnormal₁, hm⟩ := (h.logged _ _).normalize hnormal
  obtain ⟨rfl, rfl⟩ := hnormal₀.unique hnormal₁
  unfold solve at hsolve₀
  rw [Graph.size_bare] at hsolve₀
  exact MirrorsIf.solveWithin _ (Graph.Bares.normalize hnum hs hnormal) _ _ _ _ _ _ hm hsolve₀ hsolve hu

/-- **Comments are inert, as far as they are.**  Of two graphs that differ in comments only, both can be
structured or neither can.  If no test for zero begins the code of a node or follows another one, and no nodes
are merged on the way while there are blocks, the results differ in comments only, and the variables are the
same. -/
theorem structureGraph_comments {signature : Signature} {locals : Locals} {settings settings' : Settings}
    {verbosity verbosity' : Option LogLevel} {g g' : Graph} (numbered : g.Numbered) (slots : locals.Valid)
    (alike : g.bare = g'.bare) (flags : settings' = { settings with comments := settings'.comments }) :
    (Structures (.initial signature locals settings verbosity) g ↔
      Structures (.initial signature locals settings' verbosity') g') ∧
    (g.Steady → (∀ n ctx, Yields (structureGraph g.bare)
        (.initial signature locals { settings with comments := false } (some .trace)) n ctx → ctx.NoDeepMerge) →
      ∀ n ctx n' ctx', Yields (structureGraph g) (.initial signature locals settings verbosity) n ctx →
        Yields (structureGraph g') (.initial signature locals settings' verbosity') n' ctx' →
        n.bare = n'.bare ∧ ctx.locals = ctx'.locals) := by
  have hf : ∀ settings verbosity, (Context.initial signature locals settings verbosity).Fine := fun _ _ =>
    ⟨slots, by simp [Context.initial, Labels.empty]⟩
  have hm : Context.Muted (.initial signature locals { settings with comments := false } (some .trace))
      (.initial signature locals settings verbosity) := ⟨rfl, rfl, rfl, rfl, rfl⟩
  have hm' : Context.Muted (.initial signature locals { settings with comments := false } (some .trace))
      (.initial signature locals settings' verbosity') := ⟨rfl, rfl, rfl, by rw [flags]; rfl, rfl⟩
  have hnum' : g'.Numbered := (alike ▸ numbered.bare).of_bare
  have hiff := structures_bare_iff hm numbered (hf _ _) (hf _ _)
  have hiff' := structures_bare_iff hm' hnum' (hf _ _) (hf _ _)
  rw [← alike] at hiff'
  refine ⟨hiff.symm.trans hiff', fun hs hu n ctx n' ctx' hy hy' => ?_⟩
  -- both graphs are compared with the one graph without comments that is left of them
  have hs' : g'.Steady := Graph.steady_bare_iff.1 (alike ▸ Graph.steady_bare_iff.2 hs)
  obtain ⟨n₀, ctx₀, hx⟩ := hiff.2 ⟨n, ctx, hy⟩
  have hx' := hx
  rw [alike] at hx'
  obtain ⟨hbare, hend⟩ := structureGraph_bare hm numbered hs hx hy (hu n₀ ctx₀ hx)
  obtain ⟨hbare', hend'⟩ := structureGraph_bare hm' hnum' hs' hx' hy' (hu n₀ ctx₀ hx)
  exact ⟨hbare.symm.trans hbare', hend.locals.trans hend'.locals.symm⟩

def remarkedLoop (remark : Body) : Graph where
  nodes :=
    [(⟨0⟩, { new (remark ++ [.call "more" [] [.i32]]) [] [] with
        inputs := .ofList [⟨1⟩], exit := .branch ⟨1⟩ ⟨2⟩ }),
      (⟨1⟩, { new ([.localGet ⟨0⟩, .cond [] [] (remark ++ [.call "log" [] []]) remark] ++ remark)
          [] [] with
        inputs := .ofList [⟨0⟩], exit := .seq ⟨0⟩ }),
      (⟨2⟩, { new (remark ++ [.localGet ⟨0⟩, .ret]) [] [] with inputs := .ofList [⟨0⟩] })]
  nextSerial := 3
  entry := ⟨0⟩

theorem structureGraph_comments_remarkedLoop :
    (remarkedLoop [.comment "remark"]).Numbered ∧ slotTable.Valid ∧
    (remarkedLoop [.comment "remark"]).bare = (remarkedLoop []).bare ∧
    (remarkedLoop [.comment "remark"]).Steady ∧
    (∀ n ctx, Yields (structureGraph (remarkedLoop [.comment "remark"]).bare)
      (.initial ⟨"K", "run", "(I)I", [.i32]⟩ slotTable .standard (some .trace)) n ctx → ctx.NoDeepMerge) ∧
    ∃ n ctx n' ctx', Yields (structureGraph (remarkedLoop [.comment "remark"]))
        (.initial ⟨"K", "run", "(I)I", [.i32]⟩ slotTable { Settings.standard with comments := true } none) n
        ctx ∧
      Yields (structureGraph (remarkedLoop []))
        (.initial ⟨"K", "run", "(I)I", [.i32]⟩ slotTable .standard none) n' ctx' ∧
      n.bare = n'.bare ∧ ctx.locals = ctx'.locals := by
  have hnum : (remarkedLoop [.comment "remark"]).Numbered := ⟨by decide, by decide⟩
  have hsteady : (remarkedLoop [.comment "remark"]).Steady := by decide
  have hlog : (outcome (structureGraph (remarkedLoop [.comment "remark"]).bare)
      (.initial ⟨"K", "run", "(I)I", [.i32]⟩ slotTable .standard (some .trace))).2.NoDeepMerge := by decide +kernel
  have hflat : ∀ n ctx, Yields (structureGraph (remarkedLoop [.comment "remark"]).bare)
      (.initial ⟨"K", "run", "(I)I", [.i32]⟩ slotTable .standard (some .trace)) n ctx → ctx.NoDeepMerge := by
    intro n ctx hx
    rwa [hx] at hlog
  have hrun : comesTo (structureGraph (remarkedLoop [.comment "remark"]))
      (.initial ⟨"K", "run", "(I)I", [.i32]⟩ slotTable { Settings.standard with comments := true } none)
      (fun _ => true) = true := by decide +kernel
  obtain ⟨n, ctx, hy, _⟩ := yields_of_comesTo hrun
  obtain ⟨hiff, hsame⟩ := @structureGraph_comments ⟨"K", "run", "(I)I", [.i32]⟩ slotTable
    { Settings.standard with comments := true } .standard none none _ (remarkedLoop []) hnum valid_slotTable
    rfl rfl
  obtain ⟨n', ctx', hy'⟩ := hiff.1 ⟨n, ctx, hy⟩
  exact ⟨hnum, valid_slotTable, rfl, hsteady, hflat, n, ctx, n', ctx', hy, hy',
    hsame hsteady hflat n ctx n' ctx' hy hy'⟩

def doubleTest (remark : Body) : Graph where
  nodes :=
    [(⟨0⟩, { new ([.call "c" [] [.i32], .numeric .i32Eqz] ++ remark ++ [.numeric .i32Eqz]) [] [] with
        inputs := .ofList [⟨0⟩], exit := .branch ⟨1⟩ ⟨0⟩ }),
      (⟨1⟩, { new [.ret] [] [] with inputs := .ofList [⟨0⟩] })]
  nextSerial := 2
  entry := ⟨0⟩

def remarkedArm (remark : Body) : Graph where
  nodes :=
    [(⟨0⟩, { new [.call "c" [] [.i32]] [] [] with exit := .branch ⟨1⟩ ⟨2⟩ }),
      (⟨1⟩, { new [.call "c" [] [.i32], .cond [] [] (remark ++ [.call "log" [] []]) [], .ret] [] [] with
        inputs := .ofList [⟨0⟩] }),
      (⟨2⟩, { new [.call "c" [] [.i32], .cond [] [] [.call "log" [] []] [], .ret] [] [] with
        inputs := .ofList [⟨0⟩] })]
  nextSerial := 3
  entry := ⟨0⟩

def structuredText (g : Graph) : Option (List String) :=
  match outcome (structureGraph g) (.initial ⟨"K", "run", "()V", []⟩ .empty .standard none) with
  | (.ok n, _) => some (Body.render .empty (Body.bare n.body))
  | (.error _, _) => none

/-- Neither condition can be dropped: a comment between two tests for zero, and a comment inside a block of one
of two nodes of the same code, change more than comments. -/
theorem structureGraph_heeds_comments :
    (doubleTest [.comment "x"]).bare = doubleTest [] ∧
    structuredText (doubleTest [.comment "x"]) =
      some ["loop $L0", "  call c (result i32)", "  i32.eqz", "  i32.eqz", "  i32.eqz", "  br_if $L0", "end",
        "return"] ∧
    structuredText (doubleTest []) =
      some ["loop $L0", "  call c (result i32)", "  i32.eqz", "  br_if $L0", "end", "return"] ∧
    (remarkedArm [.comment "x"]).bare = remarkedArm [] ∧
    (remarkedArm [.comment "x"]).Steady ∧
    structuredText (remarkedArm [.comment "x"]) =
      some ["call c (result i32)", "if", "  call c (result i32)", "  if", "    call log", "  end", "  return",
        "else", "  call c (result i32)", "  if", "    call log", "  end", "  return", "end", "unreachable"] ∧
    structuredText (remarkedArm []) =
      some ["call c (result i32)", "drop", "call c (result i32)", "if", "  call log", "end", "return"] := by
  refine ⟨rfl, ?_, ?_, rfl, ?_, ?_, ?_⟩ <;> decide +kernel

end Structurer
