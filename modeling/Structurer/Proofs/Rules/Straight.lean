/-
**Branches with one outcome, and short returns.**

A branch on a constant and one with both arms to one node go on to that node.  The code of a short
node that returns is put into the nodes that go on to it.
-/

import Structurer.Proofs.Reducing

namespace Structurer

open Engine Fallible Machine Chart List

variable {n : Node} {p : NodeId} {done : List NodeId} {g' : Graph}

theorem Regime.Leads.dropConst {R : Regime} {stack out : StackType} {pre note : Body} {v : Int32}
    (h : R.Leads stack (pre ++ .i32Const v :: note) (out ++ [.i32])) (hn : note.hasNoCode = true) :
    R.Leads stack (pre ++ note) out := by
  have hplain : R.plain → Body.Plain (pre ++ note) := fun hz => by
    have hp := Body.plain_append.1 (h.plain hz)
    exact Body.plain_append.2 ⟨hp.1, hp.2.2⟩
  obtain ⟨r, hr, hst⟩ := h.types
  rcases Checker.typeBody_append_iff.1 hr with ⟨hpre, rfl⟩ | ⟨st, hpre, hlast⟩
  · exact ⟨⟨none, Checker.typeBody_append_of_none hpre note, nofun⟩, hplain⟩
  · have hend : r = some (st ++ [.i32]) := by
      have hconst : R.checker.typeInstruction R.loops st (.i32Const v) = some (some (st ++ [.i32])) := rfl
      rw [Checker.typeBody_cons_of_some hconst, Checker.typeBody_comments hn] at hlast
      exact (Option.some.inj hlast).symm
    have hout : R.Fits st out := by
      obtain ⟨st', top, heq, hfit, htop⟩ := (hst _ hend).append_split
      have hlen : [ValueType.i32].length = top.length := htop.length_eq.symm
      rwa [(append_inj' heq hlen).1]
    refine ⟨⟨some st, ?_, fun _ hs => by cases hs; exact hout⟩, hplain⟩
    rw [Checker.typeBody_append_of_some hpre, Checker.typeBody_comments hn]

namespace Reduce

variable {ctx : Context} {plain : Prop} {g g₁ : Graph} {id next : NodeId}

/-! ### Branches on constants -/

theorem constantBranch?_eq_some (hs : g.Consistent) {k : Nat}
    (h : constantBranch? g = some (id, k, next)) :
    ∃ b ifTrue ifFalse pre v note, g.chart.block? id = some b ∧ b.exit = .branch ifTrue ifFalse ∧
      b.body = pre ++ .i32Const v :: note ∧ pre.length = k ∧ Body.hasNoCode note = true ∧
      next = if v ≠ 0 then ifTrue else ifFalse := by
  obtain ⟨⟨id', n⟩, hn, hsome⟩ := exists_of_findSome?_eq_some h
  have hb := hs.block_of_mem hn
  dsimp only at hsome
  cases he : n.exit with
  | seq | ret => rw [he] at hsome; cases hsome
  | branch t f =>
    rw [he] at hsome
    obtain ⟨j, hj, hsome⟩ := Option.bind_eq_some_iff.1 hsome
    obtain ⟨i, hi, hsome⟩ := Option.bind_eq_some_iff.1 hsome
    obtain ⟨pre, i', note, hbody, hlen, hnote⟩ := Body.lastReal?_eq_some hj
    have hi' : i' = i := by
      rw [hbody, ← hlen, Body.getElem?_middle] at hi
      exact Option.some.inj hi
    subst hi'
    cases i' with
    | i32Const v =>
      cases hsome
      exact ⟨n.block, t, f, pre, v, note, hb, he, hbody, hlen, hnote, rfl⟩
    | _ => cases hsome

theorem foldConstantBranch_recasts (hs : g.Consistent) :
    Works (foldConstantBranch g) fun r => ∀ g', r = some g' → ∃ id b t f pre v note,
      b.exit = .branch t f ∧ b.body = pre ++ .i32Const v :: note ∧ Body.hasNoCode note = true ∧
      g.Recasts id b ⟨pre ++ note, b.inputStack, b.outputStack, .seq (if v ≠ 0 then t else f)⟩ g' := by
  unfold foldConstantBranch
  cases h : constantBranch? g with
  | none => exact Works.nothing
  | some e =>
    obtain ⟨id, k, next⟩ := e
    obtain ⟨b, t, f, pre, v, note, hb, he, hbody, rfl, hnote, rfl⟩ := constantBranch?_eq_some hs h
    refine (hs.recasts hb (F := fun b => { b with body := b.body.eraseIdx pre.length })
      {} (.seq (if v ≠ 0 then t else f)) ?_ ?_ []).bind ?_
    · intro out hout
      cases mem_singleton.1 hout
      refine hs.target hb ?_
      split
      · exact Exit.mem_left he
      · exact Exit.mem_right he
    · simp [Block.heft, he]
    · intro g₁ hrecasts
      refine .pure fun g' h => ?_
      cases h
      simp only [hbody, Body.eraseIdx_middle] at hrecasts
      exact ⟨id, b, t, f, pre, v, note, he, hbody, hnote, hrecasts⟩

theorem foldConstantBranch_works (hs : g.Sound ctx plain) :
    Reducing plain ctx g (foldConstantBranch g) := by
  refine (foldConstantBranch_recasts hs.toConsistent).mono fun r hr g' hg' => ?_
  obtain ⟨id, b, t, f, pre, v, note, he, hbody, hnote, hrecasts⟩ := hr g' hg'
  have hb := hrecasts.old
  have hT := hs.typed
  refine .of_recasts hs (.refl ctx) hrecasts ⟨⟨b, hb, rfl⟩, ?_, ?_⟩
    fun hb' K => serves_seq hrecasts.consistent.closed hb' rfl fun w s s' hg hle => ?_
  · have hlead := (hT.blocks hb).branch he
    rw [hbody] at hlead
    exact hlead.dropConst hnote
  · have hnext : (if v ≠ 0 then t else f) ∈ b.exit.outputs := by
      split
      · exact Exit.mem_left he
      · exact Exit.mem_right he
    intro out b'' hout hb''
    cases mem_singleton.1 hout
    exact (hT.edges hb hnext hb'' :)
  · have hlast : exec w b.body (s.forget K) =
        andThen (exec w pre (s.forget K)) (execInstruction w (.i32Const v)) := by
      rw [hbody, exec_last _ hnote]
    show Meets _ _ _ (exec w (pre ++ note) s')
    rw [exec_append, funext (exec_comments w hnote), andThen_some_next]
    refine (meets_begin hb hlast (exec_le w pre hle)).through ?_
    rintro p u ⟨rfl, u₁, hu₁, hlu⟩ -
    have hrun : exec w b.body (s.forget K) = some (.next (u₁.withStack (.i32 v :: u₁.stack))) := by
      rw [hlast, hu₁]
      simp only [andThen_next, execInstruction, simple]
      rfl
    have hstack : (u₁.withStack (.i32 v :: u₁.stack)).stack = .i32 v :: u₁.stack := rfl
    have hgo := goes_branch hb he hrun hstack
    exact ⟨u₁, hgo, hg.goes hT hs.closed hgo, hlu.forget_left⟩

/-! ### Branches with both arms to one node -/

theorem trivialBranch?_eq_some (hs : g.Consistent) (h : trivialBranch? g = some (id, next)) :
    ∃ b, g.chart.block? id = some b ∧ b.exit = .branch next next := by
  obtain ⟨⟨id', n⟩, hn, hsome⟩ := exists_of_findSome?_eq_some h
  dsimp only at hsome
  cases he : n.exit with
  | seq | ret => rw [he] at hsome; cases hsome
  | branch t f =>
    rw [he] at hsome
    dsimp only at hsome
    split at hsome
    next heq =>
      cases hsome
      exact ⟨n.block, hs.block_of_mem hn, by rw [Node.block_exit, he, heq]⟩
    next => cases hsome

theorem removeTrivialBranch_recasts (hs : g.Consistent) (ctx : Context) :
    Succeeds (removeTrivialBranch g) ctx (Attempt ctx fun g' ctx' => ctx' = ctx ∧ ∃ id b next note,
      b.exit = .branch next next ∧ Body.hasNoCode note = true ∧
      g.Recasts id b ⟨b.body ++ note ++ [.drop], b.inputStack, b.outputStack, .seq next⟩ g') := by
  unfold removeTrivialBranch
  cases h : trivialBranch? g with
  | none => exact .pure .nothing
  | some e =>
    obtain ⟨id, next⟩ := e
    obtain ⟨b, hb, he⟩ := trivialBranch?_eq_some hs h
    refine (comment_spec ctx _).bind ?_
    rintro note _ ⟨rfl, hnote⟩
    refine (Succeeds.works (hs.recasts hb (F := fun b => { b with body := b.body ++ note ++ [.drop] })
      {} (.seq next) ?_ ?_ []) _).bind ?_
    · exact forall_mem_singleton.2 (hs.target hb (Exit.mem_left he))
    · simp [Block.heft, he]
    · rintro g' _ ⟨rfl, hrecasts⟩
      exact .pure (.success ⟨rfl, id, b, next, note, he, hnote, hrecasts⟩)

theorem removeTrivialBranch_works (hs : g.Sound ctx plain) :
    Succeeds (removeTrivialBranch g) ctx (Reduced plain ctx g) := by
  refine (removeTrivialBranch_recasts hs.toConsistent ctx).mono fun r ctx' hr => hr.mono ?_
  rintro g' ⟨rfl, id, b, next, note, he, hnote, hrecasts⟩
  have hb := hrecasts.old
  have hT := hs.typed
  refine .of_recasts hs (.refl _) hrecasts ⟨⟨b, hb, rfl⟩, ?_, ?_⟩
    fun hb' K => serves_seq hrecasts.consistent.closed hb' rfl fun w s s' hg hle => ?_
  · exact (((hT.blocks hb).branch he).append (Regime.leads_comments hnote)).append
      (Regime.leads_drop .i32)
  · intro out b'' hout hb''
    cases mem_singleton.1 hout
    exact (hT.edges hb (Exit.mem_left he) hb'' :)
  · have harm : (⟨next, next, true⟩ : Arm) ∈ b.exit.arms := by simp [he, Exit.arms]
    show Meets _ _ _ (exec w (b.body ++ note ++ [.drop]) s')
    rw [append_assoc, exec_append]
    refine Meets.andThen (meets_toward hT hs.closed hb harm hg hle) ?_
    rintro p t ⟨c, rest, hst, hreach⟩
    rw [exec_append, exec_comments w hnote, andThen_next, exec_drop hst]
    rw [ite_self] at hreach
    exact .here hreach

/-! ### Short returns -/

theorem works_isSeq {b : Block} (h : g.chart.block? id = some b) : isSeq g id = .ok b.exit.isSeq := by
  obtain ⟨n, hn, rfl⟩ := Graph.node_of_block h
  unfold isSeq
  rw [hn]
  rfl

def Block.returning (code : Body) (b : Block) : Block :=
  { b with body := b.body ++ code, exit := .ret }

/-- The short node and the nodes that always go on to it. -/
structure SmallReturn (g : Graph) (id : NodeId) (n : Node) : Prop where
  found : g.get? id = some n
  ret : n.exit = .ret
  preds : ∃ p b, g.chart.block? p = some b ∧ b.exit = .seq id

theorem exit_of_isSeq {e : Exit} (h : e.isSeq = true) (hid : id ∈ e.outputs) : e = .seq id := by
  cases e with
  | seq n => rw [mem_singleton.1 hid]
  | branch | ret => cases h

theorem smallReturn?_works (hs : g.Consistent) (limit : Nat) :
    Works (smallReturn? g limit) fun r => ∀ id n, r = some (id, n) → SmallReturn g id n := by
  refine (Works.findM? (P := fun e => SmallReturn g e.1 e.2) ?_).mono
    fun r hr id n h => (hr (id, n) h).2
  rintro ⟨id, n⟩ hn
  have hget := (Graph.get?_eq_some_iff hs.tidy.nodup).2 hn
  dsimp only
  split
  next hshort =>
    refine (Works.anyM (P := fun p => ∃ b, g.chart.block? p = some b ∧ b.exit = .seq id) ?_).mono ?_
    · intro p hp
      obtain ⟨b, hb, hout⟩ := (hs.tidy.mem_inputs_iff hget).1 hp
      exact .of_eq (works_isSeq hb) fun hseq => ⟨b, hb, exit_of_isSeq hseq hout⟩
    · intro r hr h
      obtain ⟨p, _, b, hb, he⟩ := hr h
      exact ⟨hget, hshort.1, p, b, hb, he⟩
  next => exact Works.fails

def seqInputs (g : Graph) (id : NodeId) (n : Node) : List NodeId :=
  n.inputs.toList.filter fun p => (g.chart.block? p).any fun b => b.exit == .seq id

theorem mem_seqInputs (hs : g.Consistent) (hn : g.get? id = some n) :
    p ∈ seqInputs g id n ↔ ∃ b, g.chart.block? p = some b ∧ b.exit = .seq id := by
  have hin : p ∈ n.inputs.toList ↔ g.chart.Targets p id := hs.tidy.mem_inputs_iff hn
  simp only [seqInputs, mem_filter, hin, Option.any_eq_true, beq_iff_eq]
  constructor
  · exact And.right
  · rintro ⟨b, hb, he⟩
    exact ⟨⟨b, hb, Exit.mem_seq he⟩, b, hb, he⟩

theorem filterM_isSeq (hs : g.Consistent) (hn : g.get? id = some n) :
    n.inputs.toList.filterM (isSeq g) = .ok (seqInputs g id n) := by
  refine filterM_eq_ok fun p hp => ?_
  obtain ⟨b, hb, hout⟩ := (hs.tidy.mem_inputs_iff hn).1 hp
  rw [works_isSeq hb, hb]
  congr 1
  cases he : b.exit with
  | seq n =>
    rw [he] at hout
    simp [Exit.isSeq, he, (mem_singleton.1 hout).symm]
  | branch | ret => simp [Exit.isSeq, he]

/-- Some nodes return by themselves. -/
structure Returning (g : Graph) (code : Body) (done : List NodeId) (g' : Graph) : Prop where
  tidy : g'.Tidy
  entry : g'.chart.entry = g.chart.entry
  changed : ∀ j ∈ done, g'.chart.block? j = (g.chart.block? j).map (Block.returning code)
  others : ∀ j, j ∉ done → g'.chart.block? j = g.chart.block? j

theorem returnFrom_works {code : Body} (h : Returning g code done g') (hp : g.chart.Live p)
    (hnew : p ∉ done) : Works (returnFrom code g' p) (Returning g code (done ++ [p])) := by
  obtain ⟨b, hb⟩ := hp
  have hb' : g'.chart.block? p = some b := by rw [h.others p hnew, hb]
  refine (h.tidy.change ⟨b, hb'⟩ (F := fun b => { b with body := b.body ++ code }) {} .ret).mono ?_
  rintro g'' ⟨htidy, hchart, _⟩
  refine ⟨htidy, by rw [hchart]; exact h.entry, ?_, ?_⟩
  · intro j hj
    rw [hchart]
    rcases mem_append.1 hj with hj | hj
    · have hne : j ≠ p := fun heq => hnew (heq ▸ hj)
      rw [update_of_ne _ hne, h.changed j hj]
    · cases mem_singleton.1 hj
      rw [update_self, hb', hb]
      rfl
  · intro j hj
    rw [mem_append, not_or, mem_singleton] at hj
    rw [hchart, update_of_ne _ hj.2, h.others j hj.1]

theorem Returning.closed {code : Body} (h : Returning g code done g') (hC : g.chart.Closed) :
    g'.chart.Closed := by
  have hlive : ∀ j, g.chart.Live j → g'.chart.Live j := by
    rintro j ⟨b, hb⟩
    by_cases hj : j ∈ done
    · exact ⟨_, by rw [h.changed j hj, hb]; rfl⟩
    · exact ⟨b, by rw [h.others j hj, hb]⟩
  refine ⟨h.entry ▸ hlive _ hC.entry, ?_⟩
  rintro p j ⟨b, hb, hout⟩
  by_cases hp : p ∈ done
  · rw [h.changed p hp, Option.map_eq_some_iff] at hb
    obtain ⟨b₀, _, rfl⟩ := hb
    cases hout
  · rw [h.others p hp] at hb
    exact hlive j (hC.targets p j ⟨b, hb, hout⟩)

/-- A short node that returns was copied into the predecessors that always go on to it. -/
structure Inlined (g : Graph) (id : NodeId) (n : Node) (g' : Graph) : Prop where
  shrinks : g.Shrinks g'
  entry : g'.chart.entry = g.chart.entry
  blocks : ∀ {j b'}, g'.chart.block? j = some b' → g.chart.block? j = some b' ∨
    ∃ b, g.chart.block? j = some b ∧ b.exit = .seq id ∧ b' = Block.returning n.body b

theorem Returning.inlined (hs : g.Consistent) (h : SmallReturn g id n)
    (hr : Returning g n.body (seqInputs g id n) g₁) : Inlined g id n (g₁.eraseOrphan id) := by
  obtain ⟨htidy, hchart, _⟩ := hr.tidy.eraseOrphan id
  have hblocks : ∀ {j b'}, (g₁.eraseOrphan id).chart.block? j = some b' → g.chart.block? j = some b' ∨
      ∃ b, g.chart.block? j = some b ∧ b.exit = .seq id ∧ b' = Block.returning n.body b := by
    intro j b' hb'
    rw [hchart] at hb'
    replace hb' := block?_of_dropOrphan hb'
    by_cases hj : j ∈ seqInputs g id n
    · obtain ⟨b, hb, he⟩ := (mem_seqInputs hs h.found).1 hj
      rw [hr.changed j hj, hb] at hb'
      exact .inr ⟨b, hb, he, (Option.some.inj hb').symm⟩
    · rw [hr.others j hj] at hb'
      exact .inl hb'
  have hentry : (g₁.eraseOrphan id).chart.entry = g.chart.entry := by
    rw [hchart, dropOrphan_entry, hr.entry]
  have hclosed : (g₁.eraseOrphan id).chart.Closed := by
    rw [hchart]
    exact (hr.closed hs.closed).dropOrphan id
  obtain ⟨p, bp, hbp, hep⟩ := h.preds
  refine ⟨⟨⟨htidy, hclosed⟩, fun j => ?_, p, ?_⟩, hentry, hblocks⟩
  · cases hb' : (g₁.eraseOrphan id).chart.block? j with
    | none =>
      rw [heft_of_none hb']
      exact Nat.zero_le _
    | some b' =>
      rw [heft_of_block hb']
      rcases hblocks hb' with hb | ⟨b, hb, he, rfl⟩
      · rw [heft_of_block hb]
      · rw [heft_of_block hb]
        simp [Block.heft, Block.returning, he]
  · -- the predecessor leads nowhere now
    have hb' : g₁.chart.block? p = some (Block.returning n.body bp) := by
      rw [hr.changed p ((mem_seqInputs hs h.found).2 ⟨bp, hbp, hep⟩), hbp]
      rfl
    have hle : (g₁.eraseOrphan id).chart.heft p ≤ 1 := by
      rw [hchart]
      cases hb'' : (g₁.chart.dropOrphan id).block? p with
      | none =>
        rw [heft_of_none hb'']
        exact Nat.zero_le _
      | some c =>
        have hc := block?_of_dropOrphan hb''
        rw [hb'] at hc
        cases hc
        rw [heft_of_block hb'']
        simp [Block.heft, Block.returning]
    have hheft : g.chart.heft p = 2 := by
      rw [heft_of_block hbp]
      simp [Block.heft, hep]
    omega

theorem inlineSmallReturn_inlines (hs : g.Consistent) (limit : Nat) :
    Works (inlineSmallReturn limit g) fun r => ∀ g', r = some g' →
      ∃ id n, SmallReturn g id n ∧ Inlined g id n g' := by
  refine (smallReturn?_works hs limit).bind ?_
  rintro (_ | ⟨id, n⟩) hr
  · exact Works.nothing
  have hsmall := hr id n rfl
  refine (Works.of_eq (filterM_isSeq hs hsmall.found) rfl).bind ?_
  rintro _ rfl
  have hnodup : (seqInputs g id n).Nodup := n.inputs.nodup.filter _
  refine (Works.foldlM (I := Returning g n.body) ?_ ⟨hs.tidy, rfl, by simp, fun _ _ => rfl⟩).bind ?_
  · intro done a rest g' hsplit hI
    have ha : a ∈ seqInputs g id n := by rw [hsplit]; simp
    obtain ⟨b, hb, _⟩ := (mem_seqInputs hs hsmall.found).1 ha
    refine returnFrom_works hI ⟨b, hb⟩ fun hmem => ?_
    rw [hsplit, nodup_append] at hnodup
    exact hnodup.2.2 a hmem a (.head _) rfl
  intro g₁ hI
  refine .pure fun g' h => ?_
  cases h
  exact ⟨id, n, hsmall, hI.inlined hs hsmall⟩

theorem inlineSmallReturn_works (hs : g.Sound ctx plain) (limit : Nat) :
    Reducing plain ctx g (inlineSmallReturn limit g) := by
  refine (inlineSmallReturn_inlines hs.toConsistent limit).mono fun r hr g' hg' => ?_
  obtain ⟨id, n, hsmall, hinlined⟩ := hr g' hg'
  have hbn := Graph.block?_of_get? hsmall.found
  have hret : n.block.exit = .ret := hsmall.ret
  have hT := hs.typed
  refine .of_blocks hs (.refl ctx) hinlined.shrinks hinlined.entry fun {j b'} hb' => ?_
  rcases hinlined.blocks hb' with hb | ⟨b, hb, he, rfl⟩
  · exact .inl hb
  · have hstops := ((hT.blocks hbn).ret hret).fits (hT.edges hb (Exit.mem_seq he) hbn)
    refine .inr ⟨⟨⟨b, hb, rfl⟩, ((hT.blocks hb).seq he).stops hstops, ?_⟩, fun K => ?_⟩
    · intro out b'' hout
      cases hout
    refine serves_ret rfl fun w s s' hg hle => ?_
    show Meets _ _ _ (exec w (b.body ++ n.body) s')
    rw [exec_append]
    refine Meets.andThen (meets_seq hT hs.closed hb he hg hle) ?_
    rintro q t ⟨t₁, hgo, hgood, hlt⟩
    exact (meets_ret hT hbn hret hgood hlt _).of_goes hgo

end Reduce

end Structurer
