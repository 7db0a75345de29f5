/-
**Sources that are accepted.**

Whatever text is accepted as a method, each of its lines says one thing, and the method is what the
lines say.
-/

import Mathlib.Data.List.ModifyLast
import Structurer.Proofs.Declarations
import Structurer.Proofs.Places
import Structurer.Proofs.Shrinking

namespace Structurer

open Text List

variable {b w rest : List Char} {i : Instruction} {name : String} {body : Body}
  {head : Source.NodeHead} {id : NodeId} {k : Nat} {g : Graph} {d d' : Source.Draft}
  {sigs : List Signature} {vars : List LocalVariable}

/-! ### Words from the front -/

namespace Text

variable {cs : List Char}

theorem exists_append_blank (cs : List Char) : ∃ b, Blank b ∧ cs = trimEnd cs ++ b := by
  induction cs with
  | nil => exact ⟨[], by decide, rfl⟩
  | cons c cs ih =>
    obtain ⟨b, hb, hcs⟩ := ih
    rw [trimEnd]
    cases h : trimEnd cs with
    | nil =>
      rw [h, nil_append] at hcs
      subst hcs
      by_cases hc : isBlank c = true
      · exact ⟨c :: cs, forall_mem_cons.2 ⟨hc, hb⟩, by simp [hc]⟩
      · exact ⟨cs, hb, by simp [hc]⟩
    | cons d ds => exact ⟨b, hb, by rw [cons_append, ← h, ← hcs]⟩

theorem words_append_blank (hb : Blank b) : words (cs ++ b) = words cs := by
  rw [← words_trimEnd, trimEnd_append, if_pos (trimEnd_eq_nil_iff.2 hb), words_trimEnd]

theorem exists_gap (hsplit : splitWord cs = (w, rest)) (hne : rest ≠ [])
    (hstart : trimStart cs = cs) :
    IsWord w ∧ trimStart rest = rest ∧ ∃ gap, Source.Gap gap ∧ cs = w ++ (gap ++ rest) := by
  rcases splitWord_cases cs with ⟨-, hsplit'⟩ | ⟨b, v, tail, hb, hv, htail, hcs, hsplit'⟩
  · rw [hsplit'] at hsplit
    cases hsplit
    exact absurd rfl hne
  · rw [hsplit'] at hsplit
    cases hsplit
    obtain ⟨gap, hgap, hblank, htext⟩ := htail.exists_blank hne
    refine ⟨hv, trimStart_trimStart _, gap, ⟨hgap, hblank⟩, ?_⟩
    rw [← htext, ← hstart, hcs, Source.trimStart_gap hb hv]

theorem ne_nil_of_splitWord (hsplit : splitWord cs = (w, rest)) (hne : rest ≠ []) : cs ≠ [] := by
  rintro rfl
  cases hsplit
  exact hne rfl

theorem exists_trim_append (h : Source.isIndented cs = false) :
    trimStart (trim cs) = trim cs ∧ ∃ b, Blank b ∧ cs = trim cs ++ b := by
  cases cs with
  | nil => exact ⟨rfl, [], by decide, rfl⟩
  | cons c cs =>
    have hc : isBlank c = false := h
    have hstart : trimStart (c :: cs) = c :: cs := by simp [trimStart, hc]
    rw [trim, hstart]
    refine ⟨?_, exists_append_blank _⟩
    rw [trimEnd]
    cases trimEnd cs <;> simp [trimStart, hc]

end Text

namespace Source

/-! ### What lines say -/

/-- What a line can say. -/
inductive Statement where
  | remark
  | heading (s : Signature)
  | declares (v : LocalVariable)
  | node (head : NodeHead)
  | code (i : Instruction)

/-- A line says a statement, where the given variables are declared above it. -/
inductive Says (table : Locals) (line : List Char) : Statement → Prop
  | remark (h : IsRemark line) : Says table line .remark
  | heading {s : Signature} (h : IsHeading s line) : Says table line (.heading s)
  | declares {v : LocalVariable} (h : IsVariable v line) (hname : IsWord v.name.toList) :
      Says table line (.declares v)
  | node {head : NodeHead} (h : IsNodeLine head line) : Says table line (.node head)
  | code {i : Instruction} (h : isIndented line = true)
      (hread : readInstruction table (trim line) = .ok i) : Says table line (.code i)

def Draft.extend (d : Draft) (id : NodeId) (i : Instruction) : Draft :=
  { d with graph := d.graph.modify id fun n => { n with body := n.body ++ [i] } }

/-- What a statement on a line of the given number does to a draft. -/
inductive Draft.Takes (d : Draft) (k : Nat) : Statement → Draft → Prop
  | remark : d.Takes k .remark d
  | heading {s : Signature} (h : d.signature = none) :
      d.Takes k (.heading s) { d with signature := some s }
  | declares {v : LocalVariable} (h : v.name ∉ d.locals.names) :
      d.Takes k (.declares v)
        { d with locals := { d.locals with entries := d.locals.entries.push v } }
  | node {head : NodeHead} (h : head.name ∉ d.names.map (·.1)) :
      d.Takes k (.node head) (d.addNode k head)
  | code {i : Instruction} {id : NodeId} (h : d.current = some id) :
      d.Takes k (.code i) (d.extend id i)

section Lines

variable {text : List Char}

theorem isHeading_of_read (hb : Blank b) (hstart : trimStart text = text) {s : Signature}
    (hkeyword : splitWord text = ("method".toList, rest)) (h : readSignature rest = .ok s) :
    IsHeading s (text ++ b) := by
  unfold readSignature at h
  rcases h₁ : splitWord rest with ⟨c, r₁⟩
  rcases h₂ : splitWord r₁ with ⟨n, r₂⟩
  rcases h₃ : splitWord r₂ with ⟨t, r₃⟩
  simp only [h₁, h₂, h₃] at h
  split at h
  next => cases h
  next =>
    split at h
    next => cases h
    next results hresults =>
      obtain ⟨ts, hts, ⟨⟩⟩ := Fallible.bind_eq_ok_iff.1 h
      have hr₃ : r₃ = ['-', '>'] ++ results := stripHead?_eq_some_iff.1 hresults
      have hne₃ : r₃ ≠ [] := by simp [hr₃]
      have hne₂ : r₂ ≠ [] := ne_nil_of_splitWord h₃ hne₃
      have hne₁ : r₁ ≠ [] := ne_nil_of_splitWord h₂ hne₂
      obtain ⟨-, hs, gap, hgap, rfl⟩ := exists_gap hkeyword (ne_nil_of_splitWord h₁ hne₁) hstart
      obtain ⟨hc, hs₁, g₁, hg₁, rfl⟩ := exists_gap h₁ hne₁ hs
      obtain ⟨hn, hs₂, g₂, hg₂, rfl⟩ := exists_gap h₂ hne₂ hs₁
      obtain ⟨ht, -, g₃, hg₃, rfl⟩ := exists_gap h₃ hne₃ hs₂
      have hwords : words (results ++ b) = ts.map fun t => t.name.toList :=
        (words_append_blank hb).trans (readTypes_eq_ok_iff.1 hts)
      have hheading := IsHeading.mk (s := ⟨String.ofList c, String.ofList n, String.ofList t, ts⟩)
        hgap hg₁ hg₂ hg₃ (by simpa using hc) (by simpa using hn) (by simpa using ht) hwords
      simpa [hr₃] using hheading

theorem isVariable_of_read (hb : Blank b) (hstart : trimStart text = text)
    (hkeyword : splitWord text = ("local".toList, rest)) (h : readLocalLine d rest = .ok d') :
    ∃ v, IsVariable v (text ++ b) ∧ IsWord v.name.toList ∧ d.Takes k (.declares v) d' := by
  unfold readLocalLine at h
  rcases hsplit : splitWord rest with ⟨n, r⟩
  simp only [hsplit] at h
  obtain ⟨t, ht, h⟩ := Fallible.bind_eq_ok_iff.1 h
  split at h
  next => cases h
  next hnew =>
    cases h
    have hname : String.ofList n ∉ d.locals.names :=
      Locals.lookup_eq_none_iff.1 (by simpa using hnew)
    obtain rfl := readType_eq_ok_iff.1 ht
    have htype := t.isWord_name.nonempty
    obtain ⟨-, hs, gap, hgap, rfl⟩ := exists_gap hkeyword (ne_nil_of_splitWord hsplit htype) hstart
    obtain ⟨hn, -, g, hg, rfl⟩ := exists_gap hsplit htype hs
    refine ⟨⟨String.ofList n, t⟩, ?_, by simpa using hn, ?_⟩
    · simpa using IsVariable.mk (v := ⟨String.ofList n, t⟩) hgap hg hb
    · rw [Locals.add, Locals.freeName_eq_self hname]
      exact .declares hname

theorem isNodeLine_of_read (hb : Blank b) (hstart : trimStart text = text)
    (hkeyword : splitWord text = ("node".toList, rest)) (h : readNodeLine d k rest = .ok d') :
    ∃ head, IsNodeLine head (text ++ b) ∧ d.Takes k (.node head) d' := by
  unfold readNodeLine at h
  rcases hsplit : splitWord rest with ⟨n, r⟩
  simp only [hsplit] at h
  split at h
  next => cases h
  next hnew =>
    obtain ⟨⟨inputs, r₁⟩, hinputs, h⟩ := Fallible.bind_eq_ok_iff.1 h
    dsimp only at h
    split at h
    next => cases h
    next r₂ hr₂ =>
      obtain ⟨⟨outputs, r₃⟩, houtputs, h⟩ := Fallible.bind_eq_ok_iff.1 h
      obtain ⟨exit, hexit, ⟨⟩⟩ := Fallible.bind_eq_ok_iff.1 h
      obtain ⟨b₂, ins, hb₂, hins, rfl⟩ := readStack_eq_ok_iff.1 hinputs
      obtain ⟨b₃, hb₃, hr₁⟩ := exists_blank_append r₁
      obtain ⟨b₄, outs, hb₄, houts, rfl⟩ := readStack_eq_ok_iff.1 houtputs
      rw [stripHead?_eq_some_iff.1 hr₂] at hr₁
      have hne : b₂ ++ inParens ins r₁ ≠ [] := by simp [inParens]
      obtain ⟨-, hs, gap, hgap, rfl⟩ := exists_gap hkeyword (ne_nil_of_splitWord hsplit hne) hstart
      obtain ⟨hn, -, g, hg, rfl⟩ := exists_gap hsplit hne hs
      have hgap₂ : Gap (g ++ b₂) :=
        ⟨by simp [hg.nonempty], forall_mem_append.2 ⟨hg.blank, hb₂⟩⟩
      let head : NodeHead := ⟨String.ofList n, inputs, outputs, exit⟩
      have hline := IsNodeLine.mk (n := head) hgap hgap₂ hb₃ hb₄ (by simpa [head] using hn) hins houts
        ((words_append_blank hb).trans (readExit_eq_ok_iff.1 hexit))
      have htakes : d.Takes k (.node head) (d.addNode k head) :=
        .node (lookup_isSome_eq_false_iff.1 (Bool.eq_false_of_not_eq_true hnew))
      exact ⟨head, by simpa [hr₁, inParens, head] using hline, htakes⟩

/-- **What a line that is accepted says, and what it does to a draft.** -/
theorem readLine_takes {line : List Char} (h : readLine d k line = .ok d') :
    ∃ s, Says d.locals line s ∧ d.Takes k s d' := by
  unfold readLine at h
  dsimp only at h
  split at h
  next hempty =>
    cases h
    exact ⟨.remark, .remark (.inl (trim_eq_nil_iff.1 (by simpa using hempty))), .remark⟩
  next =>
    split at h
    next hindented =>
      unfold readIndented at h
      split at h
      next => cases h
      next id hcurrent =>
        obtain ⟨i, hi, ⟨⟩⟩ := Fallible.bind_eq_ok_iff.1 h
        exact ⟨.code i, .code hindented hi, .code hcurrent⟩
    next hindented =>
      obtain ⟨hstart, b, hb, hline⟩ := exists_trim_append (by simpa using hindented)
      split at h
      next hmark =>
        cases h
        obtain ⟨rest, hrest⟩ := Option.isSome_iff_exists.1 hmark
        refine ⟨.remark, .remark (.inr ?_), .remark⟩
        rw [hline, stripHead?_eq_some_iff.1 hrest, append_assoc]
        exact prefix_append _ _
      next =>
        unfold readDeclaration at h
        rcases hsplit : splitWord (trim line) with ⟨keyword, rest⟩
        simp only [hsplit] at h
        rw [hline]
        split at h
        next hkeyword =>
          unfold readMethodLine at h
          split at h
          next => cases h
          next hfirst =>
            obtain ⟨s, hs, ⟨⟩⟩ := Fallible.bind_eq_ok_iff.1 h
            obtain rfl : keyword = "method".toList := by rw [← hkeyword, String.toList_ofList]
            exact ⟨.heading s, .heading (isHeading_of_read hb hstart hsplit hs),
              .heading (by simpa using hfirst)⟩
        next hkeyword =>
          obtain rfl : keyword = "local".toList := by rw [← hkeyword, String.toList_ofList]
          obtain ⟨v, hv, hname, htakes⟩ := isVariable_of_read hb hstart hsplit h
          exact ⟨.declares v, .declares hv hname, htakes⟩
        next hkeyword =>
          obtain rfl : keyword = "node".toList := by rw [← hkeyword, String.toList_ofList]
          obtain ⟨head, hhead, htakes⟩ := isNodeLine_of_read hb hstart hsplit h
          exact ⟨.node head, .node hhead, htakes⟩
        next => cases h

end Lines

end Source

/-! ### Flat code -/

def Instruction.FlatOver (n : Nat) : Instruction → Prop
  | .localGet l => l.index < n
  | .localSet l => l.index < n
  | .cond .. | .loop .. | .switch .. | .br _ | .brIf _ => False
  | _ => True

theorem Instruction.FlatOver.mono {n n' : Nat} (h : i.FlatOver n) (hle : n ≤ n') :
    i.FlatOver n' := by
  cases i with
  | localGet | localSet => exact Nat.lt_of_lt_of_le h hle
  | _ => exact h

theorem Source.flat_of_read {table : Locals} {line : List Char}
    (h : readInstruction table line = .ok i) : i.FlatOver table.size := by
  cases hmark : stripHead? [';', ';'] line with
  | some text =>
    rw [readInstruction, hmark] at h
    cases h
    trivial
  | none =>
    rw [readInstruction_eq_ok_iff hmark] at h
    generalize String.ofList (splitWord line).1 = m, (splitWord line).2 = rest at h
    cases h with
    | alone h | heedless h => cases h <;> trivial
    | operand h =>
      cases h with
      | localGet h | localSet h =>
        obtain ⟨name, hname, -⟩ := h
        exact (Locals.name_of_lookup hname).1
      | _ => trivial
    | call h =>
      obtain ⟨_, _, -, rfl⟩ := readCall_eq_ok_iff.1 h
      trivial

namespace Source

variable {ss before : List Statement}

/-! ### What a source tells -/

def Statement.signature? : Statement → Option Signature
  | heading s => some s
  | _ => none

def Statement.variable? : Statement → Option LocalVariable
  | declares v => some v
  | _ => none

/-- Nodes with their code, and one more statement: code goes to the last node. -/
def Statement.addTo (ns : List (NodeHead × Body)) : Statement → List (NodeHead × Body)
  | node head => ns ++ [(head, [])]
  | code i => ns.modifyLast fun n => (n.1, n.2 ++ [i])
  | _ => ns

def declared (ss : List Statement) : List LocalVariable := ss.filterMap Statement.variable?

def written (ss : List Statement) : List (NodeHead × Body) := ss.foldl Statement.addTo []

/-- A draft shows signatures, variables and nodes. -/
structure Draft.Shows (d : Draft) (sigs : List Signature) (vars : List LocalVariable)
    (ns : List (NodeHead × Body)) : Prop where
  signature : d.signature.toList = sigs
  locals : d.locals = ⟨vars.toArray, []⟩
  distinct : (vars.map (·.name)).Nodup
  nodes : d.graph.nodes =
    ns.mapIdx fun k n => (⟨k⟩, { Node.new n.2 n.1.inputs n.1.outputs with index := k })
  serial : d.graph.nextSerial = ns.length
  entry : d.graph.entry = ⟨0⟩
  names : d.names = ns.mapIdx fun k n => (n.1.name, ⟨k⟩)
  distinctNodes : (ns.map (·.1.name)).Nodup
  pending : d.pending.map (fun p => (p.id, p.exit)) = ns.mapIdx fun k n => (⟨k⟩, n.1.exit)
  current : ∀ id, d.current = some id → id.serial + 1 = ns.length
  flat : ∀ n ∈ ns, ∀ i ∈ n.2, i.FlatOver vars.length

namespace Draft.Shows

variable {ns : List (NodeHead × Body)} {line : List Char} {s : Statement}

theorem empty : Draft.empty.Shows [] [] [] := by
  constructor <;> simp [Draft.empty, Locals.empty, Graph.empty]

theorem map_fst_names (h : d.Shows sigs vars ns) : d.names.map (·.1) = ns.map (·.1.name) := by
  rw [h.names]
  exact ext_getElem (by simp) (by simp)

theorem declares (h : d.Shows sigs vars ns) {v : LocalVariable} (hnew : v.name ∉ d.locals.names) :
    Draft.Shows { d with locals := { d.locals with entries := d.locals.entries.push v } } sigs
      (vars ++ [v]) ns := by
  have hnames : d.locals.names = vars.map (·.name) := by simp [h.locals, Locals.names]
  rw [hnames] at hnew
  refine { h with locals := ?_, distinct := ?_, flat := fun n hn i hi => (h.flat n hn i hi).mono ?_ }
  · simp [h.locals]
  · simpa using h.distinct.concat hnew
  · simp

theorem node (h : d.Shows sigs vars ns) (hnew : head.name ∉ d.names.map (·.1)) :
    (d.addNode k head).Shows sigs vars (ns ++ [(head, [])]) := by
  have hsize : d.graph.size = ns.length := by rw [Graph.size, h.nodes, length_mapIdx]
  rw [h.map_fst_names] at hnew
  constructor
  · exact h.signature
  · exact h.locals
  · exact h.distinct
  · have hnodes : (d.addNode k head).graph.nodes = d.graph.nodes ++ [(⟨d.graph.nextSerial⟩,
        { Node.new [] head.inputs head.outputs with index := d.graph.size })] := rfl
    rw [hnodes, h.serial, hsize, h.nodes, mapIdx_concat]
  · rw [length_append, ← h.serial]
    rfl
  · show (if d.graph.nodes.isEmpty then _ else d.graph.entry) = _
    rw [h.entry, h.serial, h.nodes]
    cases ns <;> simp
  · rw [mapIdx_concat, ← h.names, ← h.serial]
    rfl
  · simpa using h.distinctNodes.concat hnew
  · rw [mapIdx_concat, ← h.pending, ← h.serial]
    simp [Draft.addNode]
  · rintro _ ⟨⟩
    simp [h.serial]
  · simpa [or_imp, forall_and] using h.flat

theorem code (h : d.Shows sigs vars (ns ++ [(head, body)])) (hcurrent : d.current = some id)
    (hi : i.FlatOver vars.length) :
    (d.extend id i).Shows sigs vars (ns ++ [(head, body ++ [i])]) := by
  obtain rfl : id = ⟨ns.length⟩ := by
    have hlast := h.current id hcurrent
    cases id
    simpa using hlast
  constructor
  · exact h.signature
  · exact h.locals
  · exact h.distinct
  · -- Only the last node has the last number.
    show d.graph.nodes.map _ = _
    rw [h.nodes, mapIdx_concat, mapIdx_concat, map_append]
    congr 1
    · refine ext_getElem (by simp) fun j hj _ => ?_
      have hlt : j < ns.length := by simpa using hj
      simp [Nat.ne_of_lt hlt]
    · simp [Node.new]
  · simpa [Draft.extend, Graph.modify] using h.serial
  · exact h.entry
  · simpa [Draft.extend, mapIdx_concat] using h.names
  · simpa using h.distinctNodes
  · simpa [Draft.extend, mapIdx_concat] using h.pending
  · simpa [Draft.extend] using h.current
  · obtain ⟨hns, hbody⟩ := forall_mem_append.1 h.flat
    have hbody : ∀ j ∈ body, j.FlatOver vars.length := hbody _ (.head _)
    refine forall_mem_append.2 ⟨hns, forall_mem_singleton.2 ?_⟩
    exact forall_mem_append.2 ⟨hbody, forall_mem_singleton.2 hi⟩

theorem takes (h : d.Shows sigs vars ns) (hsaid : Says d.locals line s) (htakes : d.Takes k s d') :
    d'.Shows (sigs ++ s.signature?.toList) (vars ++ s.variable?.toList) (s.addTo ns) := by
  cases htakes with
  | remark => simpa [Statement.signature?, Statement.variable?, Statement.addTo] using h
  | heading hfirst =>
    have hsigs : sigs = [] := by rw [← h.signature, hfirst]; rfl
    rw [hsigs]
    simpa [Statement.signature?, Statement.variable?, Statement.addTo] using { h with signature := rfl }
  | declares hnew =>
    simpa [Statement.signature?, Statement.variable?, Statement.addTo] using h.declares hnew
  | node hnew => simpa [Statement.signature?, Statement.variable?, Statement.addTo] using h.node hnew
  | code hcurrent =>
    cases hsaid with
    | code _ hread =>
      have hflat := flat_of_read hread
      rw [h.locals, Locals.size, size_toArray] at hflat
      rcases eq_nil_or_concat' ns with rfl | ⟨front, n, rfl⟩
      · cases h.current _ hcurrent
      · simpa [Statement.signature?, Statement.variable?, Statement.addTo, modifyLast_concat] using
          h.code hcurrent hflat

end Draft.Shows

def tableOf (ss : List Statement) : Locals := ⟨(declared ss).toArray, []⟩

/-- A draft shows what statements tell. -/
def Draft.Tells (d : Draft) (ss : List Statement) : Prop :=
  d.Shows (ss.filterMap Statement.signature?) (declared ss) (written ss)

theorem Draft.Tells.readLine {d d' : Draft} {line : List Char} (h : d.Tells ss)
    (hread : Source.readLine d k line = .ok d') :
    ∃ s, Says (tableOf ss) line s ∧ d'.Tells (ss ++ [s]) := by
  obtain ⟨s, hsaid, htakes⟩ := readLine_takes hread
  have hshows := h.takes hsaid htakes
  rw [h.locals] at hsaid
  refine ⟨s, hsaid, ?_⟩
  rw [Draft.Tells, declared, written, filterMap_append, filterMap_append, foldl_concat]
  cases s <;> exact hshows

/-- **What is read is what the lines say**, one after the other. -/
theorem Draft.Tells.readLines {d d' : Draft} {ls : List (List Char)} (h : d.Tells before)
    (hread : Source.readLines k d ls = .ok d') :
    ∃ ss, ss.length = ls.length ∧
      (∀ j line s, ls[j]? = some line → ss[j]? = some s → Says (tableOf (before ++ ss.take j)) line s) ∧
      d'.Tells (before ++ ss) := by
  induction ls generalizing d before k with
  | nil =>
    cases hread
    exact ⟨[], rfl, by simp, by rwa [append_nil]⟩
  | cons line ls ih =>
    rw [Source.readLines] at hread
    split at hread
    next d₁ hd₁ =>
      obtain ⟨s, hs, htells⟩ := h.readLine hd₁
      obtain ⟨ss, hlength, hsaid, hd'⟩ := ih htells hread
      rw [append_assoc] at hd'
      refine ⟨s :: ss, by simp [hlength], fun j line' s' hline' hs' => ?_, hd'⟩
      cases j with
      | zero =>
        cases hline'
        cases hs'
        simpa using hs
      | succ j => simpa using hsaid j line' s' hline' hs'
    next => cases hread

end Source

/-! ### Finishing -/

open Source in
/-- The nodes of a graph, in the order of their lines, have their code, and the successors that their
lines name. -/
structure Graph.Lays (g : Graph) (ns : List (NodeHead × Body)) : Prop where
  ids : g.ids = (List.range ns.length).map NodeId.mk
  entry : g.entry = ⟨0⟩
  nodes : ∀ k head body, ns[k]? = some (head, body) → ∃ n, g.get? ⟨k⟩ = some n ∧
    n.body = body ∧ n.inputStack = head.inputs ∧ n.outputStack = head.outputs ∧
    n.exit.outputs.map (fun id => (ns.map (·.1.name))[id.serial]?) = head.exit.targets.map some

theorem Graph.nodup_of_range {n : Nat} (h : g.ids = (List.range n).map NodeId.mk) :
    g.ids.Nodup := by
  rw [h]
  exact nodup_range.map fun _ _ heq => NodeId.mk.inj heq

namespace Graph.Lays

variable {ns : List (Source.NodeHead × Body)}

theorem mem_ids (h : g.Lays ns) (id : NodeId) : id ∈ g.ids ↔ id.serial < ns.length := by
  rw [h.ids, mem_map]
  exact ⟨fun ⟨k, hk, heq⟩ => heq ▸ mem_range.1 hk, fun hk => ⟨_, mem_range.2 hk, rfl⟩⟩

theorem line (h : g.Lays ns) {n : Node} (hn : g.get? id = some n) :
    ∃ head, (head, n.body) ∈ ns ∧
      n.exit.outputs.map (fun id => (ns.map (·.1.name))[id.serial]?) = head.exit.targets.map some := by
  have hk : id.serial < ns.length := (h.mem_ids id).1 (mem_ids_iff.2 ⟨n, hn⟩)
  obtain ⟨n', hn', hbody, -, -, hexit⟩ := h.nodes id.serial _ _ (getElem?_eq_getElem hk)
  cases hn'.symm.trans hn
  exact ⟨_, hbody ▸ getElem_mem hk, hexit⟩

theorem closed (h : g.Lays ns) (hne : ns ≠ []) : g.chart.Closed := by
  constructor
  · rw [live_iff_mem, h.mem_ids, chart_entry, h.entry]
    exact length_pos_of_ne_nil hne
  · rintro p id ⟨b, hb, hout⟩
    obtain ⟨n, hn, rfl⟩ := get?_of_block? hb
    obtain ⟨head, -, hexit⟩ := h.line hn
    have hname : (ns.map (·.1.name))[id.serial]? ∈ head.exit.targets.map some :=
      hexit ▸ mem_map_of_mem hout
    obtain ⟨name, -, hsome⟩ := mem_map.1 hname
    rw [live_iff_mem, h.mem_ids]
    simpa using (List.getElem?_eq_some_iff.1 hsome.symm).1

end Graph.Lays

namespace Source

section Finishing

variable {g' : Graph}

theorem resolve_spec {ps : List Pending} (h : resolve d g ps = .ok g') (hnd : (ps.map (·.id)).Nodup) :
    g'.ids = g.ids ∧ g'.entry = g.entry ∧ g'.nextSerial = g.nextSerial ∧
      (∀ id ∉ ps.map (·.id), g'.get? id = g.get? id) ∧
      ∀ p ∈ ps, ∃ exit, resolveExit d p.exit = .ok exit ∧
        g'.get? p.id = (g.get? p.id).map fun n => { n with exit } := by
  induction ps generalizing g with
  | nil =>
    cases h
    exact ⟨rfl, rfl, rfl, fun _ _ => rfl, by simp⟩
  | cons p ps ih =>
    rw [resolve] at h
    split at h
    next exit hexit =>
      rw [map_cons, nodup_cons] at hnd
      obtain ⟨hids, hentry, hserial, hothers, hexits⟩ := ih h hnd.2
      refine ⟨by rw [hids, Graph.ids_modify], hentry, hserial, fun id hid => ?_,
        forall_mem_cons.2 ⟨⟨exit, hexit, ?_⟩, fun q hq => ?_⟩⟩
      · rw [map_cons, mem_cons, not_or] at hid
        rw [hothers id hid.2, Graph.get?_modify_of_ne g _ hid.1]
      · rw [hothers p.id hnd.1, Graph.get?_modify_self]
      · have hne : q.id ≠ p.id := fun heq => hnd.1 (heq ▸ mem_map_of_mem hq)
        obtain ⟨exit', hexit', hget⟩ := hexits q hq
        exact ⟨exit', hexit', by rw [hget, Graph.get?_modify_of_ne g _ hne]⟩
    next => cases h

namespace Draft.Shows

variable {ns : List (NodeHead × Body)}

section

variable (h : d.Shows sigs vars ns)

include h

theorem name_of_findNode (hfind : findNode d name = .ok id) :
    (ns.map (·.1.name))[id.serial]? = some name := by
  unfold findNode at hfind
  split at hfind
  next hlookup =>
    cases hfind
    obtain ⟨front, rest, hnames, -⟩ := lookup_eq_some_iff.1 hlookup
    have hmem : (name, id) ∈ d.names := by simp [hnames]
    rw [h.names, mem_mapIdx] at hmem
    obtain ⟨k, hk, heq⟩ := hmem
    cases heq
    simp [hk]
  next => cases hfind

theorem names_of_resolveExit {e : NamedExit} {exit : Exit} (hexit : resolveExit d e = .ok exit) :
    exit.outputs.map (fun id => (ns.map (·.1.name))[id.serial]?) = e.targets.map some := by
  cases e with
  | seq next =>
    obtain ⟨id, hid, ⟨⟩⟩ := Fallible.bind_eq_ok_iff.1 hexit
    simp only [Exit.outputs, NamedExit.targets, map_cons, h.name_of_findNode hid, map_nil]
  | branch ifTrue ifFalse =>
    obtain ⟨id, hid, hexit⟩ := Fallible.bind_eq_ok_iff.1 hexit
    obtain ⟨id', hid', ⟨⟩⟩ := Fallible.bind_eq_ok_iff.1 hexit
    simp only [Exit.outputs, NamedExit.targets, map_cons, h.name_of_findNode hid,
      h.name_of_findNode hid', map_nil]
  | ret =>
    cases hexit
    rfl

theorem ids : d.graph.ids = (List.range ns.length).map NodeId.mk := by
  rw [Graph.ids, h.nodes]
  exact ext_getElem (by simp) (by simp)

theorem nodup : d.graph.ids.Nodup := Graph.nodup_of_range h.ids

theorem get? {n : NodeHead × Body} (hn : ns[k]? = some n) :
    d.graph.get? ⟨k⟩ = some { Node.new n.2 n.1.inputs n.1.outputs with index := k } := by
  obtain ⟨hk, rfl⟩ := List.getElem?_eq_some_iff.1 hn
  rw [Graph.get?_eq_some_iff h.nodup, h.nodes, mem_mapIdx]
  exact ⟨k, hk, rfl⟩

theorem resolve (hg : Source.resolve d d.graph d.pending = .ok g) :
    g.recalculateInputs.Tidy ∧ g.recalculateInputs.Lays ns := by
  have hpending : d.pending.map (·.id) = d.graph.ids := by
    calc d.pending.map (·.id) = (d.pending.map fun p => (p.id, p.exit)).map (·.1) := by simp
      _ = d.graph.ids := by
        rw [h.pending, h.ids]
        exact ext_getElem (by simp) (by simp)
  obtain ⟨hids, hentry, hserial, -, hexits⟩ := resolve_spec hg (hpending ▸ h.nodup)
  have hissued : ∀ id ∈ g.ids, id.serial < g.nextSerial := by
    intro id hid
    rw [hids, h.ids] at hid
    obtain ⟨k, hk, rfl⟩ := mem_map.1 hid
    rw [hserial, h.serial]
    exact mem_range.1 hk
  obtain ⟨htidy, hchart, hids', -⟩ := Graph.tidy_recalculateInputs (hids ▸ h.nodup) hissued
  refine ⟨htidy, hids'.trans (hids.trans h.ids), hentry.trans h.entry, fun k head body hn => ?_⟩
  have hmem : ((⟨k⟩, head.exit) : NodeId × NamedExit) ∈ d.pending.map fun p => (p.id, p.exit) := by
    obtain ⟨hk, hget⟩ := List.getElem?_eq_some_iff.1 hn
    rw [h.pending, mem_mapIdx]
    exact ⟨k, hk, by rw [hget]⟩
  obtain ⟨p, hp, heq⟩ := mem_map.1 hmem
  obtain ⟨exit, hexit, hget⟩ := hexits p hp
  rw [(Prod.mk.inj heq).2] at hexit
  rw [(Prod.mk.inj heq).1, h.get? hn] at hget
  obtain ⟨n, hn', hblock⟩ := Graph.get?_of_block? (hchart ▸ Graph.block?_of_get? hget)
  cases n
  cases hblock
  exact ⟨_, hn', rfl, rfl, rfl, h.names_of_resolveExit hexit⟩

theorem nodes_eq_nil_iff (hg : Source.resolve d d.graph d.pending = .ok g) :
    g.nodes = [] ↔ ns = [] := by
  have hids : g.ids = (List.range ns.length).map NodeId.mk := by
    simpa [Graph.ids, Graph.recalculateInputs, Function.comp_def] using (h.resolve hg).2.ids
  rw [← map_eq_nil_iff (f := (·.1)), ← Graph.ids, hids]
  simp

end

end Draft.Shows

end Finishing

end Source

/-! ### Checking -/

namespace Checker

variable {c : Checker} {e : VerifyError}

theorem mem_of_place? {results : StackType} {path : List Nat} {n : Nat}
    (hflat : ∀ j ∈ body, j.FlatOver n) (h : Body.place? path body results = some (.instruction i)) :
    i ∈ body := by
  cases path with
  | nil => cases h
  | cons k path =>
    obtain ⟨j, hj, hplace⟩ := Option.bind_eq_some_iff.1 h
    have hmem : j ∈ body := mem_of_getElem? hj
    cases path with
    | nil =>
      cases hplace
      exact hmem
    | cons r path =>
      have hflat' := hflat j hmem
      cases j <;> simp_all [Instruction.place?, Instruction.block?, Instruction.FlatOver]

theorem known_of_flat {params results : StackType} (hflat : ∀ i ∈ body, i.FlatOver c.locals.size)
    (h : c.checkBody body params results = .error e) :
    (∀ l, e.cause ≠ .unknownLocal l) ∧ ∀ l, e.cause ≠ .unknownLabel l := by
  obtain ⟨-, place, hplace, hblames⟩ := checkBody_blames h
  cases hblames with
  | @instruction i _ hrejects =>
    have hi := hflat i (mem_of_place? hflat hplace)
    have hreason := hrejects.reason
    refine ⟨fun l hl => ?_, fun l hl => ?_⟩
    · rw [hl] at hreason
      cases hreason with
      | unknownLocal names missing =>
        have hsome : l.index < c.locals.size → False := fun hlt => by
          simp [Locals.get?, Locals.size] at missing hlt
          omega
        rcases names with rfl | rfl | ⟨cases, rfl⟩
        · exact hsome hi
        · exact hsome hi
        · exact hi
    · rw [hl] at hreason
      cases hreason with
      | unknownLabel jumps => rcases jumps with rfl | rfl <;> exact hi
  | block _ hcause => simp [hcause]

theorem known_of_flatNodes (hflat : ∀ n ∈ g.nodes, ∀ i ∈ n.2.body, i.FlatOver c.locals.size)
    (h : c.checkNodes g = .error e) :
    (∀ l, e.cause ≠ .unknownLocal l) ∧ ∀ l, e.cause ≠ .unknownLabel l := by
  obtain ⟨n, hn, hnode⟩ := Fallible.exists_of_forM_eq_error h
  obtain ⟨e', hfails, rfl⟩ := Fallible.mapError_eq_error_iff.1 hnode
  rcases Fallible.bind_eq_error_iff.1 hfails with hbody | ⟨flow, -, hend⟩
  · exact (known_of_flat (hflat n hn) hbody :)
  · split at hend
    next =>
      cases hend
      simp
    next => cases hend

end Checker

/-- A method has the given variables and nodes, and is well formed. -/
structure Method.Realizes (m : Method) (vars : List LocalVariable)
    (ns : List (Source.NodeHead × Body)) : Prop where
  locals : m.locals = ⟨vars.toArray, []⟩
  distinct : (vars.map (·.name)).Nodup
  someNode : ns ≠ []
  distinctNodes : (ns.map (·.1.name)).Nodup
  lays : m.graph.Lays ns
  links : m.graph.checkLinks = .ok ()
  /-- Checking the method finds nothing unknown. -/
  known : ∀ (c : Checker) e, c.locals = m.locals → c.checkNodes m.graph = .error e →
    (∀ l, e.cause ≠ .unknownLocal l) ∧ ∀ l, e.cause ≠ .unknownLabel l

namespace Source

/-- **A draft is finished as a method of its variables and nodes.** -/
theorem Draft.Shows.finish {d : Draft} {sigs : List Signature} {vars : List LocalVariable}
    {ns : List (NodeHead × Body)} {m : Method} {count : Nat} (h : d.Shows sigs vars ns)
    (hfinish : Source.finish d count = .ok m) : sigs = [m.signature] ∧ m.Realizes vars ns := by
  obtain ⟨g, hg, hfinish⟩ := Fallible.bind_eq_ok_iff.1 hfinish
  split at hfinish
  next => cases hfinish
  next s hs =>
    split at hfinish
    next => cases hfinish
    next hsome =>
      cases hfinish
      obtain ⟨htidy, hlays⟩ := h.resolve hg
      have hne : ns ≠ [] := by
        rw [Ne, ← h.nodes_eq_nil_iff hg]
        simpa using hsome
      refine ⟨by rw [← h.signature, hs]; rfl, h.locals, h.distinct, hne, h.distinctNodes, hlays,
        Graph.Consistent.checkLinks ⟨htidy, hlays.closed hne⟩,
        fun c e hc hfails => Checker.known_of_flatNodes (fun n hn i hi => ?_) hfails⟩
      obtain ⟨head, hmem, -⟩ := hlays.line ((Graph.get?_eq_some_iff htidy.nodup).2 hn)
      have hflat := h.flat _ hmem i hi
      rwa [hc, h.locals, Locals.size, size_toArray]

end Source

open Source in
/-- **Every method that is read is well formed.**  Each line of the source says one thing, over the
variables declared above it; code is flat and refers to these variables only.  The method has the one
signature, the variables and the nodes of the lines, in their order; every successor is the node of
the name that was written; edges and predecessors agree; and checking it finds no unknown variable
or label. -/
theorem Method.ofText_accepted {text : String} {m : Method} (h : Method.ofText text = .ok m) :
    ∃ ss : List Statement, ss.length = (lines text).length ∧
      (∀ k line s, (lines text)[k]? = some line → ss[k]? = some s → Says (tableOf (ss.take k)) line s) ∧
      (∀ (k : Nat) (i : Instruction), ss[k]? = some (.code i) →
        i.FlatOver (declared (ss.take k)).length) ∧
      ss.filterMap Statement.signature? = [m.signature] ∧ m.Realizes (declared ss) (written ss) := by
  obtain ⟨d, hread, hfinish⟩ := Fallible.bind_eq_ok_iff.1 h
  have hempty : Draft.empty.Tells [] := .empty
  obtain ⟨ss, hlength, hsaid, htells⟩ := hempty.readLines hread
  rw [List.nil_append] at htells
  obtain ⟨hsignature, hrealizes⟩ := htells.finish hfinish
  refine ⟨ss, hlength, by simpa using hsaid, fun k i hi => ?_, hsignature, hrealizes⟩
  obtain ⟨hk, -⟩ := List.getElem?_eq_some_iff.1 hi
  cases hsaid k _ _ (List.getElem?_eq_getElem (hlength ▸ hk)) hi with
  | code _ hcode =>
    have hflat := flat_of_read hcode
    rwa [tableOf, Locals.size, List.size_toArray] at hflat

def forwardSource : String :=
  "method A b ()V ->\nnode a () -> () seq c\n  i32.const 1\nlocal x i32\n  local.set $x\n" ++
  "node c () -> () return\n  return"

theorem ofText_accepted_forwardSource : ∃ m ss, Method.ofText forwardSource = .ok m ∧
    m.Realizes (Source.declared ss) (Source.written ss) ∧ m.graph.size = 2 := by
  have haccepted : (Method.ofText forwardSource).toOption.map (·.graph.size) = some 2 := by
    decide +kernel
  cases hread : Method.ofText forwardSource with
  | error e => simp [hread, Except.toOption] at haccepted
  | ok m =>
    obtain ⟨ss, -, -, -, -, hrealizes⟩ := Method.ofText_accepted hread
    exact ⟨m, ss, rfl, hrealizes, by simpa [hread, Except.toOption] using haccepted⟩

end Structurer
