/-
**Sources of flat code.**

A source is read as the method that it describes: its signature, its variables, and for each of its
nodes exactly the code whose rendering stands, line by line, below the line of the node.
-/

import Structurer.Proofs.Accepted

namespace Structurer

open Text List

variable {locals table : Locals} {body : Body} {d : Source.Draft} {id : NodeId}
  {head : Source.NodeHead}

/-! ### Items -/

namespace Source

/-- What a source declares. -/
inductive Item where
  | heading (s : Signature)
  | declares (v : LocalVariable)
  | node (head : NodeHead) (body : Body)

namespace Item

def signature? : Item → Option Signature
  | heading s => some s
  | _ => none

def declaration? : Item → Option LocalVariable
  | declares v => some v
  | _ => none

def node? : Item → Option (NodeHead × Body)
  | node head body => some (head, body)
  | _ => none

end Item

section Items

variable (items items' : List Item)

def signatures : List Signature := items.filterMap Item.signature?

def declarations : List LocalVariable := items.filterMap Item.declaration?

def nodes : List (NodeHead × Body) := items.filterMap Item.node?

def nodeNames : List String := (nodes items).map (·.1.name)

@[simp] theorem signatures_append :
    signatures (items ++ items') = signatures items ++ signatures items' :=
  filterMap_append

@[simp] theorem declarations_append :
    declarations (items ++ items') = declarations items ++ declarations items' :=
  filterMap_append

@[simp] theorem nodes_append : nodes (items ++ items') = nodes items ++ nodes items' :=
  filterMap_append

@[simp] theorem nodeNames_append : nodeNames (items ++ items') = nodeNames items ++ nodeNames items' := by
  simp [nodeNames]

end Items

/-- Lines that hold the given texts, indented, with remarks in between. -/
inductive Indents : List (List Char) → List String → Prop
  | nil : Indents [] []
  | remark {l : List Char} {ls : List (List Char)} {texts : List String} (h : IsRemark l)
      (hline : OneLine l) (hls : Indents ls texts) : Indents (l :: ls) texts
  | text {gap : List Char} {s : String} {ls : List (List Char)} {texts : List String} (h : Gap gap)
      (hline : '\n' ∉ gap) (hls : Indents ls texts) :
      Indents ((gap ++ s.toList) :: ls) (s :: texts)

/-- The lines of a source: each item on its own line, the code of a node below the node, variables
by the names of `locals`. -/
inductive Describes (locals : Locals) : List (List Char) → List Item → Prop
  | nil : Describes locals [] []
  | remark {l : List Char} {ls : List (List Char)} {items : List Item} (h : IsRemark l)
      (hline : OneLine l) (hls : Describes locals ls items) : Describes locals (l :: ls) items
  | heading {s : Signature} {l : List Char} {ls : List (List Char)} {items : List Item}
      (h : IsHeading s l) (hline : OneLine l) (hls : Describes locals ls items) :
      Describes locals (l :: ls) (.heading s :: items)
  | declares {v : LocalVariable} {l : List Char} {ls : List (List Char)} {items : List Item}
      (h : IsVariable v l) (hline : OneLine l) (hls : Describes locals ls items) :
      Describes locals (l :: ls) (.declares v :: items)
  | node {head : NodeHead} {body : Body} {l : List Char} {code ls : List (List Char)}
      {items : List Item} (h : IsNodeLine head l) (hline : OneLine l)
      (hcode : Indents code (Body.render locals body)) (hls : Describes locals ls items) :
      Describes locals (l :: (code ++ ls)) (.node head body :: items)

/-- Items that fit together: one method, the variables of `locals`, at least one node, names that
are words and differ, exits to nodes that are there, and in each node flat code over the variables
declared above it. -/
structure Consistent (locals : Locals) (items : List Item) : Prop where
  oneMethod : (signatures items).length = 1
  declared : declarations items = locals.entries.toList
  words : ∀ name ∈ locals.names, IsWord name.toList
  distinct : locals.names.Nodup
  someNode : nodes items ≠ []
  distinctNodes : (nodeNames items).Nodup
  known : ∀ n ∈ nodes items, ∀ name ∈ n.1.exit.targets, name ∈ nodeNames items
  flat : ∀ (k : Nat) (head : NodeHead) (body : Body), items[k]? = some (.node head body) →
    ∀ i ∈ body, i.IsFlat (declarations (items.take k)).length

end Source

/-! ### Names of variables -/

theorem Locals.finds_of_starts (h : table.entries.toList <+: locals.entries.toList)
    (hnd : locals.names.Nodup) (hwords : ∀ name ∈ locals.names, IsWord name.toList) :
    locals.Finds table table.size := by
  obtain ⟨rest, hrest⟩ := h
  have hnames : table.names ++ rest.map (·.name) = locals.names := by
    rw [names, names, ← hrest, map_append]
  intro l hl
  have hname : locals.name l = table.name l := by
    have hsame : locals.get? l = table.get? l := by
      rw [Locals.get?, Locals.get?, ← Array.getElem?_toList, ← Array.getElem?_toList, ← hrest,
        getElem?_append_left hl]
    rw [Locals.name, Locals.name, hsame]
  rw [← hnames, nodup_append] at hnd
  rw [hname]
  refine ⟨hwords _ ?_, lookup_name hnd.1 hl⟩
  rw [← hnames, Locals.name, Locals.get?, Array.getElem?_eq_getElem hl]
  exact mem_append_left _ (mem_map_of_mem (Array.getElem_mem_toList hl))

/-! ### Code -/

namespace Source

variable {items : List Item} {d : Draft}

/-- Lines that are read as the instructions of a body. -/
inductive Coded (table : Locals) : List (List Char) → Body → Prop
  | nil : Coded table [] []
  | remark {l : List Char} {ls : List (List Char)} {body : Body} (h : IsRemark l)
      (hline : OneLine l) (hls : Coded table ls body) : Coded table (l :: ls) body
  | instruction {gap line : List Char} {i : Instruction} {ls : List (List Char)} {body : Body}
      (h : Gap gap) (hgap : '\n' ∉ gap) (hline : LineOf table i line) (hls : Coded table ls body) :
      Coded table ((gap ++ line) :: ls) (i :: body)

theorem Indents.coded {n : Nat} (hfinds : locals.Finds table n) {code : List (List Char)}
    (hflat : ∀ i ∈ body, i.IsFlat n) (h : Indents code (Body.render locals body)) :
    Coded table code body := by
  generalize htexts : Body.render locals body = texts at h
  induction h generalizing body with
  | nil =>
    cases body with
    | nil => exact .nil
    | cons i body =>
      obtain ⟨line, hline, -⟩ := Instruction.exists_line hfinds (hflat i (.head _))
      rw [Body.render, Body.renderAt, hline] at htexts
      cases htexts
  | remark hremark hone _ ih => exact .remark hremark hone (ih hflat htexts)
  | text hgap hfeed _ ih =>
    cases body with
    | nil => cases htexts
    | cons i body =>
      obtain ⟨line, hline, hof⟩ := Instruction.exists_line hfinds (hflat i (.head _))
      rw [Body.render, Body.renderAt, hline] at htexts
      cases htexts
      exact .instruction hgap hfeed hof (ih (fun j hj => hflat j (.tail _ hj)) rfl)

theorem readLine_instruction {gap line : List Char} {i : Instruction} (h : Gap gap)
    (hline : LineOf d.locals i line) (hcurrent : d.current = some id) (k : Nat) :
    readLine d k (gap ++ line) = .ok (d.extend id i) := by
  obtain ⟨word, rest, rfl, hword⟩ := hline.starts
  have hsome : (trim (word ++ rest)).isEmpty = false := by
    rw [trim_word hword]
    simp [hword.nonempty]
  have hindented : isIndented (gap ++ (word ++ rest)) = true := by
    cases gap with
    | nil => exact absurd rfl h.nonempty
    | cons c gap => exact h.blank c (.head _)
  simp only [readLine, trim_blank h.blank, hsome, hindented, readIndented, hcurrent, hline.reads,
    Draft.extend]
  rfl

namespace Coded

variable {code : List (List Char)}

theorem oneLine (h : Coded table code body) : ∀ l ∈ code, OneLine l := by
  induction h with
  | nil => simp
  | remark _ hline _ ih => exact forall_mem_cons.2 ⟨hline, ih⟩
  | instruction _ hgap hline _ ih =>
    refine forall_mem_cons.2 ⟨⟨?_, ?_⟩, ih⟩
    · rw [mem_append, not_or]
      exact ⟨hgap, hline.oneLine.noFeed⟩
    · obtain ⟨word, rest, hword, hstarts⟩ := hline.starts
      rw [getLast?_append_of_ne_nil _ (by simp [hword, hstarts.nonempty])]
      exact hline.oneLine.noReturn

theorem readLines (h : Coded table code body) (htable : d.locals = table)
    (hcurrent : d.current = some id) {sigs : List Signature} {vars : List LocalVariable}
    {ns : List (NodeHead × Body)} {above : Body} (hd : d.Shows sigs vars (ns ++ [(head, above)]))
    (k : Nat) (ls : List (List Char)) :
    ∃ k' d', Source.readLines k d (code ++ ls) = Source.readLines k' d' ls ∧
      d'.Shows sigs vars (ns ++ [(head, above ++ body)]) := by
  induction h generalizing d above k with
  | nil => exact ⟨k, d, rfl, by rwa [append_nil]⟩
  | remark hremark _ _ ih =>
    obtain ⟨k', d', hk', hd'⟩ := ih htable hcurrent hd (k + 1)
    refine ⟨k', d', ?_, hd'⟩
    rw [cons_append, Source.readLines, readLine_remark hremark]
    exact hk'
  | @instruction gap line i code body hgap _ hline _ ih =>
    subst htable
    have hflat : i.FlatOver vars.length := by
      have hread := flat_of_read hline.reads
      rwa [hd.locals, Locals.size, size_toArray] at hread
    obtain ⟨k', d', hk', hd'⟩ := ih (d := d.extend id i) rfl hcurrent (hd.code hcurrent hflat) (k + 1)
    refine ⟨k', d', ?_, append_cons above i body ▸ hd'⟩
    rw [cons_append, Source.readLines, readLine_instruction hgap hline hcurrent]
    exact hk'

end Coded

def Draft.Holds (d : Draft) (items : List Item) : Prop :=
  d.Shows (signatures items) (declarations items) (nodes items)

theorem Draft.holds_concat {item : Item} :
    d.Holds (items ++ [item]) ↔ d.Shows (signatures items ++ item.signature?.toList)
      (declarations items ++ item.declaration?.toList) (nodes items ++ item.node?.toList) := by
  rw [Holds, signatures_append, declarations_append, nodes_append]
  cases item <;> rfl

/-! ### Reading -/

section Reading

variable {before : List Item} {ls : List (List Char)}

namespace Consistent

theorem finds (hc : Consistent locals (before ++ items)) (hd : d.Holds before) :
    locals.Finds d.locals (declarations before).length := by
  have hstarts : d.locals.entries.toList <+: locals.entries.toList := by
    rw [hd.locals, ← hc.declared, declarations_append]
    exact prefix_append _ _
  have hsize : d.locals.size = (declarations before).length := by
    rw [hd.locals, Locals.size, size_toArray]
  rw [← hsize]
  exact Locals.finds_of_starts hstarts hc.distinct hc.words

theorem no_signature {s : Signature} (hc : Consistent locals (before ++ .heading s :: items)) :
    signatures before = [] := by
  have hone := hc.oneMethod
  rw [append_cons, signatures_append, signatures_append, length_append,
    length_append] at hone
  have hlast : (signatures [.heading s]).length = 1 := rfl
  exact length_eq_zero_iff.1 (by omega)

theorem names_eq {v : LocalVariable} (hc : Consistent locals (before ++ .declares v :: items)) :
    locals.names = (declarations before).map (·.name) ++ v.name :: (declarations items).map (·.name) := by
  rw [Locals.names, ← hc.declared, declarations_append, map_append]
  rfl

theorem new_node (hc : Consistent locals (before ++ .node head body :: items)) :
    head.name ∉ nodeNames before := by
  have hdistinct := hc.distinctNodes
  rw [nodeNames_append, nodup_append] at hdistinct
  exact fun hmem => hdistinct.2.2 _ hmem _ (.head _) rfl

theorem flat_node (hc : Consistent locals (before ++ .node head body :: items)) :
    ∀ i ∈ body, i.IsFlat (declarations before).length := by
  have hflat := hc.flat before.length head body (by simp)
  rwa [take_left] at hflat

end Consistent

/-- **Reading the lines of items adds the items to a draft.** -/
theorem Describes.readLines (h : Describes locals ls items) (hc : Consistent locals (before ++ items))
    (hd : d.Holds before) (k : Nat) :
    ∃ d', Source.readLines k d ls = .ok d' ∧ d'.Holds (before ++ items) := by
  -- The lines are read one after the other; `before` holds what was read.
  induction h generalizing before d k with
  | nil => exact ⟨d, rfl, by rwa [append_nil]⟩
  | remark hremark _ _ ih =>
    obtain ⟨d', hread, hd'⟩ := ih hc hd (k + 1)
    refine ⟨d', ?_, hd'⟩
    rwa [Source.readLines, readLine_remark hremark]
  | @heading s l ls items hheading _ _ ih =>
    have hfirst : signatures before = [] := hc.no_signature
    have hnone : d.signature = none := by simpa [hfirst] using hd.signature
    have hnext : Draft.Holds { d with signature := some s } (before ++ [.heading s]) := by
      rw [Draft.holds_concat, hfirst]
      simpa [Item.signature?, Item.declaration?, Item.node?] using { hd with signature := rfl }
    rw [append_cons] at hc ⊢
    obtain ⟨d', hread, hd'⟩ := ih hc hnext (k + 1)
    refine ⟨d', ?_, hd'⟩
    rwa [Source.readLines, readLine_heading hheading hnone]
  | @declares v l ls items hvariable _ _ ih =>
    have hnames := hc.names_eq
    have hword : IsWord v.name.toList := hc.words v.name (by simp [hnames])
    have hnew : v.name ∉ d.locals.names := by
      have hdistinct := hc.distinct
      rw [hnames, nodup_append] at hdistinct
      rw [Locals.names, hd.locals]
      exact fun hmem => hdistinct.2.2 _ hmem _ (.head _) rfl
    have hnext : Draft.Holds { d with locals := { d.locals with entries := d.locals.entries.push v } }
        (before ++ [.declares v]) := by
      rw [Draft.holds_concat]
      simpa [Item.signature?, Item.declaration?, Item.node?] using hd.declares hnew
    rw [append_cons] at hc ⊢
    obtain ⟨d', hread, hd'⟩ := ih hc hnext (k + 1)
    refine ⟨d', ?_, hd'⟩
    rwa [Source.readLines, readLine_variable hvariable hword hnew]
  | @node head body l code ls items hnode _ hcode _ ih =>
    have hnew : head.name ∉ d.names.map (·.1) := by
      rw [hd.map_fst_names]
      exact hc.new_node
    have hcoded : Coded d.locals code body := hcode.coded (hc.finds hd) hc.flat_node
    obtain ⟨k', d₁, hk', hd₁⟩ :=
      hcoded.readLines (d := d.addNode k head) rfl rfl (hd.node hnew) (k + 1) ls
    have hnext : d₁.Holds (before ++ [.node head body]) := by
      rw [Draft.holds_concat]
      simpa [Item.signature?, Item.declaration?, Item.node?] using hd₁
    rw [append_cons] at hc ⊢
    obtain ⟨d', hread, hd'⟩ := ih hc hnext k'
    refine ⟨d', ?_, hd'⟩
    rw [Source.readLines, readLine_node hnode hnew]
    exact hk'.trans hread

theorem Describes.oneLine (h : Describes locals ls items) (hc : Consistent locals items) :
    ∀ l ∈ ls, OneLine l := by
  have hcode : ∀ {head body code}, .node head body ∈ items →
      Indents code (Body.render locals body) → ∀ l ∈ code, OneLine l := by
    intro head body code hmem hcode
    obtain ⟨k, hk⟩ := mem_iff_getElem?.1 hmem
    have hfinds : locals.Finds locals locals.size :=
      Locals.finds_of_starts prefix_rfl hc.distinct hc.words
    have hle : (declarations (items.take k)).length ≤ locals.size := by
      rw [Locals.size, ← Array.length_toList, ← hc.declared]
      exact ((take_sublist k items).filterMap _).length_le
    exact (hcode.coded (fun l hl => hfinds l (hl.trans_le hle)) (hc.flat k head body hk)).oneLine
  clear hc
  induction h with
  | nil => simp
  | remark _ hline _ ih => exact forall_mem_cons.2 ⟨hline, ih hcode⟩
  | heading _ hline _ ih =>
    exact forall_mem_cons.2 ⟨hline, ih fun hmem => hcode (.tail _ hmem)⟩
  | declares _ hline _ ih =>
    exact forall_mem_cons.2 ⟨hline, ih fun hmem => hcode (.tail _ hmem)⟩
  | node _ hline hbody _ ih =>
    refine forall_mem_cons.2 ⟨hline, forall_mem_append.2 ⟨?_, ?_⟩⟩
    · exact hcode (.head _) hbody
    · exact ih fun hmem => hcode (.tail _ hmem)

end Reading

/-! ### Finishing -/

section Finishing

variable {name : String}

theorem findNode_known (h : name ∈ d.names.map (·.1)) : ∃ id, findNode d name = .ok id := by
  cases hlookup : d.names.lookup name with
  | some id => exact ⟨id, by rw [findNode, hlookup]⟩
  | none => exact absurd h (lookup_isSome_eq_false_iff.1 (by rw [hlookup]; rfl))

theorem resolveExit_known {e : NamedExit} (h : ∀ name ∈ e.targets, name ∈ d.names.map (·.1)) :
    ∃ exit, resolveExit d e = .ok exit := by
  cases e with
  | seq next =>
    obtain ⟨id, hid⟩ := findNode_known (h next (by simp [NamedExit.targets]))
    exact ⟨.seq id, by rw [resolveExit, hid]; rfl⟩
  | branch ifTrue ifFalse =>
    obtain ⟨id, hid⟩ := findNode_known (h ifTrue (by simp [NamedExit.targets]))
    obtain ⟨id', hid'⟩ := findNode_known (h ifFalse (by simp [NamedExit.targets]))
    exact ⟨.branch id id', by rw [resolveExit, hid, hid']; rfl⟩
  | ret => exact ⟨.ret, rfl⟩

theorem resolve_known {ps : List Pending}
    (h : ∀ p ∈ ps, ∀ name ∈ p.exit.targets, name ∈ d.names.map (·.1)) (g : Graph) :
    ∃ g', resolve d g ps = .ok g' := by
  induction ps generalizing g with
  | nil => exact ⟨g, rfl⟩
  | cons p ps ih =>
    obtain ⟨exit, hexit⟩ := resolveExit_known (h p (.head _))
    rw [resolve, hexit]
    exact ih (fun q hq => h q (.tail _ hq)) _

/-- **A draft of consistent items is a method.** -/
theorem Draft.Holds.finish (h : d.Holds items) (hc : Consistent locals items) (count : Nat) :
    ∃ m, Source.finish d count = .ok m := by
  obtain ⟨s, hs⟩ := length_eq_one_iff.1 hc.oneMethod
  have hknown : ∀ p ∈ d.pending, ∀ name ∈ p.exit.targets, name ∈ d.names.map (·.1) := by
    intro p hp
    have hexit : (p.id, p.exit) ∈ d.pending.map fun p => (p.id, p.exit) := mem_map_of_mem hp
    rw [h.pending, mem_mapIdx] at hexit
    obtain ⟨k, hk, hexit⟩ := hexit
    rw [← (Prod.mk.inj hexit).2, h.map_fst_names]
    exact hc.known _ (getElem_mem hk)
  obtain ⟨g, hresolve⟩ := resolve_known hknown d.graph
  have hsome : g.nodes.isEmpty = false := by
    rw [isEmpty_eq_false_iff, Ne, h.nodes_eq_nil_iff hresolve]
    exact hc.someNode
  have hsignature : d.signature = some s := by
    rw [← Option.toList_eq_singleton_iff, h.signature, hs]
  refine ⟨⟨s, d.locals, g.recalculateInputs⟩, ?_⟩
  simp only [Source.finish, hresolve, Fallible.ok_bind, hsignature, hsome]
  rfl

end Finishing

end Source

theorem Graph.Lays.code {g : Graph} {ns : List (Source.NodeHead × Body)} (h : g.Lays ns) :
    g.code = ns.mapIdx fun k n => (⟨k⟩, n.2) := by
  have hlength : g.nodes.length = ns.length := by simpa [Graph.ids] using congrArg List.length h.ids
  refine ext_getElem (by simpa [Graph.code] using hlength) fun k hk hk' => ?_
  rw [Graph.code, length_map] at hk
  have hid : g.nodes[k].1 = ⟨k⟩ := by
    have hget : g.ids[k]? = some ⟨k⟩ := by simp [h.ids, hlength ▸ hk]
    simpa [Graph.ids, hk] using hget
  obtain ⟨n, hn, hbody, -⟩ := h.nodes k _ _ (getElem?_eq_getElem (hlength ▸ hk))
  have hnode : g.get? g.nodes[k].1 = some g.nodes[k].2 :=
    (get?_eq_some_iff (nodup_of_range h.ids)).2 (getElem_mem hk)
  rw [hid, hn] at hnode
  simp [Graph.code, hid, ← Option.some.inj hnode, hbody]

open Source in
/-- **Flat code survives rendering and reading.**  Lines that describe consistent items can be written
as a text, and every text of these lines is read as a method with the signature, the variables, and
in each node, by its number, exactly the code that was rendered. -/
theorem Method.ofText_describes {locals : Locals} {items : List Item} {ls : List (List Char)}
    (h : Describes locals ls items) (hc : Consistent locals items) :
    lines (String.ofList (unlines ls)) = ls ∧
    ∀ text, lines text = ls → ∃ m, Method.ofText text = .ok m ∧ signatures items = [m.signature] ∧
      m.locals.entries = locals.entries ∧
      m.graph.code = (nodes items).mapIdx fun k n => (⟨k⟩, n.2) := by
  refine ⟨lines_unlines (h.oneLine hc), fun text htext => ?_⟩
  have hc' : Consistent locals ([] ++ items) := hc
  obtain ⟨d, hread, hd⟩ := h.readLines hc' .empty 1
  rw [List.nil_append] at hd
  obtain ⟨m, hm⟩ := hd.finish hc ls.length
  obtain ⟨hsignature, hrealizes⟩ := Draft.Shows.finish hd hm
  refine ⟨m, ?_, hsignature, ?_, hrealizes.lays.code⟩
  · rw [Method.ofText, htext, hread]
    exact hm
  · rw [hrealizes.locals, hc.declared, Array.toArray_toList]

def scaleLocals : Locals := ⟨#[⟨"x", .i32⟩, ⟨"ratio:1", .f64⟩], []⟩

def scaleBody : Body :=
  [.comment "one half", .f64Const (.finite false (2 ^ 52) (-53)), .localSet ⟨1⟩, .localGet ⟨0⟩,
    .call "pkg/K.scale" [.i32] [.f64, .i32], .comment "", .drop, .drop]

def scaleItems : List Source.Item :=
  [.heading ⟨"my/Klass", "run", "(I)V", []⟩, .declares ⟨"x", .i32⟩, .declares ⟨"ratio:1", .f64⟩,
    .node ⟨"start", [], [], .seq "end"⟩ scaleBody, .node ⟨"end", [], [], .ret⟩ [.ret]]

def scaleCode : List String :=
  ["  ;; one half", "  f64.const 0.5", "", "  local.set $ratio:1", "  local.get $x",
    "  call pkg/K.scale (param i32) (result f64 i32)", "  ;; ", "  drop", ";; done", "  drop"]

def scaleSource : List String :=
  ["method my/Klass run (I)V ->", "local x i32", "local ratio:1 f64 ", "node start () -> ()seq end"] ++
  scaleCode ++ ["node end () -> () return", "\treturn"]

section Scale

open Source

theorem indents_scaleBody :
    Indents (scaleCode.map String.toList) (Body.render scaleLocals scaleBody) := by
  have hrender : Body.render scaleLocals scaleBody = [";; one half", "f64.const 0.5",
      "local.set $ratio:1", "local.get $x", "call pkg/K.scale (param i32) (result f64 i32)", ";; ",
      "drop", "drop"] := by
    decide +kernel
  have gap : Gap [' ', ' '] := by decide
  have blank : IsRemark [] := .inl (by decide)
  have remark : IsRemark ";; done".toList := .inr (by decide)
  obtain ⟨code, hcode, heq⟩ : ∃ code, Indents code (Body.render scaleLocals scaleBody) ∧
      scaleCode.map String.toList = code := by
    rw [hrender]
    exact ⟨_, .text gap (by decide) <| .text gap (by decide) <| .remark blank (by decide) <|
      .text gap (by decide) <| .text gap (by decide) <| .text gap (by decide) <|
      .text gap (by decide) <| .text gap (by decide) <| .remark remark (by decide) <|
      .text gap (by decide) .nil, by decide +kernel⟩
  rwa [heq]

theorem describes_scaleSource :
    Describes scaleLocals (scaleSource.map String.toList) scaleItems := by
  have gap : Gap [' '] := by decide
  have none : Blank [] := by decide
  have noTypes : words [] = [] := rfl
  have hend : Indents [['\t'] ++ "return".toList] (Body.render scaleLocals [.ret]) :=
    .text (by decide) (by decide) .nil
  obtain ⟨ls, hdescribes, heq⟩ : ∃ ls, Describes scaleLocals ls scaleItems ∧
      scaleSource.map String.toList = ls :=
    ⟨_, .heading (.mk gap gap gap gap (by decide) (by decide) (by decide) noTypes) (by decide) <|
      .declares (.mk gap gap none) (by decide) <| .declares (.mk gap gap gap.blank) (by decide) <|
      .node (.mk gap gap gap.blank gap.blank (by decide) noTypes noTypes
        (by decide : words "seq end".toList = _)) (by decide) indents_scaleBody <|
      .node (.mk gap gap gap.blank gap.blank (by decide) noTypes noTypes
        (by decide : words " return".toList = _)) (by decide) hend .nil,
      by decide +kernel⟩
  rwa [heq]

theorem consistent_scaleItems : Consistent scaleLocals scaleItems where
  oneMethod := rfl
  declared := rfl
  words := by decide
  distinct := by decide
  someNode := cons_ne_nil _ _
  distinctNodes := by decide
  known := by decide
  flat := by
    have hhalf : Number.Binary.ReadsBack (f := .double) (.finite false (2 ^ 52) (-53)) := by
      decide +kernel
    have hbody : ∀ i ∈ scaleBody, i.IsFlat 2 := by
      have hname : IsWord "pkg/K.scale".toList := by decide
      simp only [scaleBody, forall_mem_cons]
      exact ⟨⟨by decide, by decide⟩, hhalf, (by decide : 1 < 2), (by decide : 0 < 2),
        hname, ⟨by decide, by decide⟩, trivial, trivial, by simp⟩
    intro k head body hk
    rcases k with _ | _ | _ | _ | _ | k
    · cases hk
    · cases hk
    · cases hk
    · cases hk
      exact hbody
    · cases hk
      intro i hi
      cases mem_singleton.1 hi
      trivial
    · cases hk

theorem ofText_describes_scale :
    Describes scaleLocals (scaleSource.map String.toList) scaleItems ∧
    Consistent scaleLocals scaleItems ∧
    ∃ m, Method.ofText (String.ofList (unlines (scaleSource.map String.toList))) = .ok m ∧
      m.graph.code = [(⟨0⟩, scaleBody), (⟨1⟩, [.ret])] := by
  obtain ⟨hlines, hread⟩ := Method.ofText_describes describes_scaleSource consistent_scaleItems
  obtain ⟨m, hm, -, -, hcode⟩ := hread _ hlines
  exact ⟨describes_scaleSource, consistent_scaleItems, m, hm, hcode⟩

end Scale

end Structurer
