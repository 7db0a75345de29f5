/-
**Nodes that lead into no cycle.**

Nodes are looked at one inside the other: a node is judged once all its successors have been looked
at, and it leads into no cycle if that was found of each of them.  A successor that is still being
looked at is one that leads back to the node, so neither of the two has come to an end.
-/

import Structurer.Graph.Basic

namespace Structurer.Graph

/-! ### What is known -/

/-- What is known of the nodes met so far: nothing while a node is being looked at, and then whether
it leads into no cycle.  The latest entry of a node counts. -/
abbrev Marks := List (NodeId × Option Bool)

def Marks.met (marks : Marks) (id : NodeId) : Bool := (marks.lookup id).isSome

/-- Is a node known to lead into no cycle? -/
def Marks.isEnd (marks : Marks) (id : NodeId) : Bool := marks.lookup id == some (some true)

@[simp] theorem Marks.met_nil (id : NodeId) : Marks.met [] id = false := rfl

@[simp] theorem Marks.met_cons (marks : Marks) (id x : NodeId) (m : Option Bool) :
    Marks.met ((id, m) :: marks) x = (x == id || marks.met x) := by
  unfold met
  rw [List.lookup_cons]
  cases x == id <;> rfl

/-! ### Steps of a search -/

/-- A search: what is known, and the nodes being looked at, the last one first, each with the
successors that are still to be looked at. -/
structure Search where
  marks : Marks
  path : List (NodeId × List NodeId)

/-- The search begins to look at a node.  Its successors will be looked at from the last to the
first. -/
def enter (g : Graph) (s : Search) (id : NodeId) : Except Fault Search := do
  let n ← g.node id
  return ⟨(id, none) :: s.marks, (id, n.outputs.reverse) :: s.path⟩

/-- One step of a search: the last node on the path has its next successor looked at, unless that was
met before, or it is judged, when it has none left. -/
def step (g : Graph) (s : Search) : Except Fault Search :=
  match s.path with
  | [] => .ok s
  | (id, out :: rest) :: path =>
      let s : Search := ⟨s.marks, (id, rest) :: path⟩
      if s.marks.met out then .ok s else g.enter s out
  | (id, []) :: path => do
      let n ← g.node id
      return ⟨(id, some (n.outputs.all s.marks.isEnd)) :: s.marks, path⟩

/-! ### Every search comes to an end -/

/-- The nodes that a search has not met. -/
def unmet (g : Graph) (marks : Marks) : List NodeId := g.ids.filter (!marks.met ·)

/-- What a search may still have to do: a node that was not met has at most two successors to be looked
at before it is judged. -/
def Search.remaining (g : Graph) (s : Search) : Nat :=
  3 * (g.unmet s.marks).length + s.path.length + (s.path.flatMap (·.2)).length

variable {g : Graph} {s s' : Search} {id : NodeId} {n : Node}

theorem mem_ids_of_node (h : g.node id = .ok n) : id ∈ g.ids := by
  unfold node get? at h
  cases hn : g.nodes.lookup id with
  | none => rw [hn] at h; cases h
  | some m =>
      obtain ⟨_, _, hsplit, _⟩ := List.lookup_eq_some_iff.1 hn
      rw [ids, hsplit]
      simp

theorem unmet_cons (g : Graph) (marks : Marks) (id : NodeId) (m : Option Bool) :
    g.unmet ((id, m) :: marks) = (g.unmet marks).filter (· != id) := by
  unfold unmet
  rw [List.filter_filter]
  refine List.filter_congr fun x _ => ?_
  rw [Marks.met_cons, Bool.not_or]
  rfl

theorem unmet_cons_lt {marks : Marks} (hid : id ∈ g.ids) (hmet : marks.met id = false)
    (m : Option Bool) : (g.unmet ((id, m) :: marks)).length < (g.unmet marks).length := by
  rw [unmet_cons, List.length_filter_lt_length_iff_exists]
  refine ⟨id, List.mem_filter.2 ⟨hid, ?_⟩, ?_⟩
  · rw [hmet]
    rfl
  · simp

theorem enter_remaining (hmet : s.marks.met id = false) (h : g.enter s id = .ok s') :
    s'.remaining g ≤ s.remaining g := by
  unfold enter at h
  cases hn : g.node id with
  | error e => rw [hn] at h; cases h
  | ok n =>
      rw [hn] at h
      cases h
      have hlt := unmet_cons_lt (mem_ids_of_node hn) hmet none
      have hout : n.outputs.length ≤ 2 := by
        unfold Node.outputs
        cases n.exit <;> simp [Exit.outputs]
      simp only [Search.remaining, List.length_cons, List.flatMap_cons, List.length_append,
        List.length_reverse]
      omega

theorem step_remaining (hpath : s.path ≠ []) (h : g.step s = .ok s') :
    s'.remaining g < s.remaining g := by
  obtain ⟨marks, path⟩ := s
  unfold step at h
  split at h
  next he => exact absurd he hpath
  next id out rest path he =>
    subst he
    have hdrop : Search.remaining g ⟨marks, (id, rest) :: path⟩ <
        Search.remaining g ⟨marks, (id, out :: rest) :: path⟩ := by
      simp [Search.remaining]
    dsimp only at h
    split at h
    next => cases h; exact hdrop
    next hmet => exact Nat.lt_of_le_of_lt (enter_remaining (by simpa using hmet) h) hdrop
  next id path he =>
    subst he
    cases hn : g.node id with
    | error e => rw [hn] at h; cases h
    | ok n =>
        rw [hn] at h
        cases h
        simp only [Search.remaining, unmet_cons, List.length_cons, List.flatMap_cons, List.nil_append]
        have hle := List.length_filter_le (· != id) (g.unmet marks)
        omega

/-! ### The nodes found -/

/-- A search goes on until no node is being looked at. -/
def search (g : Graph) (s : Search) : Except Fault Marks :=
  if _hpath : s.path = [] then .ok s.marks
  else
    match _hstep : g.step s with
    | .error e => .error e
    | .ok s' => g.search s'
termination_by s.remaining g
decreasing_by exact step_remaining _hpath _hstep

theorem search_eq (g : Graph) (s : Search) :
    g.search s = if s.path = [] then .ok s.marks else g.step s >>= g.search := by
  rw [search]
  split
  next => rfl
  next => split <;> next hstep => rw [hstep]; rfl

/-- What is known after a search from one more node, unless that was met before. -/
def searchFrom (g : Graph) (marks : Marks) (root : NodeId) : Except Fault Marks := do
  if marks.met root then return marks
  g.search (← g.enter ⟨marks, []⟩ root)

/-- The nodes from which no cycle can be reached, in the order of the graph. -/
def ends (g : Graph) : Except Fault (List NodeId) := do
  let marks ← g.ids.foldlM g.searchFrom []
  return g.ids.filter marks.isEnd

end Structurer.Graph
