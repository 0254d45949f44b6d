import CodeAtlas.Proofs.Graph.Sweep

/-!
# Traces there and back

A walk can be gone backwards along the reversed edges (`Walk.reverse`), and every edge is recorded
at both of its ends. So two files are equally far from each other in opposite directions, within
any limit (`trace_opposite`): a file that is reached from another one has it among its dependents,
as many hops away.

A start with a `#` is excluded. It means a single node, and the way back to its file may end
earlier, at another node of the file.
-/

namespace CodeAtlas

/-- The direction along the same edges the other way round. -/
def Direction.opposite : Direction → Direction
  | dependencies => dependents
  | dependents => dependencies
  | both => both

theorem Direction.opposite_opposite (direction : Direction) :
    direction.opposite.opposite = direction := by
  cases direction <;> rfl

/-! ## Walks backwards -/

section Walks

variable {α : Type} {step : α → α → Prop} {n : Nat} {a b c : α}

theorem Walk.cons (first : step a b) (walk : Walk step n b c) : Walk step (n + 1) a c := by
  induction walk with
  | stay b => exact (Walk.stay a).hop first
  | hop _ last ih => exact (ih first).hop last

/-- A walk can be gone backwards along a relation that has every step the other way round. -/
theorem Walk.reverse {back : α → α → Prop} (hback : ∀ u v, step u v → back v u)
    (walk : Walk step n a b) : Walk back n b a := by
  induction walk with
  | stay a => exact .stay a
  | hop _ last ih => exact .cons (hback _ _ last) ih

end Walks

namespace SymbolGraph

variable {g : SymbolGraph} {start goal : String} {direction : Direction} {u v : NodeId}

theorem follows_opposite : g.Follows direction.opposite u v ↔ g.Follows direction v u := by
  cases direction with
  | dependencies => exact Iff.rfl
  | dependents => exact Iff.rfl
  | both => exact or_comm

theorem contains_of_walk (wf : g.WellFormed) {n : Nat} (hu : g.contains u)
    (walk : Walk (g.Follows direction) n u v) : g.contains v := by
  cases walk with
  | stay => exact hu
  | hop _ last => exact contains_of_follows wf last

/-- A path without `#` begins a trace at all nodes of the file. -/
theorem isSeed_file_iff (hne : start ≠ "") (hfile : '#' ∉ start.toList) :
    g.IsSeed start u ↔ g.contains u ∧ u.path = start := by
  rw [IsSeed, if_neg hfile]
  exact and_iff_right hne

/-! ## Traces -/

/-- The exactness of traces for the search as it stands, without the freedom in the order of seeds
and neighbours. -/
theorem getElem?_files_trace (wf : g.WellFormed) {maxHops d : Nat} {path : String} :
    (g.trace start direction maxHops).files[path]? = some d ↔
      d ≤ maxHops ∧
        IsLeast {n | ∃ u v, g.IsSeed start u ∧ v.path = path ∧ Walk (g.Follows direction) n u v}
          d :=
  getElem?_files_turns_size wf (fun _ => mem_startNodes) fun _ _ => mem_neighbours wf

/-- A walk from one file to another, backwards, is one from the other file to the first. Both ends
may be any nodes of their files, which is why starts with a `#` are left out. -/
theorem exists_walk_opposite (wf : g.WellFormed) (hstart : start ≠ "")
    (hstartFile : '#' ∉ start.toList) (hgoal : goal ≠ "") (hgoalFile : '#' ∉ goal.toList) {n : Nat}
    (h : ∃ u v, g.IsSeed start u ∧ v.path = goal ∧ Walk (g.Follows direction) n u v) :
    ∃ u v, g.IsSeed goal u ∧ v.path = start ∧ Walk (g.Follows direction.opposite) n u v := by
  obtain ⟨u, v, hu, hv, walk⟩ := h
  obtain ⟨hnode, hpath⟩ := (isSeed_file_iff hstart hstartFile).mp hu
  have reached : g.contains v := contains_of_walk wf hnode walk
  refine ⟨v, u, (isSeed_file_iff hgoal hgoalFile).mpr ⟨reached, hv⟩, hpath, ?_⟩
  exact walk.reverse fun _ _ hop => follows_opposite.mpr hop

/-- **Distances are the same there and back.** In a graph that grew from the empty one, a file is
as far from another one along the dependencies as that one is from it along the dependents, and
along both they are equally far from each other. Within a limit either both traces reach their
goal, after as many hops, or none does. -/
theorem trace_opposite {g : SymbolGraph} (hg : g.Grown) {start goal : String} (hstart : start ≠ "")
    (hgoal : goal ≠ "") (hstartFile : '#' ∉ start.toList) (hgoalFile : '#' ∉ goal.toList)
    (direction : Direction) (maxHops : Nat) :
    (g.trace start direction maxHops).files[goal]? =
      (g.trace goal direction.opposite maxHops).files[start]? := by
  have wf := hg.wellFormed
  have same : ∀ n,
      (∃ u v, g.IsSeed start u ∧ v.path = goal ∧ Walk (g.Follows direction) n u v) ↔
        ∃ u v, g.IsSeed goal u ∧ v.path = start ∧ Walk (g.Follows direction.opposite) n u v := by
    intro n
    constructor
    · exact exists_walk_opposite wf hstart hstartFile hgoal hgoalFile
    · intro h
      have back := exists_walk_opposite wf hgoal hgoalFile hstart hstartFile h
      rwa [Direction.opposite_opposite] at back
  refine Option.ext fun d => ?_
  rw [getElem?_files_trace wf, getElem?_files_trace wf]
  simp only [same]

/-- Along the ring `a` is one hop from `c`, but it is two hops to `c`, and two hops back. -/
theorem trace_opposite_ring :
    ring.Grown ∧ "a" ≠ "" ∧ "c" ≠ "" ∧ '#' ∉ "a".toList ∧ '#' ∉ "c".toList ∧
      (ring.trace "c" .dependencies 5).files["a"]? = some 1 ∧
      (ring.trace "a" .dependencies 5).files["c"]? = some 2 ∧
      (ring.trace "c" .dependents 5).files["a"]? = some 2 := by
  have grown : ring.Grown := ⟨_, rfl⟩
  have there : (ring.trace "a" .dependencies 5).files["c"]? = some 2 := by decide
  have back : (ring.trace "a" .dependencies 5).files["c"]? =
      (ring.trace "c" .dependents 5).files["a"]? :=
    trace_opposite grown (by decide) (by decide) (by decide) (by decide) .dependencies 5
  exact ⟨grown, by decide, by decide, by decide, by decide, by decide, there,
    back.symm.trans there⟩

end SymbolGraph

end CodeAtlas
