import CodeAtlas.Proofs.Graph.Distance
import CodeAtlas.Proofs.Graph.Growth

/-!
# Traces are exact

A trace gives every file the length of a shortest walk to it. The search behind it works through
a queue. It comes to the end of the queue, since every turn uses up one node of the graph
(`queue_turns_eq_nil`); and it works through the layers of the graph one after the other
(`exists_turns_layers`), so that what it notes are distances.

`trace_exact` puts the two together.
-/

namespace CodeAtlas

open CodeAtlas.Text

namespace Sweep

variable {next : NodeId → List NodeId} {maxHops : Nat} {s : Sweep}

/-! ## Turns in a row -/

theorem turns_add (m n : Nat) (s : Sweep) :
    turns next maxHops (m + n) s = turns next maxHops n (turns next maxHops m s) := by
  induction m generalizing s with
  | zero => rw [Nat.zero_add, turns]
  | succ m ih => rw [Nat.succ_add, turns, turns, ih]

theorem turns_of_empty (h : s.queue = []) (n : Nat) : turns next maxHops n s = s := by
  induction n with
  | zero => rfl
  | succ n ih =>
    have still : s.turn next maxHops = s := by rw [turn, h]
    rw [turns, still, ih]

/-- However many turns a search is given, once the queue is empty the result is the same. -/
theorem turns_eq_of_empty {m n : Nat} (hm : (turns next maxHops m s).queue = [])
    (hn : (turns next maxHops n s).queue = []) :
    turns next maxHops m s = turns next maxHops n s := by
  rcases Nat.le_total m n with hle | hle
  · obtain ⟨k, rfl⟩ := Nat.exists_eq_add_of_le hle
    rw [turns_add, turns_of_empty hm]
  · obtain ⟨k, rfl⟩ := Nat.exists_eq_add_of_le hle
    rw [turns_add, turns_of_empty hn]

/-! ## The queue becomes empty -/

/-- The nodes of a pool that were not seen. -/
def unseen (pool : List NodeId) (seen : NodeSet) : List NodeId :=
  pool.filter (· ∉ seen)

/-- The turns that are left to a search at most: those of the nodes that wait and of the nodes of
the pool that were not seen. -/
def turnsLeft (pool : List NodeId) (s : Sweep) : Nat :=
  s.queue.length + (unseen pool s.seen).length

/-- A new node that is seen is one node less to be found. -/
theorem length_unseen_insert_lt {pool : List NodeId} {seen : NodeSet} {id : NodeId}
    (hid : id ∈ pool) (hnew : id ∉ seen) :
    (unseen pool (seen.insert id)).length < (unseen pool seen).length := by
  have rest : unseen pool (seen.insert id) = (unseen pool seen).filter (· != id) := by
    unfold unseen
    rw [List.filter_filter]
    congr 1
    funext v
    by_cases hv : id = v
    · simp [hv]
    · simp [hv, Ne.symm hv]
  rw [rest, List.length_filter_lt_length_iff_exists]
  exact ⟨id, List.mem_filter.mpr ⟨hid, decide_eq_true hnew⟩, by simp⟩

/-- Whatever is added to the nodes that wait is taken from those that were not seen, so a turn makes
no work that was not there. -/
theorem length_foldl_addUnseen_le {pool ids : List NodeId} (hids : ids ⊆ pool) (seen : NodeSet)
    (found : List NodeId) :
    (ids.foldl addUnseen (seen, found)).2.length +
        (unseen pool (ids.foldl addUnseen (seen, found)).1).length ≤
      found.length + (unseen pool seen).length := by
  induction ids generalizing seen found with
  | nil => exact Nat.le_refl _
  | cons id ids ih =>
    have hrest : ids ⊆ pool := fun v hv => hids (List.mem_cons_of_mem id hv)
    rw [List.foldl_cons]
    by_cases h : id ∈ seen
    · rw [addUnseen_of_mem h]
      exact ih hrest seen found
    · rw [addUnseen_of_not_mem h]
      have fewer := length_unseen_insert_lt (hids List.mem_cons_self) h
      have := ih hrest (seen.insert id) (found ++ [id])
      rw [List.length_append, List.length_singleton] at this
      omega

/-- Every turn uses up one node: the first in the queue is done with, and those that come behind it
were not seen before. -/
theorem turnsLeft_turn_lt {pool : List NodeId} (hnext : ∀ u, next u ⊆ pool)
    (h : s.queue ≠ []) : turnsLeft pool (s.turn next maxHops) < turnsLeft pool s := by
  obtain ⟨queue, seen, files⟩ := s
  cases queue with
  | nil => exact absurd rfl h
  | cons e queue =>
    obtain ⟨id, distance⟩ := e
    unfold turn turnsLeft
    dsimp only
    split
    · simp
    · have added := length_foldl_addUnseen_le (hnext id) seen []
      simp only [List.length_append, List.length_map, List.length_cons, List.length_nil] at added ⊢
      omega

/-- As many turns as there are nodes bring a search to the end of its queue, whatever the graph is
like. -/
theorem queue_turns_eq_nil {pool : List NodeId} (hnext : ∀ u, next u ⊆ pool) {n : Nat}
    (h : turnsLeft pool s ≤ n) : (turns next maxHops n s).queue = [] := by
  induction n generalizing s with
  | zero =>
    unfold turnsLeft at h
    exact List.eq_nil_of_length_eq_zero (Nat.le_zero.mp (Nat.le_trans (Nat.le_add_right _ _) h))
  | succ n ih =>
    by_cases hempty : s.queue = []
    · rw [turns_of_empty hempty]
      exact hempty
    · have fewer : turnsLeft pool (s.turn next maxHops) < turnsLeft pool s :=
        turnsLeft_turn_lt hnext hempty
      exact ih (by omega)

theorem turnsLeft_start_le {pool seeds : List NodeId} (hseeds : seeds ⊆ pool) :
    turnsLeft pool (start seeds) ≤ pool.length := by
  have added := length_foldl_addUnseen_le hseeds ∅ []
  have all : (unseen pool ∅).length ≤ pool.length := List.length_filter_le _ _
  unfold turnsLeft start
  simp only [List.length_map, List.length_nil] at added ⊢
  omega

/-! ## Distances stay within the limit -/

/-- No node waits with a distance beyond the limit, since a node at the limit has its neighbours
passed over. -/
theorem snd_le_of_mem_queue_turn (h : ∀ e ∈ s.queue, e.2 ≤ maxHops) :
    ∀ e ∈ (s.turn next maxHops).queue, e.2 ≤ maxHops := by
  obtain ⟨queue, seen, files⟩ := s
  cases queue with
  | nil => exact h
  | cons first queue =>
    obtain ⟨id, distance⟩ := first
    have rest : ∀ e ∈ queue, e.2 ≤ maxHops := fun e he => h e (List.mem_cons_of_mem _ he)
    unfold turn
    dsimp only
    split
    · exact rest
    · intro e he
      rcases List.mem_append.mp he with he | he
      · exact rest e he
      · obtain ⟨v, -, rfl⟩ := List.mem_map.mp he
        omega

theorem snd_le_of_mem_queue_turns (h : ∀ e ∈ s.queue, e.2 ≤ maxHops) (n : Nat) :
    ∀ e ∈ (turns next maxHops n s).queue, e.2 ≤ maxHops := by
  induction n generalizing s with
  | zero => exact h
  | succ n ih => exact ih (snd_le_of_mem_queue_turn h)

theorem snd_eq_zero_of_mem_queue_start {seeds : List NodeId} :
    ∀ e ∈ (start seeds).queue, e.2 = 0 := by
  intro e he
  obtain ⟨v, -, rfl⟩ := List.mem_map.mp he
  rfl

/-! ## Layer after layer -/

theorem foldl_addUnseen_eq (ids : List NodeId) (seen : NodeSet) (found : List NodeId) :
    ids.foldl addUnseen (seen, found) =
      ((ids.foldl addUnseen (seen, [])).1, found ++ (ids.foldl addUnseen (seen, [])).2) := by
  induction ids generalizing seen found with
  | nil => simp
  | cons id ids ih =>
    rw [List.foldl_cons, List.foldl_cons]
    by_cases h : id ∈ seen
    · rw [addUnseen_of_mem h, addUnseen_of_mem h]
      exact ih seen found
    · rw [addUnseen_of_not_mem h, addUnseen_of_not_mem h, ih (seen.insert id) (found ++ [id]),
        ih (seen.insert id) ([] ++ [id])]
      simp

/-- The turns of a layer below the limit. The nodes that were found before wait behind it. -/
theorem turns_layer (next : NodeId → List NodeId) {d : Nat} (hd : d < maxHops)
    (layer found : List NodeId) (seen : NodeSet) (files : TextMap Nat) :
    turns next maxHops layer.length
        ⟨layer.map (·, d) ++ found.map (·, d + 1), seen, files⟩ =
      ⟨((layer.flatMap next).foldl addUnseen (seen, found)).2.map (·, d + 1),
        ((layer.flatMap next).foldl addUnseen (seen, found)).1, noteLayer files layer d⟩ := by
  induction layer generalizing found seen files with
  | nil => rfl
  | cons id layer ih =>
    have one : turn next maxHops
        ⟨(id :: layer).map (·, d) ++ found.map (·, d + 1), seen, files⟩ =
          ⟨layer.map (·, d) ++ ((next id).foldl addUnseen (seen, found)).2.map (·, d + 1),
            ((next id).foldl addUnseen (seen, found)).1, noteFile files id.path d⟩ := by
      rw [foldl_addUnseen_eq (next id) seen found]
      simp [turn, Nat.not_le.mpr hd]
    rw [List.length_cons, turns, one, ih, List.flatMap_cons, List.foldl_append]
    rfl

/-- The turns of a layer at the limit. -/
theorem turns_lastLayer {d : Nat} (hd : maxHops ≤ d) (layer : List NodeId) (seen : NodeSet)
    (files : TextMap Nat) :
    turns next maxHops layer.length ⟨layer.map (·, d), seen, files⟩ =
      ⟨[], seen, noteLayer files layer d⟩ := by
  induction layer generalizing files with
  | nil => rfl
  | cons id layer ih =>
    have one : turn next maxHops ⟨(id :: layer).map (·, d), seen, files⟩ =
        ⟨layer.map (·, d), seen, noteFile files id.path d⟩ := by
      simp [turn, hd]
    rw [List.length_cons, turns, one, ih]
    rfl

/-- A search with nothing but a layer in its queue notes the distances of that layer and of all
after it, by induction on the hops that are left. -/
theorem exists_turns_layers {hops d : Nat} (hd : d + hops = maxHops) (layer : List NodeId)
    (seen : NodeSet) (files : TextMap Nat) :
    ∃ n, (turns next maxHops n ⟨layer.map (·, d), seen, files⟩).queue = [] ∧
      (turns next maxHops n ⟨layer.map (·, d), seen, files⟩).files =
        ((layers next hops seen layer).zipIdx d).foldl
          (fun m (layer, distance) => noteLayer m layer distance) files := by
  induction hops generalizing d layer seen files with
  | zero =>
    refine ⟨layer.length, ?_⟩
    rw [turns_lastLayer (by omega)]
    cases layer with
    | nil => exact ⟨rfl, rfl⟩
    | cons id layer => exact ⟨rfl, rfl⟩
  | succ hops ih =>
    cases layer with
    | nil => exact ⟨0, rfl, rfl⟩
    | cons id layer =>
      -- the layer has its turns first, and what it leaves in the queue is the next layer
      have first : turns next maxHops (id :: layer).length
          ⟨(id :: layer).map (·, d), seen, files⟩ =
            ⟨(nextLayer next seen (id :: layer)).2.map (·, d + 1),
              (nextLayer next seen (id :: layer)).1, noteLayer files (id :: layer) d⟩ := by
        have whole := turns_layer next (show d < maxHops by omega) (id :: layer) [] seen files
        rw [List.map_nil, List.append_nil] at whole
        exact whole
      obtain ⟨n, hqueue, hfiles⟩ := ih (show d + 1 + hops = maxHops by omega)
        (nextLayer next seen (id :: layer)).2 (nextLayer next seen (id :: layer)).1
        (noteLayer files (id :: layer) d)
      refine ⟨(id :: layer).length + n, ?_⟩
      rw [turns_add, first]
      exact ⟨hqueue, hfiles⟩

/-- A search that came to the end of its queue noted the distances of its layers. -/
theorem files_turns_start {seeds : List NodeId} {n : Nat}
    (h : (turns next maxHops n (start seeds)).queue = []) :
    (turns next maxHops n (start seeds)).files = fileDistances (layersFrom next seeds maxHops) := by
  obtain ⟨m, hqueue, hfiles⟩ : ∃ m, (turns next maxHops m (start seeds)).queue = [] ∧
      (turns next maxHops m (start seeds)).files =
        fileDistances (layersFrom next seeds maxHops) :=
    exists_turns_layers (Nat.zero_add maxHops) _ _ ∅
  rw [turns_eq_of_empty h hqueue]
  exact hfiles

end Sweep

/-! ## Traces -/

namespace SymbolGraph

/-- Whether a trace in the given direction may go from `u` to `v` in one hop. -/
def Follows (g : SymbolGraph) : Direction → NodeId → NodeId → Prop
  | .dependencies, u, v => g.hasEdge u v
  | .dependents, u, v => g.hasEdge v u
  | .both, u, v => g.hasEdge u v ∨ g.hasEdge v u

/-- Whether a trace from `start` begins at the node `u`. -/
def IsSeed (g : SymbolGraph) (start : String) (u : NodeId) : Prop :=
  start ≠ "" ∧ g.contains u ∧
    if '#' ∈ start.toList then u = .ofText start else u.path = start

/-- The nodes that a trace starts from are its seeds: one node for a text with a `#`, else all nodes
of the file. -/
theorem mem_startNodes {g : SymbolGraph} {start : String} {u : NodeId} :
    u ∈ g.startNodes start ↔ g.IsSeed start u := by
  unfold startNodes IsSeed hasChar
  by_cases hs : start = ""
  · simp [hs]
  rw [if_neg hs]
  by_cases hc : '#' ∈ start.toList
  · rw [if_pos (List.contains_iff_mem.mpr hc), if_pos hc]
    by_cases hn : g.contains (.ofText start)
    · rw [if_pos hn, List.mem_singleton]
      exact ⟨fun h => ⟨hs, h ▸ hn, h⟩, fun h => h.2.2⟩
    · rw [if_neg hn]
      simp only [List.not_mem_nil, false_iff, not_and]
      rintro - hu rfl
      exact hn hu
  · rw [if_neg (by simpa using hc), if_neg hc, mem_nodesOf]
    exact ⟨fun h => ⟨hs, h⟩, And.right⟩

/-- The neighbours of a node are the nodes one hop away, in each of the three directions. -/
theorem mem_neighbours {g : SymbolGraph} (hg : g.WellFormed) {direction : Direction}
    {u v : NodeId} : v ∈ g.neighbours direction u ↔ g.Follows direction u v := by
  have forth : ∀ a b, b ∈ g.dependencies a ↔ g.hasEdge a b := fun a b => hasEdge_iff.symm
  have back : ∀ a b, b ∈ g.dependents a ↔ g.hasEdge b a := fun a b => by
    rw [← hg.mirrored, forth]
  unfold neighbours
  cases direction with
  | dependencies =>
    have list : v ∈ g.dependencies u ↔ g.hasEdge u v := forth u v
    unfold dependencies at list
    rw [Follows, ← list]
    cases g.get? u <;> simp
  | dependents =>
    have list : v ∈ g.dependents u ↔ g.hasEdge v u := back u v
    unfold dependents at list
    rw [Follows, ← list]
    cases g.get? u <;> simp
  | both =>
    have lists : v ∈ g.dependencies u ∨ v ∈ g.dependents u ↔ g.hasEdge u v ∨ g.hasEdge v u :=
      or_congr (forth u v) (back u v)
    unfold dependencies dependents at lists
    rw [Follows, ← lists]
    cases g.get? u <;> simp

theorem contains_of_follows {g : SymbolGraph} (hg : g.WellFormed) {direction : Direction}
    {u v : NodeId} (h : g.Follows direction u v) : g.contains v := by
  cases direction with
  | dependencies => exact hg.target u v (hasEdge_iff.mp h)
  | dependents => exact contains_of_hasEdge h
  | both =>
    rcases h with h | h
    · exact hg.target u v (hasEdge_iff.mp h)
    · exact contains_of_hasEdge h

section Search

variable {g : SymbolGraph} {start : String} {direction : Direction} {seeds : List NodeId}
  {next : NodeId → List NodeId}

theorem queue_turns_size (wf : g.WellFormed) (hseeds : ∀ u, u ∈ seeds ↔ g.IsSeed start u)
    (hnext : ∀ u v, v ∈ next u ↔ g.Follows direction u v) (maxHops : Nat) :
    ((Sweep.start seeds).turns next maxHops g.size).queue = [] := by
  have hpool : ∀ u, next u ⊆ g.nodes.keys := fun u v hv =>
    mem_keys_iff.mpr (contains_of_follows wf ((hnext u v).mp hv))
  have hstart : seeds ⊆ g.nodes.keys := fun u hu => mem_keys_iff.mpr ((hseeds u).mp hu).2.1
  refine Sweep.queue_turns_eq_nil hpool ?_
  have left := Sweep.turnsLeft_start_le hstart
  rwa [Std.ExtTreeMap.length_keys] at left

/-- As many turns as the graph has nodes note the exact distances, whatever the order in which seeds
and neighbours are listed. -/
theorem getElem?_files_turns_size (wf : g.WellFormed)
    (hseeds : ∀ u, u ∈ seeds ↔ g.IsSeed start u)
    (hnext : ∀ u v, v ∈ next u ↔ g.Follows direction u v) {maxHops d : Nat} {path : String} :
    ((Sweep.start seeds).turns next maxHops g.size).files[path]? = some d ↔
      d ≤ maxHops ∧
        IsLeast {n | ∃ u v, g.IsSeed start u ∧ v.path = path ∧ Walk (g.Follows direction) n u v}
          d := by
  rw [Sweep.files_turns_start (queue_turns_size wf hseeds hnext maxHops)]
  exact Sweep.fileDistances_layersFrom hnext hseeds

end Search

/-- **Traces are exact.** In a graph that grew from the empty one, a trace gives a file the
distance `d` just if `d` is within the limit and is the least length of a walk from a seed to a
node of that file. One turn for each node brings the search to the end of its queue, no node ever
waits with a distance beyond the limit, and any list of the same seeds and of the same neighbours
leads to the same trace. -/
theorem trace_exact {g : SymbolGraph} (hg : g.Grown) (start : String) (direction : Direction)
    (maxHops : Nat) :
    (∀ path d, (g.trace start direction maxHops).files[path]? = some d ↔
      d ≤ maxHops ∧
        IsLeast {n | ∃ u v, g.IsSeed start u ∧ v.path = path ∧ Walk (g.Follows direction) n u v}
          d) ∧
    ((Sweep.start (g.startNodes start)).turns (g.neighbours direction) maxHops g.size).queue = [] ∧
    (∀ n, ∀ e ∈ ((Sweep.start (g.startNodes start)).turns (g.neighbours direction) maxHops n).queue,
      e.2 ≤ maxHops) ∧
    ∀ seeds next, (∀ u, u ∈ seeds ↔ u ∈ g.startNodes start) →
      (∀ u v, v ∈ next u ↔ v ∈ g.neighbours direction u) →
      ((Sweep.start seeds).turns next maxHops g.size).files =
        (g.trace start direction maxHops).files := by
  have wf := hg.wellFormed
  have hseeds : ∀ u, u ∈ g.startNodes start ↔ g.IsSeed start u := fun _ => mem_startNodes
  have hnext : ∀ u v, v ∈ g.neighbours direction u ↔ g.Follows direction u v :=
    fun _ _ => mem_neighbours wf
  refine ⟨?exact, ?ends, ?within, ?order⟩
  case exact => exact fun _ _ => getElem?_files_turns_size wf hseeds hnext
  case ends => exact queue_turns_size wf hseeds hnext maxHops
  case within =>
    refine Sweep.snd_le_of_mem_queue_turns ?_
    intro e he
    rw [Sweep.snd_eq_zero_of_mem_queue_start e he]
    exact Nat.zero_le maxHops
  case order =>
    intro seeds next hsame hsteps
    refine Std.ExtTreeMap.ext_getElem? fun path => Option.ext fun d => ?_
    rw [getElem?_files_turns_size wf (fun u => (hsame u).trans (hseeds u))
      fun u v => (hsteps u v).trans (hnext u v)]
    exact (getElem?_files_turns_size wf hseeds hnext).symm

/-- Three files in a ring, the first with a function that leads into the ring as well. -/
def ring : SymbolGraph :=
  [Growth.ensureSymbol "a" "f" .function, .ensureFile "b", .ensureFile "c",
    .addEdge (.symbol "a" "f") (.file "b"), .addEdge (.file "b") (.file "c"),
    .addEdge (.file "c") (.file "a"), .addEdge (.file "a") (.file "b")].foldl Growth.apply ∅

/-- Around the ring and with room for more hops, `c` is two hops from `a`. -/
theorem trace_exact_ring :
    ring.Grown ∧ IsLeast {n | ∃ u v, ring.IsSeed "a" u ∧ v.path = "c" ∧
      Walk (ring.Follows .dependencies) n u v} 2 := by
  have grown : ring.Grown := ⟨_, rfl⟩
  have found : (ring.trace "a" .dependencies 5).files["c"]? = some 2 := by decide
  exact ⟨grown, (((trace_exact grown "a" .dependencies 5).1 "c" 2).mp found).2⟩

end SymbolGraph

end CodeAtlas
