import CodeAtlas.Graph.Trace
import CodeAtlas.Proofs.Graph.Growth
import Mathlib.Data.Nat.Find
import Mathlib.Order.Bounds.Basic

/-!
# Distances and layers

`IsDistance` is the distance of a node from some seeds, defined through walks alone. A search can
be told layer by layer: a layer holds the nodes at one distance, and the next layer their
neighbours that no layer so far holds. The invariant is `Searched`: after the layer at distance
`n`, the nodes seen are those within `n` and the layer holds those at `n`. It passes to the next
layer (`Searched.advance`), which gives the members of every layer (`mem_layers`), and the
distance of a file is the number of the first layer that meets it (`getElem?_fileDistances`).

Nothing here depends on the order in which seeds and neighbours are listed: all statements on
layers are about their members.
-/

namespace CodeAtlas

open CodeAtlas.Text

/-! ## Walks and distances -/

section Walks

variable {α : Type} {step : α → α → Prop} {seeds : α → Prop}

/-- The walks of a given length along a relation. -/
inductive Walk (step : α → α → Prop) : Nat → α → α → Prop
  | stay (a : α) : Walk step 0 a a
  | hop {n : Nat} {a b c : α} : Walk step n a b → step b c → Walk step (n + 1) a c

/-- A walk of length `n` leads from a seed to `v`. -/
def Reached (step : α → α → Prop) (seeds : α → Prop) (n : Nat) (v : α) : Prop :=
  ∃ u, seeds u ∧ Walk step n u v

/-- The shortest walks from seeds to `v` have length `n`. -/
def IsDistance (step : α → α → Prop) (seeds : α → Prop) (v : α) (n : Nat) : Prop :=
  IsLeast {k | Reached step seeds k v} n

/-- Some walk from a seed to `v` has at most length `n`. -/
def Within (step : α → α → Prop) (seeds : α → Prop) (n : Nat) (v : α) : Prop :=
  ∃ k, k ≤ n ∧ Reached step seeds k v

theorem reached_zero {v : α} : Reached step seeds 0 v ↔ seeds v := by
  constructor
  · rintro ⟨u, hu, walk⟩
    cases walk
    exact hu
  · intro hv
    exact ⟨v, hv, .stay v⟩

theorem reached_succ {n : Nat} {v : α} :
    Reached step seeds (n + 1) v ↔ ∃ u, Reached step seeds n u ∧ step u v := by
  constructor
  · rintro ⟨s, hs, walk⟩
    cases walk with
    | hop walk hop => exact ⟨_, ⟨s, hs, walk⟩, hop⟩
  · rintro ⟨u, ⟨s, hs, walk⟩, hop⟩
    exact ⟨s, hs, walk.hop hop⟩

theorem isDistance_zero {v : α} : IsDistance step seeds v 0 ↔ seeds v :=
  ⟨fun h => reached_zero.mp h.1, fun hv => ⟨reached_zero.mpr hv, fun _ _ => Nat.zero_le _⟩⟩

theorem within_zero {v : α} : Within step seeds 0 v ↔ seeds v := by
  constructor
  · rintro ⟨k, hk, hv⟩
    obtain rfl : k = 0 := by omega
    exact reached_zero.mp hv
  · intro hv
    exact ⟨0, Nat.le_refl 0, reached_zero.mpr hv⟩

/-- A node that some walk reaches has a distance, since lengths are well ordered. -/
theorem exists_isDistance {n : Nat} {v : α} (h : Reached step seeds n v) :
    ∃ m, IsDistance step seeds v m := by
  classical
  exact ⟨Nat.find ⟨n, h⟩, Nat.find_spec ⟨n, h⟩, fun _ hk => Nat.find_min' ⟨n, h⟩ hk⟩

/-- A node is at distance `n + 1` if it is a neighbour of one at distance `n` and not nearer. -/
theorem isDistance_succ {n : Nat} {v : α} :
    IsDistance step seeds v (n + 1) ↔
      (∃ u, IsDistance step seeds u n ∧ step u v) ∧ ¬ Within step seeds n v := by
  constructor
  · rintro ⟨hv, least⟩
    obtain ⟨u, hu, hop⟩ := reached_succ.mp hv
    refine ⟨⟨u, ⟨hu, ?_⟩, hop⟩, ?_⟩
    · intro k hk
      have : n + 1 ≤ k + 1 := least (reached_succ.mpr ⟨u, hk, hop⟩)
      omega
    · rintro ⟨k, hk, hkv⟩
      have : n + 1 ≤ k := least hkv
      omega
  · rintro ⟨⟨u, hu, hop⟩, far⟩
    refine ⟨reached_succ.mpr ⟨u, hu.1, hop⟩, ?_⟩
    intro k hk
    by_contra hlt
    exact far ⟨k, by omega, hk⟩

/-- What lies within one hop more lies within the hops before, or at the new distance. -/
theorem within_succ {n : Nat} {v : α} :
    Within step seeds (n + 1) v ↔ Within step seeds n v ∨ IsDistance step seeds v (n + 1) := by
  constructor
  · rintro ⟨k, hk, hkv⟩
    by_cases near : Within step seeds n v
    · exact Or.inl near
    · obtain rfl : k = n + 1 := by
        by_contra hne
        exact near ⟨k, by omega, hkv⟩
      refine Or.inr ⟨hkv, ?_⟩
      intro j hj
      by_contra hlt
      exact near ⟨j, by omega, hj⟩
  · rintro (⟨k, hk, hkv⟩ | hv)
    · exact ⟨k, by omega, hkv⟩
    · exact ⟨n + 1, Nat.le_refl _, hv.1⟩

/-- Distances have no gaps: a node at distance `n + i` has one at distance `n` before it. -/
theorem IsDistance.exists_earlier {n i : Nat} {v : α} (hv : IsDistance step seeds v (n + i)) :
    ∃ u, IsDistance step seeds u n := by
  induction i generalizing v with
  | zero => exact ⟨v, hv⟩
  | succ i ih =>
    obtain ⟨⟨u, hu, -⟩, -⟩ := isDistance_succ.mp hv
    exact ih hu

end Walks

/-! ## Layers -/

namespace Sweep

variable {step : NodeId → NodeId → Prop} {seeds : NodeId → Prop} {next : NodeId → List NodeId}
  {start : List NodeId}

/-- The layer after `layer` along the steps `next`, and all nodes seen with it. -/
def nextLayer (next : NodeId → List NodeId) (seen : NodeSet) (layer : List NodeId) :
    NodeSet × List NodeId :=
  (layer.flatMap next).foldl addUnseen (seen, [])

/-- The layers of a search from `layer` on, at most `hops` of them after the first; the search
ends with the first empty layer. -/
def layers (next : NodeId → List NodeId) :
    (hops : Nat) → (seen : NodeSet) → (layer : List NodeId) → List (List NodeId)
  | _, _, [] => []
  | 0, _, layer => [layer]
  | hops + 1, seen, layer =>
    let (seen, found) := nextLayer next seen layer
    layer :: layers next hops seen found

/-- The layers of a search from some seeds along the steps `next`. -/
def layersFrom (next : NodeId → List NodeId) (seeds : List NodeId) (hops : Nat) :
    List (List NodeId) :=
  layers next hops (seeds.foldl addUnseen (∅, [])).1 (seeds.foldl addUnseen (∅, [])).2

theorem addUnseen_of_mem {seen : NodeSet} {id : NodeId} (h : id ∈ seen) (found : List NodeId) :
    addUnseen (seen, found) id = (seen, found) :=
  if_pos (Std.ExtTreeSet.contains_iff_mem.mpr h)

theorem addUnseen_of_not_mem {seen : NodeSet} {id : NodeId} (h : id ∉ seen)
    (found : List NodeId) : addUnseen (seen, found) id = (seen.insert id, found ++ [id]) :=
  if_neg fun hc => h (Std.ExtTreeSet.contains_iff_mem.mp hc)

/-- Adding nodes one by one finds those that were not seen, whatever the order and however often a
node is listed. -/
theorem mem_foldl_addUnseen (ids : List NodeId) (seen : NodeSet) (found : List NodeId)
    (v : NodeId) :
    (v ∈ (ids.foldl addUnseen (seen, found)).1 ↔ v ∈ seen ∨ v ∈ ids) ∧
      (v ∈ (ids.foldl addUnseen (seen, found)).2 ↔ v ∈ found ∨ (v ∈ ids ∧ v ∉ seen)) := by
  induction ids generalizing seen found with
  | nil => simp
  | cons id ids ih =>
    rw [List.foldl_cons]
    by_cases h : id ∈ seen
    · rw [addUnseen_of_mem h]
      obtain ⟨hseen, hfound⟩ := ih seen found
      rw [hseen, hfound, List.mem_cons]
      grind
    · rw [addUnseen_of_not_mem h]
      obtain ⟨hseen, hfound⟩ := ih (seen.insert id) (found ++ [id])
      rw [hseen, hfound, Std.ExtTreeSet.mem_insert, Std.LawfulEqCmp.compare_eq_iff_eq]
      grind

/-- The next layer holds the neighbours of a layer that were not seen, and then all neighbours are.
-/
theorem mem_nextLayer (seen : NodeSet) (layer : List NodeId) (v : NodeId) :
    (v ∈ (nextLayer next seen layer).1 ↔ v ∈ seen ∨ ∃ u ∈ layer, v ∈ next u) ∧
      (v ∈ (nextLayer next seen layer).2 ↔ (∃ u ∈ layer, v ∈ next u) ∧ v ∉ seen) := by
  obtain ⟨hseen, hfound⟩ := mem_foldl_addUnseen (layer.flatMap next) seen [] v
  simp only [nextLayer, hseen, hfound, List.mem_flatMap, List.not_mem_nil, false_or, and_self]

/-- The state of a search after the layer at distance `n`. -/
structure Searched (step : NodeId → NodeId → Prop) (seeds : NodeId → Prop) (n : Nat)
    (seen : NodeSet) (layer : List NodeId) : Prop where
  seen : ∀ v, v ∈ seen ↔ Within step seeds n v
  layer : ∀ v, v ∈ layer ↔ IsDistance step seeds v n

/-- The seeds are the layer at distance zero. -/
theorem searched_zero (hstart : ∀ v, v ∈ start ↔ seeds v) :
    Searched step seeds 0 (start.foldl addUnseen (∅, [])).1
      (start.foldl addUnseen (∅, [])).2 where
  seen v := by
    rw [(mem_foldl_addUnseen start ∅ [] v).1, within_zero, ← hstart v]
    simp
  layer v := by
    rw [(mem_foldl_addUnseen start ∅ [] v).2, isDistance_zero, ← hstart v]
    simp

/-- If the layers so far are right, so is the next one. This is the step of the invariant: it uses
distances only, and no order of neighbours. -/
theorem Searched.advance {n : Nat} {seen : NodeSet} {layer : List NodeId}
    (hnext : ∀ u v, v ∈ next u ↔ step u v) (h : Searched step seeds n seen layer) :
    Searched step seeds (n + 1) (nextLayer next seen layer).1 (nextLayer next seen layer).2 := by
  have neighbour : ∀ v, (∃ u ∈ layer, v ∈ next u) ↔
      ∃ u, IsDistance step seeds u n ∧ step u v := by
    intro v
    simp only [h.layer, hnext]
  constructor
  · intro v
    rw [(mem_nextLayer seen layer v).1, h.seen, within_succ, isDistance_succ, neighbour]
    tauto
  · intro v
    rw [(mem_nextLayer seen layer v).2, h.seen, isDistance_succ, neighbour]

/-- The members of the layers after distance `n`. Induction on the hops that are left; an empty
layer ends the search, and by `IsDistance.exists_earlier` nothing lies beyond it. -/
theorem mem_layers (hnext : ∀ u v, v ∈ next u ↔ step u v) {n hops : Nat} {seen : NodeSet}
    {layer : List NodeId} (h : Searched step seeds n seen layer) (i : Nat) (v : NodeId) :
    v ∈ ((layers next hops seen layer)[i]?).getD [] ↔
      i ≤ hops ∧ IsDistance step seeds v (n + i) := by
  induction hops generalizing n seen layer i with
  | zero =>
    cases layer with
    | nil =>
      have : ¬ IsDistance step seeds v n := fun hv => by simpa using (h.layer v).mpr hv
      cases i <;> simp [layers, this]
    | cons a as =>
      cases i with
      | zero => simp only [layers, List.getElem?_cons_zero, Option.getD_some, h.layer,
          Nat.le_refl, Nat.add_zero, true_and]
      | succ i => simp [layers]
  | succ hops ih =>
    cases layer with
    | nil =>
      have : ¬ IsDistance step seeds v (n + i) := fun hv => by
        obtain ⟨u, hu⟩ := hv.exists_earlier
        simpa using (h.layer u).mpr hu
      simp [layers, this]
    | cons a as =>
      cases i with
      | zero => simp only [layers, List.getElem?_cons_zero, Option.getD_some, h.layer,
          Nat.zero_le, Nat.add_zero, true_and]
      | succ i =>
        have rest := ih (h.advance hnext) i
        simp only [layers, List.getElem?_cons_succ]
        rw [rest, Nat.add_right_comm, Nat.add_assoc n i 1, Nat.add_le_add_iff_right]

/-- The layers of a search hold the nodes by their distance, up to the limit. -/
theorem mem_layersFrom (hnext : ∀ u v, v ∈ next u ↔ step u v)
    (hstart : ∀ v, v ∈ start ↔ seeds v) {hops i : Nat} {v : NodeId} :
    v ∈ ((layersFrom next start hops)[i]?).getD [] ↔ i ≤ hops ∧ IsDistance step seeds v i := by
  have searched : Searched step seeds 0 (start.foldl addUnseen (∅, [])).1
      (start.foldl addUnseen (∅, [])).2 := searched_zero hstart
  have members : v ∈ ((layersFrom next start hops)[i]?).getD [] ↔
      i ≤ hops ∧ IsDistance step seeds v (0 + i) := mem_layers hnext searched i v
  rwa [Nat.zero_add] at members

/-! ## Distances of files -/

/-- Whether a layer meets the file `path`. -/
def meets (path : String) (layer : List NodeId) : Bool := layer.any fun v => v.path == path

theorem meets_iff {path : String} {layer : List NodeId} :
    meets path layer ↔ ∃ v ∈ layer, v.path = path := by
  simp [meets]

/-- Notes the distance of the files of a layer. -/
def noteLayer (files : TextMap Nat) (layer : List NodeId) (distance : Nat) : TextMap Nat :=
  layer.foldl (fun m id => noteFile m id.path distance) files

/-- The distances of the files that some layers meet. -/
def fileDistances (layers : List (List NodeId)) : TextMap Nat :=
  layers.zipIdx.foldl (fun m (layer, distance) => noteLayer m layer distance) ∅

/-- A distance that is not less than the one that was noted before changes nothing. -/
theorem getElem?_noteFile {files : TextMap Nat} {path : String} {distance : Nat}
    (h : ∀ d, files[path]? = some d → d ≤ distance) (p : String) :
    (noteFile files p distance)[path]? =
      (files[path]?).or (if p = path then some distance else none) := by
  simp only [noteFile, Std.ExtTreeMap.getElem?_insert, Std.LawfulEqCmp.compare_eq_iff_eq]
  by_cases hp : p = path
  · subst hp
    cases hd : files[p]? with
    | none => simp
    | some d => simp [Nat.min_eq_left (h d hd)]
  · simp [hp]

/-- A layer notes its distance for each file that it meets, unless an earlier one has met the file.
-/
theorem getElem?_noteLayer {files : TextMap Nat} {path : String} {distance : Nat}
    (h : ∀ d, files[path]? = some d → d ≤ distance) (layer : List NodeId) :
    (noteLayer files layer distance)[path]? =
      (files[path]?).or (if meets path layer then some distance else none) := by
  unfold noteLayer
  induction layer generalizing files with
  | nil => simp [meets]
  | cons id ids ih =>
    have noted := getElem?_noteFile h id.path
    rw [List.foldl_cons, ih, noted, Option.or_assoc]
    · by_cases hp : id.path = path <;> simp [meets, hp]
    · intro d hd
      rw [noted, Option.or_eq_some_iff] at hd
      rcases hd with hd | ⟨-, hd⟩
      · exact h d hd
      · split at hd
        · exact Nat.le_of_eq (Option.some.inj hd).symm
        · cases hd

/-- Layers that are noted in a row, at growing distances, leave to a file the number of the first
that meets it. -/
theorem getElem?_foldl_noteLayer (ls : List (List NodeId)) {k : Nat} {files : TextMap Nat}
    {path : String} (h : ∀ d, files[path]? = some d → d ≤ k) :
    ((ls.zipIdx k).foldl (fun m (layer, distance) => noteLayer m layer distance) files)[path]? =
      (files[path]?).or ((ls.findIdx? (meets path)).map (· + k)) := by
  induction ls generalizing k files with
  | nil => simp
  | cons layer ls ih =>
    have noted := getElem?_noteLayer h layer
    rw [List.zipIdx_cons, List.foldl_cons, ih, noted, List.findIdx?_cons, Option.or_assoc]
    · congr 1
      by_cases hm : meets path layer
      · simp [hm]
      · cases ls.findIdx? (meets path) <;> simp [hm]
        omega
    · intro d hd
      rw [noted, Option.or_eq_some_iff] at hd
      rcases hd with hd | ⟨-, hd⟩
      · exact Nat.le_succ_of_le (h d hd)
      · split at hd
        · rw [← Option.some.inj hd]
          exact Nat.le_succ k
        · cases hd

/-- The distance of a file is the number of the first layer that meets it. -/
theorem getElem?_fileDistances {ls : List (List NodeId)} {path : String} {d : Nat} :
    (fileDistances ls)[path]? = some d ↔
      IsLeast {i | ∃ v ∈ (ls[i]?).getD [], v.path = path} d := by
  have first : (fileDistances ls)[path]? = ls.findIdx? (meets path) := by
    simp [fileDistances, getElem?_foldl_noteLayer]
  rw [first, List.findIdx?_eq_some_iff_getElem]
  constructor
  · rintro ⟨hd, hmeets, hbefore⟩
    refine ⟨?_, ?_⟩
    · simpa [List.getElem?_eq_getElem hd] using meets_iff.mp hmeets
    · intro i hi
      by_contra hlt
      have hlt : i < d := by omega
      refine hbefore i hlt (meets_iff.mpr ?_)
      simpa [List.getElem?_eq_getElem (hlt.trans hd)] using hi
  · rintro ⟨⟨v, hv, hpath⟩, least⟩
    have hd : d < ls.length := by
      by_contra hge
      rw [List.getElem?_eq_none (by omega)] at hv
      simp at hv
    refine ⟨hd, meets_iff.mpr ⟨v, ?_, hpath⟩, ?_⟩
    · simpa [List.getElem?_eq_getElem hd] using hv
    · intro i hi hmeets
      have : d ≤ i := least (by
        simpa [List.getElem?_eq_getElem (hi.trans hd)] using meets_iff.mp hmeets)
      omega

/-- The distance of a file is the least length of a walk from a seed to one of its nodes, within the
limit. This joins `mem_layersFrom` to `getElem?_fileDistances`. -/
theorem fileDistances_layersFrom (hnext : ∀ u v, v ∈ next u ↔ step u v)
    (hstart : ∀ v, v ∈ start ↔ seeds v) {hops d : Nat} {path : String} :
    (fileDistances (layersFrom next start hops))[path]? = some d ↔
      d ≤ hops ∧ IsLeast {n | ∃ u v, seeds u ∧ v.path = path ∧ Walk step n u v} d := by
  rw [getElem?_fileDistances]
  simp only [mem_layersFrom hnext hstart]
  constructor
  · rintro ⟨⟨v, ⟨hd, ⟨⟨u, hu, walk⟩, hleast⟩⟩, hpath⟩, least⟩
    refine ⟨hd, ⟨u, v, hu, hpath, walk⟩, ?_⟩
    rintro n ⟨s, w, hs, hw, hwalk⟩
    by_contra hlt
    have hlt : n < d := by omega
    obtain ⟨m, hm⟩ := exists_isDistance ⟨s, hs, hwalk⟩
    have hmn : m ≤ n := hm.2 ⟨s, hs, hwalk⟩
    have : d ≤ m := least ⟨w, ⟨by omega, hm⟩, hw⟩
    omega
  · rintro ⟨hd, ⟨u, v, hu, hpath, walk⟩, least⟩
    refine ⟨⟨v, ⟨hd, ⟨⟨u, hu, walk⟩, ?_⟩⟩, hpath⟩, ?_⟩
    · rintro n ⟨s, hs, hwalk⟩
      exact least ⟨s, v, hs, hpath, hwalk⟩
    · rintro n ⟨w, ⟨-, ⟨⟨s, hs, hwalk⟩, -⟩⟩, hw⟩
      exact least ⟨s, w, hs, hw, hwalk⟩

end Sweep

end CodeAtlas
