import CodeAtlas.Proofs.Script.Specifiers
import Mathlib.Data.List.Lex

/-!
# Places in a tree

A place is the way to a part: the number of the part to take at each construct. Places are ordered
as in the text, a construct before its parts. A list holds things in order if it has one entry for
each place where such a thing stands and no other (`InOrder`). There is one such list at most
(`InOrder.unique`), and it is put together along the parts of a construct (`InOrder.flatMap`).

The nodes of a tree are listed in order (`inOrder_nodes`), and with them whatever is found at them
one by one (`InOrder.filterMap`).
-/

namespace CodeAtlas.Script

/-- The list has one entry for each place where something stands, in the order of the places. -/
def InOrder {α : Type} (stands : List Nat → α → Prop) (list : List α) : Prop :=
  ∃ placed : List (List Nat × α), (placed.map Prod.fst).Pairwise (List.Lex (· < ·)) ∧
    (∀ place a, (place, a) ∈ placed ↔ stands place a) ∧ placed.map Prod.snd = list

namespace InOrder

variable {α β : Type} {stands stands' : List Nat → α → Prop} {list list' : List α}

/-- There is one list in order at most. Its places are the same ones as those of any other, and
sorted lists with the same entries are equal. -/
theorem unique (h : InOrder stands list) (h' : InOrder stands list') : list = list' := by
  obtain ⟨placed, hsorted, hmem, rfl⟩ := h
  obtain ⟨placed', hsorted', hmem', rfl⟩ := h'
  have apart : ∀ entries : List (List Nat × α),
      (entries.map Prod.fst).Pairwise (List.Lex (· < ·)) → entries.Nodup := by
    intro entries hentries
    refine (List.pairwise_map.mp hentries).imp ?_
    rintro entry _ hlex rfl
    exact irrefl_of (List.Lex (· < ·)) _ hlex
  have same : placed.Perm placed' :=
    (List.perm_ext_iff_of_nodup (apart _ hsorted) (apart _ hsorted')).mpr fun entry =>
      (hmem entry.1 entry.2).trans (hmem' entry.1 entry.2).symm
  rw [same.eq_of_pairwise (fun a b _ _ hab hba => ?_) (List.pairwise_map.mp hsorted)
    (List.pairwise_map.mp hsorted')]
  exact (asymm_of (List.Lex (· < ·)) hab hba).elim

theorem congr (h : InOrder stands list) (hiff : ∀ place a, stands place a ↔ stands' place a) :
    InOrder stands' list := by
  obtain ⟨placed, hsorted, hmem, hlist⟩ := h
  exact ⟨placed, hsorted, fun place a => (hmem place a).trans (hiff place a), hlist⟩

theorem nil (h : ∀ place a, ¬ stands place a) : InOrder stands [] :=
  ⟨[], .nil, fun place a => iff_of_false List.not_mem_nil (h place a), rfl⟩

theorem singleton (a : α) : InOrder (fun place b => place = [] ∧ b = a) [a] := by
  refine ⟨[([], a)], List.pairwise_singleton _ _, fun place b => ?_, rfl⟩
  rw [List.mem_singleton, Prod.mk.injEq]

/-- Two lists in order follow each other if everything that stands in the first one stands before
everything that stands in the second one. -/
theorem append (h : InOrder stands list) (h' : InOrder stands' list')
    (hbefore : ∀ place a place' a', stands place a → stands' place' a' →
      List.Lex (· < ·) place place') :
    InOrder (fun place a => stands place a ∨ stands' place a) (list ++ list') := by
  obtain ⟨placed, hsorted, hmem, rfl⟩ := h
  obtain ⟨placed', hsorted', hmem', rfl⟩ := h'
  refine ⟨placed ++ placed', ?_, ?_, List.map_append⟩
  · rw [List.map_append, List.pairwise_append]
    refine ⟨hsorted, hsorted', fun place hplace place' hplace' => ?_⟩
    obtain ⟨⟨_, a⟩, ha, rfl⟩ := List.mem_map.mp hplace
    obtain ⟨⟨_, a'⟩, ha', rfl⟩ := List.mem_map.mp hplace'
    exact hbefore _ a _ a' ((hmem _ a).mp ha) ((hmem' _ a').mp ha')
  · intro place a
    rw [List.mem_append, hmem, hmem']

theorem cons (h : InOrder stands list) (a : α) (hinner : ∀ place b, stands place b → place ≠ []) :
    InOrder (fun place b => place = [] ∧ b = a ∨ stands place b) (a :: list) := by
  refine (singleton a).append h ?_
  rintro _ _ place' b ⟨rfl, -⟩ hb
  obtain ⟨i, rest, rfl⟩ := List.exists_cons_of_ne_nil (hinner place' b hb)
  exact .nil

/-- What is found at the places of a list one by one is in order as well, and places where nothing
is found are left out. -/
theorem filterMap (h : InOrder stands list) (f : α → Option β) :
    InOrder (fun place b => ∃ a, stands place a ∧ f a = some b) (list.filterMap f) := by
  obtain ⟨placed, hsorted, hmem, rfl⟩ := h
  refine ⟨placed.filterMap fun entry => (f entry.2).map (entry.1, ·), ?_, ?_, ?_⟩
  · rw [List.pairwise_map, List.pairwise_filterMap]
    refine (List.pairwise_map.mp hsorted).imp fun hlex b hb b' hb' => ?_
    obtain ⟨_, -, rfl⟩ := Option.map_eq_some_iff.mp hb
    obtain ⟨_, -, rfl⟩ := Option.map_eq_some_iff.mp hb'
    exact hlex
  · intro place b
    simp only [List.mem_filterMap, Option.map_eq_some_iff, Prod.exists, Prod.mk.injEq]
    constructor
    · rintro ⟨_, a, ha, _, hb, rfl, rfl⟩
      exact ⟨a, (hmem _ a).mp ha, hb⟩
    · rintro ⟨a, ha, hb⟩
      exact ⟨place, a, (hmem place a).mpr ha, b, hb, rfl, rfl⟩
  · rw [List.map_filterMap, List.filterMap_map]
    refine List.filterMap_congr fun entry _ => ?_
    cases h : f entry.2 <;> simp [h]

theorem map (h : InOrder stands list) (f : α → β) :
    InOrder (fun place b => ∃ a, stands place a ∧ f a = b) (list.map f) := by
  rw [← List.filterMap_eq_map]
  exact (h.filterMap (some ∘ f)).congr fun place b => by simp

/-- What stands in a part of a construct, seen from the construct. -/
theorem under (h : InOrder stands list) (i : Nat) :
    InOrder (fun place a => ∃ rest, place = i :: rest ∧ stands rest a) list := by
  obtain ⟨placed, hsorted, hmem, rfl⟩ := h
  refine ⟨placed.map fun entry => (i :: entry.1, entry.2), ?_, ?_, ?_⟩
  · rw [List.map_map, List.pairwise_map]
    exact (List.pairwise_map.mp hsorted).imp fun hlex => .cons hlex
  · intro place a
    simp only [List.mem_map, Prod.exists, Prod.mk.injEq]
    constructor
    · rintro ⟨rest, b, hb, rfl, rfl⟩
      exact ⟨rest, rfl, (hmem rest b).mp hb⟩
    · rintro ⟨rest, rfl, ha⟩
      exact ⟨rest, a, (hmem rest a).mpr ha, rfl, rfl⟩
  · rw [List.map_map]
    rfl

/-- What stands in the parts of a construct, one part after the other. -/
theorem flatMap {inside : β → List Nat → α → Prop} {f : β → List α} {parts : List β}
    (h : ∀ u ∈ parts, InOrder (inside u) (f u)) :
    InOrder (fun place a => ∃ i rest u, place = i :: rest ∧ parts[i]? = some u ∧ inside u rest a)
      (parts.flatMap f) := by
  -- the parts are counted from any number, so that the rest of them can be taken on its own
  suffices from_ : ∀ k, InOrder (fun place a => ∃ i rest u, place = (k + i) :: rest ∧
      parts[i]? = some u ∧ inside u rest a) (parts.flatMap f) by
    exact (from_ 0).congr fun place a => by simp only [Nat.zero_add]
  induction parts with
  | nil =>
    intro k
    refine nil ?_
    rintro place a ⟨i, rest, u, -, hget, -⟩
    cases hget
  | cons u parts ih =>
    intro k
    have first : InOrder (inside u) (f u) := h u List.mem_cons_self
    have later := ih (fun v hv => h v (List.mem_cons_of_mem u hv)) (k + 1)
    rw [List.flatMap_cons]
    refine ((first.under k).append later ?_).congr fun place a => ?_
    · rintro _ _ _ _ ⟨rest, rfl, -⟩ ⟨i, rest', v, rfl, -⟩
      exact .rel (by omega)
    · constructor
      · rintro (⟨rest, rfl, ha⟩ | ⟨i, rest, v, rfl, hget, ha⟩)
        · exact ⟨0, rest, u, rfl, rfl, ha⟩
        · exact ⟨i + 1, rest, v, by rw [Nat.add_right_comm, Nat.add_assoc], hget, ha⟩
      · rintro ⟨i, rest, v, rfl, hget, ha⟩
        cases i with
        | zero =>
          cases hget
          exact .inl ⟨rest, rfl, ha⟩
        | succ i => exact .inr ⟨i, rest, v, by rw [Nat.add_right_comm, Nat.add_assoc], hget, ha⟩

end InOrder

namespace Tree

/-- The part of a tree that stands at a place. -/
def at? : Tree → List Nat → Option Tree
  | t, [] => some t
  | t, i :: place => t.parts[i]?.bind fun u => u.at? place

theorem at?_cons_eq_some_iff {t u : Tree} {i : Nat} {place : List Nat} :
    t.at? (i :: place) = some u ↔ ∃ v, t.parts[i]? = some v ∧ v.at? place = some u :=
  Option.bind_eq_some_iff

/-- Every node of a tree is listed once, before its parts. -/
theorem inOrder_nodes (t : Tree) : InOrder (fun place u => t.at? place = some u) t.nodes := by
  induction t using induction_on_parts with
  | h k parts ih =>
    rw [nodes, nodesOfAll_eq]
    refine ((InOrder.flatMap ih).cons (node k parts) ?_).congr fun place u => ?_
    · rintro place u ⟨i, rest, v, rfl, -⟩
      exact List.cons_ne_nil i rest
    · cases place with
      | nil => simp [at?, eq_comm]
      | cons i place =>
        rw [at?_cons_eq_some_iff, Tree.parts]
        simp

end Tree

end CodeAtlas.Script
