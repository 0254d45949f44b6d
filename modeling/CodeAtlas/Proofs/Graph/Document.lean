import CodeAtlas.Document
import CodeAtlas.Proofs.Graph.Address
import CodeAtlas.Proofs.Graph.Tally
import CodeAtlas.Proofs.Json.ReadBack
import CodeAtlas.Proofs.Link.Kinds
import Mathlib.Data.List.Sort

/-!
# The document of a graph

The document lists a row for each node. `Enumerates` says what the rows of a graph are in whatever
order, and `Arranged` that they stand in order, from one node to the next and inside each row. There
is one arranged table of rows (`Arranged.eq`), and sorting finds it (`Enumerates.arranged`). So the
document depends on the nodes, kinds and edges alone.

A row shows the texts of nodes. Where all nodes are plain, they can be read back, and the document
tells what the graph is (`document_canonical`).
-/

namespace CodeAtlas

open CodeAtlas.Json

/-- Equal images come from equal lists where equal images come from equal members. -/
theorem eq_of_map_eq {α β : Type} {f : α → β} : ∀ {l l' : List α},
    (∀ x ∈ l, ∀ y ∈ l', f x = f y → x = y) → l.map f = l'.map f → l = l'
  | [], [], _, _ => rfl
  | x :: l, y :: l', hinj, h => by
    rw [List.map_cons, List.map_cons, List.cons.injEq] at h
    rw [hinj x List.mem_cons_self y List.mem_cons_self h.1,
      eq_of_map_eq (fun z hz w hw => hinj z (.tail x hz) w (.tail y hw)) h.2]

/-! ## The order of nodes -/

namespace NodeId

variable {a b : NodeId} {ids ids' : List NodeId}

/-- Files come before declarations, files by path, declarations by path and then by name. -/
inductive Precedes : NodeId → NodeId → Prop where
  | files {p q : String} (h : p < q) : Precedes (file p) (file q)
  | fileFirst (p q n : String) : Precedes (file p) (symbol q n)
  | paths {p q : String} (h : p < q) (m n : String) : Precedes (symbol p m) (symbol q n)
  | names {m n : String} (p : String) (h : m < n) : Precedes (symbol p m) (symbol p n)

theorem compare_text {p q : String} : compare p q = .lt ↔ p < q := compareOfLessAndEq_eq_lt

/-- The order of nodes, said in cases, is the one that the map behind a graph keeps. -/
theorem precedes_iff : a.Precedes b ↔ compare a b = .lt := by
  rw [compare_eq]
  constructor
  · rintro (h | _ | ⟨h, m, n⟩ | ⟨p, h⟩)
    · exact compare_text.mpr h
    · rfl
    · rw [cmp, compare_text.mpr h, Ordering.lt_then]
    · rw [cmp, Std.compare_self, Ordering.eq_then, compare_text.mpr h]
  · intro h
    cases a with
    | file p =>
      cases b with
      | file q => exact .files (compare_text.mp h)
      | symbol q n => exact .fileFirst p q n
    | symbol p m =>
      cases b with
      | file q => simp [cmp] at h
      | symbol q n =>
        rw [cmp, Ordering.then_eq_lt] at h
        obtain h | ⟨hpath, h⟩ := h
        · exact .paths (compare_text.mp h) m n
        · obtain rfl := Std.LawfulEqCmp.eq_of_compare hpath
          exact .names p (compare_text.mp h)

theorem Precedes.ne (h : a.Precedes b) : a ≠ b := by
  rintro rfl
  rw [precedes_iff, Std.compare_self] at h
  exact absurd h (by decide)

theorem Precedes.asymm (h : a.Precedes b) : ¬ b.Precedes a := by
  rw [precedes_iff] at h ⊢
  rw [compare_eq, cmp_swap, ← compare_eq, h]
  decide

theorem nodup_of_precedes (h : ids.Pairwise Precedes) : ids.Nodup := h.imp Precedes.ne

/-- Only one list of some nodes is in order. -/
theorem eq_of_precedes (h : ids.Pairwise Precedes) (h' : ids'.Pairwise Precedes)
    (hmem : ∀ id, id ∈ ids ↔ id ∈ ids') : ids = ids' := by
  have perm := (List.perm_ext_iff_of_nodup (nodup_of_precedes h) (nodup_of_precedes h')).mpr hmem
  refine perm.eq_of_pairwise ?_ h h'
  intro a b _ _ hab hba
  exact absurd hba hab.asymm

/-- A list in the order of the nodes that `key` reads. -/
def sortBy {α : Type} (key : α → NodeId) (l : List α) : List α :=
  l.mergeSort fun x y => (compare (key x) (key y)).isLE

section SortBy

variable {α : Type} {key : α → NodeId} {l : List α} {x : α}

theorem sortBy_perm (key : α → NodeId) (l : List α) : (sortBy key l).Perm l :=
  List.mergeSort_perm l _

theorem mem_sortBy : x ∈ sortBy key l ↔ x ∈ l := (sortBy_perm key l).mem_iff

/-- Sorting puts distinct nodes in their order. With equal ones no strict order would be possible.
-/
theorem precedes_sortBy (h : (l.map key).Nodup) : ((sortBy key l).map key).Pairwise Precedes := by
  have total : ∀ x y, ((compare (key x) (key y)).isLE || (compare (key y) (key x)).isLE) := by
    intro x y
    rw [compare_eq (key y), cmp_swap, ← compare_eq]
    cases compare (key x) (key y) <;> rfl
  have ordered : (sortBy key l).Pairwise fun x y => (compare (key x) (key y)).isLE :=
    List.pairwise_mergeSort (fun x y z => Std.TransCmp.isLE_trans) total l
  have distinct : ((sortBy key l).map key).Nodup :=
    ((sortBy_perm key l).map key).nodup_iff.mpr h
  rw [List.Nodup, List.pairwise_map] at distinct
  rw [List.pairwise_map]
  refine (ordered.and distinct).imp ?_
  rintro x y ⟨hle, hne⟩
  rw [precedes_iff]
  obtain hlt | heq := Ordering.isLE_iff_eq_lt_or_eq_eq.mp hle
  · exact hlt
  · exact absurd (Std.LawfulEqCmp.eq_of_compare heq) hne

end SortBy

/-- Nodes in order. -/
def sort (ids : List NodeId) : List NodeId := sortBy (fun id => id) ids

theorem mem_sort : a ∈ sort ids ↔ a ∈ ids := mem_sortBy

theorem precedes_sort (h : ids.Nodup) : (sort ids).Pairwise Precedes := by
  have ordered : ((sort ids).map fun id => id).Pairwise Precedes :=
    precedes_sortBy (by rwa [List.map_id'])
  rwa [List.map_id'] at ordered

theorem text_inj (ha : a.IsPlain) (hb : b.IsPlain) (h : a.text = b.text) : a = b := by
  rw [← ofText_text ha, h, ofText_text hb]

end NodeId

/-! ## Reading nodes back -/

namespace NodeId

theorem worded_document (id : NodeId) : id.document.Worded := rfl

theorem ofDocument?_document (id : NodeId) : ofDocument? id.document = some (ofText id.text) := rfl

/-- **Texts of nodes.** The node that a text means has this text. A node is read back from its text,
from its document and from what is written of its document, each if and only if it is plain: if it is
a file whose path holds no `#`, or a declaration whose name holds none in a file of whatever path. -/
theorem text_round_trip :
    (∀ s : String, (ofText s).text = s) ∧
    ∀ id : NodeId,
      (ofText id.text = id ↔ id.IsPlain) ∧
      (ofDocument? id.document = some id ↔ id.IsPlain) ∧
      ((read (write id.document)).bind ofDocument? = some id ↔ id.IsPlain) ∧
      (id.IsPlain ↔ (∃ path, id = file path ∧ '#' ∉ path.toList) ∨
        ∃ path name, id = symbol path name ∧ '#' ∉ name.toList) := by
  refine ⟨text_ofText, fun id => ⟨ofText_text_iff, ?document, ?written, ?plain⟩⟩
  case document =>
    rw [ofDocument?_document, Option.some.injEq]
    exact ofText_text_iff
  case written =>
    rw [read_write id.worded_document, Option.bind_some, ofDocument?_document, Option.some.injEq]
    exact ofText_text_iff
  case plain =>
    cases id with
    | file path => simp [IsPlain]
    | symbol path name => simp [IsPlain]

end NodeId

theorem SymbolKind.name_inj {k k' : SymbolKind} (h : k.name = k'.name) : k = k' := by
  have same := ofName?_name k
  rw [h, ofName?_name, Option.some.injEq] at same
  exact same.symm

theorem Json.Value.ofText_inj {s t : String} (h : Value.ofText s = Value.ofText t) : s = t :=
  Option.some.inj (Value.string.inj h)

/-! ## Rows -/

/-- What a document shows of a node. -/
@[ext]
structure NodeRow where
  id : NodeId
  kind : SymbolKind
  dependencies : List NodeId
  dependents : List NodeId

namespace NodeRow

def document (row : NodeRow) : Value :=
  .ofMembers [("id", .ofText row.id.text), ("kind", .ofText row.kind.name),
    ("dependencies", NodeId.documentOf row.dependencies),
    ("dependents", NodeId.documentOf row.dependents)]

/-- The node of a row with each node that the row lists on one side. -/
def ends (side : NodeRow → List NodeId) (row : NodeRow) : List (NodeId × NodeId) :=
  (side row).map (row.id, ·)

/-- The row with both of its lists in order. -/
def sorted (row : NodeRow) : NodeRow :=
  { row with
    dependencies := NodeId.sort row.dependencies
    dependents := NodeId.sort row.dependents }

/-- The rows in order, each with its lists in order. -/
def arrange (table : List NodeRow) : List NodeRow := NodeId.sortBy NodeRow.id (table.map sorted)

end NodeRow

namespace SymbolGraph

variable {g g' : SymbolGraph} {table : List NodeRow} {a b : NodeId}

/-- The rows of the document of a graph. -/
def rows (g : SymbolGraph) : List NodeRow :=
  g.toList.map fun (id, r) => ⟨id, r.kind, r.dependencies.toList, r.dependents.toList⟩

theorem document_eq (g : SymbolGraph) : g.document = .list (g.rows.map NodeRow.document) := by
  rw [document, rows, List.map_map]
  rfl

/-- There is one row for each node. It lists the ends of its edges on either side once each. -/
structure Enumerates (g : SymbolGraph) (table : List NodeRow) : Prop where
  distinct : (table.map NodeRow.id).Nodup
  nodes : ∀ id, id ∈ table.map NodeRow.id ↔ g.contains id
  kinds : ∀ row ∈ table, g.kind? row.id = some row.kind
  dependencies : ∀ row ∈ table,
    row.dependencies.Nodup ∧ ∀ b, b ∈ row.dependencies ↔ g.hasEdge row.id b
  dependents : ∀ row ∈ table,
    row.dependents.Nodup ∧ ∀ a, a ∈ row.dependents ↔ g.hasEdge a row.id

/-- The rows of a graph are in order, and so are the lists in each of them. -/
structure Arranged (g : SymbolGraph) (table : List NodeRow) : Prop extends g.Enumerates table where
  order : (table.map NodeRow.id).Pairwise NodeId.Precedes
  dependenciesOrder : ∀ row ∈ table, row.dependencies.Pairwise NodeId.Precedes
  dependentsOrder : ∀ row ∈ table, row.dependents.Pairwise NodeId.Precedes

/-- The same nodes, each of the same kind, and the same edges. -/
structure SameContent (g g' : SymbolGraph) : Prop where
  nodes : ∀ id, g.contains id ↔ g'.contains id
  kinds : ∀ id, g.kind? id = g'.kind? id
  edges : ∀ a b, g.hasEdge a b ↔ g'.hasEdge a b

/-- A table that shows one graph in order shows every graph of the same content. -/
theorem SameContent.arranged (h : g.SameContent g') (htable : g.Arranged table) :
    g'.Arranged table where
  distinct := htable.distinct
  nodes id := (htable.nodes id).trans (h.nodes id)
  kinds row hrow := by rw [← h.kinds, htable.kinds row hrow]
  dependencies row hrow :=
    ⟨(htable.dependencies row hrow).1,
      fun b => ((htable.dependencies row hrow).2 b).trans (h.edges row.id b)⟩
  dependents row hrow :=
    ⟨(htable.dependents row hrow).1,
      fun a => ((htable.dependents row hrow).2 a).trans (h.edges a row.id)⟩
  order := htable.order
  dependenciesOrder := htable.dependenciesOrder
  dependentsOrder := htable.dependentsOrder

/-! ## The rows of a graph -/

namespace Enumerates

theorem exists_row (h : g.Enumerates table) {id : NodeId} (hid : g.contains id) :
    ∃ row ∈ table, row.id = id :=
  List.mem_map.mp ((h.nodes id).mpr hid)

theorem contains (h : g.Enumerates table) {row : NodeRow} (hrow : row ∈ table) :
    g.contains row.id :=
  (h.nodes row.id).mp (List.mem_map_of_mem hrow)

/-- Rows that two graphs have in common show the content of both: no node, kind or edge can be read
in two ways from them. -/
theorem sameContent (h : g.Enumerates table) (h' : g'.Enumerates table) : g.SameContent g' where
  nodes id := (h.nodes id).symm.trans (h'.nodes id)
  kinds id := by
    by_cases hid : g.contains id
    · obtain ⟨row, hrow, rfl⟩ := h.exists_row hid
      rw [h.kinds row hrow, h'.kinds row hrow]
    · have hid' : ¬ g'.contains id := fun h'' => hid ((h.nodes id).mp ((h'.nodes id).mpr h''))
      rw [← isSome_kind?, Option.not_isSome_iff_eq_none] at hid hid'
      rw [hid, hid']
  edges a b := by
    have kept : ∀ {g g' : SymbolGraph}, g.Enumerates table → g'.Enumerates table →
        g.hasEdge a b → g'.hasEdge a b := by
      intro g g' h h' hedge
      obtain ⟨row, hrow, rfl⟩ := h.exists_row (contains_of_hasEdge hedge)
      exact ((h'.dependencies row hrow).2 b).mp (((h.dependencies row hrow).2 b).mpr hedge)
    exact ⟨kept h h', kept h' h⟩

/-- Sorting puts the rows of a graph in order. -/
theorem arranged (h : g.Enumerates table) : g.Arranged (NodeRow.arrange table) := by
  have sorted_ids : (table.map NodeRow.sorted).map NodeRow.id = table.map NodeRow.id := by
    rw [List.map_map]
    rfl
  have order : ((NodeRow.arrange table).map NodeRow.id).Pairwise NodeId.Precedes :=
    NodeId.precedes_sortBy (by rw [sorted_ids]; exact h.distinct)
  have origin : ∀ row ∈ NodeRow.arrange table, ∃ old ∈ table, old.sorted = row :=
    fun row hrow => List.mem_map.mp (NodeId.mem_sortBy.mp hrow)
  have nodes : ∀ id, id ∈ (NodeRow.arrange table).map NodeRow.id ↔ g.contains id := by
    intro id
    rw [NodeRow.arrange, ((NodeId.sortBy_perm _ _).map NodeRow.id).mem_iff, sorted_ids]
    exact h.nodes id
  refine ⟨⟨NodeId.nodup_of_precedes order, nodes, ?_, ?_, ?_⟩, order, ?_, ?_⟩
  all_goals
    intro row hrow
    obtain ⟨old, hold, rfl⟩ := origin row hrow
  · exact h.kinds old hold
  · have ordered := NodeId.precedes_sort (h.dependencies old hold).1
    exact ⟨NodeId.nodup_of_precedes ordered,
      fun b => NodeId.mem_sort.trans ((h.dependencies old hold).2 b)⟩
  · have ordered := NodeId.precedes_sort (h.dependents old hold).1
    exact ⟨NodeId.nodup_of_precedes ordered,
      fun a => NodeId.mem_sort.trans ((h.dependents old hold).2 a)⟩
  · exact NodeId.precedes_sort (h.dependencies old hold).1
  · exact NodeId.precedes_sort (h.dependents old hold).1

/-- A pair stands in the row of its first node, and nowhere else. -/
theorem count_ends (h : g.Enumerates table) {side : NodeRow → List NodeId}
    (related : NodeId → NodeId → Bool)
    (hside : ∀ row ∈ table, (side row).Nodup ∧ ∀ b, b ∈ side row ↔ related row.id b)
    (hnode : related a b → g.contains a) :
    (table.flatMap (NodeRow.ends side)).count (a, b) = if related a b then 1 else 0 := by
  have nodup : (table.flatMap (NodeRow.ends side)).Nodup :=
    nodup_pairs (List.pairwise_map.mp h.distinct) fun row hrow => (hside row hrow).1
  have listed : (a, b) ∈ table.flatMap (NodeRow.ends side) ↔ related a b := by
    simp only [List.mem_flatMap, NodeRow.ends, List.mem_map, Prod.mk.injEq]
    constructor
    · rintro ⟨row, hrow, _, hb, rfl, rfl⟩
      exact ((hside row hrow).2 _).mp hb
    · intro hab
      obtain ⟨row, hrow, rfl⟩ := h.exists_row (hnode hab)
      exact ⟨row, hrow, b, ((hside row hrow).2 b).mpr hab, rfl, rfl⟩
  by_cases hab : related a b
  · rw [if_pos hab, List.count_eq_one_of_mem nodup (listed.mpr hab)]
  · rw [if_neg hab, List.count_eq_zero_of_not_mem (mt listed.mp hab)]

end Enumerates

/-- Only one table of a graph is in order, since the order of its rows and of each list in them is
strict. -/
theorem Arranged.eq {table' : List NodeRow} (h : g.Arranged table) (h' : g.Arranged table') :
    table = table' := by
  refine eq_of_map_eq (f := NodeRow.id) ?_ ?_
  · intro row hrow row' hrow' hid
    have kinds : row.kind = row'.kind := by
      have := h.kinds row hrow
      rw [hid, h'.kinds row' hrow', Option.some.injEq] at this
      exact this.symm
    have out : row.dependencies = row'.dependencies := by
      refine NodeId.eq_of_precedes (h.dependenciesOrder row hrow)
        (h'.dependenciesOrder row' hrow') ?_
      intro b
      rw [(h.dependencies row hrow).2, (h'.dependencies row' hrow').2, hid]
    have into : row.dependents = row'.dependents := by
      refine NodeId.eq_of_precedes (h.dependentsOrder row hrow)
        (h'.dependentsOrder row' hrow') ?_
      intro a
      rw [(h.dependents row hrow).2, (h'.dependents row' hrow').2, hid]
    exact NodeRow.ext hid kinds out into
  · exact NodeId.eq_of_precedes h.order h'.order fun id => (h.nodes id).trans (h'.nodes id).symm

/-- The document of a graph shows its table in order. -/
theorem Grown.arranged_rows (hg : g.Grown) : g.Arranged g.rows := by
  have ids : g.rows.map NodeRow.id = g.nodes.keys := by
    rw [rows, List.map_map, ← Std.ExtTreeMap.map_fst_toList_eq_keys]
    rfl
  have order : (g.rows.map NodeRow.id).Pairwise NodeId.Precedes := by
    rw [ids]
    exact Std.ExtTreeMap.ordered_keys.imp NodeId.precedes_iff.mpr
  have sides : ∀ s : NodeSet, s.toList.Pairwise NodeId.Precedes :=
    fun s => Std.ExtTreeSet.ordered_toList.imp NodeId.precedes_iff.mpr
  have nodes : ∀ id, id ∈ g.rows.map NodeRow.id ↔ g.contains id := by
    intro id
    rw [ids, mem_keys_iff]
  refine ⟨⟨NodeId.nodup_of_precedes order, nodes, ?_, ?_, ?_⟩, order, ?_, ?_⟩
  all_goals
    intro row hrow
    obtain ⟨⟨id, r⟩, hr, rfl⟩ := List.mem_map.mp hrow
    rw [mem_toList] at hr
  · rw [kind?, hr, Option.map_some]
  · refine ⟨NodeId.nodup_of_precedes (sides _), fun b => ?_⟩
    rw [Std.ExtTreeSet.mem_toList, hasEdge_iff, dependencies, hr]
    rfl
  · refine ⟨NodeId.nodup_of_precedes (sides _), fun a => ?_⟩
    rw [Std.ExtTreeSet.mem_toList, hasEdge_iff, hg.wellFormed.mirrored, dependents, hr]
    rfl
  · exact sides _
  · exact sides _

end SymbolGraph

/-! ## Reading a document -/

namespace NodeRow

variable {row row' : NodeRow} {ids ids' : List NodeId}

/-- All nodes that the row names are plain. -/
structure IsPlain (row : NodeRow) : Prop where
  id : row.id.IsPlain
  dependencies : ∀ id ∈ row.dependencies, id.IsPlain
  dependents : ∀ id ∈ row.dependents, id.IsPlain

theorem documentOf_inj (h : ∀ id ∈ ids, id.IsPlain) (h' : ∀ id ∈ ids', id.IsPlain)
    (heq : NodeId.documentOf ids = NodeId.documentOf ids') : ids = ids' := by
  simp only [NodeId.documentOf, Value.ofTexts, List.map_map, Value.list.injEq] at heq
  refine eq_of_map_eq (fun a ha b hb hab => ?_) heq
  exact NodeId.text_inj (h a ha) (h' b hb) (Value.ofText_inj hab)

/-- A row of plain nodes is read back from its document. -/
theorem document_inj (h : row.IsPlain) (h' : row'.IsPlain) (heq : row.document = row'.document) :
    row = row' := by
  simp only [document, Value.ofMembers, Value.object.injEq, List.map_cons, List.map_nil,
    List.cons.injEq, Prod.mk.injEq, true_and, and_true] at heq
  obtain ⟨hid, hkind, hout, hinto⟩ := heq
  have id : row.id = row'.id := NodeId.text_inj h.id h'.id (Value.ofText_inj hid)
  have kind : row.kind = row'.kind := SymbolKind.name_inj (Value.ofText_inj hkind)
  have dependencies := documentOf_inj h.dependencies h'.dependencies hout
  have dependents := documentOf_inj h.dependents h'.dependents hinto
  exact NodeRow.ext id kind dependencies dependents

theorem worded_documentOf (ids : List NodeId) : (NodeId.documentOf ids).Worded := by
  refine worded_list_iff.mpr ?_
  simp only [List.forall_mem_map]
  exact fun _ _ => rfl

theorem worded_document (row : NodeRow) : row.document.Worded := by
  refine worded_object_iff.mpr ?_
  simp only [List.map_cons, List.map_nil, List.forall_mem_cons]
  exact ⟨⟨rfl, rfl⟩, ⟨rfl, rfl⟩, ⟨rfl, worded_documentOf _⟩, ⟨rfl, worded_documentOf _⟩, nofun⟩

end NodeRow

namespace SymbolGraph

variable {g g' : SymbolGraph} {table : List NodeRow}

theorem worded_document (g : SymbolGraph) : g.document.Worded := by
  rw [document_eq]
  refine worded_list_iff.mpr ?_
  rw [List.forall_mem_map]
  exact fun row _ => row.worded_document

/-- Where all nodes are plain, so are all that the rows name, since the edges of a grown graph end
at nodes. -/
theorem Grown.isPlain_rows (hg : g.Grown) (h : ∀ id, g.contains id → id.IsPlain) :
    ∀ row ∈ g.rows, row.IsPlain := by
  intro row hrow
  have table := hg.arranged_rows
  refine ⟨h _ (table.contains hrow), ?_, ?_⟩
  · intro b hb
    have edge := ((table.dependencies row hrow).2 b).mp hb
    exact h b (hg.wellFormed.target _ b (hasEdge_iff.mp edge))
  · intro a ha
    have edge := ((table.dependents row hrow).2 a).mp ha
    exact h a (contains_of_hasEdge edge)

theorem document_eq_of_sameContent (hg : g.Grown) (hg' : g'.Grown) (h : g.SameContent g') :
    g.document = g'.document := by
  rw [document_eq, document_eq, (h.arranged hg.arranged_rows).eq hg'.arranged_rows]

/-- The document of a grown graph without a `#` tells its content. -/
theorem sameContent_of_document_eq (hg : g.Grown) (hg' : g'.Grown)
    (hplain : ∀ id, g.contains id → id.IsPlain) (hplain' : ∀ id, g'.contains id → id.IsPlain)
    (h : g.document = g'.document) : g.SameContent g' := by
  rw [document_eq, document_eq, Value.list.injEq] at h
  have same : g.rows = g'.rows := by
    refine eq_of_map_eq (fun row hrow row' hrow' heq => ?_) h
    exact NodeRow.document_inj (hg.isPlain_rows hplain row hrow)
      (hg'.isPlain_rows hplain' row' hrow') heq
  exact hg.arranged_rows.sameContent (same ▸ hg'.arranged_rows.toEnumerates)

/-! ## Two runs -/

/-- **Documents of graphs.** The document of a graph that some steps lead to shows its nodes in order,
each with the nodes at the other ends of its edges in order, and every edge once on either side. If
two such graphs have the same content, they have the same document and text. If they have the same
text and all of their nodes are plain, which they are where no path and no name holds a `#`, they have
the same content. -/
theorem document_canonical (steps steps' : List Growth) :
    let g : SymbolGraph := steps.foldl Growth.apply ∅
    let g' : SymbolGraph := steps'.foldl Growth.apply ∅
    -- the rows of a document
    (∃ table, g.document = .list (table.map NodeRow.document) ∧ g.Arranged table ∧
      (∀ a b, (table.flatMap (NodeRow.ends NodeRow.dependencies)).count (a, b) =
        if g.hasEdge a b then 1 else 0) ∧
      ∀ a b, (table.flatMap (NodeRow.ends NodeRow.dependents)).count (b, a) =
        if g.hasEdge a b then 1 else 0) ∧
    -- in whatever order the nodes and the edges are kept
    (∀ table, g.Enumerates table →
      g.document = .list ((NodeRow.arrange table).map NodeRow.document)) ∧
    -- the same content
    (g.SameContent g' → g.document = g'.document ∧ write g.document = write g'.document) ∧
    -- the same text
    ((∀ id, g.contains id → id.IsPlain) → (∀ id, g'.contains id → id.IsPlain) →
      write g.document = write g'.document → g.SameContent g') := by
  intro g g'
  have hg : g.Grown := ⟨steps, rfl⟩
  have hg' : g'.Grown := ⟨steps', rfl⟩
  have table : g.Arranged g.rows := hg.arranged_rows
  refine ⟨⟨g.rows, document_eq g, table, ?out, ?into⟩, ?kept, ?same, ?back⟩
  case out =>
    intro a b
    exact table.count_ends g.hasEdge table.dependencies contains_of_hasEdge
  case into =>
    intro a b
    exact table.count_ends (fun b a => g.hasEdge a b) table.dependents fun h =>
      hg.wellFormed.target a b (hasEdge_iff.mp h)
  case kept =>
    intro other hother
    rw [document_eq, table.eq hother.arranged]
  case same =>
    intro h
    have documents := document_eq_of_sameContent hg hg' h
    exact ⟨documents, congrArg write documents⟩
  case back =>
    intro hplain hplain' h
    exact sameContent_of_document_eq hg hg' hplain hplain'
      (write_inj (worded_document g) (worded_document g') h)

/-- A declaration, a file and an edge between them, and the same in another order, with a refused
edge and with repetitions. -/
theorem document_canonical_reordered :
    let user := NodeId.file "b.ts"
    let used := NodeId.symbol "a.ts" "x"
    let g : SymbolGraph := [.ensureSymbol "a.ts" "x" .function, .ensureFile "b.ts",
      .addEdge user used].foldl Growth.apply ∅
    let g' : SymbolGraph := [.ensureFile "b.ts", .addEdge user used,
      .ensureSymbol "a.ts" "x" .function, .ensureSymbol "a.ts" "x" .classType, .addEdge user used,
      .addEdge user used].foldl Growth.apply ∅
    g.SameContent g' ∧ (∀ id, g.contains id → id.IsPlain) ∧ (∀ id, g'.contains id → id.IsPlain) ∧
      write g.document = write g'.document := by
  intro user used g g'
  have kinds : ∀ id, g.kind? id = g'.kind? id := by
    intro id
    simp only [g, g', List.foldl_cons, List.foldl_nil, Growth.apply, ensureSymbol, ensureFile,
      kind?_addEdge, kind?_ensure, kind?_empty]
    grind
  have nodes : ∀ id, g.contains id ↔ g'.contains id := by
    intro id
    rw [← isSome_kind?, kinds, isSome_kind?]
  have edges : ∀ a b, g.hasEdge a b ↔ g'.hasEdge a b := by
    intro a b
    simp only [g, g', List.foldl_cons, List.foldl_nil, Growth.apply, ensureSymbol, ensureFile,
      hasEdge_addEdge, hasEdge_ensure, admits_iff, contains_addEdge, contains_ensure]
    grind
  have plain : ∀ id, g.contains id → id.IsPlain := by
    intro id hid
    simp only [g, List.foldl_cons, List.foldl_nil, Growth.apply, ensureSymbol, ensureFile,
      contains_addEdge, contains_ensure, not_contains_empty, Bool.false_eq_true, or_false] at hid
    obtain rfl | rfl | rfl := hid <;> decide
  have plain' : ∀ id, g'.contains id → id.IsPlain := fun id hid => plain id ((nodes id).mpr hid)
  obtain ⟨-, -, same, back⟩ := document_canonical
    [.ensureSymbol "a.ts" "x" .function, .ensureFile "b.ts", .addEdge user used]
    [.ensureFile "b.ts", .addEdge user used, .ensureSymbol "a.ts" "x" .function,
      .ensureSymbol "a.ts" "x" .classType, .addEdge user used, .addEdge user used]
  have texts := (same ⟨nodes, kinds, edges⟩).2
  exact ⟨back plain plain' texts, plain, plain', texts⟩

end SymbolGraph

end CodeAtlas
