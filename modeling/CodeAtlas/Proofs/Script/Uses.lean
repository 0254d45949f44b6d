import CodeAtlas.Script.Mention

/-!
# Uses of module-level names

The uses of a program are those of its mentions that reach the level of the module and are
answered there (`Reports`). Which names are asked for only selects among them
(`mem_uses_references`).
-/

namespace CodeAtlas.Script

/-- Some mention of the program is answered at the level of the module and has the name and the
owner of `use`. -/
def Tree.Reports (program : Tree) (use : NameUse) : Prop :=
  ∃ m ∈ program.parts.flatMap Tree.moduleMentions,
    answered (Tree.varScopeEntries program.parts) m.name m.sense ∧ NameUse.mk m.name m.owner = use

theorem mem_dropRepeatedUses {use : NameUse} {uses : List NameUse} :
    use ∈ dropRepeatedUses uses ↔ use ∈ uses := by
  fun_induction dropRepeatedUses uses with
  | case1 => rfl
  | case2 a => rfl
  | case3 a rest ih => rw [ih, List.mem_cons (l := a :: rest), List.mem_cons, or_self_left]
  | case4 a b rest _ ih => rw [List.mem_cons, List.mem_cons, ih]

theorem mem_uses_references {program : Tree} {wanted : List String} {use : NameUse} :
    use ∈ (program.references wanted).uses ↔ use.name ∈ wanted ∧ program.Reports use := by
  unfold Tree.references Tree.Reports
  rw [mem_dropRepeatedUses, List.mem_mergeSort, List.mem_map]
  simp only [List.mem_filter, Bool.and_eq_true, List.contains_iff_mem]
  constructor
  · rintro ⟨m, ⟨hm, hname, hanswered⟩, rfl⟩
    exact ⟨hname, m, hm, hanswered, rfl⟩
  · rintro ⟨hname, m, hm, hanswered, rfl⟩
    exact ⟨m, ⟨hm, hname, hanswered⟩, rfl⟩

end CodeAtlas.Script
