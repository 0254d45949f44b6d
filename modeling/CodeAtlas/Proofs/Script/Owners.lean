import CodeAtlas.Proofs.Script.OwnExports
import CodeAtlas.Proofs.Script.Scopes
import CodeAtlas.Proofs.Script.Uses

/-!
# Owners of mentions

Two walks over a program know declarations. Discovery lists those that count, from the top down
and at any depth. The mentions of a program collect the owners that they meet on their way up, and
the variables of a module are added at its statements. The walks share no code, and still every
owner is the name of a declared symbol (`exists_declaredSymbol_of_mem_uses`).

What a mention meets on its way is stated first, construct by construct (`mem_mentions_node`).
Which scopes answer a mention plays no part: a scope drops mentions and changes none.
-/

namespace CodeAtlas.Script

theorem Mention.owner_ownedBy (name : Option String) (m : Mention) :
    (m.ownedBy name).owner = m.owner ∨ (m.ownedBy name).owner = name := by
  unfold Mention.ownedBy
  cases m.owner with
  | none => exact .inr rfl
  | some owner => exact .inl rfl

namespace Tree

/-! ## Parts -/

theorem IsPart.trans {t u v : Tree} (htu : t.IsPart u) (huv : u.IsPart v) : t.IsPart v := by
  induction huv with
  | self => exact htu
  | inside hmem _ ih => exact .inside hmem ih

/-- Some part of the tree, at any depth, declares the name. -/
def DeclaresWithin (t : Tree) (name : String) : Prop :=
  ∃ (u : Tree) (s : DeclaredSymbol), u.IsPart t ∧ u.declaration? = some s ∧ s.name = name

theorem DeclaresWithin.of_isPart {t u : Tree} {name : String} (h : u.DeclaresWithin name)
    (hpart : u.IsPart t) : t.DeclaresWithin name := by
  obtain ⟨v, s, hv, hs, hname⟩ := h
  exact ⟨v, s, hv.trans hpart, hs, hname⟩

/-! ## The way of a mention -/

/-- A mention of a construct has no owner yet, or it comes from a part and has the owner that it
had there or the one that the construct gives. -/
theorem mem_mentions_node {k : Kind} {parts : List Tree} {m : Mention}
    (h : m ∈ (node k parts).mentions) :
    m.owner = none ∨
      ∃ u ∈ parts, ∃ m' ∈ u.mentions, m.owner = m'.owner ∨ m.owner = givenOwner k := by
  rcases mem_mentions_iff.mp h with ⟨-, hnone⟩ | ⟨u, hu, m', hm', -, rfl⟩
  · exact .inl hnone
  · exact .inr ⟨u, hu, m', hm', m'.owner_ownedBy _⟩

/-- By induction on the tree: whoever owns a mention is declared around it. -/
theorem declaresWithin_of_mem_mentions {t : Tree} {m : Mention} {owner : String}
    (h : m ∈ t.mentions) (howner : m.owner = some owner) : t.DeclaresWithin owner := by
  induction t using induction_on_parts generalizing m with
  | h k parts ih =>
    rcases mem_mentions_node h with hnone | ⟨u, hu, m', hm', hsame | hgiven⟩
    · rw [hnone] at howner
      cases howner
    · have inner : u.DeclaresWithin owner := ih u hu hm' (hsame.symm.trans howner)
      exact inner.of_isPart (.inside hu .self)
    · have given : givenOwner k = some owner := hgiven.symm.trans howner
      unfold givenOwner at given
      split at given
      · cases given
        exact ⟨_, _, .self, rfl, rfl⟩
      · cases given
        exact ⟨_, _, .self, rfl, rfl⟩
      · cases given

/-! ## Module level -/

theorem isPart_of_mem_moduleDeclarators {d statement : Tree}
    (h : d ∈ statement.moduleDeclarators) : d.IsPart statement := by
  unfold moduleDeclarators at h
  split at h
  · exact .inside h .self
  · exact .inside List.mem_cons_self (.inside h .self)
  · cases h

/-- A declarator owns mentions only if its pattern is a single name, and that name is bound by it.
-/
theorem mem_boundNames_of_declaratorOwner {d : Tree} {owner : String}
    (h : d.declaratorOwner = some owner) : owner ∈ boundNamesOfFirst d.parts := by
  unfold declaratorOwner at h
  split at h
  · cases h
    exact List.mem_singleton.mpr rfl
  · cases h

/-- The owner of a mention at the level of the module is declared in the statement, or it is a
variable of the module. -/
theorem owner_of_mem_moduleMentions {statement : Tree} {m : Mention} {owner : String}
    (h : m ∈ statement.moduleMentions) (howner : m.owner = some owner) :
    statement.DeclaresWithin owner ∨
      owner ∈ statement.moduleDeclarators.flatMap fun d => boundNamesOfFirst d.parts := by
  unfold moduleMentions at h
  split at h
  · exact .inl (declaresWithin_of_mem_mentions h howner)
  · obtain ⟨d, hd, hm⟩ := List.mem_flatMap.mp h
    obtain ⟨m', hm', rfl⟩ := List.mem_map.mp hm
    rcases m'.owner_ownedBy d.declaratorOwner with hsame | hgiven
    · have inner := declaresWithin_of_mem_mentions hm' (hsame.symm.trans howner)
      exact .inl (inner.of_isPart (isPart_of_mem_moduleDeclarators hd))
    · have bound := mem_boundNames_of_declaratorOwner (hgiven.symm.trans howner)
      exact .inr (List.mem_flatMap.mpr ⟨d, hd, bound⟩)

theorem moduleDeclarators_exportDefault (parts : List Tree) :
    (node .exportDefault parts).moduleDeclarators = [] := rfl

/-- Whoever owns a use of a name is a declared symbol of the program. -/
theorem exists_declaredSymbol_of_mem_uses {program : Tree} {wanted : List String}
    {name owner : String} (h : ⟨name, some owner⟩ ∈ (program.references wanted).uses) :
    ∃ s ∈ program.declaredSymbols, s.name = owner := by
  obtain ⟨-, m, hm, -, huse⟩ := mem_uses_references.mp h
  have howner : m.owner = some owner := congrArg NameUse.owner huse
  obtain ⟨statement, hstatement, hmention⟩ := List.mem_flatMap.mp hm
  rcases owner_of_mem_moduleMentions hmention howner with ⟨u, s, hpart, hs, hname⟩ | hbound
  · have inside := hpart.trans (isPart_of_mem_parts hstatement)
    exact ⟨s, exists_nested_of_isPart inside hs, hname⟩
  · refine ⟨_, mem_declaredSymbols_of_moduleDeclarators hstatement ?_ hbound, rfl⟩
    rintro parts rfl
    rw [moduleDeclarators_exportDefault] at hbound
    cases hbound

end Tree

end CodeAtlas.Script
