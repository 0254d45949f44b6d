import CodeAtlas.Proofs.Graph.Duality
import CodeAtlas.Proofs.Text.Cut

/-!
# The texts of nodes

A node is plain if the path of its file, or the name of its declaration, holds no `#`. Every text
means a plain node that has this text (`isPlain_ofText`, `text_ofText`). So the text of a plain node
is read back as the node, and that of another one as a node of another path (`ofText_text_iff`,
`path_ofText_text_iff`).

A trace without hops lists the files of its seeds (`getElem?_files_trace_zero`). So it lists just
the file of a plain node if it starts at the text of the node (`files_trace_text_iff`), and from the
text of a node that is not plain it lists the file of the node that the text means, or nothing
(`files_trace_hash`).
-/

namespace CodeAtlas

open CodeAtlas.Text

namespace NodeId

variable {id : NodeId} {s : String}

/-- A file has a path without `#`, a declaration a name without `#` in whatever file. -/
def IsPlain : NodeId → Prop
  | file path => '#' ∉ path.toList
  | symbol _ name => '#' ∉ name.toList

instance : DecidablePred IsPlain
  | file path => inferInstanceAs (Decidable ('#' ∉ path.toList))
  | symbol _ name => inferInstanceAs (Decidable ('#' ∉ name.toList))

/-! ## Reading texts back -/

theorem ofText_of_not_mem (h : '#' ∉ s.toList) : ofText s = file s := by
  rw [ofText, cutLast?_eq_none_iff.mpr h]

/-- A text with a `#` is split at the last one, so no `#` is left in the name. -/
theorem exists_ofText_of_mem (h : '#' ∈ s.toList) :
    ∃ path name, ofText s = symbol path name ∧ s = path ++ "#" ++ name ∧ '#' ∉ name.toList := by
  cases hcut : cutLast? '#' s with
  | none => exact absurd h (cutLast?_eq_none_iff.mp hcut)
  | some parts =>
    obtain ⟨path, name⟩ := parts
    refine ⟨path, name, ?_, (cutLast?_eq_some_iff rfl).mp hcut⟩
    rw [ofText, hcut]

/-- The text of a plain node means the node: only the `#` between path and name can be the last one.
-/
theorem ofText_text (h : id.IsPlain) : ofText id.text = id := by
  cases id with
  | file path => exact ofText_of_not_mem h
  | symbol path name =>
    have cut : cutLast? '#' (path ++ "#" ++ name) = some (path, name) :=
      (cutLast?_eq_some_iff rfl).mpr ⟨rfl, h⟩
    rw [ofText, text, cut]

theorem text_ofText (s : String) : (ofText s).text = s := by
  by_cases hmem : '#' ∈ s.toList
  · obtain ⟨path, name, hread, heq, -⟩ := exists_ofText_of_mem hmem
    rw [hread, text, ← heq]
  · rw [ofText_of_not_mem hmem, text]

/-- A text is cut at its last `#`, so the node that it means is plain, even if the text was that of
another node. -/
theorem isPlain_ofText (s : String) : (ofText s).IsPlain := by
  by_cases hmem : '#' ∈ s.toList
  · obtain ⟨path, name, hread, -, hname⟩ := exists_ofText_of_mem hmem
    rw [hread]
    exact hname
  · rw [ofText_of_not_mem hmem]
    exact hmem

theorem ofText_text_iff : ofText id.text = id ↔ id.IsPlain :=
  ⟨fun h => h ▸ isPlain_ofText id.text, ofText_text⟩

theorem mem_text_of_symbol (path name : String) : '#' ∈ (symbol path name).text.toList := by
  rw [text, String.toList_append, String.toList_append]
  exact List.mem_append_left _ (List.mem_append_right _ List.mem_cons_self)

theorem mem_text_of_not_isPlain (h : ¬ id.IsPlain) : '#' ∈ id.text.toList := by
  cases id with
  | file path => exact not_not.mp h
  | symbol path name => exact mem_text_of_symbol path name

/-- Only a plain node has a text that means a node of its file. The text of another one is cut too
late. -/
theorem path_ofText_text_iff : (ofText id.text).path = id.path ↔ id.IsPlain := by
  refine ⟨fun h => ?_, fun h => by rw [ofText_text h]⟩
  cases id with
  | file path =>
    intro hmem
    obtain ⟨front, name, hread, hpath, -⟩ := exists_ofText_of_mem hmem
    rw [text, hread] at h
    have size := congrArg String.length hpath
    have mark : "#".length = 1 := by decide
    have same : front.length = path.length := congrArg String.length h
    rw [String.length_append, String.length_append] at size
    omega
  | symbol path name =>
    obtain ⟨front, last, hread, heq, hlast⟩ := exists_ofText_of_mem (mem_text_of_symbol path name)
    rw [hread] at h
    obtain rfl : front = path := h
    have same : name = last := (String.append_right_inj _).mp heq
    exact same ▸ hlast

end NodeId

namespace SymbolGraph

variable {g : SymbolGraph} {id : NodeId} {start path : String} {direction : Direction}

/-! ## Traces without hops -/

/-- A trace without hops lists the files of its seeds, all at distance zero. -/
theorem getElem?_files_trace_zero (wf : g.WellFormed) {d : Nat} :
    (g.trace start direction 0).files[path]? = some d ↔
      d = 0 ∧ ∃ u, g.IsSeed start u ∧ u.path = path := by
  rw [getElem?_files_trace wf]
  constructor
  · rintro ⟨hd, ⟨u, v, hu, hv, walk⟩, -⟩
    obtain rfl : d = 0 := Nat.le_zero.mp hd
    cases walk
    exact ⟨rfl, u, hu, hv⟩
  · rintro ⟨rfl, u, hu, hpath⟩
    exact ⟨Nat.le_refl 0, ⟨u, u, hu, hpath, .stay u⟩, fun n _ => Nat.zero_le n⟩

theorem getElem?_insert_empty {d : Nat} (other : String) :
    ((∅ : TextMap Nat).insert path 0)[other]? = some d ↔ d = 0 ∧ path = other := by
  simp only [Std.ExtTreeMap.getElem?_insert, Std.LawfulEqCmp.compare_eq_iff_eq]
  by_cases h : path = other
  · rw [if_pos h, Option.some.injEq]
    exact ⟨fun hd => ⟨hd.symm, h⟩, fun hd => hd.1.symm⟩
  · rw [if_neg h]
    simp [h]

/-- If there are seeds and all of them are nodes of one file, a trace without hops lists just this
file. -/
theorem files_trace_zero (wf : g.WellFormed) (hsome : ∃ u, g.IsSeed start u)
    (hpath : ∀ u, g.IsSeed start u → u.path = path) :
    (g.trace start direction 0).files = (∅ : TextMap Nat).insert path 0 := by
  refine Std.ExtTreeMap.ext_getElem? fun other => Option.ext fun d => ?_
  rw [getElem?_files_trace_zero wf, getElem?_insert_empty]
  refine and_congr_right fun _ => ⟨?_, ?_⟩
  · rintro ⟨u, hu, rfl⟩
    exact (hpath u hu).symm
  · rintro rfl
    obtain ⟨u, hu⟩ := hsome
    exact ⟨u, hu, hpath u hu⟩

/-- A text with a `#` means one node. If there is no such node, nothing is listed. -/
theorem files_trace_hash (wf : g.WellFormed) (hmem : '#' ∈ start.toList) :
    (g.trace start direction 0).files =
      if g.contains (.ofText start) then (∅ : TextMap Nat).insert (NodeId.ofText start).path 0
      else ∅ := by
  have nonempty : start ≠ "" := by
    rintro rfl
    exact absurd hmem (by decide)
  have seed : ∀ u, g.IsSeed start u ↔ g.contains u ∧ u = .ofText start := by
    intro u
    rw [IsSeed, if_pos hmem]
    exact and_iff_right nonempty
  by_cases hnode : g.contains (.ofText start)
  · rw [if_pos hnode]
    refine files_trace_zero wf ⟨_, (seed _).mpr ⟨hnode, rfl⟩⟩ fun u hu => ?_
    rw [((seed u).mp hu).2]
  · rw [if_neg hnode]
    refine Std.ExtTreeMap.ext_getElem? fun other => Option.ext fun d => ?_
    rw [getElem?_files_trace_zero wf, Std.ExtTreeMap.getElem?_empty]
    refine iff_of_false ?_ (Option.some_ne_none d).symm
    rintro ⟨-, u, hu, -⟩
    obtain ⟨hu, rfl⟩ := (seed u).mp hu
    exact hnode hu

/-- From the text of a node just its own file is listed, if and only if the node is plain. -/
theorem files_trace_text_iff (wf : g.WellFormed) (hid : g.contains id) (hne : id.text ≠ "") :
    (g.trace id.text direction 0).files = (∅ : TextMap Nat).insert id.path 0 ↔ id.IsPlain := by
  by_cases hmem : '#' ∈ id.text.toList
  · rw [files_trace_hash wf hmem]
    constructor
    · intro h
      have listed := congrArg (·[id.path]?) h
      rw [(getElem?_insert_empty (d := 0) id.path).mpr ⟨rfl, rfl⟩] at listed
      split at listed
      · exact NodeId.path_ofText_text_iff.mp ((getElem?_insert_empty _).mp listed).2
      · simp at listed
    · intro hplain
      rw [NodeId.ofText_text hplain, if_pos hid]
  · cases id with
    | symbol path name => exact absurd (NodeId.mem_text_of_symbol path name) hmem
    | file path =>
      refine iff_of_true (files_trace_zero wf ?_ ?_) hmem
      · exact ⟨_, (isSeed_file_iff hne hmem).mpr ⟨hid, rfl⟩⟩
      · intro u hu
        exact ((isSeed_file_iff hne hmem).mp hu).2

end SymbolGraph

end CodeAtlas
