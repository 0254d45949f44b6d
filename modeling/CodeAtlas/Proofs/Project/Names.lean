import CodeAtlas.Project.Scan
import CodeAtlas.Proofs.Path.Inside
import CodeAtlas.Proofs.Path.Recleaning
import CodeAtlas.Proofs.Text.Bytes

/-!
# Names of files

A name is a row of bytes, and its text may be that of other names as well. What a name lacks its
text lacks too: the text of a proper name is a name of a path (`FileName.IsProper.isName_text`). A
name whose text has no replacement is told by its text (`FileName.isText_of_not_mem`), so the path
that some names make tells names of this kind (`names_unique`).
-/

namespace CodeAtlas

open CodeAtlas.Text CodeAtlas.Path

namespace FileName

variable {n : FileName} {name : String} {c : Char}

/-- A name as a system allows it for an entry of a directory. -/
structure IsProper (n : FileName) : Prop where
  slash : 0x2F ∉ n.bytes
  ne_empty : n ≠ ""
  ne_dot : n ≠ "."
  ne_dotdot : n ≠ ".."

/-- A name is the UTF-8 of its text. -/
def IsText (n : FileName) : Prop := ofText n.text = n

theorem isProper_iff : n.IsProper ↔ 0x2F ∉ n.bytes ∧ n ≠ "" ∧ n ≠ "." ∧ n ≠ ".." :=
  ⟨fun h => ⟨h.slash, h.ne_empty, h.ne_dot, h.ne_dotdot⟩, fun h => ⟨h.1, h.2.1, h.2.2.1, h.2.2.2⟩⟩

instance : DecidablePred IsProper := fun _ => decidable_of_iff _ isProper_iff.symm

instance : DecidablePred IsText := fun n => inferInstanceAs (Decidable (ofText n.text = n))

theorem text_ofText (name : String) : (ofText name).text = name := ofBytes_bytesOf name

theorem isText_of_not_mem (h : replacement ∉ n.text.toList) : n.IsText :=
  congrArg FileName.mk (bytesOf_ofBytes h)

theorem eq_of_text_eq (h : n.text = name) (hname : replacement ∉ name.toList) : n = name := by
  have told : ofText n.text = n := isText_of_not_mem (h ▸ hname)
  exact told.symm.trans (congrArg ofText h)

/-- A character of one byte is in the text only if the name has its byte. -/
theorem byte_mem_of_mem_text (hc : c.utf8Size = 1) (hreplacement : c ≠ replacement)
    (h : c ∈ n.text.toList) : c.val.toUInt8 ∈ n.bytes := by
  have spelled := (mem_ofBytes h).resolve_left hreplacement
  rw [String.utf8EncodeChar_eq_singleton hc] at spelled
  exact spelled List.mem_cons_self

theorem not_mem_text (h : 0x5C ∉ n.bytes) : '\\' ∉ n.text.toList :=
  fun hmem => h (byte_mem_of_mem_text (by decide) (by decide) hmem)

theorem IsProper.isName_text (h : n.IsProper) : IsName n.text := by
  refine isName_iff.mpr ⟨fun hmem => h.slash ?_, fun heq => h.ne_empty ?_, fun heq => h.ne_dot ?_,
    fun heq => h.ne_dotdot ?_⟩
  · exact byte_mem_of_mem_text (by decide) (by decide) hmem
  · exact eq_of_text_eq heq (by decide)
  · exact eq_of_text_eq heq (by decide)
  · exact eq_of_text_eq heq (by decide)

theorem text_not_mem_skippedDirectories (h : n ∉ skippedDirectories.map ofText) :
    n.text ∉ skippedDirectories := by
  have plain : ∀ name ∈ skippedDirectories, replacement ∉ name.toList := by decide
  exact fun hmem => h (List.mem_map.mpr ⟨n.text, hmem, isText_of_not_mem (plain _ hmem)⟩)

end FileName

/-! ## The text of a path -/

variable {names names' : List FileName} {key : String}

theorem isInner_pathText (hne : names ≠ []) (h : ∀ n ∈ names, n.IsProper) :
    IsInner (pathText names) := by
  refine ⟨names.map FileName.text, by simpa using hne, fun name hname => ?_, rfl⟩
  obtain ⟨n, hn, rfl⟩ := List.mem_map.mp hname
  exact (h n hn).isName_text

theorem segments_pathText (h : ∀ n ∈ names, n.IsProper) :
    segments (pathText names) = names.map FileName.text := by
  refine segments_intercalate fun name hname => ?_
  obtain ⟨n, hn, rfl⟩ := List.mem_map.mp hname
  exact (h n hn).isName_text.toIsSegment

theorem map_ofText_text (h : ∀ n ∈ names, n.IsText) :
    (names.map FileName.text).map FileName.ofText = names := by
  rw [List.map_map]
  exact (List.map_congr_left fun n hn => h n hn).trans (List.map_id names)

/-- The path that names make tells them, if they are texts. -/
theorem names_unique (h : ∀ n ∈ names, n.IsProper) (h' : ∀ n ∈ names', n.IsProper)
    (htext : ∀ n ∈ names, n.IsText) (htext' : ∀ n ∈ names', n.IsText)
    (heq : pathText names = pathText names') : names = names' := by
  have texts := congrArg segments heq
  rw [segments_pathText h, segments_pathText h'] at texts
  rw [← map_ofText_text htext, texts, map_ofText_text htext']

theorem ofText_segments_pathText (h : ∀ n ∈ names, n.IsProper) (htext : ∀ n ∈ names, n.IsText) :
    (segments (pathText names)).map FileName.ofText = names := by
  rw [segments_pathText h, map_ofText_text htext]

/-- A path without replacements is one of names that are texts. -/
theorem isText_of_pathText (h : ∀ n ∈ names, n.IsProper)
    (hkey : replacement ∉ (pathText names).toList) : ∀ n ∈ names, n.IsText := by
  intro n hn
  refine FileName.isText_of_not_mem fun hmem => hkey ?_
  have segment : n.text ∈ segments (pathText names) := by
    rw [segments_pathText h]
    exact List.mem_map_of_mem hn
  exact mem_of_mem_pieces (mem_segments.mp segment).1 hmem

end CodeAtlas
