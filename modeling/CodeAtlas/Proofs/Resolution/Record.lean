import CodeAtlas.Proofs.Resolution.Memory
import Mathlib.Data.List.Induction
import Mathlib.Data.List.Nodup

/-!
# What a resolver has recorded

`Records` says what a memory holds after some questions: the answer of each of them, and the
diagnostics of each, noted once and in the order in which the questions were first asked. One more
question keeps this up whether it is new or not (`Records.resolve`), so it holds after any
questions (`records_after`), and an import into another package is reported once
(`Records.filter_reports`).

`Asks` says of an action that it changes the memory by asking questions and in no other way. It
bounds the questions on both sides: those that are asked in any case, and those that may be asked.
-/

namespace CodeAtlas

/-- Whether a diagnostic reports the given import as one into another package. -/
def Diagnostic.reports (importer specifier : String) : Diagnostic → Bool
  | illegalCrossPackageImport i s _ => i = importer && s = specifier
  | _ => false

namespace Resolution

/-- A question to a resolver: an importer and a specifier. -/
abbrev Question := String × String

variable {r : Resolver} {m : Memory} {earlier : List Diagnostic} {asked : List Question}

/-! ## Questions without repetition -/

theorem eraseDups_concat_of_mem {α : Type} [BEq α] [LawfulBEq α] {as : List α} {a : α}
    (h : a ∈ as) : (as ++ [a]).eraseDups = as.eraseDups := by
  simp [List.eraseDups_append, List.removeAll, h]

theorem eraseDups_concat_of_not_mem {α : Type} [BEq α] [LawfulBEq α] {as : List α} {a : α}
    (h : a ∉ as) : (as ++ [a]).eraseDups = as.eraseDups ++ [a] := by
  simp [List.eraseDups_append, List.removeAll, h, List.eraseDups_cons]

theorem nodup_eraseDups {α : Type} [BEq α] [LawfulBEq α] (as : List α) : as.eraseDups.Nodup := by
  induction as using List.reverseRecOn with
  | nil => exact List.nodup_nil
  | append_singleton as a ih =>
    by_cases h : a ∈ as
    · rw [eraseDups_concat_of_mem h]
      exact ih
    · rw [eraseDups_concat_of_not_mem h]
      refine List.Nodup.append ih (List.nodup_singleton a) ?_
      rw [List.disjoint_singleton, List.mem_eraseDups]
      exact h

/-- In a list without repetition only one entry contributes what belongs to `a` alone. -/
theorem flatMap_ite_eq {α β : Type} [DecidableEq α] {as : List α} (h : as.Nodup) (a : α)
    (bs : List β) :
    (as.flatMap fun b => if b = a then bs else []) = if a ∈ as then bs else [] := by
  induction as with
  | nil => simp
  | cons b as ih =>
    obtain ⟨hnew, hrest⟩ := List.nodup_cons.mp h
    rw [List.flatMap_cons, ih hrest]
    by_cases hb : b = a
    · subst hb
      simp [hnew]
    · simp [hb, Ne.symm hb]

/-! ## New resolvers -/

theorem new_of_ofMap {aliases : AliasMap} {table : AliasTable}
    (h : AliasTable.ofMap aliases = .ok table) (known : List String) :
    Resolver.new known aliases = .ok ⟨.ofList known, table⟩ := by
  rw [Resolver.new, h]
  rfl

/-- A resolver is made of the known files and the table of its aliases, and only where the aliases
make sense. -/
theorem ofMap_of_new {known : List String} {aliases : AliasMap}
    (h : Resolver.new known aliases = .ok r) :
    AliasTable.ofMap aliases = .ok r.aliases ∧ r.known = .ofList known := by
  unfold Resolver.new at h
  cases htable : AliasTable.ofMap aliases with
  | error failure =>
    rw [htable] at h
    cases h
  | ok table =>
    rw [htable] at h
    cases h
    exact ⟨rfl, rfl⟩

/-! ## Records -/

/-- The memory holds the answers of the questions `asked`, and besides the diagnostics `earlier`
those of each question, in the order of first occurrence. -/
structure Memory.Records (r : Resolver) (earlier : List Diagnostic) (asked : List Question)
    (m : Memory) : Prop where
  answers : ∀ q : Question,
    m.answers[q]? = if q ∈ asked then some (r.answer q.1 q.2).1 else none
  diagnostics : m.diagnostics =
    earlier ++ asked.eraseDups.flatMap fun q => (r.answer q.1 q.2).2

namespace Memory

theorem records_new (r : Resolver) (earlier : List Diagnostic) :
    Records r earlier [] ⟨∅, earlier⟩ where
  answers q := by simp
  diagnostics := by simp

theorem Records.faithful (h : m.Records r earlier asked) : m.Faithful r := by
  intro importer specifier result hresult
  rw [h.answers] at hresult
  split at hresult
  · exact (Option.some.inj hresult).symm
  · cases hresult

/-- One more question is answered by the rule. If it was asked before, the memory stays as it is,
which records the question all the same. -/
theorem Records.resolve (h : m.Records r earlier asked) (q : Question) :
    ((r.resolve q.1 q.2).run m).1 = (r.answer q.1 q.2).1 ∧
      Records r earlier (asked ++ [q]) ((r.resolve q.1 q.2).run m).2 := by
  by_cases hq : q ∈ asked
  · have remembered : m.answers[(q.1, q.2)]? = some (r.answer q.1 q.2).1 := by
      rw [h.answers, if_pos hq]
    rw [resolve_of_remembered remembered]
    refine ⟨rfl, ?_, ?_⟩
    · intro p
      have same : p ∈ asked ++ [q] ↔ p ∈ asked := by
        rw [List.mem_append, List.mem_singleton]
        exact ⟨fun hp => hp.elim id fun he => he ▸ hq, .inl⟩
      simp only [h.answers, same]
    · rw [eraseDups_concat_of_mem hq]
      exact h.diagnostics
  · have new : m.answers[(q.1, q.2)]? = none := by rw [h.answers, if_neg hq]
    rw [resolve_of_new new]
    refine ⟨rfl, ?_, ?_⟩
    · intro p
      simp only [Std.ExtTreeMap.getElem?_insert, Std.LawfulEqCmp.compare_eq_iff_eq, h.answers]
      by_cases hp : q = p
      · subst hp
        simp
      · simp [hp, Ne.symm hp]
    · rw [eraseDups_concat_of_not_mem hq, List.flatMap_append, ← List.append_assoc,
        ← h.diagnostics, List.flatMap_singleton]

/-- A record goes on as further questions are asked, by induction on them. -/
theorem Records.after (h : m.Records r earlier asked) (further : List Question) :
    Records r earlier (asked ++ further) (r.after m further) := by
  unfold Resolver.after
  induction further generalizing m asked with
  | nil => simpa using h
  | cons q further ih => simpa using ih (h.resolve q).2

theorem records_after (r : Resolver) (earlier : List Diagnostic) (asked : List Question) :
    Records r earlier asked (r.after ⟨∅, earlier⟩ asked) :=
  (records_new r earlier).after asked

/-- Questions in a row are answered one by one by the rule. -/
theorem Faithful.run_mapM_resolve (hm : m.Faithful r) (asked : List Question) :
    (asked.mapM fun q => r.resolve q.1 q.2).run m =
      (asked.map fun q => (r.answer q.1 q.2).1, r.after m asked) := by
  induction asked generalizing m with
  | nil => rfl
  | cons q asked ih =>
    obtain ⟨hanswer, hkept⟩ := hm.resolve q.1 q.2
    rw [List.mapM_cons, StateT.run_bind]
    change ((asked.mapM fun q => r.resolve q.1 q.2) >>= fun rest =>
      pure (((r.resolve q.1 q.2).run m).1 :: rest)).run ((r.resolve q.1 q.2).run m).2 = _
    rw [StateT.run_bind, ih hkept, hanswer]
    rfl

/-- The memory has one entry for each distinct question. -/
theorem Records.size_answers (h : m.Records r earlier asked) :
    m.answers.size = asked.eraseDups.length := by
  have keys : ∀ q, q ∈ m.answers.keys ↔ q ∈ asked.eraseDups := by
    intro q
    rw [Std.ExtTreeMap.mem_keys, Std.ExtTreeMap.mem_iff_isSome_getElem?, h.answers,
      List.mem_eraseDups]
    by_cases hq : q ∈ asked <;> simp [hq]
  have perm := (List.perm_ext_iff_of_nodup Std.ExtTreeMap.nodup_keys (nodup_eraseDups asked)).mpr
    keys
  rw [← Std.ExtTreeMap.length_keys, perm.length_eq]

end Memory

/-! ## Reports -/

theorem answer_of_foreign {importer specifier path : String}
    (h : r.target importer specifier = .foreign path) :
    r.answer importer specifier = (none, [.illegalCrossPackageImport importer specifier path]) := by
  rw [Resolver.answer, h]

/-- A question is reported just if it leads into another package. -/
theorem mem_diagnostics_answer {importer specifier : String} {d : Diagnostic} :
    d ∈ (r.answer importer specifier).2 ↔ ∃ path, r.target importer specifier = .foreign path ∧
      d = .illegalCrossPackageImport importer specifier path := by
  unfold Resolver.answer
  cases r.target importer specifier <;> simp

/-- The diagnostics of a question report the question itself and nothing else. -/
theorem filter_reports_answer (q : Question) (importer specifier : String) :
    (r.answer q.1 q.2).2.filter (·.reports importer specifier) =
      if q = (importer, specifier) then (r.answer importer specifier).2 else [] := by
  by_cases hq : q = (importer, specifier)
  · subst hq
    rw [if_pos rfl, List.filter_eq_self]
    intro d hd
    obtain ⟨path, -, rfl⟩ := mem_diagnostics_answer.mp hd
    simp [Diagnostic.reports]
  · rw [if_neg hq, List.filter_eq_nil_iff]
    intro d hd
    obtain ⟨path, -, rfl⟩ := mem_diagnostics_answer.mp hd
    simpa [Diagnostic.reports, Prod.ext_iff] using hq

/-- An import is reported as often as its rule says if it was asked for at all, and not again.
Repeated questions are answered from the memory. -/
theorem Memory.Records.filter_reports (h : m.Records r earlier asked)
    (hearlier : ∀ d ∈ earlier, ∀ importer specifier, ¬ d.reports importer specifier)
    (importer specifier : String) :
    m.diagnostics.filter (·.reports importer specifier) =
      if (importer, specifier) ∈ asked then (r.answer importer specifier).2 else [] := by
  have before : earlier.filter (·.reports importer specifier) = [] :=
    List.filter_eq_nil_iff.mpr fun d hd => hearlier d hd importer specifier
  rw [h.diagnostics, List.filter_append, before, List.nil_append, List.filter_flatMap]
  simp only [filter_reports_answer]
  rw [flatMap_ite_eq (nodup_eraseDups asked)]
  simp only [List.mem_eraseDups]

/-! ## Actions that ask -/

/-- Whatever the memory, the action asks some questions, all that are `needed` and none that is not
`allowed`, and leaves the memory of having asked them. -/
def Asks (r : Resolver) (needed allowed : Question → Prop) {α : Type} (action : StateM Memory α) :
    Prop :=
  ∀ m : Memory, ∃ asked : List Question, (∀ q, needed q → q ∈ asked) ∧ (∀ q ∈ asked, allowed q) ∧
    (action.run m).2 = r.after m asked

section Asks

variable {α β : Type} {needed needed' allowed allowed' : Question → Prop}

theorem after_append (m : Memory) (asked further : List Question) :
    r.after m (asked ++ further) = r.after (r.after m asked) further :=
  List.foldl_append

theorem Asks.weaken {action : StateM Memory α} (h : Asks r needed allowed action)
    (hneeded : ∀ q, needed' q → needed q) (hallowed : ∀ q, allowed q → allowed' q) :
    Asks r needed' allowed' action := by
  intro m
  obtain ⟨asked, all, only, run⟩ := h m
  exact ⟨asked, fun q hq => all q (hneeded q hq), fun q hq => hallowed q (only q hq), run⟩

theorem asks_pure (a : α) : Asks r (fun _ => False) allowed (pure a) :=
  fun _ => ⟨[], fun _ h => h.elim, fun _ h => absurd h List.not_mem_nil, rfl⟩

theorem asks_resolve {q : Question} (h : allowed q) :
    Asks r (· = q) allowed (r.resolve q.1 q.2) := by
  intro m
  refine ⟨[q], fun p hp => List.mem_singleton.mpr hp, ?_, rfl⟩
  intro p hp
  rw [List.mem_singleton.mp hp]
  exact h

/-- Two actions in a row ask what each of them needs, and nothing that is not allowed. -/
theorem Asks.bind {x : StateM Memory α} {f : α → StateM Memory β} (hx : Asks r needed allowed x)
    (hf : ∀ a, Asks r needed' allowed (f a)) :
    Asks r (fun q => needed q ∨ needed' q) allowed (x >>= f) := by
  intro m
  obtain ⟨asked, all, only, run⟩ := hx m
  obtain ⟨further, all', only', run'⟩ := hf (x.run m).1 (x.run m).2
  refine ⟨asked ++ further, ?_, ?_, ?_⟩
  · rintro q (hq | hq)
    · exact List.mem_append_left _ (all q hq)
    · exact List.mem_append_right _ (all' q hq)
  · intro q hq
    exact (List.mem_append.mp hq).elim (only q) (only' q)
  · rw [after_append, ← run, ← run']
    rfl

/-- Working through a list asks what each entry needs, by induction on the list. -/
theorem asks_foldlM {f : β → α → StateM Memory β} {needs : α → Question → Prop} {as : List α}
    (h : ∀ a ∈ as, ∀ b, Asks r (needs a) allowed (f b a)) (b : β) :
    Asks r (fun q => ∃ a ∈ as, needs a q) allowed (as.foldlM f b) := by
  induction as generalizing b with
  | nil => exact (asks_pure b).weaken (by simp) fun _ => id
  | cons a as ih =>
    obtain ⟨first, rest⟩ := List.forall_mem_cons.mp h
    rw [List.foldlM_cons]
    exact ((first b).bind fun c => ih rest c).weaken (by simp) fun _ => id

theorem asks_mapM {f : α → StateM Memory β} {needs : α → Question → Prop} {as : List α}
    (h : ∀ a ∈ as, Asks r (needs a) allowed (f a)) :
    Asks r (fun q => ∃ a ∈ as, needs a q) allowed (as.mapM f) := by
  induction as with
  | nil => exact (asks_pure []).weaken (by simp) fun _ => id
  | cons a as ih =>
    obtain ⟨first, rest⟩ := List.forall_mem_cons.mp h
    rw [List.mapM_cons]
    exact (first.bind fun c => (ih rest).bind fun cs => asks_pure (c :: cs)).weaken (by simp)
      fun _ => id

end Asks

end Resolution

end CodeAtlas
