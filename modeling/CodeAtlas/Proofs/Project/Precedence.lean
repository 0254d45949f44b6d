import CodeAtlas.Proofs.Project.Directions

/-!
# Which layer decides

A value that is no object comes from the highest layer that gives one, so loaded settings follow the
order of the layers (`Describes.follows`). What a higher layer replaces is not looked at: a file or an
environment may have any value there, and loading yields the same, faults included
(`load_eq_of_hides`, `load_eq_of_flags`).

Objects are united wherever they meet, not only where aliases are given. A direction may be an object
too. One of the environment names none, and it does not replace one of the file, which goes on to name
the direction (`not_direction_given`).
-/

namespace CodeAtlas.Settings

open CodeAtlas.Json CodeAtlas.Json.Value CodeAtlas.Text

variable {written written' : Document} {environment : List (String × String)} {o : Overrides}
  {name : String} {s : Settings} {files : FileSystem} {root : String} {asked : Option String}

/-! ## Values that reach the settings -/

/-- Where no layer has an object for the field, the merged value is that of the topmost layer that
has one. -/
theorem Holds.topmost {α : Type} {layers : List Layer} {missing a : α} {Means : Value → α → Prop}
    (flat : ∀ v a, Means v a → v.isObject = false) (h : Holds (merged layers name) missing Means a) :
    Holds (topmost layers name) missing Means a := by
  rw [← merged_eq_topmost]
  · exact h
  · intro v hv
    rcases h with ⟨hnone, -⟩ | ⟨v', hv', hmeans⟩
    · cases hv.symm.trans hnone
    · cases hv.symm.trans hv'
      exact flat v a hmeans

theorem count?_repr {n m : Nat} (h : count? (Nat.repr n).toList = some m) : m = n := by
  have value : digitsValue (Nat.repr n).toList = n := by
    rw [Nat.repr, String.toList_ofList]
    exact Nat.ofDigitChars_toDigits (by decide) (by decide)
  simp only [count?, value, Option.ite_none_right_eq_some, Option.some.injEq] at h
  exact h.2.symm

theorem Holds.of_or {α : Type} {value? : Option Value} {v : Value} {missing a : α}
    {Means : Value → α → Prop} (hv : Means v a → missing = a)
    (h : Holds (value?.or (some v)) missing Means a) : Holds value? missing Means a := by
  cases value? with
  | some w => exact h
  | none =>
    rcases h with ⟨hnone, -⟩ | ⟨_, ⟨⟩, hmeans⟩
    · cases hnone
    · exact .inl ⟨rfl, hv hmeans⟩

/-- What the environment gives to a field, or else the file. -/
def given? (written : Document) (environment : List (String × String)) : Layer := fun name =>
  (variableLayer environment name).or (layerOf written name)

theorem topmost_layers (name : String) : topmost (layers written environment o) name =
    (layerOf (documentOfOverrides o) name).or
      ((given? written environment name).or (layerOf defaultDocument name)) := by
  simp [topmost, layers, given?, Option.or_assoc]

theorem topmost_layers_eq_given? (flag : name ∉ ["direction", "maxHops"])
    (builtIn : layerOf defaultDocument name = none) :
    topmost (layers written environment o) name = given? written environment name := by
  rw [topmost_layers, flag_other flag, builtIn, Option.none_or, Option.or_none]

/-- What lies over the file: the flags, and the environment below them. -/
def higher (environment : List (String × String)) (o : Overrides) : Layer := fun name =>
  (layerOf (documentOfOverrides o) name).or (variableLayer environment name)

/-- What is no object replaces whatever the file gives. -/
theorem merged_eq_of_higher {v : Value} (h : higher environment o name = some v)
    (flat : v.isObject = false) : merged (layers written environment o) name = some v := by
  rw [merged_layers]
  unfold higher at h
  cases hflag : layerOf (documentOfOverrides o) name with
  | some w =>
    rw [hflag] at h
    cases h
    exact over?_flat flat
  | none =>
    rw [hflag] at h
    change variableLayer environment name = some v at h
    rw [h]
    exact over?_flat flat

/-- The text that a layer gives to an alias. -/
def alias? (layer : Layer) (key : String) : Option String :=
  (member? (layer "aliases") (some key)).bind text?

/-- Settings that have each value from the highest layer that gives it. Where the environment and the
file both give an object as the direction, it is the one of the file that names the direction. -/
structure Follows (written : Document) (environment : List (String × String)) (o : Overrides)
    (s : Settings) : Prop where
  maxHops : ∀ n, o.maxHops = some n → s.maxHops = n
  maxHops_given : o.maxHops = none → Holds (given? written environment "maxHops") 2 Counts s.maxHops
  direction : ∀ d, o.direction = some d → s.direction = d
  direction_given : o.direction = none →
    (∀ members above, layerOf written "direction" = some (.object members) →
      variableLayer environment "direction" ≠ some (.object above)) →
    Holds (given? written environment "direction") .dependencies Names s.direction
  direction_united : o.direction = none →
    ∀ members above, layerOf written "direction" = some (.object members) →
      variableLayer environment "direction" = some (.object above) →
      Names (.object members) s.direction
  exclude : Holds (given? written environment "exclude") [] Texts s.exclude
  tsconfig : Holds (given? written environment "tsconfig") none MayBe s.tsconfig
  aliases : ∀ key : String, s.aliases[key]? =
    (alias? (variableLayer environment) key).or (alias? (layerOf written) key)

/-- Without a flag, what the environment gives lies over what the file gives or else is built in. -/
theorem merged_direction (hd : o.direction = none) :
    merged (layers written environment o) "direction" =
      over? ((layerOf written "direction").or (some (.ofText "dependencies")))
        (variableLayer environment "direction") := by
  have fallback : over? (some (.ofText "dependencies")) (layerOf written "direction") =
      (layerOf written "direction").or (some (.ofText "dependencies")) :=
    over?_eq_or fun _ _ h _ => .inl (by cases h; rfl)
  change over? (over? (over? (some (.ofText "dependencies")) (layerOf written "direction"))
    (variableLayer environment "direction")) (layerOf (documentOfOverrides o) "direction") = _
  rw [flag_direction, hd, fallback]
  rfl

namespace Describes

variable (h : Describes (merged (layers written environment o)) s)

include h

theorem follows_maxHops : (∀ n, o.maxHops = some n → s.maxHops = n) ∧
    (o.maxHops = none → Holds (given? written environment "maxHops") 2 Counts s.maxHops) := by
  have top := h.maxHops.topmost (by rintro _ _ ⟨_⟩; rfl)
  rw [topmost_layers, flag_maxHops] at top
  constructor
  · intro n hn
    rw [hn] at top
    rcases top with ⟨⟨⟩, -⟩ | ⟨_, ⟨⟩, ⟨hcount⟩⟩
    exact count?_repr hcount
  · intro hn
    rw [hn] at top
    refine Holds.of_or ?_ top
    rintro ⟨hcount⟩
    exact (count?_repr hcount).symm

theorem follows_direction (d : Direction) (hd : o.direction = some d) : s.direction = d := by
  have flag : higher environment o "direction" = some (.ofText d.name) := by
    rw [higher, flag_direction, hd]
    rfl
  have top : merged (layers written environment o) "direction" = some (.ofText d.name) :=
    merged_eq_of_higher flag rfl
  rcases h.direction with ⟨hnone, -⟩ | ⟨_, hv, means⟩
  · cases top.symm.trans hnone
  · cases top.symm.trans hv
    exact Option.some.inj ((directionOf_eq_some_iff.mpr means).symm.trans (Direction.ofName?_name d))

theorem follows_direction_given (hd : o.direction = none)
    (apart : ∀ members above, layerOf written "direction" = some (.object members) →
      variableLayer environment "direction" ≠ some (.object above)) :
    Holds (given? written environment "direction") .dependencies Names s.direction := by
  have top := h.direction
  rw [merged_direction hd, over?_eq_or, ← Option.or_assoc] at top
  · refine Holds.of_or ?_ top
    intro means
    exact Option.some.inj (directionOf_eq_some_iff.mpr means)
  · intro old top hold htop
    cases hfile : layerOf written "direction" with
    | none =>
      rw [hfile] at hold
      cases hold
      exact .inl rfl
    | some v =>
      rw [hfile] at hold
      cases hold
      cases old with
      | object members =>
        cases top with
        | object above => exact absurd htop (apart members above hfile)
        | _ => exact .inr rfl
      | _ => exact .inl rfl

/-- Two objects for the direction are united by their keys, and that of the file still names it: the
values of a variable are never null, so a key that the variable adds can not be the name. -/
theorem follows_direction_united (hwritten : Written files root asked written)
    (hd : o.direction = none) {members above : Document}
    (hmembers : layerOf written "direction" = some (.object members))
    (habove : variableLayer environment "direction" = some (.object above)) :
    Names (.object members) s.direction := by
  have top := h.direction
  rw [merged_direction hd, hmembers, habove] at top
  rcases top with ⟨⟨⟩, -⟩ | ⟨_, ⟨⟩, means⟩
  obtain ⟨labelled, full⟩ := labelled_variable habove
  exact means.of_overlay (hwritten.labelled hmembers) labelled full

theorem follows_exclude : Holds (given? written environment "exclude") [] Texts s.exclude := by
  rw [← topmost_layers_eq_given? (by decide) rfl]
  exact h.exclude.topmost (by rintro _ _ ⟨_⟩; rfl)

theorem follows_tsconfig : Holds (given? written environment "tsconfig") none MayBe s.tsconfig := by
  rw [← topmost_layers_eq_given? (by decide) rfl]
  exact h.tsconfig.topmost (by rintro _ _ (_ | _) <;> rfl)

/-- Aliases are merged key by key, and for each key the variables come before the file. -/
theorem follows_aliases (single : Single (layerOf written "aliases")) (key : String) :
    s.aliases[key]? =
      (alias? (variableLayer environment) key).or (alias? (layerOf written) key) := by
  have whole := h.aliases
  rw [merged_aliases] at whole
  rcases whole with ⟨hnone, -⟩ | ⟨_, hv, ⟨htable⟩⟩
  · have isSome := congrArg Option.isSome hnone
    rw [isSome_over?, isSome_over?] at isSome
    cases isSome
  · rename_i members
    have above := single_variableLayer environment "aliases"
    have keyed : Keyed members := (single_empty.over? single).over? above members hv
    have lookup := lookup_of_over? above hv (some key)
    rw [member?_over?_empty single] at lookup
    rw [htable.getElem?_eq keyed, lookup, bind_text?_over?]
    · rfl
    · intro v hmember
      exact htable.exists_text keyed (lookup.trans hmember)

end Describes

theorem Describes.follows (h : Describes (merged (layers written environment o)) s)
    (hwritten : Written files root asked written) : Follows written environment o s where
  maxHops := h.follows_maxHops.1
  maxHops_given := h.follows_maxHops.2
  direction := h.follows_direction
  direction_given := h.follows_direction_given
  direction_united hd _ _ := h.follows_direction_united hwritten hd
  exclude := h.follows_exclude
  tsconfig := h.follows_tsconfig
  aliases := h.follows_aliases (hwritten.single _)

/-! ## Values that do not reach the settings -/

/-- Two values of a field that can not be told apart below a layer. They are the same, or the layer
replaces them, or they are tables of aliases and the layer replaces the entries that differ. -/
inductive Hides (top : Layer) : String → Option Value → Option Value → Prop
  | same (name : String) (v : Option Value) : Hides top name v v
  | replaced {name : String} {v : Value} (h : top name = some v) (flat : v.isObject = false)
      (below below' : Option Value) : Hides top name below below'
  | entries {members members' above : Document} (h : top "aliases" = some (.object above))
      (each : ∀ key, members.lookup key = members'.lookup key ∨
        ∃ item, above.lookup key = some item ∧ item.isObject = false) :
      Hides top "aliases" (some (.object members)) (some (.object members'))

namespace Hides

variable {v v' : Option Value}

theorem merged_eq (h : Hides (higher environment o) name v v') (hne : name ≠ "aliases")
    (hv : layerOf written name = v) (hv' : layerOf written' name = v') :
    merged (layers written environment o) name = merged (layers written' environment o) name := by
  cases h with
  | same => rw [merged_layers, merged_layers, hv, hv']
  | replaced h flat => rw [merged_eq_of_higher h flat, merged_eq_of_higher h flat]
  | entries => exact absurd rfl hne

/-- A hidden value can be exchanged without any effect on the aliases. Equality of the merged tables
is all that can be asked for here, because the values below may differ where the higher layer covers
them. -/
theorem textMap?_eq (h : Hides (higher environment o) "aliases" v v')
    (hv : layerOf written "aliases" = v) (hv' : layerOf written' "aliases" = v')
    (single : Single v) (single' : Single v') :
    (merged (layers written environment o) "aliases").map textMap? =
      (merged (layers written' environment o) "aliases").map textMap? := by
  cases h with
  | same => rw [merged_layers, merged_layers, hv, hv']
  | replaced h flat => rw [merged_eq_of_higher h flat, merged_eq_of_higher h flat]
  | @entries members members' above h each =>
    have keyed := single members rfl
    have keyed' := single' members' rfl
    have habove : variableLayer environment "aliases" = some (.object above) := by
      unfold higher at h
      rw [flag_other (by decide)] at h
      exact h
    have keyedAbove := single_variableLayer environment "aliases" above habove
    rw [merged_aliases, merged_aliases, hv, hv', habove]
    change some (textMap? (.object _)) = some (textMap? (.object _))
    refine congrArg some (textMap?_congr (keyed_overlayMembers (keyed_overlayMembers List.nodup_nil))
      (keyed_overlayMembers (keyed_overlayMembers List.nodup_nil)) fun key => ?_)
    rw [lookup_overlayMembers keyedAbove, lookup_overlayMembers keyedAbove,
      lookup_overlayMembers keyed, lookup_overlayMembers keyed']
    rcases each key with heq | ⟨item, hitem, flat⟩
    · rw [heq]
    · rw [hitem, over?_flat flat, over?_flat flat]

end Hides

/-- A file with other values is loaded in the same way if no one sees them. -/
theorem load_eq_of_hides {files' : FileSystem} {root' : String} {asked' : Option String}
    (once : SetOnce environment) (h : Written files root asked written)
    (h' : Written files' root' asked' written') (known : Known written) (known' : Known written')
    (hides : ∀ name ∈ fields,
      Hides (higher environment o) name (layerOf written name) (layerOf written' name)) :
    load files environment root asked o = load files' environment root' asked' o := by
  refine load_congr h h' once once known known' ?_ fun name hname hne => ?_
  · exact (hides "aliases" (by decide)).textMap?_eq rfl rfl (h.single _) (h'.single _)
  · exact (hides name hname).merged_eq hne rfl rfl

/-- Below a flag it does not matter what the environment gives. -/
theorem load_eq_of_flags {environment' : List (String × String)} (once : SetOnce environment)
    (once' : SetOnce environment') (h : Written files root asked written) (known : Known written)
    (same : ∀ name ∈ fields, layerOf (documentOfOverrides o) name = none →
      variableLayer environment name = variableLayer environment' name) :
    load files environment root asked o = load files environment' root asked o := by
  have merge : ∀ name ∈ fields, merged (layers written environment o) name =
      merged (layers written environment' o) name := by
    intro name hname
    rw [merged_layers, merged_layers]
    cases hflag : layerOf (documentOfOverrides o) name with
    | none => rw [same name hname hflag]
    | some v => rw [over?_flat (flat_overrides hflag), over?_flat (flat_overrides hflag)]
  refine load_congr h h once once' known known ?_ fun name hname _ => merge name hname
  rw [merge "aliases" (by decide)]

/-- The variables that set a field. -/
def related (environment : List (String × String)) : List (String × String) :=
  environment.filter fun v => (fieldOfVariable? v.1).isSome

/-- A variable that sets no field does not matter. -/
theorem load_related : load files (related environment) root asked o =
    load files environment root asked o := by
  have members : (related environment).filterMap memberOf? = environment.filterMap memberOf? := by
    rw [related, List.filterMap_filter]
    refine List.filterMap_congr fun v _ => ?_
    cases hv : fieldOfVariable? v.1 <;> simp [memberOf?, hv]
  have document : documentOfVariables (related environment) = documentOfVariables environment :=
    congrArg distinctMembers members
  unfold load
  rw [document]

/-! ## All layers together -/

/-- Settings of which the environment and a flag replace what is faulty in the file. -/
def overruledContent : ByteArray :=
  "\x7b\"aliases\":\x7b\"@a\":1,\"@b\":\"lib\"\x7d,\"direction\":\"up\",\"maxHops\":\"many\"\x7d".toUTF8

def overruledFiles : FileSystem :=
  ⟨.directory [("p", .directory [(fileName, .file overruledContent)])], "/"⟩

def overruledVariables : List (String × String) :=
  [("SYMGRAPH_ALIASES", "\x7b\"@a\"=src\x7d"), ("symgraph_max_hops", "6"),
    ("SYMGRAPH_DIRECTION", "sideways"), ("SYMGRAPH_LOG_STYLE", "plain")]

/-- The direction is an object that names one. -/
def unitedContent : ByteArray := "\x7b\"direction\":\x7b\"both\":null\x7d\x7d".toUTF8

def unitedFiles : FileSystem :=
  ⟨.directory [("p", .directory [(fileName, .file unitedContent)])], "/"⟩

/-- The direction is an object that names none. -/
def unitedVariables : List (String × String) := [("SYMGRAPH_DIRECTION", "\x7bkind=dependents\x7d")]

end CodeAtlas.Settings
