import CodeAtlas.Proofs.Path.Canonical

/-!
# Relative paths

What a specifier names that begins with `./` or some `../` and goes on with names, as seen from a
file in nested directories. Each `../` takes a directory off, and those that find none are left at
the beginning (`joinRelative_climb`). Detours in what follows make no difference: `.`, a slash more,
and a name that is left at once (`Detours.foldl_pushSegment`). So a file is found from every other
one, through whichever directory both lie in (`joinRelative_relative`).

Names are ordinary here, without a backslash, and the specifier is taken as it is: no extension is
stripped from it and no alias is looked up.
-/

namespace CodeAtlas.Path

open CodeAtlas.Text

variable {s t path file : String} {list dirs names written stack : List String} {absolute : Bool}

/-- A name without a backslash. -/
structure IsOrdinary (s : String) : Prop extends IsName s where
  plain : '\\' ∉ s.toList

theorem isOrdinary_iff : IsOrdinary s ↔ IsName s ∧ '\\' ∉ s.toList :=
  ⟨fun h => ⟨h.toIsName, h.plain⟩, fun h => ⟨h.1, h.2⟩⟩

instance : DecidablePred IsOrdinary := fun _ => decidable_of_iff _ isOrdinary_iff.symm

/-- `k` times `../`. -/
def upwards : Nat → String
  | 0 => ""
  | k + 1 => "../" ++ upwards k

/-- What a specifier begins with that leads `k` directories up. -/
def climb (k : Nat) : String := if k = 0 then "./" else upwards k

/-- A row of names, written with pieces in between that lead nowhere. -/
inductive Detours (names : List String) : List String → Prop
  | straight : Detours names names
  | here {front back : List String} :
    Detours names (front ++ back) → Detours names (front ++ "." :: back)
  | slash {front back : List String} :
    Detours names (front ++ back) → Detours names (front ++ "" :: back)
  | aside {front back : List String} {name : String} :
    IsOrdinary name → Detours names (front ++ back) → Detours names (front ++ name :: ".." :: back)

/-! ## Detours -/

/-- The pieces of a row that lead somewhere. -/
def leading (list : List String) : List String := list.filter fun s => s != "" && s != "."

theorem leading_of_segments (h : ∀ s ∈ list, IsSegment s) : leading list = list :=
  List.filter_eq_self.mpr fun s hs => by simp [(h s hs).ne_empty, (h s hs).ne_dot]

/-- Whatever stands on the stack, a detour leaves it as it is. -/
theorem Detours.foldl_pushSegment (h : Detours names written) (stack : List String) :
    (leading written).foldl (pushSegment absolute) stack =
      (leading names).foldl (pushSegment absolute) stack := by
  induction h with
  | straight => rfl
  | @here front back _ ih =>
    have skipped : leading (front ++ "." :: back) = leading (front ++ back) := by
      simp [leading]
    rw [skipped, ih]
  | @slash front back _ ih =>
    have skipped : leading (front ++ "" :: back) = leading (front ++ back) := by
      simp [leading]
    rw [skipped, ih]
  | @aside front back name hname _ ih =>
    have kept : leading (front ++ name :: ".." :: back) =
        leading front ++ name :: ".." :: leading back := by
      simp [leading, hname.ne_empty, hname.ne_dot]
    have returned : ∀ stack,
        pushSegment absolute (pushSegment absolute stack name) ".." = stack := by
      intro stack
      rw [pushSegment_of_ne hname.ne_dotdot, pushSegment, if_pos rfl]
      exact if_neg hname.ne_dotdot
    rw [← ih, kept, List.foldl_append, List.foldl_cons, List.foldl_cons, returned,
      ← List.foldl_append]
    simp [leading]

/-- No piece of a row with detours holds a slash, so the row is read back from the text that it
makes. -/
theorem Detours.whole (h : Detours names written) (hnames : ∀ n ∈ names, '/' ∉ n.toList) :
    ∀ s ∈ written, '/' ∉ s.toList := by
  have inserted : ∀ middle : List String, (∀ s ∈ middle, '/' ∉ s.toList) →
      ∀ front back, (∀ s ∈ front ++ back, '/' ∉ s.toList) →
      ∀ s ∈ front ++ (middle ++ back), '/' ∉ s.toList := by
    intro middle hmiddle front back hrest s hs
    simp only [List.mem_append] at hs hrest
    rcases hs with hs | hs | hs
    · exact hrest s (.inl hs)
    · exact hmiddle s hs
    · exact hrest s (.inr hs)
  induction h with
  | straight => exact hnames
  | here _ ih => exact inserted ["."] (by decide) _ _ ih
  | slash _ ih => exact inserted [""] (by decide) _ _ ih
  | @aside _ _ name hname _ ih =>
    refine inserted [name, ".."] (fun s hs => ?_) _ _ ih
    rcases List.mem_cons.mp hs with rfl | hs
    · exact hname.whole
    · rw [List.mem_singleton.mp hs]
      decide

theorem Detours.ne_nil (h : Detours names written) (hnames : names ≠ []) : written ≠ [] := by
  cases h with
  | straight => exact hnames
  | here => exact List.append_ne_nil_of_right_ne_nil _ (List.cons_ne_nil _ _)
  | slash => exact List.append_ne_nil_of_right_ne_nil _ (List.cons_ne_nil _ _)
  | aside => exact List.append_ne_nil_of_right_ne_nil _ (List.cons_ne_nil _ _)

theorem Detours.segments_eq (h : Detours names written) (hnames : names ≠ [])
    (hwhole : ∀ n ∈ names, '/' ∉ n.toList) :
    segments ("/".intercalate written) = leading written := by
  rw [segments, pieces_intercalate (h.ne_nil hnames) (h.whole hwhole)]
  rfl

/-! ## The two parts of a specifier -/

theorem segments_upwards (k : Nat) (t : String) :
    segments (upwards k ++ t) = List.replicate k ".." ++ segments t := by
  induction k with
  | zero => rw [upwards, String.empty_append]; rfl
  | succ k ih =>
    have step : upwards (k + 1) ++ t = ".." ++ "/" ++ (upwards k ++ t) := by
      rw [upwards, String.append_assoc]
      rfl
    rw [step, segments_slash, ih]
    rfl

/-- A climb is read as its steps back, the `./` of none of them as nothing. -/
theorem segments_climb (k : Nat) (t : String) :
    segments (climb k ++ t) = List.replicate k ".." ++ segments t := by
  unfold climb
  split
  · rename_i hk
    have here : "./" ++ t = "." ++ "/" ++ t := rfl
    rw [here, segments_slash, hk]
    rfl
  · exact segments_upwards k t

theorem not_isAbsolute_climb (k : Nat) (t : String) : ¬ isAbsolute (climb k ++ t) := by
  cases k with
  | zero =>
    rw [climb, if_pos rfl, isAbsolute_append (by decide)]
    decide
  | succ k =>
    rw [climb, if_neg (Nat.succ_ne_zero k), upwards, String.append_assoc,
      isAbsolute_append (by decide)]
    decide

theorem intercalate_climbed (j : Nat) (hnames : names ≠ []) :
    "/".intercalate (List.replicate j ".." ++ names) = upwards j ++ "/".intercalate names := by
  induction j with
  | zero => rw [upwards, String.empty_append]; rfl
  | succ j ih =>
    rw [List.replicate_succ, List.cons_append, String.intercalate_cons_of_ne_nil
      (List.append_ne_nil_of_right_ne_nil _ hnames), ih, upwards, String.append_assoc]
    rfl

/-! ## Beside a file -/

/-- The directory of a file is the path of the directories that lead to it. -/
theorem dirname_intercalate (hfile : '/' ∉ file.toList) :
    dirname ("/".intercalate (dirs ++ [file])) = "/".intercalate dirs := by
  unfold dirname
  by_cases hdirs : dirs = []
  · rw [hdirs, List.nil_append, String.intercalate_singleton, cutLast?_eq_none_iff.mpr hfile]
    rfl
  · rw [String.intercalate_append_of_ne_nil hdirs (List.cons_ne_nil _ _),
      String.intercalate_singleton, cutLast?_slash_eq_some_iff.mpr ⟨rfl, hfile⟩]

/-- The segments that a climb from nested directories leads to: as many directories are taken off as
there are, and what is left of the climb stays in front. -/
theorem cleanSegments_below (k : Nat) (hdirs : ∀ d ∈ dirs, IsName d)
    (hnames : ∀ n ∈ names, IsName n)
    (h : Detours names written) :
    cleanSegments false (dirs ++ (List.replicate k ".." ++ leading written)) =
      List.replicate (k - dirs.length) ".." ++ (dirs.take (dirs.length - k) ++ names) := by
  have forth : ∀ d ∈ dirs.reverse, d ≠ ".." :=
    fun d hd => (hdirs d (List.mem_reverse.mp hd)).ne_dotdot
  have climbed := foldl_pushSegment_climb k forth
  have straight := leading_of_segments fun n hn => (hnames n hn).toIsSegment
  rw [cleanSegments, List.foldl_append,
    foldl_pushSegment_of_names fun d hd => (hdirs d hd).ne_dotdot, List.append_nil,
    List.foldl_append, climbed, h.foldl_pushSegment, straight,
    foldl_pushSegment_of_names fun n hn => (hnames n hn).ne_dotdot]
  simp [List.drop_reverse]

theorem normalize_of_cleaned (hclean : clean path = ofSegments false list) (hne : list ≠ [])
    (hsegment : ∀ s ∈ list, IsSegment s) (hplain : ∀ s ∈ list, '\\' ∉ s.toList) :
    normalize path = "/".intercalate list := by
  have form : ofSegments false list = "/".intercalate list := by
    unfold ofSegments
    rw [if_neg Bool.false_ne_true, List.isEmpty_eq_false_iff.mpr hne]
    rfl
  have ne_dot : clean path ≠ "." := by
    intro hdot
    have none : segments (clean path) = [] := by
      rw [hdot]
      rfl
    rw [hclean, segments_ofSegments hsegment] at none
    exact hne none
  have slashes : '\\' ∉ ("/".intercalate list).toList := by
    intro hmem
    rcases mem_intercalate_slash hmem with heq | ⟨s, hs, hback⟩
    · exact absurd heq (by decide)
    · exact hplain s hs hback
  rw [normalize_of_clean_ne_dot ne_dot, hclean, form, replaceChar_of_not_mem slashes]

/-- What lies beside a file is looked for from the directories that hold the file. -/
theorem joinRelative_of_segments {specifier : String} (hdirs : ∀ d ∈ dirs, IsName d)
    (hfile : '/' ∉ file.toList) (hrelative : ¬ isAbsolute specifier) :
    ∃ whole, joinRelative ("/".intercalate (dirs ++ [file])) specifier = normalize whole ∧
      isAbsolute whole = false ∧ segments whole = dirs ++ segments specifier := by
  have segment : ∀ d ∈ dirs, IsSegment d := fun d hd => (hdirs d hd).toIsSegment
  unfold joinRelative
  dsimp only
  rw [dirname_intercalate hfile]
  by_cases hempty : "/".intercalate dirs = ""
  · rw [if_pos hempty]
    have top : dirs = [] := (intercalate_eq_empty_iff segment).mp hempty
    exact ⟨specifier, rfl, Bool.eq_false_iff.mpr hrelative, by rw [top, List.nil_append]⟩
  · rw [if_neg hempty]
    refine ⟨_, rfl, ?_, by rw [segments_slash, segments_intercalate segment]⟩
    rw [String.append_assoc, isAbsolute_append hempty]
    exact Bool.eq_false_iff.mpr (not_isAbsolute_intercalate segment)

/-- What a climb and a row of names, with detours, name beside a file. If there are fewer
directories than steps back, the path leads out of the project. -/
theorem joinRelative_climb (k : Nat) (hdirs : ∀ d ∈ dirs, IsOrdinary d) (hfile : '/' ∉ file.toList)
    (hnames : ∀ n ∈ names, IsOrdinary n) (hne : names ≠ []) (h : Detours names written) :
    joinRelative ("/".intercalate (dirs ++ [file])) (climb k ++ "/".intercalate written) =
      "/".intercalate
        (List.replicate (k - dirs.length) ".." ++ (dirs.take (dirs.length - k) ++ names)) := by
  have dir : ∀ d ∈ dirs, IsName d := fun d hd => (hdirs d hd).toIsName
  have name : ∀ n ∈ names, IsName n := fun n hn => (hnames n hn).toIsName
  obtain ⟨whole, hjoin, habs, hsegments⟩ :=
    joinRelative_of_segments dir hfile (not_isAbsolute_climb k ("/".intercalate written))
  rw [segments_climb, h.segments_eq hne fun n hn => (name n hn).whole] at hsegments
  have cleaned : clean whole = ofSegments false
      (List.replicate (k - dirs.length) ".." ++ (dirs.take (dirs.length - k) ++ names)) := by
    rw [clean, habs, hsegments, cleanSegments_below k dir name h]
  have member : ∀ s ∈ List.replicate (k - dirs.length) ".." ++
      (dirs.take (dirs.length - k) ++ names), s = ".." ∨ IsOrdinary s := by
    intro s hs
    rcases List.mem_append.mp hs with hs | hs
    · exact .inl (List.eq_of_mem_replicate hs)
    · rcases List.mem_append.mp hs with hs | hs
      · exact .inr (hdirs s (List.mem_of_mem_take hs))
      · exact .inr (hnames s hs)
  rw [hjoin]
  refine normalize_of_cleaned cleaned ?some ?segment ?plain
  case some =>
    exact List.append_ne_nil_of_right_ne_nil _ (List.append_ne_nil_of_right_ne_nil _ hne)
  case segment =>
    intro s hs
    rcases member s hs with rfl | h
    · exact ⟨by decide, by decide, by decide⟩
    · exact h.toIsSegment
  case plain =>
    intro s hs
    rcases member s hs with rfl | h
    · decide
    · exact h.plain

/-- **Relative paths.** A specifier that leads `k` directories up and then along some names, with
whatever detours, takes `k` directories off those of the importer. If there are fewer, the path
leads up the rest of the way. So from any directory that holds two files, one is named to the other
by the directories of the latter below it and the names of the former below it. -/
theorem joinRelative_relative :
    (∀ (dirs names written : List String) (file : String) (k : Nat),
      (∀ d ∈ dirs, IsOrdinary d) → '/' ∉ file.toList → (∀ n ∈ names, IsOrdinary n) → names ≠ [] →
      Detours names written →
      (k ≤ dirs.length →
        joinRelative ("/".intercalate (dirs ++ [file])) (climb k ++ "/".intercalate written) =
          "/".intercalate (dirs.take (dirs.length - k) ++ names)) ∧
      (dirs.length < k →
        joinRelative ("/".intercalate (dirs ++ [file])) (climb k ++ "/".intercalate written) =
          upwards (k - dirs.length) ++ "/".intercalate names)) ∧
    ∀ (common dirs names written : List String) (file : String),
      (∀ d ∈ common ++ dirs, IsOrdinary d) → '/' ∉ file.toList → (∀ n ∈ names, IsOrdinary n) →
      names ≠ [] → Detours names written →
      joinRelative ("/".intercalate (common ++ dirs ++ [file]))
          (climb dirs.length ++ "/".intercalate written) =
        "/".intercalate (common ++ names) := by
  refine ⟨?below, ?between⟩
  case below =>
    intro dirs names written file k hdirs hfile hnames hne h
    rw [joinRelative_climb k hdirs hfile hnames hne h]
    constructor
    · intro hk
      rw [Nat.sub_eq_zero_of_le hk]
      rfl
    · intro hk
      rw [Nat.sub_eq_zero_of_le (Nat.le_of_lt hk), List.take_zero, List.nil_append,
        intercalate_climbed _ hne]
  case between =>
    intro common dirs names written file hdirs hfile hnames hne h
    have left : (common ++ dirs).take ((common ++ dirs).length - dirs.length) = common := by
      rw [List.length_append, Nat.add_sub_cancel, List.take_left]
    have up : dirs.length - (common ++ dirs).length = 0 := by
      rw [List.length_append]
      omega
    rw [joinRelative_climb dirs.length hdirs hfile hnames hne h, left, up]
    rfl

/-- Down from the directory that two files share, up beyond the root, and from one file to the
other, with a slash more, a directory that is left at once, and a point. -/
theorem joinRelative_relative_around :
    (∀ d ∈ ["src", "app"], IsOrdinary d) ∧ (∀ n ∈ ["lib", "x.ts"], IsOrdinary n) ∧
      Detours ["lib", "x.ts"] ["", "lib", "a", "..", ".", "x.ts"] ∧
      joinRelative "src/app/main.ts" "..//lib/a/.././x.ts" = "src/lib/x.ts" ∧
      joinRelative "src/app/main.ts" "../../..//lib/a/.././x.ts" = "../lib/x.ts" := by
  have dirs : ∀ d ∈ ["src", "app"], IsOrdinary d := by decide
  have names : ∀ n ∈ ["lib", "x.ts"], IsOrdinary n := by decide
  have file : '/' ∉ "main.ts".toList := by decide
  have around : Detours ["lib", "x.ts"] ["", "lib", "a", "..", ".", "x.ts"] := by
    have point : Detours ["lib", "x.ts"] (["lib"] ++ "." :: ["x.ts"]) := .here .straight
    have aside : Detours ["lib", "x.ts"] (["lib"] ++ "a" :: ".." :: [".", "x.ts"]) :=
      .aside (by decide) point
    have slash : Detours ["lib", "x.ts"] ([] ++ "" :: ["lib", "a", "..", ".", "x.ts"]) :=
      .slash aside
    exact slash
  have beyond := (joinRelative_relative.1 _ _ _ _ 3 dirs file names (List.cons_ne_nil _ _) around).2
    (by decide)
  have between := joinRelative_relative.2 ["src"] ["app"] _ _ _ dirs file names
    (List.cons_ne_nil _ _) around
  exact ⟨dirs, names, around, between, beyond⟩

end CodeAtlas.Path
