import DexContainer.Command.Arguments

/-! What a list of arguments spells: paths, switches and a configuration, each in the order in which
they stand. Main statements: `sort_eq_some_iff`, the arguments are sorted exactly when they spell
something, and as they spell it; and `ofArguments?_eq_layOut_iff`, what asks for a new layout. -/

namespace DexContainer.Command

/-- A path that can stand among the switches: it is not empty, and it starts with a dash only if
nothing follows. -/
def IsPath (path : String) : Prop :=
  path.toList ≠ [] ∧ ∀ c rest, path.toList ≠ '-' :: c :: rest

/-- The arguments hold these paths, these of the allowed switches, each once, and this
configuration, where there may be one. -/
inductive Spells (allowed : List String) (takesConfig : Bool) :
    List String → List String → List String → Option String → Prop
  | nil : Spells allowed takesConfig [] [] [] none
  | path {path : String} {rest paths switches : List String} {config : Option String}
      (hpath : IsPath path) (hrest : Spells allowed takesConfig rest paths switches config) :
      Spells allowed takesConfig (path :: rest) (path :: paths) switches config
  | switch {switch : String} {rest paths switches : List String} {config : Option String}
      (hallowed : switch ∈ allowed) (hnew : switch ∉ switches)
      (hrest : Spells allowed takesConfig rest paths switches config) :
      Spells allowed takesConfig (switch :: rest) paths (switch :: switches) config
  | config {path : String} {rest paths switches : List String} (htakes : takesConfig = true)
      (hpath : IsPath path) (hrest : Spells allowed takesConfig rest paths switches none) :
      Spells allowed takesConfig ("--config" :: path :: rest) paths switches (some path)
  | attached {path : String} {rest paths switches : List String} (htakes : takesConfig = true)
      (hpath : path.toList ≠ []) (hrest : Spells allowed takesConfig rest paths switches none) :
      Spells allowed takesConfig (("--config=" ++ path) :: rest) paths switches (some path)
  | dashes {paths : List String} (hpaths : ∀ path ∈ paths, path.toList ≠ []) :
      Spells allowed takesConfig ("--" :: paths) paths [] none

variable {allowed rest : List String} {takesConfig : Bool} {a b : Arguments}
  {argument path mark : String}

/-! ### Single arguments -/

theorem isEmpty_eq_false_iff : path.isEmpty = false ↔ path.toList ≠ [] := by
  rw [Ne, String.toList_eq_nil_iff, ← String.isEmpty_iff, Bool.not_eq_true]

theorem isSwitch_eq_true_iff : isSwitch argument = true ↔
    ∃ c rest, argument.toList = '-' :: c :: rest := by
  rw [isSwitch]
  split
  · rename_i c rest heq
    exact ⟨fun _ => ⟨c, rest, heq⟩, fun _ => rfl⟩
  · rename_i hnot
    exact ⟨fun h => (by cases h), fun ⟨c, rest, h⟩ => absurd h (hnot c rest)⟩

theorem isPath_iff : IsPath path ↔ isSwitch path = false ∧ path.isEmpty = false := by
  rw [IsPath, isEmpty_eq_false_iff, and_comm, ← Bool.not_eq_true, isSwitch_eq_true_iff]
  simp only [not_exists, ne_eq]

theorem behind?_eq_some_iff : behind? mark argument = some path ↔ argument = mark ++ path := by
  rw [behind?, ← String.toList_inj, String.toList_append]
  split
  · rename_i hprefix
    obtain ⟨tail, htail⟩ := List.isPrefixOf_iff_prefix.1 hprefix
    rw [← htail, ← String.length_toList, List.drop_left, List.append_cancel_left_eq,
      Option.some.injEq, ← String.toList_inj, String.toList_ofList]
  · rename_i hprefix
    refine ⟨fun h => (by cases h), fun h => absurd ?_ hprefix⟩
    rw [h]
    exact List.isPrefixOf_iff_prefix.2 (List.prefix_append _ _)

theorem addPath_eq_some_iff : a.addPath path = some b ↔
    path.toList ≠ [] ∧ { a with paths := a.paths ++ [path] } = b := by
  rw [← isEmpty_eq_false_iff, Arguments.addPath]
  cases path.isEmpty <;> simp

theorem addSwitch_eq_some_iff : a.addSwitch allowed argument = some b ↔
    argument ∈ allowed ∧ argument ∉ a.switches ∧
      { a with switches := a.switches ++ [argument] } = b := by
  rw [Arguments.addSwitch]
  by_cases hallowed : argument ∈ allowed <;> by_cases hnew : argument ∈ a.switches <;>
    simp [hallowed, hnew]

theorem setConfig_eq_some_iff : a.setConfig path = some b ↔
    a.config = none ∧ path.toList ≠ [] ∧ { a with config := some path } = b := by
  rw [← isEmpty_eq_false_iff, Arguments.setConfig]
  cases a.config <;> cases path.isEmpty <;> simp

/-- Behind two dashes every argument is a path. -/
theorem foldlM_addPath_eq_some_iff {paths : List String} :
    paths.foldlM Arguments.addPath a = some b ↔
      (∀ path ∈ paths, path.toList ≠ []) ∧ { a with paths := a.paths ++ paths } = b := by
  induction paths generalizing a with
  | nil => simp [pure]
  | cons path paths ih =>
    rw [List.foldlM_cons, List.forall_mem_cons]
    simp only [Option.bind_eq_bind, Option.bind_eq_some_iff, addPath_eq_some_iff, ih]
    constructor
    · rintro ⟨_, ⟨hpath, rfl⟩, hpaths, rfl⟩
      exact ⟨⟨hpath, hpaths⟩, by simp⟩
    · rintro ⟨⟨hpath, hpaths⟩, rfl⟩
      exact ⟨_, ⟨hpath, rfl⟩, hpaths, by simp⟩

/-! ### Steps -/

/-- The switches that may occur have the form of a switch and are nothing else. -/
def AreSwitches (allowed : List String) (takesConfig : Bool) : Prop :=
  ∀ s ∈ allowed, isSwitch s = true ∧ s ≠ "--" ∧
    (takesConfig = true → s ≠ "--config" ∧ behind? "--config=" s = none)

theorem sort_cons (hdashes : argument ≠ "--")
    (hconfig : takesConfig = true → argument ≠ "--config") :
    sort allowed takesConfig a (argument :: rest) =
      match if takesConfig then behind? "--config=" argument else none with
      | some path => (a.setConfig path).bind fun a => sort allowed takesConfig a rest
      | none =>
        (if isSwitch argument then a.addSwitch allowed argument else a.addPath argument).bind
          fun a => sort allowed takesConfig a rest := by
  have hnot : (takesConfig && argument == "--config") = false := by
    cases takesConfig with
    | false => rfl
    | true => simpa using hconfig rfl
  rw [sort.eq_def]
  simp only [hnot, Bool.false_eq_true, if_false]
  cases if takesConfig then behind? "--config=" argument else none with
  | some path => rfl
  | none => cases isSwitch argument <;> rfl

theorem sort_path (h : IsPath path) : sort allowed takesConfig a (path :: rest) =
    sort allowed takesConfig { a with paths := a.paths ++ [path] } rest := by
  obtain ⟨hswitch, -⟩ := isPath_iff.1 h
  have hbehind : behind? "--config=" path = none := by
    cases hbehind : behind? "--config=" path with
    | none => rfl
    | some tail =>
      have heq := congrArg String.toList (behind?_eq_some_iff.1 hbehind)
      rw [String.toList_append] at heq
      exact absurd heq (h.2 _ _)
  have hdashes : path ≠ "--" := by
    rintro rfl
    cases hswitch
  have hconfig : path ≠ "--config" := by
    rintro rfl
    cases hswitch
  rw [sort_cons hdashes fun _ => hconfig, hbehind, ite_self]
  simp only [hswitch, Bool.false_eq_true, if_false]
  rw [addPath_eq_some_iff.2 ⟨h.1, rfl⟩, Option.bind_some]

theorem sort_switch {s : String} (hallowed : AreSwitches allowed takesConfig) (hs : s ∈ allowed)
    (hnew : s ∉ a.switches) : sort allowed takesConfig a (s :: rest) =
      sort allowed takesConfig { a with switches := a.switches ++ [s] } rest := by
  obtain ⟨hswitch, hdashes, hneither⟩ := hallowed s hs
  rw [sort_cons hdashes fun htakes => (hneither htakes).1,
    ite_eq_right_iff.2 fun htakes => (hneither htakes).2]
  simp only [hswitch, if_true]
  rw [addSwitch_eq_some_iff.2 ⟨hs, hnew, rfl⟩, Option.bind_some]

theorem sort_config (hpath : IsPath path) (ha : a.config = none) :
    sort allowed true a ("--config" :: path :: rest) =
      sort allowed true { a with config := some path } rest := by
  rw [sort.eq_def]
  simp [(isPath_iff.1 hpath).1, setConfig_eq_some_iff.2 ⟨ha, hpath.1, rfl⟩]

theorem sort_attached (hpath : path.toList ≠ []) (ha : a.config = none) :
    sort allowed true a (("--config=" ++ path) :: rest) =
      sort allowed true { a with config := some path } rest := by
  have hne (s : String) (hs : s.toList.length < 9) : "--config=" ++ path ≠ s := by
    rintro rfl
    rw [String.toList_append, List.length_append] at hs
    exact absurd hs (Nat.not_lt.2 (Nat.le_add_right 9 _))
  rw [sort_cons (hne "--" (by decide)) fun _ => hne "--config" (by decide), if_pos rfl,
    behind?_eq_some_iff.2 rfl]
  simp only
  rw [setConfig_eq_some_iff.2 ⟨ha, hpath, rfl⟩, Option.bind_some]

/-! ### Sorting -/

variable {arguments paths switches : List String} {config : Option String}

/-- What is spelled is sorted as it is spelled, behind what was sorted before. -/
theorem sort_of_spells (hallowed : AreSwitches allowed takesConfig)
    (h : Spells allowed takesConfig arguments paths switches config)
    (hswitches : ∀ s ∈ switches, s ∉ a.switches)
    (hconfig : config.isSome = true → a.config = none) :
    sort allowed takesConfig a arguments =
      some ⟨a.paths ++ paths, a.switches ++ switches, config.or a.config⟩ := by
  induction h generalizing a with
  | nil => simp [sort]
  | path hpath _ ih =>
    rw [sort_path hpath]
    refine (ih (a := { a with paths := a.paths ++ [_] }) hswitches hconfig).trans ?_
    rw [List.append_assoc]
    rfl
  | switch hs hnew _ ih =>
    obtain ⟨hfresh, hswitches⟩ := List.forall_mem_cons.1 hswitches
    rw [sort_switch hallowed hs hfresh]
    refine (ih (a := { a with switches := a.switches ++ [_] }) (fun s hs hin => ?_)
      hconfig).trans ?_
    · rcases List.mem_append.1 hin with hin | hin
      · exact hswitches s hs hin
      · exact hnew (List.mem_singleton.1 hin ▸ hs)
    · rw [List.append_assoc]
      rfl
  | config htakes hpath _ ih =>
    subst htakes
    rw [sort_config hpath (hconfig rfl)]
    exact ih hswitches nofun
  | attached htakes hpath _ ih =>
    subst htakes
    rw [sort_attached hpath (hconfig rfl)]
    exact ih hswitches nofun
  | dashes hpaths =>
    rw [sort.eq_def]
    exact foldlM_addPath_eq_some_iff.2 ⟨hpaths, by simp⟩

/-- The arguments spell what `b` has behind what `a` has. -/
def SpellsBehind (allowed : List String) (takesConfig : Bool) (arguments : List String)
    (a b : Arguments) : Prop :=
  ∃ paths switches config, Spells allowed takesConfig arguments paths switches config ∧
    (∀ s ∈ switches, s ∉ a.switches) ∧ (config.isSome = true → a.config = none) ∧
    b = ⟨a.paths ++ paths, a.switches ++ switches, config.or a.config⟩

/-- No second configuration is spelled behind one. -/
theorem exists_of_setConfig {c : Arguments} (hc : a.setConfig path = some c)
    (h : SpellsBehind allowed takesConfig rest c b) :
    path.toList ≠ [] ∧ ∃ paths switches, Spells allowed takesConfig rest paths switches none ∧
      (∀ s ∈ switches, s ∉ a.switches) ∧ a.config = none ∧
      b = ⟨a.paths ++ paths, a.switches ++ switches, some path⟩ := by
  obtain ⟨hnone, hpath, rfl⟩ := setConfig_eq_some_iff.1 hc
  obtain ⟨paths, switches, config, hspells, hswitches, hset, rfl⟩ := h
  obtain rfl : config = none := by
    cases config with
    | none => rfl
    | some _ => cases hset rfl
  exact ⟨hpath, paths, switches, hspells, hswitches, hnone, rfl⟩

/-- What is sorted is spelled. -/
theorem spellsBehind_of_sort (h : sort allowed takesConfig a arguments = some b) :
    SpellsBehind allowed takesConfig arguments a b := by
  fun_induction sort allowed takesConfig a arguments with
  | case1 a =>
    cases h
    exact ⟨[], [], none, .nil, by simp, by simp, by simp⟩
  | case2 a paths =>
    obtain ⟨hpaths, rfl⟩ := foldlM_addPath_eq_some_iff.1 h
    exact ⟨paths, [], none, .dashes hpaths, by simp, by simp, by simp⟩
  | case3 | case4 => cases h
  | case5 a argument _ hconfig path rest hswitch ih =>
    obtain ⟨htakes, rfl⟩ : takesConfig = true ∧ argument = "--config" := by simpa using hconfig
    obtain ⟨c, hc, h⟩ := Option.bind_eq_some_iff.1 h
    obtain ⟨hpath, paths, switches, hspells, hswitches, hnone, rfl⟩ :=
      exists_of_setConfig hc (ih _ h)
    have hpath := isPath_iff.2 ⟨Bool.eq_false_iff.2 hswitch, isEmpty_eq_false_iff.2 hpath⟩
    exact ⟨paths, switches, some path, .config htakes hpath hspells, hswitches, fun _ => hnone, rfl⟩
  | case6 a argument rest _ _ path hbehind ih =>
    obtain ⟨htakes, hbehind⟩ : takesConfig = true ∧ behind? "--config=" argument = some path := by
      simpa using hbehind
    obtain rfl := behind?_eq_some_iff.1 hbehind
    obtain ⟨c, hc, h⟩ := Option.bind_eq_some_iff.1 h
    obtain ⟨hpath, paths, switches, hspells, hswitches, hnone, rfl⟩ :=
      exists_of_setConfig hc (ih _ h)
    exact ⟨paths, switches, some path, .attached htakes hpath hspells, hswitches, fun _ => hnone,
      rfl⟩
  | case7 a argument rest hdashes hconfig hbehind hswitch ih =>
    obtain ⟨c, hc, h⟩ := Option.bind_eq_some_iff.1 h
    obtain ⟨hmem, hfresh, rfl⟩ := addSwitch_eq_some_iff.1 hc
    obtain ⟨paths, switches, config, hspells, hswitches, hset, rfl⟩ := ih _ h
    simp only [List.mem_append, List.mem_singleton, not_or] at hswitches
    have hnew : argument ∉ switches := fun hin => (hswitches argument hin).2 rfl
    refine ⟨paths, argument :: switches, config, .switch hmem hnew hspells, ?_, hset, by simp⟩
    exact List.forall_mem_cons.2 ⟨hfresh, fun s hs => (hswitches s hs).1⟩
  | case8 a argument rest hdashes hconfig hbehind hswitch ih =>
    obtain ⟨c, hc, h⟩ := Option.bind_eq_some_iff.1 h
    obtain ⟨hpath, rfl⟩ := addPath_eq_some_iff.1 hc
    obtain ⟨paths, switches, config, hspells, hswitches, hset, rfl⟩ := ih _ h
    have hpath := isPath_iff.2 ⟨Bool.eq_false_iff.2 hswitch, isEmpty_eq_false_iff.2 hpath⟩
    exact ⟨argument :: paths, switches, config, .path hpath hspells, hswitches, hset, by simp⟩

/-- Arguments are sorted exactly when they spell something, and as they spell it. -/
theorem sort_eq_some_iff (hallowed : AreSwitches allowed takesConfig) :
    sort allowed takesConfig {} arguments = some b ↔
      Spells allowed takesConfig arguments b.paths b.switches b.config := by
  constructor
  · intro h
    obtain ⟨paths, switches, config, hspells, -, -, rfl⟩ := spellsBehind_of_sort h
    simpa using hspells
  · intro h
    rw [sort_of_spells hallowed h (by simp) fun _ => rfl]
    simp

/-! ### Commands -/

variable {input output : String}

theorem areSwitches_layOutSwitches : AreSwitches layOutSwitches true := by
  unfold AreSwitches
  decide

/-- Two paths, any of the switches and a configuration ask for a new layout, and nothing else
does. -/
theorem ofArguments?_eq_layOut_iff {all : List String}
    {inPlace canonical normalizeRegisters : Bool} :
    ofArguments? all = some (.layOut input output inPlace canonical normalizeRegisters config) ↔
      ∃ arguments switches, all = "rewrite" :: arguments ∧
        Spells layOutSwitches true arguments [input, output] switches config ∧
        inPlace = decide ("--in-place" ∈ switches) ∧
        canonical = decide ("--canonical" ∈ switches) ∧
        normalizeRegisters = decide ("--normalize-registers" ∈ switches) := by
  constructor
  · intro h
    unfold ofArguments? at h
    split at h
    · obtain ⟨a, ha, h⟩ := Option.bind_eq_some_iff.1 h
      split at h <;> cases h
    · rename_i arguments
      obtain ⟨a, ha, h⟩ := Option.bind_eq_some_iff.1 h
      split at h
      · rename_i hpaths
        cases h
        have hspells := (sort_eq_some_iff areSwitches_layOutSwitches).1 ha
        rw [hpaths] at hspells
        exact ⟨arguments, a.switches, rfl, hspells, by simp, by simp, by simp⟩
      · cases h
    · obtain ⟨a, ha, h⟩ := Option.bind_eq_some_iff.1 h
      split at h <;> cases h
    · cases h
  · rintro ⟨arguments, switches, rfl, hspells, rfl, rfl, rfl⟩
    have hsort := (sort_eq_some_iff (b := ⟨_, _, _⟩) areSwitches_layOutSwitches).2 hspells
    simp only [ofArguments?, hsort]
    simp

/-- A path, and the switch if it stands there, ask for a report. -/
theorem ofArguments?_info (h : Spells ["--json"] false arguments [path] switches config) :
    ofArguments? ("info" :: arguments) = some (.info path (switches.contains "--json")) := by
  have hsort := (sort_eq_some_iff (b := ⟨_, _, _⟩) (by unfold AreSwitches; decide)).2 h
  simp only [ofArguments?, hsort]
  rfl

/-- A path alone asks for a check. -/
theorem ofArguments?_verify (h : Spells [] false arguments [path] switches config) :
    ofArguments? ("verify" :: arguments) = some (.verify path) := by
  have hsort := (sort_eq_some_iff (b := ⟨_, _, _⟩) (by unfold AreSwitches; decide)).2 h
  simp only [ofArguments?, hsort]
  rfl

end DexContainer.Command
