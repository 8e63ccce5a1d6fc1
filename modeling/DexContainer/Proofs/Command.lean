import DexContainer.Command.Directory
import DexContainer.Proofs.Command.Arguments
import DexContainer.Proofs.Container.Integrity

/-! The command in a directory. A new layout of a file ends well exactly when the configuration can
be loaded, the file is accepted under the options that come out, the container can be laid out and
the path leads to the directory; then the file at the path holds the image that the container gives,
which the two other commands accept. Otherwise nothing is written. What a configuration means and in
which order the rows of a map are given back is taken as given. Main statement:
`runArguments_layOut`. -/

namespace DexContainer

namespace Container

variable {c d : Container} {image out : Image} {o : Options} {r : RowOrder}

/-- What an accepted image is rewritten to is accepted under all options. -/
theorem exists_ofImage_of_relaid (hc : ofImage r image o = .ok c) (h : c.toImage = .ok (d, out))
    (hshort : out.size < 2 ^ 32) (o' : Options) : ∃ g, ∀ r, ofImage r out o' = .ok g := by
  obtain ⟨haccepted, -⟩ := isAccepted_of_ofImage hc
  obtain ⟨-, -, -, g, -, -, -, hg, -⟩ := exists_of_toImage haccepted.coherent
    (fun k x y _ hy => haccepted.encodable k x y hy) h hshort o'
  exact ⟨g, hg⟩

end Container

namespace Directory

variable {given : Command.Setting} {d after : Directory} {path : String} {image : Image}

theorem read_eq_ok {name : String} (hname : nameOf? path = some name)
    (h : d.files.lookup name = some image) : d.read path = .ok image := by
  rw [read, hname, Option.bind_some, h]
  rfl

theorem read_eq_error {name : String} (hname : nameOf? path = some name)
    (h : d.files.lookup name = none) : d.read path = .error .storage := by
  rw [read, hname, Option.bind_some, h]
  rfl

theorem read_of_write (h : d.write path image = .ok after) : after.read path = .ok image := by
  rw [write] at h
  cases hname : nameOf? path with
  | none =>
    rw [hname] at h
    cases h
  | some name =>
    rw [hname] at h
    cases h
    exact read_eq_ok hname List.lookup_cons_self

theorem exists_write_iff : (∃ after, d.write path image = .ok after) ↔
    (nameOf? path).isSome = true := by
  rw [write]
  cases nameOf? path with
  | none =>
    constructor
    · rintro ⟨after, h⟩
      cases h
    · intro h
      cases h
  | some name => exact ⟨fun _ => rfl, fun _ => ⟨_, rfl⟩⟩

theorem runArguments_eq {arguments : List String} {c : Command}
    (h : Command.ofArguments? arguments = some c) :
    d.runArguments given arguments = d.run given c := by
  rw [runArguments, h]

end Directory

namespace Command

variable {given : Setting} {files : Files} {input output path : String} {switches : List String}
  {config : Option String} {image : Image} {o o' : Options}

/-! ### What a new layout gives -/

/-- The options of a configuration: the defaults if there is none. -/
inductive Configures (given : Setting) (files : Files) : Option String → Options → Prop
  | default : Configures given files none {}
  | load {path : String} {bytes : Image} {text : String} {o : Options}
      (hfile : files path = .ok bytes) (hutf8 : String.fromUTF8? (ByteArray.mk bytes) = some text)
      (htext : given.optionsOf text = .ok o) : Configures given files (some path) o

/-- What keeps a configuration from giving options. -/
inductive Misconfigures (given : Setting) (files : Files) : Option String → Prop
  | missing {path : String} {e : Fault} (hfile : files path = .error e) :
      Misconfigures given files (some path)
  | notUtf8 {path : String} {bytes : Image} (hfile : files path = .ok bytes)
      (hutf8 : String.fromUTF8? (ByteArray.mk bytes) = none) :
      Misconfigures given files (some path)
  | malformed {path : String} {bytes : Image} {text : String} {e : Fault}
      (hfile : files path = .ok bytes) (hutf8 : String.fromUTF8? (ByteArray.mk bytes) = some text)
      (htext : given.optionsOf text = .error e) : Misconfigures given files (some path)

/-- The second options are the first ones, but for what the switches turn on, and for the registers,
whose marks a switch turns off. -/
structure Merges (switches : List String) (o o' : Options) : Prop where
  inPlace : o'.inPlace = true ↔ o.inPlace = true ∨ "--in-place" ∈ switches
  sortAllItems : o'.sortAllItems = true ↔ o.sortAllItems = true ∨ "--canonical" ∈ switches
  preserveSignedRegisters : o'.preserveSignedRegisters = true ↔
    o.preserveSignedRegisters = true ∧ "--normalize-registers" ∉ switches
  verifyIntegrity : o'.verifyIntegrity = o.verifyIntegrity

theorem merges_iff : Merges switches o o' ↔
    mergedOptions o (decide ("--in-place" ∈ switches)) (decide ("--canonical" ∈ switches))
      (decide ("--normalize-registers" ∈ switches)) = o' := by
  constructor
  · rintro ⟨hinPlace, hsort, hkeeps, hverify⟩
    cases o'
    rw [mergedOptions, Options.mk.injEq]
    refine ⟨Bool.eq_iff_iff.2 ?_, Bool.eq_iff_iff.2 ?_, Bool.eq_iff_iff.2 ?_, hverify.symm⟩
    · simpa using hkeeps.symm
    · simpa using hsort.symm
    · simpa using hinPlace.symm
  · rintro rfl
    constructor <;> simp [mergedOptions]

theorem configured_eq_ok :
    configured given files config = .ok o ↔ Configures given files config o := by
  constructor
  · intro h
    cases config with
    | none =>
      cases h
      exact .default
    | some path =>
      obtain ⟨bytes, hfile, h⟩ := bind_eq_ok.1 h
      cases hutf8 : String.fromUTF8? (ByteArray.mk bytes) with
      | none =>
        simp only [hutf8] at h
        cases h
      | some text =>
        simp only [hutf8] at h
        exact .load hfile hutf8 h
  · intro h
    cases h with
    | default => rfl
    | load hfile hutf8 htext => simp only [configured, loadOptions, hfile, ok_bind, hutf8, htext]

theorem exists_configured_eq_error (h : Misconfigures given files config) :
    ∃ e, configured given files config = .error e := by
  cases h with
  | missing hfile =>
    simp only [configured, loadOptions, hfile]
    exact ⟨_, rfl⟩
  | notUtf8 hfile hutf8 =>
    simp only [configured, loadOptions, hfile, ok_bind, hutf8]
    exact ⟨_, rfl⟩
  | malformed hfile hutf8 htext =>
    simp only [configured, loadOptions, hfile, ok_bind, hutf8, htext]
    exact ⟨_, rfl⟩

/-- The image that a new layout of a file gives: the options are those of the configuration, changed
by the switches. -/
def Produces (given : Setting) (files : Files) (input : String) (switches : List String)
    (config : Option String) (image : Image) : Prop :=
  ∃ o o' source c d, Configures given files config o ∧ Merges switches o o' ∧
    files input = .ok source ∧ Container.ofImage given.rows source o' = .ok c ∧
    c.toImage = .ok (d, image)

/-- What keeps a new layout of a file from giving an image. -/
inductive FailsBeforeWriting (given : Setting) (files : Files) (input : String)
    (switches : List String) (config : Option String) : Prop
  | misconfigured (hconfig : Misconfigures given files config)
  | missing {e : Fault} (hinput : files input = .error e)
  | damaged {o : Options} {source : Image} {e : Fault} (hconfig : Configures given files config o)
      (hinput : files input = .ok source) (hverifies : o.verifyIntegrity = true)
      (hverify : Stamp.verify source = .error e)
  | refused {o o' : Options} {source : Image} {e : Fault}
      (hconfig : Configures given files config o) (hmerges : Merges switches o o')
      (hinput : files input = .ok source)
      (hsource : Container.ofImage given.rows source o' = .error e)
  | notLaidOut {o o' : Options} {source : Image} {c : Container} {e : Container.Failure}
      (hconfig : Configures given files config o) (hmerges : Merges switches o o')
      (hinput : files input = .ok source) (hsource : Container.ofImage given.rows source o' = .ok c)
      (himage : c.toImage = .error e)

theorem Configures.unique {p : Options} (h : Configures given files config o)
    (h' : Configures given files config p) : o = p :=
  Except.ok.inj ((configured_eq_ok.2 h).symm.trans (configured_eq_ok.2 h'))

theorem Merges.unique {p : Options} (h : Merges switches o o') (h' : Merges switches o p) :
    o' = p :=
  (merges_iff.1 h).symm.trans (merges_iff.1 h')

/-- What is read under the options that come out. -/
theorem Produces.exists_of_configures (h : Produces given files input switches config image)
    (hconfig : Configures given files config o) (hmerges : Merges switches o o') :
    ∃ source c d, files input = .ok source ∧ Container.ofImage given.rows source o' = .ok c ∧
      c.toImage = .ok (d, image) := by
  obtain ⟨p, p', source, c, d, hp, hp', hsource, hc, himage⟩ := h
  obtain rfl := hp.unique hconfig
  obtain rfl := hp'.unique hmerges
  exact ⟨source, c, d, hsource, hc, himage⟩

theorem FailsBeforeWriting.not_produces
    (h : FailsBeforeWriting given files input switches config) :
    ¬Produces given files input switches config image := by
  intro hproduces
  cases h with
  | misconfigured hconfig =>
    obtain ⟨o, -, -, -, -, ho, -⟩ := hproduces
    obtain ⟨e, he⟩ := exists_configured_eq_error hconfig
    cases he.symm.trans (configured_eq_ok.2 ho)
  | missing hinput =>
    obtain ⟨-, -, source, -, -, -, -, hsource, -⟩ := hproduces
    cases hinput.symm.trans hsource
  | damaged hconfig hinput hverifies hverify =>
    obtain ⟨source, c, d, hsource, hc, -⟩ :=
      hproduces.exists_of_configures hconfig (merges_iff.2 rfl)
    cases hinput.symm.trans hsource
    cases hverify.symm.trans ((Container.ofImage_eq_ok.1 hc).2.1 hverifies)
  | refused hconfig hmerges hinput hrefused =>
    obtain ⟨source, c, d, hsource, hc, -⟩ := hproduces.exists_of_configures hconfig hmerges
    cases hinput.symm.trans hsource
    cases hrefused.symm.trans hc
  | notLaidOut hconfig hmerges hinput hread herror =>
    obtain ⟨source, c, d, hsource, hc, himage⟩ := hproduces.exists_of_configures hconfig hmerges
    cases hinput.symm.trans hsource
    cases hread.symm.trans hc
    cases herror.symm.trans himage

/-- A new layout plans to write the image that it gives, and to end with a failure if it gives
none. -/
theorem layOutFile_cases (given : Setting) (files : Files) (input output : String)
    (switches : List String) (config : Option String) :
    let plan := layOutFile given files input output (decide ("--in-place" ∈ switches))
      (decide ("--canonical" ∈ switches)) (decide ("--normalize-registers" ∈ switches)) config
    (∃ image, Produces given files input switches config image ∧ plan = .write output image) ∨
      ∃ outcome, (∀ image, ¬Produces given files input switches config image) ∧
        plan = .finish outcome ∧ outcome.exitCode ≠ 0 := by
  intro plan
  simp only [plan, layOutFile]
  cases hconfig : configured given files config with
  | error e =>
    refine .inr ⟨_, fun image h => ?_, rfl, Nat.one_ne_zero⟩
    obtain ⟨o, -, -, -, -, ho, -⟩ := h
    cases hconfig.symm.trans (configured_eq_ok.2 ho)
  | ok o =>
    have ho := configured_eq_ok.1 hconfig
    have hmerges : Merges switches o _ := merges_iff.2 rfl
    simp only [relayOut, openContainer]
    cases hinput : files input with
    | error e =>
      exact .inr ⟨_, fun _ => FailsBeforeWriting.not_produces (.missing hinput), rfl,
        Nat.one_ne_zero⟩
    | ok source =>
      simp only [ok_bind]
      cases hc : Container.ofImage given.rows source _ with
      | error e =>
        exact .inr ⟨_, fun _ => FailsBeforeWriting.not_produces (.refused ho hmerges hinput hc),
          rfl, Nat.one_ne_zero⟩
      | ok c =>
        simp only
        cases himage : c.toImage with
        | error e =>
          have hnot (image : Image) : ¬Produces given files input switches config image :=
            FailsBeforeWriting.not_produces (.notLaidOut ho hmerges hinput hc himage)
          cases e with
          | violation v => exact .inr ⟨breakdown v, hnot, rfl, Nat.succ_ne_zero 100⟩
          | fault e => exact .inr ⟨failure "write" output e, hnot, rfl, Nat.one_ne_zero⟩
        | ok result => exact .inl ⟨_, ⟨o, _, source, c, _, ho, hmerges, hinput, hc, himage⟩, rfl⟩

end Command

namespace Directory

open Command

variable {given : Setting} {d : Directory} {arguments switches : List String}
  {input output : String} {config : Option String} {image : Image}

/-! ### A new layout in a directory -/

theorem exitCode_verify (h : Spells [] false arguments [output] switches config)
    (hread : d.read output = .ok image) (hverify : Stamp.verify image = .ok ()) :
    (d.runArguments given ("verify" :: arguments)).1.exitCode = 0 := by
  rw [runArguments_eq (ofArguments?_verify h), run, plan, verifyFile, hread]
  simp only [hverify]

theorem exitCode_info {c : Container}
    (h : Spells ["--json"] false arguments [output] switches config)
    (hread : d.read output = .ok image) (hc : Container.ofImage given.rows image {} = .ok c) :
    (d.runArguments given ("info" :: arguments)).1.exitCode = 0 := by
  rw [runArguments_eq (ofArguments?_info h), run, plan, reportOn, openContainer, hread, ok_bind, hc]

/-- A new layout that ends well wrote the image that it gives, and one that ends with a failure
wrote nothing. -/
theorem runArguments_layOut_cases (given : Setting) (d : Directory)
    (h : Spells layOutSwitches true arguments [input, output] switches config) :
    let ran := d.runArguments given ("rewrite" :: arguments)
    (ran.1.exitCode = 0 ∧ ∃ image, Produces given d.read input switches config image ∧
      ran.2.read output = .ok image) ∨
    (ran.1.exitCode ≠ 0 ∧ ran.2 = d ∧ ((nameOf? output).isSome = true →
      ∀ image, ¬Produces given d.read input switches config image)) := by
  intro ran
  simp only [ran]
  rw [runArguments_eq (ofArguments?_eq_layOut_iff.2 ⟨arguments, switches, rfl, h, rfl, rfl, rfl⟩),
    run, plan]
  rcases layOutFile_cases given d.read input output switches config with
    ⟨image, hproduces, hplan⟩ | ⟨outcome, hnot, hplan, hexit⟩
  · rw [hplan]
    simp only
    cases hwrite : d.write output image with
    | ok after => exact .inl ⟨rfl, image, hproduces, read_of_write hwrite⟩
    | error e =>
      refine .inr ⟨Nat.one_ne_zero, rfl, fun hname => ?_⟩
      obtain ⟨after, hafter⟩ := exists_write_iff.2 hname
      cases hwrite.symm.trans hafter
  · rw [hplan]
    exact .inr ⟨hexit, rfl, fun _ => hnot⟩

/-- When a new layout ends well, the file holds the image that reading and writing give under the
options of the configuration as the switches change them, and the image is accepted by the two other
commands: its length has to be a word only for the offsets in it to be read as they were meant. A
new layout that gives an image ends well when the path leads to the directory. When something fails
before the file is written, the command ends with a failure, and no file is changed. -/
theorem runArguments_layOut (given : Setting) (d : Directory)
    (h : Spells ["--in-place", "--canonical", "--normalize-registers"] true arguments
      [input, output] switches config) :
    let ran := d.runArguments given ("rewrite" :: arguments)
    (ran.1.exitCode = 0 → ∃ image, Produces given d.read input switches config image ∧
      ran.2.read output = .ok image ∧
      (∀ given' checking, Spells [] false checking [output] [] none →
        (ran.2.runArguments given' ("verify" :: checking)).1.exitCode = 0) ∧
      (image.size < 2 ^ 32 → ∀ given' asking shown,
        Spells ["--json"] false asking [output] shown none →
        (ran.2.runArguments given' ("info" :: asking)).1.exitCode = 0)) ∧
    ((nameOf? output).isSome = true → ∀ image, Produces given d.read input switches config image →
      ran.1.exitCode = 0) ∧
    (FailsBeforeWriting given d.read input switches config → ran.1.exitCode ≠ 0 ∧ ran.2 = d) := by
  intro ran
  rcases runArguments_layOut_cases given d h with
    ⟨hexit, image, hproduces, hread⟩ | ⟨hexit, hsame, hnot⟩
  · refine ⟨fun _ => ⟨image, hproduces, hread, fun given' checking hchecking => ?_,
      fun hshort given' asking shown hasking => ?_⟩, fun _ _ _ => hexit,
      fun hfails => absurd hproduces hfails.not_produces⟩
    · obtain ⟨_, _, _, _, _, -, -, -, -, himage⟩ := hproduces
      exact exitCode_verify hchecking hread (Container.verify_of_toImage himage)
    · obtain ⟨_, _, _, _, _, -, -, -, hc, himage⟩ := hproduces
      obtain ⟨g, hg⟩ := Container.exists_ofImage_of_relaid hc himage hshort {}
      exact exitCode_info hasking hread (hg given'.rows)
  · exact ⟨fun hzero => absurd hzero hexit,
      fun hname image hproduces => absurd hproduces (hnot hname image), fun _ => ⟨hexit, hsame⟩⟩

/-- A configuration that asks for sorting and for a check of the integrity. -/
def sortingText : String := "sort_all_items = true\nverify_integrity = true"

/-- An image and this configuration. -/
def withSortingText (image : Image) : Directory := ⟨[("a", image), ("o", sortingText.toUTF8.data)]⟩

theorem ofText_sortingText : Options.ofText sortingText = .ok ⟨true, true, false, true⟩ := by
  have htext : (Options.ofText sortingText).toOption = some ⟨true, true, false, true⟩ := by
    decide +kernel
  generalize Options.ofText sortingText = o at htext ⊢
  cases o <;> cases htext
  rfl

theorem nameOf?_names : nameOf? "a" = some "a" ∧ nameOf? "b" = some "b" ∧
    nameOf? "o" = some "o" ∧ nameOf? "p" = some "p" := by
  decide +kernel

theorem configures_sortingText (image : Image) :
    Configures {} (withSortingText image).read (some "o") ⟨true, true, false, true⟩ := by
  have hread : (withSortingText image).read "o" = .ok sortingText.toUTF8.data :=
    read_eq_ok nameOf?_names.2.2.1 rfl
  have hutf8 : String.fromUTF8? (ByteArray.mk sortingText.toUTF8.data) = some sortingText := by
    decide +kernel
  exact .load hread hutf8 (by rw [← ofText_sortingText])

/-- A file with one method is laid out anew as two switches and a configuration ask for it, and
nothing is changed when the configuration is not there. -/
theorem runArguments_layOut_oneMethod : ∃ (a e c f : Container) (source image : Image),
    Container.oneMethod = .ok a ∧ (a.setPolicy ⟨true, false⟩).toImage = .ok (e, source) ∧
    Container.ofImage .stored source ⟨false, true, true, true⟩ = .ok c ∧
    c.toImage = .ok (f, image) ∧ image.size = 284 ∧
    let d := withSortingText source
    let ran := d.runArguments {}
      ["rewrite", "a", "--in-place", "b", "--config", "o", "--normalize-registers"]
    ran.1.exitCode = 0 ∧ ran.2.read "b" = .ok image ∧
    (ran.2.runArguments {} ["verify", "b"]).1.exitCode = 0 ∧
    (ran.2.runArguments {} ["info", "--json", "b"]).1.exitCode = 0 ∧
    (d.runArguments {} ["rewrite", "a", "b", "--config", "p"]).1.exitCode ≠ 0 ∧
    (d.runArguments {} ["rewrite", "a", "b", "--config", "p"]).2 = d := by
  obtain ⟨a, e, source, c, f, image, ha, hsource, -, hc, himage, hsize⟩ :=
    Container.exists_toImage_twice_oneMethod ⟨false, true, true, true⟩ ⟨true, true⟩
  obtain ⟨-, -, hpolicy, -⟩ := Container.isAccepted_of_ofImage (hc .stored)
  rw [Container.setPolicy, if_pos (show c.policy = ⟨true, true⟩ from hpolicy)] at himage
  have hpath : IsPath "a" ∧ IsPath "b" ∧ IsPath "o" ∧ IsPath "p" := by
    simp only [isPath_iff]
    decide
  obtain ⟨ha', hb', ho', hp'⟩ := hpath
  have hspells : Spells ["--in-place", "--canonical", "--normalize-registers"] true
      ["a", "--in-place", "b", "--config", "o", "--normalize-registers"] ["a", "b"]
      ["--in-place", "--normalize-registers"] (some "o") :=
    .path ha' (.switch (by decide) (by decide) (.path hb' (.config rfl ho'
      (.switch (by decide) (by decide) .nil))))
  have hmerges : Merges ["--in-place", "--normalize-registers"] ⟨true, true, false, true⟩
      ⟨false, true, true, true⟩ := merges_iff.2 rfl
  have hread : (withSortingText source).read "a" = .ok source :=
    read_eq_ok nameOf?_names.1 (by simp [withSortingText])
  obtain ⟨hends, hexit, -⟩ := runArguments_layOut {} (withSortingText source) hspells
  have hexit := hexit (Option.isSome_iff_exists.2 ⟨_, nameOf?_names.2.1⟩) image
    ⟨_, _, source, c, f, configures_sortingText source, hmerges, hread, hc .stored, himage⟩
  obtain ⟨image', hproduces, hout, hverify, hinfo⟩ := hends hexit
  obtain ⟨source', c', f', hsource', hc', himage'⟩ :=
    hproduces.exists_of_configures (configures_sortingText source) hmerges
  obtain rfl := Except.ok.inj (hread.symm.trans hsource')
  obtain rfl := Except.ok.inj ((hc .stored).symm.trans hc')
  obtain ⟨rfl, rfl⟩ := Prod.mk.inj (Except.ok.inj (himage.symm.trans himage'))
  have hmissing : Misconfigures {} (withSortingText source).read (some "p") :=
    .missing (read_eq_error nameOf?_names.2.2.2 (by simp [withSortingText]))
  obtain ⟨-, -, hfails⟩ := runArguments_layOut {} (withSortingText source)
    (.path ha' (.path hb' (.config rfl hp' .nil)))
  obtain ⟨hfailed, hsame⟩ := hfails (.misconfigured hmissing)
  exact ⟨a, e, c, f, source, image, ha, hsource, hc .stored, himage, hsize, hexit, hout,
    hverify {} ["b"] (.path hb' .nil),
    hinfo (by rw [hsize]; decide) {} ["--json", "b"] ["--json"]
      (.switch (by decide) (by decide) (.path hb' .nil)), hfailed, hsame⟩

end Directory

end DexContainer
