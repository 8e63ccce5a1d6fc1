import Mathlib.Data.List.Permutation
import DexContainer.Container.Interning
import DexContainer.Container.Placement
import DexContainer.Proofs.Item.CodeOffsets
import DexContainer.Proofs.Item.Takes
import DexContainer.Proofs.Section.Standing

/-! Content that was read does not grow when it is written again. An image may hold longer forms
than a writer uses, but the length of an item depends on the positions of other items too: on the
indices that it names and, in class data, on the offsets of code. Main statement:
`Container.size_le_of_decode`, an item is no longer than what was read for it in a container in
which the indices and the code that it names have the positions that were read. -/

namespace DexContainer

variable {k : Kind} {image : Image} {keeps : Bool} {s t : Source} {r : References} {c : Container}
  {ρ : Renaming}

/-- An item is no longer than the place where it stands when its numbers are written again. -/
theorem Content.StandsAt.exists_size_le {start finish : Nat} {x : Content k}
    (h : StandsAt image keeps k start finish x) :
    ∃ n, size .numbers k x = .ok n ∧ start + n ≤ finish := by
  obtain ⟨r, r', -, hself, hread⟩ := h.exists_decode_self
  have htakes : Takes (fun _ h => h) start (decode k) fun x bs => (size .numbers k x).FitsIn bs :=
    Content.takes fun _ _ => rfl
  obtain ⟨-, bs, -, hfinish, hsize⟩ := htakes _ _ _ hread rfl
  obtain ⟨n, hn, hle⟩ := hsize hself
  exact ⟨n, hn, (Nat.add_le_add_left hle start).trans_eq hfinish.symm⟩

/-! ### Positions that were read -/

/-- The handle was given out for a number of the image. -/
def References.StandsFor (r : References) (k : Kind) (h : Handle k) (n : Nat) : Prop :=
  if k.isIndexed then h.id = n else r.slots[(k, n)]? = some h.id

theorem References.Met.standsFor {h : Handle k} (hmet : r.Met k h) :
    r.StandsFor k (r.handleOf k h) h.id := by
  rw [References.Met] at hmet
  rw [StandsFor]
  split
  · rename_i hk
    exact congrArg Handle.id ((names_handleOf r).index hk h)
  · rename_i hk
    rw [if_neg hk] at hmet
    obtain ⟨i, hi⟩ := hmet
    rw [(names_handleOf r).offset (by simpa using hk) hi, hi]

/-- An item that is named by index, or code, has the position in the container that was read for
its handle. -/
def Container.KeepsNumber (c : Container) (r : References) : HandleProperty := fun k h =>
  k.isIndexed = true ∨ k = .code → ∀ n, r.StandsFor k h n → c.position? h = some n

theorem Container.KeepsNumber.measures {h : Handle k} (hh : c.KeepsNumber r k (ρ k h))
    (hnumber : k.isIndexed = true ∨ k = .code → r.StandsFor k (ρ k h) h.id) :
    Places.numbers.Measures c.places ρ k h := by
  intro hk
  have hk : k.isIndexed = true ∨ k = .code := by
    revert hk
    cases k <;> decide
  exact Places.agrees_of_position? rfl (hh hk _ (hnumber hk))

/-- An index is its own handle. -/
theorem Container.measures_of_notCode {hs : List AnyHandle} (hx : Each (c.KeepsNumber r) hs)
    (hs' : Each NotCode hs) : Each (Places.numbers.Measures c.places fun _ h => h) hs := by
  intro g hg
  refine (hx g hg).measures fun hk => ?_
  rw [References.StandsFor, if_pos (hk.resolve_right (hs' g hg))]

/-! ### Lengths -/

theorem Content.size_eq_of_ne_classData {x : Content k} (hk : k ≠ .classData)
    (hx : Each (c.KeepsNumber r) (handles k x)) : size c.places k x = size .numbers k x := by
  have hsize := size_rename (Container.measures_of_notCode hx (each_notCode hk x))
  rwa [rename_id] at hsize

/-- The members of a class name code by offset, so they have other handles than numbers. -/
theorem ClassData.size_eq {x : ClassData} (hmet : Each r.Met x.handles)
    (hx : Each (c.KeepsNumber r) (x.rename r.handleOf).handles) :
    (x.rename r.handleOf).size c.places = x.size .numbers := by
  refine size_rename fun g hg => ?_
  exact (each_handles_rename.1 hx g hg).measures fun _ => (hmet g hg).standsFor

theorem Content.exists_size_le_of_decode {x : Content k} (h : decode k s = .ok x t)
    (hx : Each (c.KeepsNumber t.references) (handles k x)) :
    ∃ n, size c.places k x = .ok n ∧ s.position + n ≤ t.position := by
  -- the numbers of code are not its handles, so class data is read once more with its numbers
  by_cases hk : k = .classData
  · subst hk
    obtain ⟨y, hy, hmet, rfl⟩ := exists_standsAt_of_decode h
    obtain ⟨n, hn, hle⟩ := hy.exists_size_le
    exact ⟨n, (ClassData.size_eq hmet hx).trans hn, hle⟩
  · obtain ⟨-, bs, -, hfinish, hsize⟩ := Content.takes (fun h => absurd h hk) s x t h rfl
    obtain ⟨n, hn, hle⟩ := hsize (References.names_handleOf _)
    refine ⟨n, (size_eq_of_ne_classData hk hx).trans hn, ?_⟩
    exact (Nat.add_le_add_left hle s.position).trans_eq hfinish.symm

theorem Code.handlerOffsets_eq {x : Code} (hx : Each (c.KeepsNumber r) x.handles) :
    x.handlerOffsets c.places = .ok (leastOffsets x.handlers) := by
  have hcode : Each NotCode x.handles := Content.each_notCode (k := .code) (by decide) x
  have hmeasures := Container.measures_of_notCode hx hcode
  have hoffsets := handlerOffsets_rename (each_handles.1 hmeasures).2
  rw [rename_id] at hoffsets
  rw [hoffsets, handlerOffsets_numbers]

/-- An item that was read, of whatever kind and whatever references were met before, has a length in
a container, and is written in no more bytes than were read for it, if every item that it names by
index has the index there that was read and, for class data, every body of code the offset that was
read. The handler of every guarded range of a method body is written no further back than the 16-bit
offset in the image tells, so its offset fits into its field. -/
theorem Container.size_le_of_decode (c : Container) {s t : Source} :
    (∀ (k : Kind) (x : Content k), Content.decode k s = .ok x t →
      Each (c.KeepsNumber t.references) (Content.handles k x) →
        ∃ n, Content.size c.places k x = .ok n ∧ s.position + n ≤ t.position ∧
          ∀ bs, Content.write c.places k x = .ok bs → bs.length = n) ∧
    ∀ x : Code, Code.decode s = .ok x t → Each (c.KeepsNumber t.references) x.handles →
      ∃ offsets, x.handlerOffsets c.places = .ok offsets ∧ ∀ i r, x.ranges[i]? = some r →
        ∃ offset, offsets[r.handler]? = some offset ∧
          offset ≤ Code.storedOffset (s.rest.drop x.rangesStart) i ∧ offset < 2 ^ 16 := by
  constructor
  · intro k x h hx
    obtain ⟨n, hn, hle⟩ := Content.exists_size_le_of_decode h hx
    refine ⟨n, hn, hle, fun bs hbs => ?_⟩
    cases hn.symm.trans (Content.size_of_write hbs)
    rfl
  · intro x h hx
    refine ⟨_, Code.handlerOffsets_eq hx, fun i r hr => ?_⟩
    obtain ⟨offset, hoffset, hle⟩ := Code.offsetsWithin_of_decode h i r hr
    exact ⟨offset, hoffset, hle, Nat.lt_of_le_of_lt hle (Code.storedOffset_lt _ i)⟩

/-- A method body that catches a type, and the members of a class that name a body, both read from
numbers in longer forms than a writer uses. -/
theorem Container.size_le_of_decode_overlong : ∃ (c : Container) (body members : Array UInt8)
    (x : Code) (y : ClassData) (t u : Source), c.stage.isPlaced = true ∧
    body = #[1, 0, 0, 0, 0, 0, 1, 0, 0, 0, 0, 0, 1, 0, 0, 0, 0x0e, 0, 0, 0, 0, 0, 0, 0, 1, 0, 2, 0,
      0x81, 0, 1, 0x80, 0, 5] ∧
    Code.decode { image := body } = .ok x t ∧ t.position = 34 ∧
    (∃ n, Content.size c.places .code x = .ok n ∧ n ≤ 34) ∧
    (∃ offsets, x.handlerOffsets c.places = .ok offsets ∧
      ∃ offset, offsets[0]? = some offset ∧ offset ≤ 2) ∧
    members = #[0, 0, 1, 0, 0x80, 0, 9, 0x90, 0x81, 0] ∧
    ClassData.decode { image := members } = .ok y u ∧ u.position = 10 ∧ y.codes = [⟨0⟩] ∧
    ∃ n, Content.size c.places .classData y = .ok n ∧ n ≤ 10 := by
  have hplace : ((empty {}).internType "V" >>= fun b =>
      b.1.intern (k := .protoId) ⟨⟨0⟩, ⟨0⟩, none⟩ >>= fun b =>
      b.1.intern (k := .methodId) ⟨⟨0⟩, ⟨0⟩, ⟨0⟩⟩ >>= fun b =>
      b.1.intern (k := .code) ⟨1, 0, 0, none, [0x000e], [], []⟩ >>= fun b =>
      (fun d => (d.1.stage.isPlaced, d.1.position? (k := .typeId) ⟨0⟩,
        d.1.position? (k := .methodId) ⟨0⟩, d.1.position? (k := .code) ⟨0⟩)) <$> b.1.place) =
      .ok (true, some 0, some 0, some 144) := by
    cbv
  obtain ⟨b, -, hplace⟩ := bind_eq_ok.1 hplace
  obtain ⟨b, -, hplace⟩ := bind_eq_ok.1 hplace
  obtain ⟨b, -, hplace⟩ := bind_eq_ok.1 hplace
  obtain ⟨b, -, hplace⟩ := bind_eq_ok.1 hplace
  obtain ⟨⟨c, fileSize⟩, -, heq⟩ := map_eq_ok.1 hplace
  simp only [Prod.mk.injEq] at heq
  obtain ⟨hstage, htype, hmethod, hcode⟩ := heq
  obtain ⟨body, hbody⟩ : ∃ body : Array UInt8, body = #[1, 0, 0, 0, 0, 0, 1, 0, 0, 0, 0, 0,
    1, 0, 0, 0, 0x0e, 0, 0, 0, 0, 0, 0, 0, 1, 0, 2, 0, 0x81, 0, 1, 0x80, 0, 5] := ⟨_, rfl⟩
  obtain ⟨members, hmembers⟩ : ∃ members : Array UInt8,
    members = #[0, 0, 1, 0, 0x80, 0, 9, 0x90, 0x81, 0] := ⟨_, rfl⟩
  obtain ⟨t, hx, ht⟩ : ∃ t, Code.decode { image := body } =
      .ok ⟨1, 0, 0, none, [0x000e], [⟨0, 1, 0⟩], [⟨[(⟨0⟩, 5)], none⟩]⟩ t ∧ t.position = 34 := by
    rw [hbody]
    exact Decoder.exists_of_run' (by decide +kernel)
  have hy : ClassData.decode { image := members } = .ok ⟨[], [], [⟨⟨0⟩, 9, some ⟨0⟩⟩], []⟩
      { image := members, position := 10
        references := (({} : References).reserve .code 144).2.note .methodId 0 } := by
    rw [hmembers]
    cbv
  have htype (r : References) : c.KeepsNumber r .typeId ⟨0⟩ := fun _ n hn => hn ▸ htype
  have hmethod (r : References) : c.KeepsNumber r .methodId ⟨0⟩ := fun _ n hn => hn ▸ hmethod
  have hcode : c.KeepsNumber (({} : References).reserve .code 144).2 .code ⟨0⟩ := by
    intro _ n hn
    rcases References.slots_meet (h := ⟨.code, ⟨144⟩⟩) hn with hn | ⟨-, heq⟩
    · exact absurd hn (by simp)
    · cases heq
      exact hcode
  obtain ⟨hsize, hoffsets⟩ := size_le_of_decode c (s := { image := body })
  obtain ⟨offsets, hoffsets, hranges⟩ := hoffsets _ hx (each_cons.2 ⟨htype _, each_nil⟩)
  obtain ⟨offset, hoffset, hle, -⟩ := hranges 0 _ rfl
  obtain ⟨n, hn, hlen, -⟩ := hsize .code _ hx (each_cons.2 ⟨htype _, each_nil⟩)
  obtain ⟨hsize', -⟩ := size_le_of_decode c (s := { image := members })
  obtain ⟨m, hm, hlen', -⟩ :=
    hsize' .classData _ hy (each_cons.2 ⟨hmethod _, each_cons.2 ⟨hcode, each_nil⟩⟩)
  refine ⟨c, body, members, _, _, _, _, hstage, hbody, hx, ht, ⟨n, hn, by simpa [ht] using hlen⟩,
    ⟨offsets, hoffsets, offset, hoffset, ?_⟩, hmembers, hy, rfl, rfl, m, hm, by simpa using hlen'⟩
  rw [hbody] at hle
  exact hle.trans (by decide)

end DexContainer
