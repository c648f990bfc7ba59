import ScriptCompiler.Proofs.Build.Descent

/-!
# Tours of a tree

A tour of a directory is what a walk has to visit: the directory and every entry that directories
alone lead to, once and in the order of their names' bytes, so every directory before what is in it.
It is a list fixed by the file system. A walk makes the visits of the tour one after the other, and
stops short of its end only at a directory that cannot be opened (`walk_tours`).
-/

namespace ScriptCompiler.Build

open FileSystem

variable {fs : FileSystem} {root : Path} {loc : Location}

/-- The names lead from a directory to an entry, and every entry on the way is a directory. -/
inductive Reached (fs : FileSystem) (loc : Location) : List String → Prop
  | start : Reached fs loc []
  | entry {names : List String} {name : String} : Reached fs loc names →
      fs.get? (loc ++ names) = some .directory → (fs.get? (loc ++ names ++ [name])).isSome →
      Reached fs loc (names ++ [name])

theorem reached_iff (hfs : fs.WellFormed) (hloc : fs.get? loc = some .directory)
    {names : List String} : Reached fs loc names ↔ (fs.get? (loc ++ names)).isSome := by
  constructor
  · intro h
    cases h with
    | start => rw [List.append_nil, hloc]; rfl
    | entry _ _ hsome => rwa [← List.append_assoc]
  · induction names using List.reverseRecOn with
    | nil => exact fun _ => .start
    | append_singleton names name ih =>
      intro hsome
      rw [← List.append_assoc] at hsome
      have hdir := (hfs.parent hsome).2
      exact .entry (ih (by rw [hdir]; rfl)) hdir hsome

/-- The entry counts as a directory: it is one, or a link whose path leads to one. -/
def CountsAsDirectory (fs : FileSystem) (root : Path) (loc : Location) (names : List String) :
    Prop :=
  fs.get? (loc ++ names) = some .directory ∨
    (∃ target, fs.get? (loc ++ names) = some (.link target)) ∧
      fs.isDirectory (root.join (.ofNames names)) = true

/-- The visits of a complete walk through the directory at `loc`, which the path `root` leads to. -/
structure IsTour (fs : FileSystem) (root : Path) (loc : Location) (tour : List Visit) : Prop where
  starts : tour.head? = some (.directory [])
  increasing : (tour.map Visit.relative).Pairwise Location.Before
  nodup : (tour.map Visit.relative).Nodup
  mem_iff {names : List String} : names ∈ tour.map Visit.relative ↔ Reached fs loc names
  directory_iff {names : List String} : .directory names ∈ tour ↔
    Reached fs loc names ∧ CountsAsDirectory fs root loc names
  file_iff {path : Path} {names : List String} : .file path names ∈ tour ↔
    Reached fs loc names ∧ ¬ CountsAsDirectory fs root loc names ∧
      path = root.join (.ofNames names)
  /-- The directory that an entry is in is visited before it. -/
  parent_first {before after : List Visit} {visit : Visit} : tour = before ++ visit :: after →
    visit.relative ≠ [] → .directory visit.relative.dropLast ∈ before
  /-- Nothing is visited by way of a link. -/
  not_below_link {names more : List String} {target : Path} :
    fs.get? (loc ++ names) = some (.link target) → more ≠ [] →
    names ++ more ∉ tour.map Visit.relative

/-! ## The tour of a directory -/

/-- All that is at and below a location, visited in order. -/
def tourOf (fs : FileSystem) (root : Path) (loc : Location) : List Visit :=
  (atAndBelow fs loc).map (visitOf fs root)

theorem pairwise_tourOf (fs : FileSystem) (root : Path) (loc : Location) :
    (tourOf fs root loc).Pairwise fun a b => Location.order a.relative b.relative = .lt := by
  rw [tourOf, List.pairwise_map]
  refine (pairwise_atAndBelow fs loc).imp fun hlt => ?_
  rwa [relative_visitOf, relative_visitOf, ← Location.order_append_left loc]

section

variable (hloc : fs.get? loc = some .directory)
include hloc

theorem mem_tourOf {visit : Visit} : visit ∈ tourOf fs root loc ↔ ∃ names entry,
    fs.get? (loc ++ names) = some entry ∧ visitOf fs root (names, entry) = visit := by
  rw [tourOf, List.mem_map]
  constructor
  · rintro ⟨⟨names, entry⟩, hmem, hvisit⟩
    exact ⟨names, entry, (mem_atAndBelow hloc).mp hmem, hvisit⟩
  · rintro ⟨names, entry, hget, hvisit⟩
    exact ⟨(names, entry), (mem_atAndBelow hloc).mpr hget, hvisit⟩

theorem mem_relative_tourOf {names : List String} :
    names ∈ (tourOf fs root loc).map Visit.relative ↔ (fs.get? (loc ++ names)).isSome := by
  rw [List.mem_map, Option.isSome_iff_exists]
  constructor
  · rintro ⟨visit, hmem, rfl⟩
    obtain ⟨names, entry, hget, rfl⟩ := (mem_tourOf hloc).mp hmem
    rw [relative_visitOf]
    exact ⟨entry, hget⟩
  · rintro ⟨entry, hget⟩
    exact ⟨_, (mem_tourOf hloc).mpr ⟨names, entry, hget, rfl⟩, relative_visitOf _⟩

end

/-- How an entry is visited. -/
theorem visitOf_cases {names : List String} {entry : Entry}
    (hget : fs.get? (loc ++ names) = some entry) :
    CountsAsDirectory fs root loc names ∧ visitOf fs root (names, entry) = .directory names ∨
      ¬ CountsAsDirectory fs root loc names ∧
        visitOf fs root (names, entry) = .file (root.join (.ofNames names)) names := by
  unfold CountsAsDirectory
  rw [hget]
  cases entry with
  | directory => exact .inl ⟨.inl rfl, rfl⟩
  | file contents =>
    refine .inr ⟨?_, rfl⟩
    rintro (h | ⟨⟨target, h⟩, -⟩) <;> cases h
  | link target =>
    simp only [visitOf, visitLink]
    split
    · next hdir => exact .inl ⟨.inr ⟨⟨target, rfl⟩, hdir⟩, rfl⟩
    · next hdir =>
      refine .inr ⟨?_, rfl⟩
      rintro (h | ⟨-, h⟩)
      · cases h
      · exact hdir h

theorem directory_mem_tourOf (hloc : fs.get? loc = some .directory) {names : List String} :
    .directory names ∈ tourOf fs root loc ↔
      (fs.get? (loc ++ names)).isSome ∧ CountsAsDirectory fs root loc names := by
  rw [mem_tourOf hloc, Option.isSome_iff_exists]
  constructor
  · rintro ⟨names', entry, hget, hvisit⟩
    obtain rfl : names' = names := (relative_visitOf _).symm.trans (congrArg Visit.relative hvisit)
    rcases visitOf_cases hget with ⟨hcounts, -⟩ | ⟨-, hfile⟩
    · exact ⟨⟨entry, hget⟩, hcounts⟩
    · cases hfile.symm.trans hvisit
  · rintro ⟨⟨entry, hget⟩, hcounts⟩
    rcases visitOf_cases hget with ⟨-, hvisit⟩ | ⟨hnot, -⟩
    · exact ⟨names, entry, hget, hvisit⟩
    · exact absurd hcounts hnot

theorem file_mem_tourOf (hloc : fs.get? loc = some .directory) {path : Path}
    {names : List String} : .file path names ∈ tourOf fs root loc ↔
      (fs.get? (loc ++ names)).isSome ∧ ¬ CountsAsDirectory fs root loc names ∧
        path = root.join (.ofNames names) := by
  rw [mem_tourOf hloc, Option.isSome_iff_exists]
  constructor
  · rintro ⟨names', entry, hget, hvisit⟩
    obtain rfl : names' = names := (relative_visitOf _).symm.trans (congrArg Visit.relative hvisit)
    rcases visitOf_cases hget with ⟨-, hdir⟩ | ⟨hnot, hfile⟩
    · cases hdir.symm.trans hvisit
    · cases hfile.symm.trans hvisit
      exact ⟨⟨entry, hget⟩, hnot, rfl⟩
  · rintro ⟨⟨entry, hget⟩, hnot, rfl⟩
    rcases visitOf_cases hget with ⟨hcounts, -⟩ | ⟨-, hvisit⟩
    · exact absurd hcounts hnot
    · exact ⟨names, entry, hget, hvisit⟩

/-- Whatever is in a directory comes after it. -/
theorem parent_first_tourOf (hfs : fs.WellFormed) (hloc : fs.get? loc = some .directory)
    {before after : List Visit} {visit : Visit}
    (hsplit : tourOf fs root loc = before ++ visit :: after) (hne : visit.relative ≠ []) :
    .directory visit.relative.dropLast ∈ before := by
  have hvisit : visit.relative ∈ (tourOf fs root loc).map Visit.relative :=
    List.mem_map_of_mem (by rw [hsplit]; simp)
  have hdir := hfs.directory_of_append hne ((mem_relative_tourOf hloc).mp hvisit)
  have hparent : .directory visit.relative.dropLast ∈ tourOf fs root loc :=
    (directory_mem_tourOf hloc).mpr ⟨by rw [hdir]; rfl, .inl hdir⟩
  have horder := pairwise_tourOf fs root loc
  rw [hsplit, List.pairwise_append, List.pairwise_cons] at horder
  rw [hsplit, List.mem_append, List.mem_cons] at hparent
  rcases hparent with hmem | heq | hmem
  · exact hmem
  · have hlength : visit.relative.dropLast.length = visit.relative.length :=
      congrArg (·.relative.length) heq
    have hpos := List.length_pos_iff.mpr hne
    rw [List.length_dropLast] at hlength
    omega
  · exact absurd (horder.2.1.1 _ hmem) (Location.order_dropLast [] visit.relative)

theorem isTour_tourOf (hfs : fs.WellFormed) (hloc : fs.get? loc = some .directory) (root : Path) :
    IsTour fs root loc (tourOf fs root loc) where
  starts := rfl
  increasing := by
    rw [List.pairwise_map]
    exact (pairwise_tourOf fs root loc).imp Location.before_of_order
  nodup := by
    rw [List.Nodup, List.pairwise_map]
    refine (pairwise_tourOf fs root loc).imp fun hlt heq => ?_
    rw [heq, Location.order_self] at hlt
    cases hlt
  mem_iff {names} := by rw [reached_iff hfs hloc, mem_relative_tourOf hloc]
  directory_iff {names} := by rw [reached_iff hfs hloc, directory_mem_tourOf hloc]
  file_iff {path names} := by rw [reached_iff hfs hloc, file_mem_tourOf hloc]
  parent_first := parent_first_tourOf hfs hloc
  not_below_link {names more target} hlink hmore hmem := by
    rw [mem_relative_tourOf hloc, ← List.append_assoc] at hmem
    have hdir := hfs.directory_above hmore hmem
    rw [hlink] at hdir
    cases hdir

/-! ## Walks and tours -/

/-- A walk makes its visits in order, and possibly not all of them. -/
theorem visits_isPrefix (fs : FileSystem) (root : Path) (entries : List (List String × Entry)) :
    (walkEntries fs root entries).visits <+: entries.map (visitOf fs root) := by
  induction entries with
  | nil => exact List.prefix_rfl
  | cons entry entries ih =>
    obtain ⟨names, entry⟩ := entry
    rw [List.map_cons]
    cases entry with
    | directory =>
      rw [walkEntries_directory]
      split
      · exact (List.prefix_cons_inj _).mpr ih
      · exact ⟨entries.map (visitOf fs root), rfl⟩
    | link target => exact (List.prefix_cons_inj _).mpr ih
    | file contents => exact (List.prefix_cons_inj _).mpr ih

theorem exists_of_failure {entries : List (List String × Entry)} {e : BuildError}
    (h : (walkEntries fs root entries).failure = some e) : ∃ path cause, e = .walk path cause := by
  induction entries with
  | nil => cases h
  | cons entry entries ih =>
    obtain ⟨names, entry⟩ := entry
    cases entry with
    | directory =>
      rw [walkEntries_directory] at h
      split at h
      · exact ih h
      · exact ⟨_, _, (Option.some.inj h).symm⟩
    | link target => exact ih h
    | file contents => exact ih h

theorem exists_openDirectory (h : fs.isDirectory root = true) :
    ∃ loc, fs.openDirectory root = .ok loc ∧ fs.resolve root = .ok (loc, .directory) := by
  unfold isDirectory at h
  split at h
  · next loc hresolve => exact ⟨loc, by rw [openDirectory, hresolve]; rfl, hresolve⟩
  · cases h

/-- A walk through a directory goes down it and comes to an end, and its visits are a tour of the
directory, or the first visits of one. -/
theorem walk_tours (hfs : fs.WellFormed) (hroot : fs.isDirectory root = true) :
    ∃ loc tour, fs.openDirectory root = .ok loc ∧ IsTour fs root loc tour ∧
      (∃ visited, Enters fs root [] visited ∧ walk fs root = visited.cons (.directory [])) ∧
      ((walk fs root).failure = none → (walk fs root).visits = tour) ∧
      ∀ e, (walk fs root).failure = some e →
        (∃ path cause, e = .walk path cause) ∧ (walk fs root).visits <+: tour := by
  obtain ⟨loc, hopen, hresolve⟩ := exists_openDirectory hroot
  have hloc := (resolve_eq_ok_iff.mp hresolve).2
  have hwalk : walk fs root = (walkEntries fs root (fs.below loc)).cons (.directory []) := by
    rw [walk, hresolve]
  have henters := enters_walkEntries hfs (List.forall_mem_nil IsName) hopen
  rw [placed_nil] at henters
  refine ⟨loc, tourOf fs root loc, hopen, isTour_tourOf hfs hloc root, ⟨_, henters, hwalk⟩, ?_, ?_⟩
  · intro h
    rw [hwalk] at h ⊢
    exact congrArg (.directory [] :: ·) (visits_walkEntries h)
  · intro e h
    rw [hwalk] at h ⊢
    exact ⟨exists_of_failure h, (List.prefix_cons_inj _).mpr (visits_isPrefix fs root _)⟩

/-- A directory with a link in it, one directory down, that leads back to it. -/
def linkedBack : FileSystem :=
  (((fresh.put ["work", "s"] .directory).put ["work", "s", "a"] .directory).put
    ["work", "s", "a", "up"] (.link ⟨".."⟩)).put ["work", "s", "b"] (.file (.ofText "x"))

theorem linkedBack_wellFormed : linkedBack.WellFormed := by
  have hs : (fresh.put ["work", "s"] .directory).WellFormed :=
    fresh_wellFormed.put (show fresh.get? ["work"] = _ by simp [get?_fresh])
      (show IsName "s" by decide) (by simp [get?_fresh]) _
  have ha : ((fresh.put ["work", "s"] .directory).put ["work", "s", "a"] .directory).WellFormed :=
    hs.put (show (fresh.put ["work", "s"] .directory).get? ["work", "s"] = _ by simp [get?_put])
      (show IsName "a" by decide) (by simp [get?_put, get?_fresh]) _
  have hup : (((fresh.put ["work", "s"] .directory).put ["work", "s", "a"] .directory).put
      ["work", "s", "a", "up"] (.link ⟨".."⟩)).WellFormed :=
    ha.put (show ((fresh.put ["work", "s"] .directory).put ["work", "s", "a"] _).get?
      ["work", "s", "a"] = _ by simp [get?_put]) (show IsName "up" by decide)
      (by simp [get?_put, get?_fresh]) _
  exact hup.put (show (((fresh.put ["work", "s"] .directory).put ["work", "s", "a"] _).put
    ["work", "s", "a", "up"] _).get? ["work", "s"] = _ by simp [get?_put])
    (show IsName "b" by decide) (by simp [get?_put, get?_fresh]) _

theorem walk_tours_linkedBack :
    linkedBack.WellFormed ∧ linkedBack.isDirectory ⟨"s"⟩ = true ∧ ∃ loc,
      IsTour linkedBack ⟨"s"⟩ loc [.directory [], .directory ["a"], .directory ["a", "up"],
        .file ⟨"s/b"⟩ ["b"]] := by
  have hroot : linkedBack.isDirectory ⟨"s"⟩ = true := by decide +kernel
  have hends : (walk linkedBack ⟨"s"⟩).failure.isNone = true := by decide +kernel
  have hvisits : (walk linkedBack ⟨"s"⟩).visits = [.directory [], .directory ["a"],
      .directory ["a", "up"], .file ⟨"s/b"⟩ ["b"]] := by decide +kernel
  obtain ⟨loc, tour, -, htour, -, hwalk, -⟩ := walk_tours linkedBack_wellFormed hroot
  rw [← hwalk (Option.isNone_iff_eq_none.mp hends), hvisits] at htour
  exact ⟨linkedBack_wellFormed, hroot, loc, htour⟩

end ScriptCompiler.Build
