import Mathlib.Data.List.Induction
import ScriptCompiler.Build.Walk
import ScriptCompiler.Proofs.Build.Outputs

/-!
# What a walk visits

A walk that ends well visits every entry below its root once, each under the names that lead there
(`visits_walkEntries`). In a well-formed file system it is `Orderly`: a directory is visited before
what is in it, and the names are ones that entries can have.
-/

namespace ScriptCompiler

namespace Location

/-- A directory comes before what is below it. -/
theorem order_append (loc : Location) {names : List String} (hne : names ≠ []) :
    order loc (loc ++ names) = .lt := by
  obtain ⟨name, names, rfl⟩ := List.exists_cons_of_ne_nil hne
  unfold order
  induction loc with
  | nil => exact List.compareLex_nil_cons
  | cons a loc ih =>
    have hself : compare a a = .eq := Std.ReflCmp.compare_self
    rw [List.cons_append, List.compareLex_cons_cons, hself]
    exact ih

theorem order_self (loc : Location) : order loc loc = .eq := Std.ReflCmp.compare_self

theorem order_dropLast (loc : Location) (names : List String) :
    order (loc ++ names) (loc ++ names.dropLast) ≠ .lt := by
  by_cases hnil : names = []
  · simp [hnil, order_self]
  · have hlt := order_append (loc ++ names.dropLast) (List.cons_ne_nil (names.getLast hnil) [])
    rw [List.append_assoc, List.dropLast_concat_getLast hnil] at hlt
    exact Std.OrientedCmp.not_lt_of_lt hlt

/-- A list in the order of locations is told by what is in it. -/
theorem eq_of_ordered {key : α → Location} {l l' : List α}
    (h : l.Pairwise fun a b => order (key a) (key b) = .lt)
    (h' : l'.Pairwise fun a b => order (key a) (key b) = .lt) (hmem : ∀ a, a ∈ l ↔ a ∈ l') :
    l = l' := by
  have hnodup : ∀ {l : List α},
      (l.Pairwise fun a b => order (key a) (key b) = .lt) → l.Nodup := by
    refine fun h => h.imp ?_
    rintro a b hlt rfl
    rw [order_self] at hlt
    cases hlt
  have hperm : l.Perm l' := (List.perm_ext_iff_of_nodup (hnodup h) (hnodup h')).mpr hmem
  refine hperm.eq_of_pairwise ?_ h h'
  intro a b _ _ hlt hgt
  exact absurd hgt (Std.OrientedCmp.not_lt_of_lt hlt)

end Location

namespace FileSystem

variable {fs : FileSystem} {dir loc : Location} {names : List String}

theorem pairwise_below (fs : FileSystem) (dir : Location) :
    (fs.below dir).Pairwise fun a b => Location.order (dir ++ a.1) (dir ++ b.1) = .lt := by
  refine List.Pairwise.filterMap _ ?_ Std.ExtTreeMap.ordered_keys_toList
  rintro ⟨loc, entry⟩ ⟨loc', entry'⟩ hlt visit hvisit visit' hvisit'
  dsimp only at hvisit hvisit' hlt
  split at hvisit
  · next hrel =>
    split at hvisit'
    · next hrel' =>
      obtain rfl := Option.some.inj hvisit
      obtain rfl := Option.some.inj hvisit'
      rwa [Location.relativeTo_eq_some_iff.mp hrel, Location.relativeTo_eq_some_iff.mp hrel'] at hlt
    · cases hvisit'
  · cases hvisit

instance (name : String) : Decidable (IsName name) :=
  inferInstanceAs (Decidable (_ ∧ _))

namespace WellFormed

variable (hfs : fs.WellFormed)
include hfs

theorem isName (h : (fs.get? loc).isSome) : ∀ name ∈ loc, IsName name := by
  induction loc using List.reverseRecOn with
  | nil => simp
  | append_singleton dir last ih =>
    obtain ⟨hname, hdir⟩ := hfs.parent h
    intro name hmem
    rcases List.mem_append.mp hmem with hmem | hmem
    · exact ih (by rw [hdir]; rfl) name hmem
    · exact List.mem_singleton.mp hmem ▸ hname

/-- Nothing is below a vacant place. -/
theorem vacant_append (h : fs.get? loc = none) : fs.get? (loc ++ names) = none := by
  induction names using List.reverseRecOn with
  | nil => simpa using h
  | append_singleton front last ih =>
    rw [← List.append_assoc, ← Option.not_isSome_iff_eq_none]
    intro hsome
    have hdir := (hfs.parent hsome).2
    rw [ih] at hdir
    cases hdir

theorem directory_of_append (hne : names ≠ []) (h : (fs.get? (loc ++ names)).isSome) :
    fs.get? (loc ++ names.dropLast) = some .directory := by
  rw [← List.dropLast_concat_getLast hne, ← List.append_assoc] at h
  exact (hfs.parent h).2

/-- A new entry in a directory. -/
theorem put {name : String} (hdir : fs.get? dir = some .directory) (hname : IsName name)
    (hvacant : fs.get? (dir ++ [name]) = none) (entry : Entry) :
    (fs.put (dir ++ [name]) entry).WellFormed := by
  have hkeep : ∀ {loc : Location}, fs.get? loc = some .directory →
      (fs.put (dir ++ [name]) entry).get? loc = some .directory := by
    intro loc hloc
    have hne : dir ++ [name] ≠ loc := by rintro rfl; rw [hvacant] at hloc; cases hloc
    rw [get?_put, if_neg hne, hloc]
  refine ⟨hkeep hfs.root, ?_, hkeep hfs.workDir⟩
  intro dir' name' h
  rw [get?_put] at h
  split at h
  · next heq =>
    obtain ⟨rfl, rfl⟩ : dir = dir' ∧ name = name' := by simpa using List.append_inj' heq rfl
    exact ⟨hname, hkeep hdir⟩
  · obtain ⟨hname', hdir'⟩ := hfs.parent h
    exact ⟨hname', hkeep hdir'⟩

end WellFormed

end FileSystem

namespace Build

open FileSystem

/-! ## Entries -/

/-- The visit of an entry. -/
def visitOf (fs : FileSystem) (root : Path) : List String × Entry → Visit
  | (names, .directory) => .directory names
  | (names, .link _) => visitLink fs (root.join (.ofNames names)) names
  | (names, .file _) => .file (root.join (.ofNames names)) names

section Walks

variable {fs : FileSystem} {root : Path} {loc : Location} {names : List String}
  {entries : List (List String × Entry)}

theorem walkEntries_directory : walkEntries fs root ((names, .directory) :: entries) =
    match fs.openDirectory (root.join (.ofNames names)) with
    | .ok _ => (walkEntries fs root entries).cons (.directory names)
    | .error cause =>
      ⟨[.directory names], some (.walk (root.join (.ofNames names)) cause)⟩ := by
  rfl

theorem walkEntries_link {target : Path} : walkEntries fs root ((names, .link target) :: entries) =
    (walkEntries fs root entries).cons (visitLink fs (root.join (.ofNames names)) names) := by
  rfl

theorem walkEntries_file {contents : Contents} :
    walkEntries fs root ((names, .file contents) :: entries) =
      (walkEntries fs root entries).cons (.file (root.join (.ofNames names)) names) := by
  rfl

theorem visits_cons (visit : Visit) (visited : Walk) :
    (visited.cons visit).visits = visit :: visited.visits := rfl

@[simp]
theorem relative_visitOf (entry : List String × Entry) :
    (visitOf fs root entry).relative = entry.1 := by
  obtain ⟨names, entry⟩ := entry
  cases entry with
  | directory | file contents => rfl
  | link target =>
    simp only [visitOf, visitLink]
    split <;> rfl

theorem path_of_visitOf {entry : List String × Entry} {path : Path}
    (h : visitOf fs root entry = .file path names) : path = root.join (.ofNames names) := by
  obtain ⟨other, entry⟩ := entry
  cases entry with
  | directory => cases h
  | file contents =>
    cases h
    rfl
  | link target =>
    simp only [visitOf, visitLink] at h
    split at h
    · cases h
    · cases h
      rfl

/-- A walk that ends well has visited every entry. -/
theorem visits_walkEntries (h : (walkEntries fs root entries).failure = none) :
    (walkEntries fs root entries).visits = entries.map (visitOf fs root) := by
  induction entries with
  | nil => rfl
  | cons entry entries ih =>
    obtain ⟨names, entry⟩ := entry
    rw [List.map_cons]
    cases entry with
    | directory =>
      rw [walkEntries_directory] at h ⊢
      split at h
      · rw [visits_cons, ih h]
        rfl
      · cases h
    | link target =>
      rw [walkEntries_link] at h ⊢
      rw [visits_cons, ih h]
      rfl
    | file contents =>
      rw [walkEntries_file] at h ⊢
      rw [visits_cons, ih h]
      rfl

/-- The root of the walk, or all that is at and below it. -/
theorem visits_walk (h : (walk fs root).failure = none) :
    (∃ loc, fs.get? loc = some .directory ∧
      (walk fs root).visits = (([], .directory) :: fs.below loc).map (visitOf fs root)) ∨
    ∃ loc entry, fs.resolve root = .ok (loc, entry) ∧ entry ≠ .directory ∧
      (walk fs root).visits = [.file root root.fileName?.toList] := by
  unfold walk at h ⊢
  split at h
  · cases h
  · next loc hresolve =>
    rw [hresolve]
    refine .inl ⟨loc, (resolve_eq_ok_iff.mp hresolve).2, ?_⟩
    rw [visits_cons, visits_walkEntries h]
    rfl
  · next found hdir hresolve =>
    obtain ⟨loc, entry⟩ := found
    have hne : entry ≠ .directory := fun hentry => hdir loc (by rw [hentry])
    exact .inr ⟨loc, entry, hresolve, hne, rfl⟩

/-- A path to a file ends in its name. -/
theorem exists_fileName (hfs : fs.WellFormed) {entry : Entry}
    (h : fs.resolve root = .ok (loc, entry)) (hentry : entry ≠ .directory) :
    ∃ name, root.fileName? = some name ∧ IsUnitName name := by
  obtain ⟨hlocate, hget⟩ := resolve_eq_ok_iff.mp h
  obtain ⟨u, hcheck, hfollow⟩ := bind_eq_ok_iff.mp hlocate
  have hsteps := (List.dropLast_concat_getLast root.steps_ne_nil).symm
  generalize root.steps.getLast root.steps_ne_nil = last at hsteps
  rw [hsteps] at hfollow
  have hlast : ¬ (Path.isSilent last = true ∨ last = ".." ∧ fs.WellFormed) := by
    intro hlast
    have hdir := directory_of_follow hlast hfollow
    rw [hget] at hdir
    exact hentry (Option.some.inj hdir)
  have hsilent : Path.isSilent last = false := by simpa using fun h => hlast (.inl h)
  have hup : last ≠ ".." := fun h => hlast (.inr ⟨h, hfs⟩)
  have hmem : last ∈ root.steps := by rw [hsteps]; simp
  obtain ⟨hempty, hdot⟩ : last ≠ "" ∧ last ≠ "." := by simpa [Path.isSilent] using hsilent
  refine ⟨last, Path.fileName?_eq hsteps hsilent hup, ⟨hempty, Path.not_slash_of_mem_steps hmem⟩,
    hdot, hup, fun hnul => ?_⟩
  have htext := Path.mem_text_of_mem_steps hmem hnul
  rw [Path.check, if_pos htext] at hcheck
  cases hcheck

end Walks

/-! ## Orderly walks -/

theorem mem_directories {visited : Walk} {names : List String} :
    names ∈ visited.directories ↔ .directory names ∈ visited.visits := by
  unfold Walk.directories
  rw [List.mem_filterMap]
  constructor
  · rintro ⟨visit, hmem, h⟩
    cases visit with
    | directory relative => exact Option.some.inj h ▸ hmem
    | file path relative => cases h
  · exact fun h => ⟨_, h, rfl⟩

theorem mem_files {visited : Walk} {path : Path} {names : List String} :
    (path, names) ∈ visited.files ↔ .file path names ∈ visited.visits := by
  unfold Walk.files
  rw [List.mem_filterMap]
  constructor
  · rintro ⟨visit, hmem, h⟩
    cases visit with
    | directory relative => cases h
    | file path relative =>
      obtain ⟨rfl, rfl⟩ := Prod.mk.inj (Option.some.inj h)
      exact hmem
  · exact fun h => ⟨_, h, rfl⟩

/-- Nothing is visited twice, by its names or by its path. Everything is visited after the directory
that it is in, and has a name. The root of a walk need not be a directory. -/
structure Walk.Orderly (visited : Walk) : Prop where
  nodup : (visited.visits.map Visit.relative).Nodup
  directory_names {names : List String} :
    names ∈ visited.directories → ∀ name ∈ names, IsName name
  directory_parent {names : List String} :
    names ∈ visited.directories → names.dropLast ∈ visited.directories
  parents_first : visited.directories.Pairwise fun names later => names.dropLast ≠ later
  file_names {path : Path} {names : List String} :
    (path, names) ∈ visited.files → names ≠ [] ∧ ∀ name ∈ names, IsUnitName name
  file_parent {path : Path} {names : List String} :
    (path, names) ∈ visited.files → names.dropLast = [] ∨ names.dropLast ∈ visited.directories
  file_path {path : Path} {names names' : List String} :
    (path, names) ∈ visited.files → (path, names') ∈ visited.files → names = names'

theorem orderly_file {visited : Walk} {path : Path} {name : String} (h : IsUnitName name)
    (hvisits : visited.visits = [.file path [name]]) : visited.Orderly := by
  have hdirs : visited.directories = [] := by
    rw [Walk.directories, hvisits]
    rfl
  have hfiles : ∀ {p names}, (p, names) ∈ visited.files → names = [name] := by
    intro p names hmem
    rw [mem_files, hvisits, List.mem_singleton, Visit.file.injEq] at hmem
    exact hmem.2
  refine ⟨by simp [hvisits], ?_, ?_, ?_, ?_, ?_, ?_⟩
  · simp [hdirs]
  · simp [hdirs]
  · simp [hdirs]
  · intro p names hmem
    simp [hfiles hmem, h]
  · intro p names hmem
    simp [hfiles hmem]
  · intro p names names' hmem hmem'
    rw [hfiles hmem, hfiles hmem']

section Tree

variable {fs : FileSystem} {root : Path} {loc : Location} {names : List String}

/-- The entries at and below a location, each with the names that lead to it. -/
def atAndBelow (fs : FileSystem) (loc : Location) : List (List String × Entry) :=
  ([], .directory) :: fs.below loc

theorem mem_atAndBelow (hloc : fs.get? loc = some .directory) {entry : Entry} :
    (names, entry) ∈ atAndBelow fs loc ↔ fs.get? (loc ++ names) = some entry := by
  rw [atAndBelow, List.mem_cons, mem_below, Prod.mk.injEq]
  by_cases hnil : names = []
  · simp [hnil, hloc, eq_comm]
  · simp [hnil]

theorem pairwise_atAndBelow (fs : FileSystem) (loc : Location) :
    (atAndBelow fs loc).Pairwise fun a b =>
      Location.order (loc ++ a.1) (loc ++ b.1) = .lt := by
  refine List.pairwise_cons.mpr ⟨?_, pairwise_below fs loc⟩
  rintro ⟨names, entry⟩ hmem
  rw [List.append_nil]
  exact Location.order_append loc (mem_below.mp hmem).1

theorem orderly_directory {visited : Walk} (hfs : fs.WellFormed)
    (hloc : fs.get? loc = some .directory)
    (hvisits : visited.visits = (atAndBelow fs loc).map (visitOf fs root)) : visited.Orderly := by
  have hentry : ∀ {visit}, visit ∈ visited.visits →
      ∃ entry, fs.get? (loc ++ visit.relative) = some entry := by
    intro visit hmem
    rw [hvisits, List.mem_map] at hmem
    obtain ⟨⟨names, entry⟩, hmem, rfl⟩ := hmem
    exact ⟨entry, by rw [relative_visitOf]; exact (mem_atAndBelow hloc).mp hmem⟩
  have hdirectory : ∀ {names}, fs.get? (loc ++ names) = some .directory →
      names ∈ visited.directories := by
    intro names hget
    rw [mem_directories, hvisits]
    exact List.mem_map.mpr ⟨_, (mem_atAndBelow hloc).mpr hget, rfl⟩
  have hparent : ∀ {visit}, visit ∈ visited.visits →
      visit.relative.dropLast ∈ visited.directories := by
    intro visit hmem
    obtain ⟨entry, hget⟩ := hentry hmem
    by_cases hnil : visit.relative = []
    · rw [hnil]
      exact hdirectory (by simpa using hloc)
    · exact hdirectory (hfs.directory_of_append hnil (by rw [hget]; rfl))
  have hname : ∀ {visit}, visit ∈ visited.visits → ∀ name ∈ visit.relative, IsName name := by
    intro visit hmem name hname
    obtain ⟨entry, hget⟩ := hentry hmem
    exact hfs.isName (by rw [hget]; rfl) name (List.mem_append_right _ hname)
  have horder : visited.visits.Pairwise fun a b =>
      Location.order (loc ++ a.relative) (loc ++ b.relative) = .lt := by
    rw [hvisits, List.pairwise_map]
    simpa using pairwise_atAndBelow fs loc
  have hfile : ∀ {path names}, (path, names) ∈ visited.files →
      names ≠ [] ∧ path = root.join (.ofNames names) := by
    intro path names hmem
    rw [mem_files, hvisits, List.mem_map] at hmem
    obtain ⟨⟨names', entry⟩, hmem, hvisit⟩ := hmem
    obtain rfl : names' = names := (relative_visitOf _).symm.trans (congrArg Visit.relative hvisit)
    refine ⟨?_, path_of_visitOf hvisit⟩
    rintro rfl
    rw [mem_atAndBelow hloc, List.append_nil, hloc] at hmem
    obtain rfl := Option.some.inj hmem
    cases hvisit
  refine ⟨?_, ?_, ?_, ?_, ?_, ?_, ?_⟩
  · rw [List.Nodup, List.pairwise_map]
    refine horder.imp fun hlt heq => ?_
    rw [heq, Location.order_self] at hlt
    cases hlt
  · exact fun hmem => hname (mem_directories.mp hmem)
  · exact fun hmem => hparent (mem_directories.mp hmem)
  · refine List.Pairwise.filterMap _ ?_ horder
    intro a b hlt names ha later hb heq
    have hrelative : a.relative = names ∧ b.relative = later := by
      cases a <;> cases b <;> simp_all [Visit.relative]
    rw [hrelative.1, hrelative.2, ← heq] at hlt
    exact Location.order_dropLast loc names hlt
  · exact fun hmem => ⟨(hfile hmem).1,
      fun name hn => .of_isName (hname (mem_files.mp hmem) name hn)⟩
  · exact fun hmem => .inr (hparent (mem_files.mp hmem))
  · intro path names names' hmem hmem'
    have hsteps : ∀ {names}, (path, names) ∈ visited.files →
        path.steps = root.openSteps ++ names := by
      intro names hmem
      obtain ⟨hne, rfl⟩ := hfile hmem
      have hstep : ∀ name ∈ names, Path.IsStep name :=
        fun name hn => (IsUnitName.of_isName (hname (mem_files.mp hmem) name hn)).toIsStep
      rw [Path.steps_join root (Path.isAbsolute_ofNames hstep), Path.steps_ofNames hne hstep]
    exact List.append_cancel_left ((hsteps hmem).symm.trans (hsteps hmem'))

end Tree

/-- Walks that end well are orderly. -/
theorem orderly_walk {fs : FileSystem} (hfs : fs.WellFormed) {root : Path}
    (h : (walk fs root).failure = none) : (walk fs root).Orderly := by
  rcases visits_walk h with ⟨loc, hloc, hvisits⟩ | ⟨loc, entry, hresolve, hentry, hvisits⟩
  · exact orderly_directory hfs hloc hvisits
  · obtain ⟨name, hname, hunit⟩ := exists_fileName hfs hresolve hentry
    rw [hname] at hvisits
    exact orderly_file hunit hvisits

end Build

end ScriptCompiler
