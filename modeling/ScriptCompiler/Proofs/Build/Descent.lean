import ScriptCompiler.Proofs.Build.Visits
import ScriptCompiler.Proofs.Files.Making
import ScriptCompiler.Proofs.Text.Bytes

/-!
# Going down a tree

A walk passes over all that is below its root in one list. `Enters` says how a walk goes down
directory by directory: it opens a directory by its path, lists it, sorts the names by their bytes,
visits every entry and goes through a directory before it visits the next entry. The rules have no
bound on the depth, and links are the only way back up. Below a directory are its entries, each with
what is below it right behind (`below_eq`), so the walk is what some derivation of `Enters` visits
(`enters_walkEntries`): going down comes to an end in every file system.
-/

namespace ScriptCompiler

namespace Location

/-- The order of locations, name by name and byte by byte. -/
def Before (a b : Location) : Prop := List.Lex (fun x y => Text.bytesOf x < Text.bytesOf y) a b

theorem before_of_order {a b : Location} (h : order a b = .lt) : Before a b := by
  unfold order at h
  induction a generalizing b with
  | nil =>
    cases b with
    | nil => cases h
    | cons y b => exact .nil
  | cons x a ih =>
    cases b with
    | nil => cases h
    | cons y b =>
      rw [List.compareLex_cons_cons] at h
      cases hcompare : compare x y with
      | lt => exact .rel (Text.bytesOf_lt (compareOfLessAndEq_eq_lt.mp hcompare))
      | eq =>
        rw [hcompare] at h
        obtain rfl := Std.LawfulEqCmp.eq_of_compare hcompare
        exact .cons (ih h)
      | gt =>
        rw [hcompare] at h
        cases h

theorem order_append_left (loc a b : Location) : order (loc ++ a) (loc ++ b) = order a b := by
  unfold order
  induction loc with
  | nil => rfl
  | cons x loc ih =>
    have hself : compare x x = .eq := Std.ReflCmp.compare_self
    rw [List.cons_append, List.cons_append, List.compareLex_cons_cons, hself]
    exact ih

theorem order_of_compare {x y : String} {a b : Location} (h : compare x y = .lt) :
    order (x :: a) (y :: b) = .lt := by
  unfold order
  rw [List.compareLex_cons_cons, h]
  rfl

end Location

namespace FileSystem

variable {fs : FileSystem} {loc : Location} {name : String} {entry : Entry}

/-! ## Directories and what is in them -/

/-- The entries in a directory, in the order of their names. -/
def children (fs : FileSystem) (dir : Location) : List (String × Entry) :=
  (fs.below dir).filterMap fun
    | ([name], entry) => some (name, entry)
    | _ => none

theorem mem_children : (name, entry) ∈ fs.children loc ↔ fs.get? (loc ++ [name]) = some entry := by
  unfold children
  rw [List.mem_filterMap]
  constructor
  · rintro ⟨⟨names, e⟩, hmem, h⟩
    split at h
    · next heq =>
      cases heq
      cases h
      exact (mem_below.mp hmem).2
    · cases h
  · exact fun h => ⟨([name], entry), mem_below.mpr ⟨List.cons_ne_nil _ _, h⟩, rfl⟩

theorem pairwise_children (fs : FileSystem) (dir : Location) :
    (fs.children dir).Pairwise fun a b => compare a.1 b.1 = .lt := by
  refine List.Pairwise.filterMap _ ?_ (pairwise_below fs dir)
  rintro ⟨names, e⟩ ⟨names', e'⟩ hlt child hchild child' hchild'
  rw [Location.order_append_left] at hlt
  split at hchild
  · next heq =>
    split at hchild'
    · next heq' =>
      cases heq
      cases heq'
      cases hchild
      cases hchild'
      unfold Location.order at hlt
      rw [List.compareLex_cons_cons, List.compareLex_nil_nil, Ordering.then_eq] at hlt
      exact hlt
    · cases hchild'
  · cases hchild

/-- Only a directory has anything below it. -/
theorem WellFormed.directory_above (hfs : fs.WellFormed) {names : List String} (hne : names ≠ [])
    (h : (fs.get? (loc ++ names)).isSome) : fs.get? loc = some .directory := by
  obtain ⟨name, rest, rfl⟩ := List.exists_cons_of_ne_nil hne
  have hchild : (fs.get? (loc ++ [name])).isSome := by
    rw [Option.isSome_iff_ne_none]
    intro hvacant
    rw [List.append_cons, hfs.vacant_append hvacant] at h
    cases h
  exact (hfs.parent hchild).2

theorem WellFormed.below_eq_nil (hfs : fs.WellFormed) (h : fs.get? loc ≠ some .directory) :
    fs.below loc = [] := by
  rw [List.eq_nil_iff_forall_not_mem]
  rintro ⟨names, entry⟩ hmem
  obtain ⟨hne, hget⟩ := mem_below.mp hmem
  exact h (hfs.directory_above hne (by rw [hget]; rfl))

/-- An entry in a directory and what is below it, with the names that lead there from the
directory. -/
def branch (fs : FileSystem) (dir : Location) : String × Entry → List (List String × Entry)
  | (name, entry) =>
    ([name], entry) :: (fs.below (dir ++ [name])).map fun (names, e) => (name :: names, e)

theorem mem_branch {names : List String} {e : Entry}
    (h : (names, e) ∈ fs.branch loc (name, entry)) :
    ∃ rest, names = name :: rest ∧ (rest = [] ∧ e = entry ∨ fs.get? (loc ++ names) = some e) := by
  rcases List.mem_cons.mp h with heq | hmem
  · cases heq
    exact ⟨[], rfl, .inl ⟨rfl, rfl⟩⟩
  · obtain ⟨⟨rest, e'⟩, hbelow, heq⟩ := List.mem_map.mp hmem
    cases heq
    refine ⟨rest, rfl, .inr ?_⟩
    rw [List.append_cons]
    exact (mem_below.mp hbelow).2

theorem mem_flatMap_branch (hfs : fs.WellFormed) {names : List String} {e : Entry} :
    (names, e) ∈ (fs.children loc).flatMap (fs.branch loc) ↔
      names ≠ [] ∧ fs.get? (loc ++ names) = some e := by
  rw [List.mem_flatMap]
  constructor
  · rintro ⟨⟨name, entry⟩, hchild, hmem⟩
    obtain ⟨rest, rfl, ⟨rfl, rfl⟩ | hget⟩ := mem_branch hmem
    · exact ⟨List.cons_ne_nil _ _, mem_children.mp hchild⟩
    · exact ⟨List.cons_ne_nil _ _, hget⟩
  · rintro ⟨hne, hget⟩
    obtain ⟨name, rest, rfl⟩ := List.exists_cons_of_ne_nil hne
    rw [List.append_cons] at hget
    by_cases hrest : rest = []
    · subst hrest
      rw [List.append_nil] at hget
      exact ⟨(name, e), mem_children.mpr hget, List.mem_cons_self⟩
    · have hchild := hfs.directory_above hrest (by rw [hget]; rfl)
      exact ⟨(name, .directory), mem_children.mpr hchild, List.mem_cons_of_mem _
        (List.mem_map.mpr ⟨(rest, e), mem_below.mpr ⟨hrest, hget⟩, rfl⟩)⟩

theorem pairwise_flatMap_branch (fs : FileSystem) (loc : Location) :
    ((fs.children loc).flatMap (fs.branch loc)).Pairwise fun a b =>
      Location.order a.1 b.1 = .lt := by
  rw [List.pairwise_flatMap]
  constructor
  · rintro ⟨name, entry⟩ -
    refine List.pairwise_cons.mpr ⟨?_, ?_⟩
    · rintro ⟨names, e⟩ hmem
      obtain ⟨⟨rest, e'⟩, hbelow, heq⟩ := List.mem_map.mp hmem
      cases heq
      exact Location.order_append [name] (mem_below.mp hbelow).1
    · rw [List.pairwise_map]
      refine (pairwise_below fs (loc ++ [name])).imp fun {a b} hlt => ?_
      rw [Location.order_append_left] at hlt
      rw [← hlt]
      exact Location.order_append_left [name] a.1 b.1
  · refine (pairwise_children fs loc).imp ?_
    rintro ⟨name, entry⟩ ⟨name', entry'⟩ hlt ⟨names, e⟩ hmem ⟨names', e'⟩ hmem'
    obtain ⟨rest, rfl, -⟩ := mem_branch hmem
    obtain ⟨rest', rfl, -⟩ := mem_branch hmem'
    exact Location.order_of_compare hlt

/-- Below a directory are its entries, each with what is below it right behind. -/
theorem below_eq (hfs : fs.WellFormed) (loc : Location) :
    fs.below loc = (fs.children loc).flatMap (fs.branch loc) := by
  have hbelow : (fs.below loc).Pairwise fun a b => Location.order a.1 b.1 = .lt :=
    (pairwise_below fs loc).imp fun hlt => by rwa [Location.order_append_left] at hlt
  refine Location.eq_of_ordered hbelow (pairwise_flatMap_branch fs loc) ?_
  rintro ⟨names, e⟩
  rw [mem_below, mem_flatMap_branch hfs]

theorem length_below_child (hfs : fs.WellFormed) (h : (name, entry) ∈ fs.children loc) :
    (fs.below (loc ++ [name])).length < (fs.below loc).length := by
  obtain ⟨before, after, hsplit⟩ := List.append_of_mem h
  rw [below_eq hfs loc, hsplit]
  simp only [List.flatMap_append, List.flatMap_cons, List.length_append, branch, List.length_cons,
    List.length_map]
  omega

theorem isName_child (hfs : fs.WellFormed) {names : List String}
    (hnames : ∀ x ∈ names, IsName x) (h : (name, entry) ∈ fs.children loc) :
    ∀ x ∈ names ++ [name], IsName x := by
  have hname : IsName name := (hfs.parent (by rw [mem_children.mp h]; rfl)).1
  rw [List.forall_mem_append]
  exact ⟨hnames, fun x hx => List.mem_singleton.mp hx ▸ hname⟩

/-- A directory in a directory is opened under its own location, or its path is refused. -/
theorem openDirectory_child (hfs : fs.WellFormed) {dir : Path}
    (hopen : fs.openDirectory dir = .ok loc)
    (hget : fs.get? (loc ++ [name]) = some .directory) :
    fs.openDirectory (dir.join ⟨name⟩) = .ok (loc ++ [name]) ∨
      ∃ cause, fs.openDirectory (dir.join ⟨name⟩) = .error cause := by
  have hname : IsName name := (hfs.parent (by rw [hget]; rfl)).1
  cases hcheck : (dir.join ⟨name⟩).check with
  | ok u => exact .inl (openDirectory_join hopen hname hcheck hget)
  | error cause => exact .inr ⟨cause, openDirectory_of_check hcheck⟩

end FileSystem

namespace Build

open FileSystem

/-! ## Going down -/

/-- The entries of a directory, sorted by the bytes of their names. -/
structure Listing (fs : FileSystem) (loc : Location) (entries : List (String × Entry)) : Prop where
  mem_iff {name : String} {entry : Entry} :
    (name, entry) ∈ entries ↔ fs.get? (loc ++ [name]) = some entry
  sorted : entries.Pairwise fun a b => Text.bytesOf a.1 < Text.bytesOf b.1

theorem listing_children (fs : FileSystem) (loc : Location) :
    Listing fs loc (fs.children loc) where
  mem_iff := mem_children
  sorted := (pairwise_children fs loc).imp fun hlt =>
    Text.bytesOf_lt (compareOfLessAndEq_eq_lt.mp hlt)

mutual

/-- Going through the directory at a path, where `relative` leads, makes these visits. -/
inductive Enters (fs : FileSystem) : Path → List String → Walk → Prop
  | refused {dir : Path} {relative : List String} {cause : FileError} :
      fs.openDirectory dir = .error cause →
      Enters fs dir relative ⟨[], some (.walk dir cause)⟩
  | listed {dir : Path} {relative : List String} {loc : Location}
      {entries : List (String × Entry)} {visited : Walk} :
      fs.openDirectory dir = .ok loc → Listing fs loc entries →
      VisitsEach fs dir relative entries visited → Enters fs dir relative visited

/-- Visiting these entries of a directory makes these visits. -/
inductive VisitsEach (fs : FileSystem) : Path → List String → List (String × Entry) → Walk → Prop
  | done {dir : Path} {relative : List String} : VisitsEach fs dir relative [] ⟨[], none⟩
  | directory {dir : Path} {relative : List String} {name : String}
      {entries : List (String × Entry)} {inner rest : List Visit} {failure : Option BuildError} :
      Enters fs (dir.join ⟨name⟩) (relative ++ [name]) ⟨inner, none⟩ →
      VisitsEach fs dir relative entries ⟨rest, failure⟩ →
      VisitsEach fs dir relative ((name, .directory) :: entries)
        ⟨.directory (relative ++ [name]) :: (inner ++ rest), failure⟩
  | failed {dir : Path} {relative : List String} {name : String}
      {entries : List (String × Entry)} {inner : List Visit} {e : BuildError} :
      Enters fs (dir.join ⟨name⟩) (relative ++ [name]) ⟨inner, some e⟩ →
      VisitsEach fs dir relative ((name, .directory) :: entries)
        ⟨.directory (relative ++ [name]) :: inner, some e⟩
  | link {dir target : Path} {relative : List String} {name : String}
      {entries : List (String × Entry)} {rest : Walk} :
      VisitsEach fs dir relative entries rest →
      VisitsEach fs dir relative ((name, .link target) :: entries)
        (rest.cons (visitLink fs (dir.join ⟨name⟩) (relative ++ [name])))
  | file {dir : Path} {contents : Contents} {relative : List String} {name : String}
      {entries : List (String × Entry)} {rest : Walk} :
      VisitsEach fs dir relative entries rest →
      VisitsEach fs dir relative ((name, .file contents) :: entries)
        (rest.cons (.file (dir.join ⟨name⟩) (relative ++ [name])))

end

/-! ## One list for all -/

/-- Entries under the names that lead to them from further up. -/
def placed (relative : List String) (entries : List (List String × Entry)) :
    List (List String × Entry) :=
  entries.map fun (names, entry) => (relative ++ names, entry)

theorem placed_nil (entries : List (List String × Entry)) : placed [] entries = entries :=
  List.map_id entries

/-- A walk, and if it ends well another one after it. -/
def Walk.andThen (visited next : Walk) : Walk :=
  match visited.failure with
  | none => ⟨visited.visits ++ next.visits, next.failure⟩
  | some _ => visited

theorem andThen_cons (visit : Visit) (visited next : Walk) :
    (visited.cons visit).andThen next = (visited.andThen next).cons visit := by
  obtain ⟨visits, failure⟩ := visited
  cases failure <;> rfl

variable {fs : FileSystem} {root : Path} {loc : Location} {relative : List String}

theorem walkEntries_append (entries later : List (List String × Entry)) :
    walkEntries fs root (entries ++ later) =
      (walkEntries fs root entries).andThen (walkEntries fs root later) := by
  induction entries with
  | nil => rfl
  | cons entry entries ih =>
    obtain ⟨names, entry⟩ := entry
    rw [List.cons_append]
    cases entry with
    | directory =>
      rw [walkEntries_directory, walkEntries_directory]
      split
      · rw [ih, andThen_cons]
      · rfl
    | link target => rw [walkEntries_link, walkEntries_link, ih, andThen_cons]
    | file contents => rw [walkEntries_file, walkEntries_file, ih, andThen_cons]

theorem placed_branch (name : String) (entry : Entry) :
    placed relative (fs.branch loc (name, entry)) =
      (relative ++ [name], entry) :: placed (relative ++ [name]) (fs.below (loc ++ [name])) := by
  simp [placed, branch, Function.comp_def]

theorem placed_below (hfs : fs.WellFormed) (loc : Location) (relative : List String) :
    placed relative (fs.below loc) =
      (fs.children loc).flatMap fun child => placed relative (fs.branch loc child) := by
  rw [below_eq hfs loc, placed, List.map_flatMap]
  rfl

/-- If going through each directory among them makes the visits of a walk, so does visiting the
entries of a directory one by one. -/
theorem visitsEach_walkEntries (hfs : fs.WellFormed) (hrelative : ∀ name ∈ relative, IsName name)
    (hopen : fs.openDirectory (root.descend relative) = .ok loc)
    {entries : List (String × Entry)} (hsub : entries ⊆ fs.children loc)
    (hinner : ∀ name, (name, .directory) ∈ entries →
      fs.openDirectory (root.descend (relative ++ [name])) = .ok (loc ++ [name]) →
      Enters fs (root.descend (relative ++ [name])) (relative ++ [name])
        (walkEntries fs root (placed (relative ++ [name]) (fs.below (loc ++ [name]))))) :
    VisitsEach fs (root.descend relative) relative entries (walkEntries fs root
      (entries.flatMap fun child => placed relative (fs.branch loc child))) := by
  induction entries with
  | nil => exact .done
  | cons child entries ih =>
    obtain ⟨name, entry⟩ := child
    have hchild := hsub List.mem_cons_self
    have hget := mem_children.mp hchild
    have hrest := ih (fun child h => hsub (List.mem_cons_of_mem _ h))
      fun name h => hinner name (List.mem_cons_of_mem _ h)
    have hpath : root.join (.ofNames (relative ++ [name])) = root.descend (relative ++ [name]) :=
      Path.join_ofNames root (by simp) fun x hx => (isName_child hfs hrelative hchild x hx).isStep
    have hjoin := Path.descend_concat root relative name
    rw [List.flatMap_cons, placed_branch, List.cons_append]
    cases entry with
    | directory =>
      rw [walkEntries_directory, hpath]
      rcases openDirectory_child hfs hopen hget with hinside | ⟨cause, hrefused⟩
      · rw [← hjoin] at hinside
        have henters := hinner name List.mem_cons_self hinside
        rw [hinside, walkEntries_append]
        generalize walkEntries fs root (placed (relative ++ [name]) (fs.below (loc ++ [name]))) =
          inner at henters
        obtain ⟨visits, failure⟩ := inner
        rw [hjoin] at henters
        cases failure with
        | none => exact .directory henters hrest
        | some e => exact .failed henters
      · rw [hjoin, hrefused]
        exact .failed (.refused hrefused)
    | link target =>
      have hbelow : fs.below (loc ++ [name]) = [] := hfs.below_eq_nil (by rw [hget]; nofun)
      rw [walkEntries_link, hpath, hjoin, hbelow]
      exact .link hrest
    | file contents =>
      have hbelow : fs.below (loc ++ [name]) = [] := hfs.below_eq_nil (by rw [hget]; nofun)
      rw [walkEntries_file, hpath, hjoin, hbelow]
      exact .file hrest

/-- The pass over all that is below a directory makes the visits of going through it. -/
theorem enters_walkEntries (hfs : fs.WellFormed) (hrelative : ∀ name ∈ relative, IsName name)
    (hopen : fs.openDirectory (root.descend relative) = .ok loc) :
    Enters fs (root.descend relative) relative
      (walkEntries fs root (placed relative (fs.below loc))) := by
  -- A directory has more below it than any directory in it.
  induction hsize : (fs.below loc).length using Nat.strongRecOn generalizing loc relative with
  | ind size ih =>
    subst hsize
    rw [placed_below hfs]
    refine .listed hopen (listing_children fs loc)
      (visitsEach_walkEntries hfs hrelative hopen (List.Subset.refl _) ?_)
    intro name hmem hinside
    exact ih _ (length_below_child hfs hmem) (isName_child hfs hrelative hmem) hinside rfl

end Build

end ScriptCompiler
