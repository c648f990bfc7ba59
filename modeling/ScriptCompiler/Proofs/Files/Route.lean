import ScriptCompiler.Files.Resolve

/-!
# Routes through a file system

`Route fs links here steps dir`: the steps lead from `here` to `dir` through directories and at most
`links` links, and every step that goes on is taken from a directory. A path that `follow` takes to
a directory is a route (`route_of_follow`), and following a route and then more steps is following
those from where the route ends (`Route.follow_append`).

A route sees the directories and the links of a file system and none of its files. So two file
systems with the same directories and links (`Keeps`) have the same routes, and the places that
paths name in them are the same (`Keeps.slotLocation`). What a path leads to, it also leads to in a
file system with more entries (`resolve_mono`).
-/

namespace ScriptCompiler

section Outcomes

variable {ε α β : Type}

@[simp]
theorem ok_bind (a : α) (f : α → Except ε β) : (Except.ok a >>= f) = f a := rfl

@[simp]
theorem error_bind (e : ε) (f : α → Except ε β) : (Except.error e >>= f) = .error e := rfl

@[simp]
theorem throw_eq_error (e : ε) : (throw e : Except ε α) = .error e := rfl

@[simp]
theorem pure_eq_ok (a : α) : (pure a : Except ε α) = .ok a := rfl

theorem bind_eq_ok_iff {x : Except ε α} {f : α → Except ε β} {b : β} :
    (x >>= f) = .ok b ↔ ∃ a, x = .ok a ∧ f a = .ok b := by
  cases x <;> simp

end Outcomes

namespace FileSystem

variable {a b fs : FileSystem} {links : Nat} {here mid dir loc : Location} {step : String}
  {steps front more : List String}

theorem isDirectoryAt_iff : fs.isDirectoryAt loc = true ↔ fs.get? loc = some .directory := by
  unfold isDirectoryAt
  cases fs.get? loc with
  | none => simp
  | some e => cases e <;> simp [Entry.isDirectory]

theorem WellFormed.dropLast (hfs : fs.WellFormed) (h : fs.get? loc = some .directory) :
    fs.get? loc.dropLast = some .directory := by
  by_cases hnil : loc = []
  · rw [hnil]
    exact hfs.root
  · rw [← List.dropLast_concat_getLast hnil] at h
    exact (hfs.parent (by rw [h]; rfl)).2

/-- A step that asks for the entry of its name. -/
structure Named (step : String) : Prop where
  not_silent : Path.isSilent step = false
  ne_up : step ≠ ".."
  not_tooLong : isTooLong step = false

/-- Where the target of a link that was met in `here` starts. -/
def linkStart (here : Location) (target : Path) : Location :=
  if target.isAbsolute then [] else here

/-! ## One step -/

section Step

variable (hdir : fs.get? here = some .directory)

theorem follow_nil (fs : FileSystem) (links : Nat) (here : Location) :
    fs.follow links here [] = .ok here := by
  cases links <;> rfl

include hdir

theorem follow_silent (hstep : Path.isSilent step = true) :
    fs.follow links here (step :: steps) = fs.follow links here steps := by
  cases links <;> simp [follow, followSteps, isDirectoryAt_iff.mpr hdir, hstep]

theorem follow_up : fs.follow links here (".." :: steps) = fs.follow links here.dropLast steps := by
  have hup : Path.isSilent ".." = false := by decide
  cases links <;> simp [follow, followSteps, isDirectoryAt_iff.mpr hdir, hup]

theorem follow_directory (hstep : Named step)
    (hget : fs.get? (here ++ [step]) = some .directory) :
    fs.follow links here (step :: steps) = fs.follow links (here ++ [step]) steps := by
  cases links <;> simp [follow, followSteps, isDirectoryAt_iff.mpr hdir, hstep.not_silent,
    hstep.ne_up, hstep.not_tooLong, hget]

theorem follow_link {target : Path} (hstep : Named step)
    (hget : fs.get? (here ++ [step]) = some (.link target)) :
    fs.follow (links + 1) here (step :: steps) =
      fs.follow links (linkStart here target) (target.steps ++ steps) := by
  simp [follow, followSteps, isDirectoryAt_iff.mpr hdir, hstep.not_silent, hstep.ne_up,
    hstep.not_tooLong, hget, linkStart]

/-- The last step leads to the entry of its name, unless that is a link, or to where it would be. -/
theorem follow_last (hstep : Named step)
    (hget : ∀ target, fs.get? (here ++ [step]) ≠ some (.link target)) :
    fs.follow links here [step] = .ok (here ++ [step]) := by
  cases hentry : fs.get? (here ++ [step]) with
  | none =>
    cases links <;> simp [follow, followSteps, isDirectoryAt_iff.mpr hdir, hstep.not_silent,
      hstep.ne_up, hstep.not_tooLong, hentry]
  | some e =>
    cases e with
    | link target => exact absurd hentry (hget target)
    | directory | file contents =>
      cases links <;> simp [follow, followSteps, isDirectoryAt_iff.mpr hdir, hstep.not_silent,
        hstep.ne_up, hstep.not_tooLong, hentry]

end Step

/-- What a step that ends in a directory, or goes on, can be. -/
theorem followSteps_cons {onLink : Location → List String → Except FileError Location}
    (h : fs.followSteps onLink here (step :: steps) = .ok loc)
    (hend : steps ≠ [] ∨ fs.get? loc = some .directory) :
    fs.get? here = some .directory ∧
      ((Path.isSilent step = true ∧ fs.followSteps onLink here steps = .ok loc) ∨
        (step = ".." ∧ fs.followSteps onLink here.dropLast steps = .ok loc) ∨
        (Named step ∧ fs.get? (here ++ [step]) = some .directory ∧
          fs.followSteps onLink (here ++ [step]) steps = .ok loc) ∨
        (Named step ∧ ∃ target, fs.get? (here ++ [step]) = some (.link target) ∧
          onLink (linkStart here target) (target.steps ++ steps) = .ok loc)) := by
  unfold followSteps at h
  split at h
  · cases h
  next hdir =>
  rw [Bool.not_eq_true, Bool.not_eq_false', isDirectoryAt_iff] at hdir
  refine ⟨hdir, ?_⟩
  split at h
  · next hsilent => exact .inl ⟨hsilent, h⟩
  next hsilent =>
  split at h
  · next hup => exact .inr (.inl ⟨hup, h⟩)
  next hup =>
  split at h
  · cases h
  next hlong =>
  have hstep : Named step := ⟨by simpa using hsilent, hup, by simpa using hlong⟩
  split at h
  · next hget =>
    split at h
    · next hempty =>
      -- A vacant place is reached by the last step only, and is no directory.
      have hloc : here ++ [step] = loc := by injection h
      rw [List.isEmpty_iff] at hempty
      rw [← hloc, hget] at hend
      simp [hempty] at hend
    · cases h
  · next target hget => exact .inr (.inr (.inr ⟨hstep, target, hget, h⟩))
  · next e hlink hget =>
    cases e with
    | directory => exact .inr (.inr (.inl ⟨hstep, hget, h⟩))
    | link target => exact absurd rfl (hlink target)
    | file contents =>
      cases steps with
      | nil =>
        have hloc : here ++ [step] = loc := by
          rw [followSteps] at h
          injection h
        rw [← hloc, hget] at hend
        simp at hend
      | cons next steps =>
        have hno : fs.isDirectoryAt (here ++ [step]) = false := by
          simp [isDirectoryAt, hget, Entry.isDirectory]
        rw [followSteps, hno] at h
        cases h

/-! ## Routes -/

/-- The steps lead from `here` to a directory, through at most `links` links. -/
inductive Route (fs : FileSystem) : Nat → Location → List String → Location → Prop
  | stop (links : Nat) (here : Location) : Route fs links here [] here
  | silent {links : Nat} {here dir : Location} {step : String} {steps : List String} :
      fs.get? here = some .directory → Path.isSilent step = true →
      Route fs links here steps dir → Route fs links here (step :: steps) dir
  | up {links : Nat} {here dir : Location} {steps : List String} :
      fs.get? here = some .directory →
      Route fs links here.dropLast steps dir → Route fs links here (".." :: steps) dir
  | enter {links : Nat} {here dir : Location} {step : String} {steps : List String} :
      fs.get? here = some .directory → Named step →
      fs.get? (here ++ [step]) = some .directory →
      Route fs links (here ++ [step]) steps dir → Route fs links here (step :: steps) dir
  | link {links : Nat} {here dir : Location} {step : String} {steps : List String}
      {target : Path} : fs.get? here = some .directory → Named step →
      fs.get? (here ++ [step]) = some (.link target) →
      Route fs links (linkStart here target) (target.steps ++ steps) dir →
      Route fs (links + 1) here (step :: steps) dir

/-- Following a route, and then more steps. -/
theorem Route.follow_append (h : fs.Route links here steps mid) : ∃ left, ∀ more : List String,
    fs.follow links here (steps ++ more) = fs.follow left mid more := by
  induction h with
  | stop links here => exact ⟨links, fun more => rfl⟩
  | silent hdir hstep _ ih =>
    obtain ⟨left, ih⟩ := ih
    exact ⟨left, fun more => (follow_silent hdir hstep).trans (ih more)⟩
  | up hdir _ ih =>
    obtain ⟨left, ih⟩ := ih
    exact ⟨left, fun more => (follow_up hdir).trans (ih more)⟩
  | enter hdir hstep hget _ ih =>
    obtain ⟨left, ih⟩ := ih
    exact ⟨left, fun more => (follow_directory hdir hstep hget).trans (ih more)⟩
  | link hdir hstep hget _ ih =>
    obtain ⟨left, ih⟩ := ih
    refine ⟨left, fun more => ?_⟩
    rw [List.cons_append, follow_link hdir hstep hget, ← List.append_assoc, ih]

theorem Route.follow (h : fs.Route links here steps dir) : fs.follow links here steps = .ok dir := by
  obtain ⟨left, h⟩ := h.follow_append
  simpa [follow_nil] using h []

section Converse

variable {onLink : Location → List String → Except FileError Location}

theorem route_of_followSteps
    (hlink : ∀ {here steps}, onLink here steps = .ok dir →
      ∃ left, links = left + 1 ∧ fs.Route left here steps dir)
    (h : fs.followSteps onLink here steps = .ok dir) (hdir : fs.get? dir = some .directory) :
    fs.Route links here steps dir := by
  induction steps generalizing here with
  | nil =>
    rw [followSteps] at h
    injection h with h
    exact h ▸ .stop links here
  | cons step steps ih =>
    obtain ⟨hhere, hcases⟩ := followSteps_cons h (.inr hdir)
    rcases hcases with ⟨hs, h⟩ | ⟨hs, h⟩ | ⟨hs, hget, h⟩ | ⟨hs, target, hget, h⟩
    · exact .silent hhere hs (ih h)
    · exact hs ▸ .up hhere (ih h)
    · exact .enter hhere hs hget (ih h)
    · obtain ⟨left, rfl, hroute⟩ := hlink h
      exact .link hhere hs hget hroute

theorem directory_of_followSteps {last : String}
    (hlast : Path.isSilent last = true ∨ last = ".." ∧ fs.WellFormed)
    (hlink : ∀ {here steps}, onLink here (steps ++ [last]) = .ok dir →
      fs.get? dir = some .directory)
    (h : fs.followSteps onLink here (steps ++ [last]) = .ok dir) :
    fs.get? dir = some .directory := by
  induction steps generalizing here with
  | nil =>
    rw [List.nil_append, followSteps] at h
    split at h
    · cases h
    next hhere =>
    rw [Bool.not_eq_true, Bool.not_eq_false', isDirectoryAt_iff] at hhere
    rcases hlast with hsilent | ⟨rfl, hfs⟩
    · rw [if_pos hsilent, followSteps] at h
      injection h with h
      exact h ▸ hhere
    · rw [if_neg (by decide), if_pos rfl, followSteps] at h
      injection h with h
      exact h ▸ hfs.dropLast hhere
  | cons step steps ih =>
    rw [List.cons_append] at h
    obtain ⟨-, hcases⟩ := followSteps_cons h (.inl (by simp))
    rcases hcases with ⟨-, h⟩ | ⟨-, h⟩ | ⟨-, -, h⟩ | ⟨-, target, -, h⟩
    · exact ih h
    · exact ih h
    · exact ih h
    · rw [← List.append_assoc] at h
      exact hlink h

end Converse

theorem route_of_follow (h : fs.follow links here steps = .ok dir)
    (hdir : fs.get? dir = some .directory) : fs.Route links here steps dir := by
  induction links generalizing here steps with
  | zero =>
    refine route_of_followSteps ?_ h hdir
    intro _ _ hlink
    cases hlink
  | succ links ih => exact route_of_followSteps (fun h => ⟨links, rfl, ih h⟩) h hdir

/-- A path that ends in a slash, or in a step that is no name, leads to a directory. -/
theorem directory_of_follow {last : String}
    (hlast : Path.isSilent last = true ∨ last = ".." ∧ fs.WellFormed)
    (h : fs.follow links here (steps ++ [last]) = .ok dir) : fs.get? dir = some .directory := by
  induction links generalizing here steps with
  | zero =>
    refine directory_of_followSteps hlast ?_ h
    intro _ _ hlink
    cases hlink
  | succ links ih => exact directory_of_followSteps hlast ih h

/-- A route to a directory starts in one. -/
theorem Route.start (h : fs.Route links here steps dir) (hdir : fs.get? dir = some .directory) :
    fs.get? here = some .directory := by
  cases h with
  | stop => exact hdir
  | silent hhere | up hhere | enter hhere | link hhere => exact hhere

/-- A route by way of the place that its first steps lead to. -/
theorem Route.split (h : fs.Route links here (front ++ more) dir) :
    ∃ left mid, fs.Route links here front mid ∧ fs.Route left mid more dir := by
  generalize hsteps : front ++ more = steps at h
  induction h generalizing front with
  | stop links here =>
    obtain ⟨rfl, rfl⟩ := List.append_eq_nil_iff.mp hsteps
    exact ⟨links, here, .stop links here, .stop links here⟩
  | @silent links here dir step steps hdir hstep hroute ih =>
    cases front with
    | nil =>
      obtain rfl : more = step :: steps := hsteps
      exact ⟨links, here, .stop links here, .silent hdir hstep hroute⟩
    | cons first front =>
      obtain ⟨rfl, htail⟩ := List.cons.inj hsteps
      obtain ⟨left, mid, hfirst, hrest⟩ := ih htail
      exact ⟨left, mid, .silent hdir hstep hfirst, hrest⟩
  | @up links here dir steps hdir hroute ih =>
    cases front with
    | nil =>
      obtain rfl : more = ".." :: steps := hsteps
      exact ⟨links, here, .stop links here, .up hdir hroute⟩
    | cons first front =>
      obtain ⟨rfl, htail⟩ := List.cons.inj hsteps
      obtain ⟨left, mid, hfirst, hrest⟩ := ih htail
      exact ⟨left, mid, .up hdir hfirst, hrest⟩
  | @enter links here dir step steps hdir hstep hget hroute ih =>
    cases front with
    | nil =>
      obtain rfl : more = step :: steps := hsteps
      exact ⟨links, here, .stop links here, .enter hdir hstep hget hroute⟩
    | cons first front =>
      obtain ⟨rfl, htail⟩ := List.cons.inj hsteps
      obtain ⟨left, mid, hfirst, hrest⟩ := ih htail
      exact ⟨left, mid, .enter hdir hstep hget hfirst, hrest⟩
  | @link links here dir step steps target hdir hstep hget hroute ih =>
    cases front with
    | nil =>
      obtain rfl : more = step :: steps := hsteps
      exact ⟨links + 1, here, .stop _ here, .link hdir hstep hget hroute⟩
    | cons first front =>
      obtain ⟨rfl, htail⟩ := List.cons.inj hsteps
      have hsplit : (target.steps ++ front) ++ more = target.steps ++ steps := by
        rw [← htail, List.append_assoc]
        rfl
      obtain ⟨left, mid, hfirst, hrest⟩ := ih hsplit
      exact ⟨left, mid, .link hdir hstep hget hfirst, hrest⟩

/-- A name on a route is that of an entry. -/
theorem Route.named {name : String} (h : fs.Route links here (name :: more) dir)
    (hsilent : Path.isSilent name = false) (hup : name ≠ "..") :
    isTooLong name = false ∧ (fs.get? (here ++ [name])).isSome := by
  cases h with
  | silent _ hstep => rw [hsilent] at hstep; cases hstep
  | up => exact absurd rfl hup
  | enter _ hstep hget => exact ⟨hstep.not_tooLong, by rw [hget]; rfl⟩
  | link _ hstep hget => exact ⟨hstep.not_tooLong, by rw [hget]; rfl⟩

theorem Route.of_append_silent (h : fs.Route links here (steps ++ [""]) dir) :
    fs.Route links here steps dir := by
  obtain ⟨left, mid, hroute, hslash⟩ := h.split
  generalize hempty : "" = step at hslash
  cases hslash with
  | silent _ _ hstop =>
    cases hstop
    exact hroute
  | up => exact absurd hempty (by decide)
  | enter _ hstep | link _ hstep => exact absurd hstep.not_silent (by rw [← hempty]; decide)

/-- Steps with a slash behind them lead to a directory by a route, and only so. -/
theorem follow_slash_iff : fs.follow links here (steps ++ [""]) = .ok dir ↔
    fs.Route links here steps dir ∧ fs.get? dir = some .directory := by
  constructor
  · intro h
    have hdir := directory_of_follow (.inl rfl) h
    exact ⟨(route_of_follow h hdir).of_append_silent, hdir⟩
  · rintro ⟨hroute, hdir⟩
    obtain ⟨left, happend⟩ := hroute.follow_append
    rw [happend, follow_silent hdir (by decide), follow_nil]

/-! ## What paths name -/

theorem locate_eq {p : Path} (hcheck : p.check = .ok ()) :
    fs.locate p = fs.follow maxLinks (fs.startOf p) p.steps := by
  rw [locate, hcheck]
  rfl

theorem resolve_eq_ok_iff {p : Path} {entry : Entry} : fs.resolve p = .ok (loc, entry) ↔
    fs.locate p = .ok loc ∧ fs.get? loc = some entry := by
  unfold resolve
  constructor
  · intro h
    obtain ⟨loc', hlocate, h⟩ := bind_eq_ok_iff.mp h
    split at h
    · next e hget =>
      injection h with h
      obtain ⟨rfl, rfl⟩ := Prod.mk.inj h
      exact ⟨hlocate, hget⟩
    · cases h
  · rintro ⟨hlocate, hget⟩
    refine bind_eq_ok_iff.mpr ⟨loc, hlocate, ?_⟩
    simp only [hget]
    rfl

/-- A path leads to a directory by a route, and only so. -/
theorem openDirectory_eq_ok_iff {p : Path} : fs.openDirectory p = .ok dir ↔
    p.check = .ok () ∧ fs.Route maxLinks (fs.startOf p) p.steps dir ∧
      fs.get? dir = some .directory := by
  unfold openDirectory
  constructor
  · intro h
    obtain ⟨⟨loc, entry⟩, hresolve, h⟩ := bind_eq_ok_iff.mp h
    cases entry with
    | directory =>
      injection h with h
      subst h
      obtain ⟨hlocate, hget⟩ := resolve_eq_ok_iff.mp hresolve
      obtain ⟨u, hcheck, hfollow⟩ := bind_eq_ok_iff.mp hlocate
      exact ⟨hcheck, route_of_follow hfollow hget, hget⟩
    | file contents => cases h
    | link target => cases h
  · rintro ⟨hcheck, hroute, hdir⟩
    have hlocate : fs.locate p = .ok dir := by rw [locate_eq hcheck, hroute.follow]
    exact bind_eq_ok_iff.mpr ⟨(dir, .directory), resolve_eq_ok_iff.mpr ⟨hlocate, hdir⟩, rfl⟩

theorem slot_eq {p : Path} {name : String} (hcheck : p.check = .ok ())
    (hsteps : p.steps = steps ++ [name]) (hname : name ≠ "")
    (hroute : fs.Route maxLinks (fs.startOf p) steps dir) (hdir : fs.get? dir = some .directory) :
    fs.slot p =
      .ok ⟨dir, (some name).filter fun step => step != "." && step != "..", false⟩ := by
  have hslash : fs.follow maxLinks (fs.startOf p) (steps ++ [""]) = .ok dir :=
    follow_slash_iff.mpr ⟨hroute, hdir⟩
  have hnamed : (p.steps.reverse.dropWhile (· == "")).reverse = p.steps := by
    simp [hsteps, hname]
  simp only [slot, hcheck, hnamed]
  simp [hsteps, hslash, bind, Except.bind, pure, Except.pure]

/-- The place of a name after steps that lead to a directory. -/
theorem slotLocation_eq {p : Path} {name : String} (hsteps : p.steps = steps ++ [name])
    (hname : name ≠ "") (hroute : fs.Route maxLinks (fs.startOf p) steps dir)
    (hdir : fs.get? dir = some .directory) (e : FileError) :
    fs.slotLocation p e = (do
      p.check
      if name = "." ∨ name = ".." then throw e
      else if isTooLong name then throw .nameTooLong
      else return (dir ++ [name], false)) := by
  cases hcheck : p.check with
  | error e' => simp [slotLocation, slot, hcheck, bind, Except.bind]
  | ok u =>
    by_cases hdots : name = "." ∨ name = ".."
    · have hfilter : (some name).filter (fun step => step != "." && step != "..") = none := by
        rcases hdots with rfl | rfl <;> decide
      simp only [slotLocation, slot_eq hcheck hsteps hname hroute hdir, hfilter, if_pos hdots]
      rfl
    · have hfilter : (some name).filter (fun step => step != "." && step != "..") = some name := by
        simpa [Option.filter_eq_some_iff, not_or] using hdots
      simp only [slotLocation, slot_eq hcheck hsteps hname hroute hdir, hfilter, if_neg hdots]
      change (if isTooLong name then _ else _) = if isTooLong name then _ else _
      split <;> rfl

/-- What a path is that names the place of an entry. -/
theorem exists_of_slotLocation {p : Path} {e : FileError} {slash : Bool}
    (h : fs.slotLocation p e = .ok (loc, slash)) :
    ∃ steps name dir, loc = dir ++ [name] ∧ Named name ∧ p.check = .ok () ∧
      fs.Route maxLinks (fs.startOf p) steps dir ∧ fs.get? dir = some .directory ∧
      (slash = false → p.steps = steps ++ [name]) := by
  unfold slotLocation slot at h
  obtain ⟨s, hslot, h⟩ := bind_eq_ok_iff.mp h
  obtain ⟨u, hcheck, hslot⟩ := bind_eq_ok_iff.mp hslot
  obtain ⟨dir, hfollow, hslot⟩ := bind_eq_ok_iff.mp hslot
  obtain ⟨hroute, hdir⟩ := follow_slash_iff.mp hfollow
  injection hslot with hslot
  subst hslot
  split at h
  · cases h
  next name hfilter =>
  obtain ⟨hlast, hdots⟩ := Option.filter_eq_some_iff.mp hfilter
  obtain ⟨hdot, hup⟩ : name ≠ "." ∧ name ≠ ".." := by simpa using hdots
  obtain ⟨hlong, hloc⟩ : isTooLong name = false ∧ (dir ++ [name], _) = (loc, slash) := by
    cases hlong : isTooLong name with
    | true => rw [hlong] at h; cases h
    | false => rw [hlong] at h; injection h with h; exact ⟨rfl, h⟩
  obtain ⟨rfl, rfl⟩ := Prod.mk.inj hloc
  -- The steps without the slashes behind them end in the name.
  generalize hnamed : (p.steps.reverse.dropWhile (· == "")).reverse = named at *
  have hconcat : named = named.dropLast ++ [name] := by
    obtain ⟨front, rfl⟩ := List.getLast?_eq_some_iff.mp hlast
    simp
  have hempty : name ≠ "" := by
    have hhead := List.head?_dropWhile_not (· == "") p.steps.reverse
    rw [← List.getLast?_reverse, hnamed, hlast] at hhead
    simpa using hhead
  refine ⟨named.dropLast, name, dir, rfl, ⟨?_, hup, hlong⟩, hcheck, hroute, hdir, fun hslash => ?_⟩
  · simp [Path.isSilent, hempty, hdot]
  · have hsuffix : named.reverse <:+ p.steps.reverse := by
      rw [← hnamed, List.reverse_reverse]
      exact List.dropWhile_suffix _
    have hlength : p.steps.length ≤ named.length := by simpa using hslash
    have heq : named.reverse = p.steps.reverse := by
      refine hsuffix.eq_of_length_le ?_
      simpa using hlength
    rw [← hconcat, List.reverse_inj.mp heq]

/-- A path that names the place of a file leads to it. -/
theorem resolve_of_slotLocation {p : Path} {e : FileError} {contents : Contents}
    (h : fs.slotLocation p e = .ok (loc, false)) (hget : fs.get? loc = some (.file contents)) :
    fs.resolve p = .ok (loc, .file contents) := by
  obtain ⟨steps, name, dir, rfl, hname, hcheck, hroute, hdir, hsteps⟩ := exists_of_slotLocation h
  refine resolve_eq_ok_iff.mpr ⟨?_, hget⟩
  obtain ⟨left, happend⟩ := hroute.follow_append
  rw [locate_eq hcheck, hsteps rfl, happend]
  exact follow_last hdir hname (by simp [hget])

/-! ## File systems with the same directories and links -/

/-- `b` has every directory and every link of `a`. -/
structure Keeps (a b : FileSystem) : Prop where
  workDir : b.workDir = a.workDir
  directory {loc : Location} : a.get? loc = some .directory → b.get? loc = some .directory
  link {loc : Location} {target : Path} :
    a.get? loc = some (.link target) → b.get? loc = some (.link target)

theorem Route.mono (hab : a.Keeps b) (h : a.Route links here steps dir) :
    b.Route links here steps dir := by
  induction h with
  | stop links here => exact .stop links here
  | silent hdir hstep _ ih => exact .silent (hab.directory hdir) hstep ih
  | up hdir _ ih => exact .up (hab.directory hdir) ih
  | enter hdir hstep hget _ ih => exact .enter (hab.directory hdir) hstep (hab.directory hget) ih
  | link hdir hstep hget _ ih => exact .link (hab.directory hdir) hstep (hab.link hget) ih

theorem Keeps.startOf (hab : a.Keeps b) (p : Path) : b.startOf p = a.startOf p := by
  unfold FileSystem.startOf
  rw [hab.workDir]

theorem Keeps.slot (hab : a.Keeps b) {p : Path} {s : Slot} (h : a.slot p = .ok s) :
    b.slot p = .ok s := by
  unfold FileSystem.slot at h ⊢
  obtain ⟨u, hcheck, h⟩ := bind_eq_ok_iff.mp h
  obtain ⟨dir, hfollow, h⟩ := bind_eq_ok_iff.mp h
  obtain ⟨hroute, hdir⟩ := follow_slash_iff.mp hfollow
  have hfollow' := follow_slash_iff.mpr ⟨hroute.mono hab, hab.directory hdir⟩
  refine bind_eq_ok_iff.mpr ⟨u, hcheck, bind_eq_ok_iff.mpr ⟨dir, ?_, h⟩⟩
  rw [hab.startOf, hfollow']

/-- A place that a path names in one of the file systems, it names in the other. -/
theorem Keeps.slotLocation (hab : a.Keeps b) {p : Path} {e : FileError} {place : Location × Bool}
    (h : a.slotLocation p e = .ok place) : b.slotLocation p e = .ok place := by
  unfold FileSystem.slotLocation at h ⊢
  obtain ⟨s, hslot, h⟩ := bind_eq_ok_iff.mp h
  exact bind_eq_ok_iff.mpr ⟨s, hab.slot hslot, h⟩

theorem Keeps.openDirectory (hab : a.Keeps b) {p : Path} (h : a.openDirectory p = .ok dir) :
    b.openDirectory p = .ok dir := by
  obtain ⟨hcheck, hroute, hdir⟩ := openDirectory_eq_ok_iff.mp h
  refine openDirectory_eq_ok_iff.mpr ⟨hcheck, ?_, hab.directory hdir⟩
  rw [hab.startOf]
  exact hroute.mono hab

section Grown

variable (hget : ∀ {loc : Location} {entry : Entry},
  a.get? loc = some entry → b.get? loc = some entry)
include hget

theorem followSteps_mono {onLink onLink' : Location → List String → Except FileError Location}
    (hlink : ∀ {here steps}, onLink here steps = .ok loc → onLink' here steps = .ok loc)
    (hloc : (a.get? loc).isSome) (h : a.followSteps onLink here steps = .ok loc) :
    b.followSteps onLink' here steps = .ok loc := by
  induction steps generalizing here with
  | nil => exact h
  | cons step steps ih =>
    unfold followSteps at h ⊢
    split at h
    · cases h
    next hdir =>
    rw [Bool.not_eq_true, Bool.not_eq_false', isDirectoryAt_iff] at hdir
    rw [isDirectoryAt_iff.mpr (hget hdir)]
    show (if Path.isSilent step then _ else _) = _
    split at h
    · next hsilent => rw [if_pos hsilent, ih h]
    next hsilent =>
    rw [if_neg hsilent]
    split at h
    · next hup => rw [if_pos hup, ih h]
    next hup =>
    rw [if_neg hup]
    split at h
    · cases h
    next hlong =>
    rw [if_neg hlong]
    cases hentry : a.get? (here ++ [step]) with
    | none =>
      rw [hentry] at h
      dsimp only at h
      split at h
      · injection h with h
        rw [← h, hentry] at hloc
        cases hloc
      · cases h
    | some entry =>
      rw [hentry] at h
      rw [hget hentry]
      cases entry with
      | link target => exact hlink h
      | directory | file contents => exact ih h

theorem follow_mono (hloc : (a.get? loc).isSome) (h : a.follow links here steps = .ok loc) :
    b.follow links here steps = .ok loc := by
  induction links generalizing here steps with
  | zero =>
    refine followSteps_mono hget ?_ hloc h
    intro _ _ hlink
    cases hlink
  | succ links ih => exact followSteps_mono hget ih hloc h

/-- An entry that a path leads to is found by the path when there is more around it. -/
theorem resolve_mono (hwork : b.workDir = a.workDir) {p : Path} {entry : Entry}
    (h : a.resolve p = .ok (loc, entry)) : b.resolve p = .ok (loc, entry) := by
  obtain ⟨hlocate, hentry⟩ := resolve_eq_ok_iff.mp h
  obtain ⟨u, hcheck, hfollow⟩ := bind_eq_ok_iff.mp hlocate
  refine resolve_eq_ok_iff.mpr ⟨?_, hget hentry⟩
  have hstart : b.startOf p = a.startOf p := by rw [startOf, hwork, startOf]
  rw [locate_eq hcheck, hstart]
  exact follow_mono hget (by rw [hentry]; rfl) hfollow

end Grown

/-- A file in a place where no directory and no link was. -/
theorem keeps_put_file (hdir : fs.get? loc ≠ some .directory)
    (hlink : ∀ target, fs.get? loc ≠ some (.link target)) (contents : Contents) :
    fs.Keeps (fs.put loc (.file contents)) where
  workDir := rfl
  directory {other} h := by
    have hne : loc ≠ other := by rintro rfl; exact hdir h
    rw [get?_put, if_neg hne, h]
  link {other target} h := by
    have hne : loc ≠ other := by rintro rfl; exact hlink target h
    rw [get?_put, if_neg hne, h]

/-- A file takes the place of an entry and adds no directory or link. -/
theorem put_file_keeps (fs : FileSystem) (loc : Location) (contents : Contents) :
    (fs.put loc (.file contents)).Keeps fs where
  workDir := rfl
  directory {other} h := by
    rw [get?_put] at h
    split at h
    · cases h
    · exact h
  link {other target} h := by
    rw [get?_put] at h
    split at h
    · cases h
    · exact h

end FileSystem

end ScriptCompiler
