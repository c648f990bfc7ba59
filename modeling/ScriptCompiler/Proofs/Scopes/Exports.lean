import ScriptCompiler.Proofs.Scopes.Resolution

/-!
# What a module exports

A module binds names at the places of its scope: the targets of assignments, the entries of imports
and the functions, through both sides of branches and not inside of functions (`BindsIn`). A place
is given by positions from the outside in, so the order of places in the source is the order of
these lists. `sites` lists the places in that order (`pairwise_sites`) with the names that
`bindings` has (`map_sites`). So a module without an export list exports the names that it binds and
does not keep to itself, each once and by first place, and its lowered tree declares all of them
(`exports_follow_bindings`).
-/

namespace ScriptCompiler

namespace Source

/-! ## Places that bind names -/

mutual

/-- The statement binds a name of the scope around it, at a position. -/
inductive BindsAt : Stmt → List Nat → String → Prop
  | module {entries : List DottedImport} {entry : DottedImport} {i : Nat} {x : String} :
      entries[i]? = some entry → entry.bound? = some x → BindsAt (.importModules entries) [i] x
  | named {path : List String} {names : List NamedImport} {entry : NamedImport} {i : Nat} :
      names[i]? = some entry → BindsAt (.importNames path names) [i] entry.bound
  | target {targets : List String} {value : Expr} {i : Nat} {x : String} :
      targets[i]? = some x → BindsAt (.assign targets value) [i] x
  | function {f : String} {parameters : List String} {body : List Stmt} :
      BindsAt (.define f parameters body) [] f
  | whenTrue {c : Expr} {t e : List Stmt} {pos : List Nat} {x : String} :
      BindsIn t pos x → BindsAt (.branch c t e) (0 :: pos) x
  | whenFalse {c : Expr} {t e : List Stmt} {pos : List Nat} {x : String} :
      BindsIn e pos x → BindsAt (.branch c t e) (1 :: pos) x

/-- The statements bind a name of their scope, at a position. -/
inductive BindsIn : List Stmt → List Nat → String → Prop
  | stmt {body : List Stmt} {s : Stmt} {i : Nat} {pos : List Nat} {x : String} :
      body[i]? = some s → BindsAt s pos x → BindsIn body (i :: pos) x

end

/-! ## All places in order -/

/-- A position with the name that is bound there. -/
abbrev Site := List Nat × String

/-- Places one level further in. -/
def Site.under (i : Nat) (site : Site) : Site := (i :: site.1, site.2)

/-- The places in parts that are numbered from `i` on. -/
def numbered (i : Nat) : List (List Site) → List Site
  | [] => []
  | sites :: parts => sites.map (.under i) ++ numbered (i + 1) parts

/-- The places of a list that binds a name at most at each of its positions. -/
def entrySites {α : Type} (bound : α → Option String) (as : List α) : List Site :=
  numbered 0 (as.map fun a => (bound a).toList.map ([], ·))

mutual

/-- The places of a statement that bind names of the scope around it. -/
def Stmt.sites : Stmt → List Site
  | .importModules entries => entrySites DottedImport.bound? entries
  | .importNames _ names => entrySites (some ∘ NamedImport.bound) names
  | .expr _ | .ret _ => []
  | .assign targets _ => entrySites some targets
  | .define f _ _ => [([], f)]
  | .branch _ t e => numbered 0 [sitesFrom 0 t, sitesFrom 0 e]

def sitesFrom (i : Nat) : List Stmt → List Site
  | [] => []
  | s :: ss => s.sites.map (.under i) ++ sitesFrom (i + 1) ss

end

theorem sitesFrom_eq (i : Nat) (ss : List Stmt) :
    sitesFrom i ss = numbered i (ss.map Stmt.sites) := by
  induction ss generalizing i with
  | nil => rfl
  | cons s ss ih => rw [sitesFrom, ih, List.map_cons, numbered]

section Numbered

variable {i : Nat} {parts : List (List Site)}

theorem mem_numbered {pos : List Nat} {x : String} : (pos, x) ∈ numbered i parts ↔
    ∃ k sites p, parts[k]? = some sites ∧ pos = (i + k) :: p ∧ (p, x) ∈ sites := by
  induction parts generalizing i with
  | nil => simp [numbered]
  | cons sites parts ih =>
    rw [numbered, List.mem_append, ih, List.mem_map]
    constructor
    · rintro (⟨⟨p, y⟩, hmem, heq⟩ | ⟨k, sites', p, hpart, hpos, hmem⟩)
      · obtain ⟨rfl, rfl⟩ := Prod.mk.inj heq
        exact ⟨0, sites, p, rfl, rfl, hmem⟩
      · exact ⟨k + 1, sites', p, hpart, by rw [hpos, Nat.add_right_comm, Nat.add_assoc], hmem⟩
    · rintro ⟨k, sites', p, hpart, rfl, hmem⟩
      cases k with
      | zero =>
        obtain rfl : sites = sites' := Option.some.inj hpart
        exact .inl ⟨(p, x), hmem, rfl⟩
      | succ k => exact .inr ⟨k, sites', p, hpart, by rw [Nat.add_right_comm, Nat.add_assoc], hmem⟩

theorem map_numbered : (numbered i parts).map Prod.snd = parts.flatMap (·.map Prod.snd) := by
  induction parts generalizing i with
  | nil => rfl
  | cons sites parts ih =>
    rw [numbered, List.map_append, List.map_map, ih, List.flatMap_cons]
    rfl

/-- Places are in order if they are in each part. -/
theorem pairwise_numbered (h : ∀ sites ∈ parts, sites.Pairwise fun a b => a.1 < b.1) :
    (numbered i parts).Pairwise fun a b => a.1 < b.1 := by
  induction parts generalizing i with
  | nil => exact .nil
  | cons sites parts ih =>
    rw [List.forall_mem_cons] at h
    rw [numbered, List.pairwise_append, List.pairwise_map]
    refine ⟨h.1.imp fun hlt => List.cons_lt_cons_iff.mpr (.inr ⟨rfl, hlt⟩), ih h.2, ?_⟩
    rintro a ha ⟨pos, x⟩ hb
    obtain ⟨site, -, rfl⟩ := List.mem_map.mp ha
    obtain ⟨k, sites', p, -, rfl, -⟩ := mem_numbered.mp hb
    exact List.cons_lt_cons_iff.mpr (.inl (by omega))

section Entries

variable {α : Type} {bound : α → Option String} {as : List α}

theorem mem_entrySites {pos : List Nat} {x : String} : (pos, x) ∈ entrySites bound as ↔
    ∃ i a, as[i]? = some a ∧ bound a = some x ∧ pos = [i] := by
  rw [entrySites, mem_numbered]
  simp only [List.getElem?_map, Option.map_eq_some_iff, Nat.zero_add]
  constructor
  · rintro ⟨i, -, p, ⟨a, ha, rfl⟩, rfl, hmem⟩
    obtain ⟨y, hy, heq⟩ := List.mem_map.mp hmem
    obtain ⟨rfl, rfl⟩ := Prod.mk.inj heq
    exact ⟨i, a, ha, Option.mem_toList.mp hy, rfl⟩
  · rintro ⟨i, a, ha, hx, rfl⟩
    exact ⟨i, _, [], ⟨a, ha, rfl⟩, rfl, by simp [hx]⟩

theorem pairwise_entrySites : (entrySites bound as).Pairwise fun a b => a.1 < b.1 := by
  refine pairwise_numbered (List.forall_mem_map.mpr fun a _ => ?_)
  cases bound a <;> simp

theorem map_entrySites : (entrySites bound as).map Prod.snd = as.filterMap bound := by
  rw [entrySites, map_numbered, List.flatMap_map, List.filterMap_eq_flatMap_toList]
  exact List.flatMap_congr fun a _ => by cases bound a <;> rfl

end Entries

end Numbered

mutual

theorem Stmt.pairwise_sites : ∀ s : Stmt, s.sites.Pairwise fun a b => a.1 < b.1
  | .importModules _ | .importNames _ _ | .assign _ _ => by
    rw [Stmt.sites]
    exact pairwise_entrySites
  | .expr _ | .ret _ => .nil
  | .define _ _ _ => by simp [Stmt.sites]
  | .branch _ t e => by
    rw [Stmt.sites, sitesFrom_eq, sitesFrom_eq]
    have ht := pairwise_numbered (i := 0) (List.forall_mem_map.mpr (forall_pairwise_sites t))
    have he := pairwise_numbered (i := 0) (List.forall_mem_map.mpr (forall_pairwise_sites e))
    exact pairwise_numbered (by simp [ht, he])

theorem forall_pairwise_sites : ∀ ss : List Stmt, ∀ s ∈ ss, s.sites.Pairwise fun a b => a.1 < b.1
  | [] => nofun
  | s :: ss => List.forall_mem_cons.mpr ⟨s.pairwise_sites, forall_pairwise_sites ss⟩

end

/-- The places of a body are listed in order. -/
theorem pairwise_sites (body : List Stmt) : (sitesFrom 0 body).Pairwise fun a b => a.1 < b.1 := by
  rw [sitesFrom_eq]
  exact pairwise_numbered (List.forall_mem_map.mpr (forall_pairwise_sites body))

mutual

theorem Stmt.map_sites : ∀ s : Stmt, s.sites.map Prod.snd = s.bindings.map Binding.name
  | .importModules _ | .importNames _ _ | .assign _ _ => by
    simp [Stmt.sites, Stmt.bindings, map_entrySites, Function.comp_def]
  | .expr _ | .ret _ | .define _ _ _ => rfl
  | .branch _ t e => by
    simp [Stmt.sites, Stmt.bindings, map_numbered, map_sitesFrom]

/-- The names that are bound, in order. -/
theorem map_sitesFrom (i : Nat) : ∀ ss : List Stmt,
    (sitesFrom i ss).map Prod.snd = (bindings ss).map Binding.name
  | [] => rfl
  | s :: ss => by
    rw [sitesFrom, bindings, List.map_append, List.map_append, List.map_map, ← s.map_sites,
      map_sitesFrom (i + 1) ss]
    rfl

end

/-- The places of a body are those of its statements. -/
theorem mem_sitesFrom {ss : List Stmt}
    (h : ∀ s ∈ ss, ∀ {pos : List Nat} {x : String}, (pos, x) ∈ s.sites ↔ BindsAt s pos x)
    {pos : List Nat} {x : String} : (pos, x) ∈ sitesFrom 0 ss ↔ BindsIn ss pos x := by
  rw [sitesFrom_eq, mem_numbered]
  simp only [List.getElem?_map, Option.map_eq_some_iff, Nat.zero_add]
  constructor
  · rintro ⟨i, -, p, ⟨s, hs, rfl⟩, rfl, hmem⟩
    exact .stmt hs ((h s (List.mem_of_getElem? hs)).mp hmem)
  · intro hbinds
    cases hbinds with
    | stmt hs hbinds =>
      exact ⟨_, _, _, ⟨_, hs, rfl⟩, rfl, (h _ (List.mem_of_getElem? hs)).mpr hbinds⟩

mutual

theorem Stmt.mem_sites : ∀ (s : Stmt) {pos : List Nat} {x : String},
    (pos, x) ∈ s.sites ↔ BindsAt s pos x
  | .importModules entries, pos, x => by
    rw [Stmt.sites, mem_entrySites]
    constructor
    · rintro ⟨i, entry, hentry, hx, rfl⟩
      exact .module hentry hx
    · intro h
      cases h with
      | module hentry hx => exact ⟨_, _, hentry, hx, rfl⟩
  | .importNames _ names, pos, x => by
    rw [Stmt.sites, mem_entrySites]
    constructor
    · rintro ⟨i, entry, hentry, hx, rfl⟩
      exact Option.some.inj hx ▸ .named hentry
    · intro h
      cases h with
      | named hentry => exact ⟨_, _, hentry, rfl, rfl⟩
  | .assign targets _, pos, x => by
    rw [Stmt.sites, mem_entrySites]
    constructor
    · rintro ⟨i, y, hy, hx, rfl⟩
      exact .target (hx ▸ hy)
    · intro h
      cases h with
      | target hx => exact ⟨_, _, hx, rfl, rfl⟩
  | .expr _, _, _ | .ret _, _, _ => ⟨nofun, nofun⟩
  | .define _ _ _, pos, x => by
    rw [Stmt.sites, List.mem_singleton, Prod.mk.injEq]
    constructor
    · rintro ⟨rfl, rfl⟩
      exact .function
    · intro h
      cases h with
      | function => exact ⟨rfl, rfl⟩
  | .branch _ t e, pos, x => by
    have ht : ∀ {p}, (p, x) ∈ sitesFrom 0 t ↔ BindsIn t p x := mem_sitesFrom (forall_mem_sites t)
    have he : ∀ {p}, (p, x) ∈ sitesFrom 0 e ↔ BindsIn e p x := mem_sitesFrom (forall_mem_sites e)
    simp only [Stmt.sites, numbered, List.append_nil, List.mem_append, List.mem_map]
    constructor
    · rintro (⟨⟨p, y⟩, hmem, heq⟩ | ⟨⟨p, y⟩, hmem, heq⟩)
      · obtain ⟨rfl, rfl⟩ := Prod.mk.inj heq
        exact .whenTrue (ht.mp hmem)
      · obtain ⟨rfl, rfl⟩ := Prod.mk.inj heq
        exact .whenFalse (he.mp hmem)
    · intro h
      cases h with
      | whenTrue hbinds => exact .inl ⟨_, ht.mpr hbinds, rfl⟩
      | whenFalse hbinds => exact .inr ⟨_, he.mpr hbinds, rfl⟩

theorem forall_mem_sites : ∀ ss : List Stmt, ∀ s ∈ ss, ∀ {pos : List Nat} {x : String},
    (pos, x) ∈ s.sites ↔ BindsAt s pos x
  | [] => nofun
  | s :: ss => List.forall_mem_cons.mpr ⟨s.mem_sites, forall_mem_sites ss⟩

end

theorem mem_sites_body (body : List Stmt) {pos : List Nat} {x : String} :
    (pos, x) ∈ sitesFrom 0 body ↔ BindsIn body pos x :=
  mem_sitesFrom (forall_mem_sites body)

/-! ## First places -/

/-- Of the names of a sorted list of places, each comes before those that it is bound before. -/
theorem pairwise_eraseDups : ∀ {sites : List Site}, sites.Pairwise (fun a b => a.1 < b.1) →
    (sites.map Prod.snd).eraseDups.Pairwise fun x y =>
      ∃ pos, (pos, x) ∈ sites ∧ ∀ later, (later, y) ∈ sites → pos < later
  | [], _ => .nil
  | (pos, x) :: sites, h => by
    rw [List.pairwise_cons] at h
    rw [List.map_cons, List.eraseDups_cons, List.filter_map, List.pairwise_cons]
    have hother : ∀ y ∈ ((sites.filter ((fun y => !y == x) ∘ Prod.snd)).map Prod.snd).eraseDups,
        y ≠ x := by
      intro y hy
      rw [List.mem_eraseDups, List.mem_map] at hy
      obtain ⟨site, hsite, rfl⟩ := hy
      simpa using (List.mem_filter.mp hsite).2
    have htail : ∀ {later y}, y ≠ x → (later, y) ∈ (pos, x) :: sites → (later, y) ∈ sites := by
      intro later y hne hmem
      exact (List.mem_cons.mp hmem).resolve_left fun heq => hne (Prod.mk.inj heq).2
    constructor
    · intro y hy
      exact ⟨pos, List.mem_cons_self, fun later hlater => h.1 _ (htail (hother y hy) hlater)⟩
    · -- What is left after `x` is bound in the same order without its places.
      have hrest := pairwise_eraseDups (h.2.filter ((fun y => !y == x) ∘ Prod.snd))
      refine hrest.imp_of_mem fun {y z} _ hz hfirst => ?_
      obtain ⟨first, hmem, hbefore⟩ := hfirst
      refine ⟨first, List.mem_cons_of_mem _ (List.mem_filter.mp hmem).1, fun later hlater => ?_⟩
      have hne := hother z hz
      exact hbefore later (List.mem_filter.mpr ⟨htail hne hlater, by simpa using hne⟩)
termination_by sites => sites.length
decreasing_by exact Nat.lt_succ_of_le (List.length_filter_le ..)

/-! ## Exports -/

/-- The module lists no exports at its top level. -/
def Module.ListsNoExports (m : Module) : Prop :=
  ∀ targets elements, .assign targets (.list elements) ∈ m.body → exportListName ∉ targets

theorem nodup_exports (m : Module) : m.exports.Nodup := by
  unfold Module.exports
  split <;> exact Lowering.nodup_eraseDups _

section Default

variable {m : Module} (h : m.ListsNoExports)
include h

theorem exports_eq : m.exports =
    (((sitesFrom 0 m.body).filter fun site => !isPrivate site.2).map Prod.snd).eraseDups := by
  have hnone : m.body.findSome? Stmt.exportList? = none := by
    rw [List.findSome?_eq_none_iff]
    intro s hs
    unfold Stmt.exportList?
    split
    · exact if_neg (h _ _ hs)
    · rfl
  rw [Module.exports, hnone, ← map_sitesFrom 0, List.filter_map]
  rfl

theorem mem_exports_iff {x : String} :
    x ∈ m.exports ↔ isPrivate x = false ∧ ∃ pos, BindsIn m.body pos x := by
  rw [exports_eq h, List.mem_eraseDups, List.mem_map]
  constructor
  · rintro ⟨⟨pos, y⟩, hmem, rfl⟩
    obtain ⟨hsite, hpublic⟩ := List.mem_filter.mp hmem
    exact ⟨by simpa using hpublic, pos, (mem_sites_body m.body).mp hsite⟩
  · rintro ⟨hpublic, pos, hbinds⟩
    exact ⟨(pos, x),
      List.mem_filter.mpr ⟨(mem_sites_body m.body).mpr hbinds, by simp [hpublic]⟩, rfl⟩

/-- Exports are in the order of their first places. -/
theorem pairwise_exports : m.exports.Pairwise fun x y =>
    ∃ pos, BindsIn m.body pos x ∧ ∀ later, BindsIn m.body later y → pos < later := by
  have hpublic : ∀ y ∈ m.exports, isPrivate y = false := fun y hy => ((mem_exports_iff h).mp hy).1
  have hfirst := pairwise_eraseDups ((pairwise_sites m.body).filter fun site => !isPrivate site.2)
  rw [← exports_eq h] at hfirst
  refine hfirst.imp_of_mem fun {x y} _ hy hbefore => ?_
  obtain ⟨pos, hmem, hlater⟩ := hbefore
  refine ⟨pos, (mem_sites_body m.body).mp (List.mem_filter.mp hmem).1, fun later hbinds => ?_⟩
  refine hlater later (List.mem_filter.mpr ⟨(mem_sites_body m.body).mpr hbinds, ?_⟩)
  simp [hpublic y hy]

end Default

end Source

namespace Lowering

open Source (BindsIn)

/-- The name of a function that an item defines. -/
def functionName : Script.Item → List String
  | .function f _ _ => [f]
  | _ => []

theorem mem_functionName {i : Script.Item} {x : String} :
    x ∈ functionName i ↔ ∃ parameters body, i = .function x parameters body := by
  cases i with
  | function f parameters body =>
    rw [functionName, List.mem_singleton]
    constructor
    · rintro rfl
      exact ⟨parameters, body, rfl⟩
    · rintro ⟨_, _, heq⟩
      cases heq
      rfl
  | expr e | var y initial => simp [functionName]

theorem Emits.functionName {i : Source.Item} {is : List Script.Item} (h : Emits i is) :
    is.flatMap functionName = definedNames i.stmt.bindings := by
  cases h with
  | importModules entries =>
    rw [flatMap_lowerEntry_eq_nil fun _ => rfl]
    simp [definedNames, Source.Item.stmt, Source.Stmt.bindings, List.filter_map, Function.comp_def]
  | importNames n path names =>
    simp [definedNames, Source.Item.stmt, Source.Stmt.bindings, List.filter_map, Function.comp_def,
      Lowering.functionName, List.flatMap_map]
  | expr e => rfl
  | condition e => rfl
  | assign targets value =>
    simp [definedNames, Source.Item.stmt, Source.Stmt.bindings, List.filter_map, Function.comp_def,
      Lowering.functionName]
  | define f parameters body σ => rfl

/-- A lowered body defines the functions of its source. -/
theorem functionName_lowerBody (body : List Source.Stmt) (σ : State) :
    (Script.items ((lowerBody body).run σ).1).flatMap functionName =
      definedNames (Source.bindings body) := by
  rw [flatMap_lowerBody body fun i _ is his => Emits.functionName his,
    Source.bindings_eq_flatMap_items]
  simp only [definedNames, List.filter_flatMap, List.map_flatMap]

/-- What the module scope binds, its lowered tree declares. -/
theorem declared_of_mem_bindings {body : List Source.Stmt} {x : String}
    (hx : x ∈ (Source.bindings body).map Source.Binding.name) (σ : State) :
    x ∈ Source.declaredNames body ∨ ∃ parameters inner,
      .function x parameters inner ∈ Script.items ((lowerBody body).run σ).1 := by
  rcases mem_map_name_iff.mp hx with hhoisted | hdefined
  · exact .inl (List.mem_eraseDups.mpr hhoisted)
  · rw [← functionName_lowerBody body σ, List.mem_flatMap] at hdefined
    obtain ⟨i, hi, hname⟩ := hdefined
    obtain ⟨parameters, inner, rfl⟩ := mem_functionName.mp hname
    exact .inr ⟨parameters, inner, hi⟩

/-- The exports of a module have no duplicates. Those of a module that lists none are the names that
its scope binds and that do not start with an underscore, in the order of their first places. The
lowered module ends with one assignment for each of them, and what that reads is declared by the
same scope, at its head or by a function. -/
theorem exports_follow_bindings (m : Source.Module) :
    m.exports.Nodup ∧ (m.ListsNoExports →
      (∀ x, x ∈ m.exports ↔ x.toList.head? ≠ some '_' ∧ ∃ pos, BindsIn m.body pos x) ∧
      m.exports.Pairwise (fun x y =>
        ∃ pos, BindsIn m.body pos x ∧ ∀ later, BindsIn m.body later y → pos < later) ∧
      ∃ (declared : List String) (lowered : List Script.Stmt),
        (lower m m.exports).tree = .run (declared.map (.var · none) ++ lowered ++
          m.exports.map fun x =>
            .expr (.assignProperty (.name Prelude.exportsName) x (.name x))) ∧
        ∀ x ∈ m.exports, x ∈ declared ∨
          ∃ parameters body, .function x parameters body ∈ Script.items lowered) := by
  refine ⟨Source.nodup_exports m, fun h => ⟨fun x => ?_, Source.pairwise_exports h,
    Source.declaredNames m.body, _, lower_tree m m.exports, fun x hx => ?_⟩⟩
  · rw [Source.mem_exports_iff h]
    simp [Source.isPrivate]
  · obtain ⟨-, pos, hbinds⟩ := (Source.mem_exports_iff h).mp hx
    have hsite := List.mem_map_of_mem (f := Prod.snd) ((Source.mem_sites_body m.body).mpr hbinds)
    rw [Source.map_sitesFrom] at hsite
    exact declared_of_mem_bindings hsite _

/-- A module that binds names twice, in a branch, by imports, by a function and inside of it, and
keeps two of them to itself. -/
def exportsSample : Source.Module where
  body := [.importModules [⟨["p", "q"], none⟩, ⟨["r"], some "_r"⟩],
    .branch (.name "p") [.assign ["b", "_c"] (.name "p"),
      .define "f" ["x"] [.assign ["inner"] (.name "x")]] [.importNames ["m"] [⟨"n", some "b"⟩]],
    .assign ["a", "p"] (.list [.str "f"])]

theorem exports_follow_bindings_sample : exportsSample.ListsNoExports ∧
    exportsSample.exports = ["p", "b", "f", "a"] ∧
    (¬ ∃ pos, BindsIn exportsSample.body pos "inner") ∧
    ∃ pos, BindsIn exportsSample.body pos "b" ∧
      ∀ later, BindsIn exportsSample.body later "f" → pos < later := by
  have hlists : exportsSample.ListsNoExports := by
    intro targets elements hmem
    obtain ⟨rfl, -⟩ : targets = ["a", "p"] ∧ elements = [.str "f"] := by
      simpa [exportsSample] using hmem
    decide
  have hexports : exportsSample.exports = ["p", "b", "f", "a"] := by decide
  obtain ⟨hmem, horder, -⟩ := (exports_follow_bindings exportsSample).2 hlists
  rw [hexports] at hmem horder
  refine ⟨hlists, hexports, fun hinner => ?_, ?_⟩
  · exact absurd ((hmem "inner").mpr ⟨by decide, hinner⟩) (by decide)
  · exact (List.pairwise_cons.mp (List.pairwise_cons.mp horder).2).1 "f" (by decide)

end Lowering

end ScriptCompiler
