import ScriptCompiler.Files.Path

/-!
# The text of a path and its steps

A path is known by its start and its steps (`Path.ext_steps`). A join goes on from the steps of its
left side, less the empty one that a slash at its end leaves (`Path.steps_join`). For a `Tidy` path,
whose last step is one that counts, joining a name and taking the directory of a path are inverse
(`Tidy.parent?_join_name`), and names can be joined one by one (`Path.join_ofNames`).
-/

namespace ScriptCompiler

namespace Text

theorem pieces_intercalate {sep : Char} : ∀ {ps : List (List Char)}, ps ≠ [] →
    (∀ p ∈ ps, sep ∉ p) → pieces sep ([sep].intercalate ps) = ps
  | [], hne, _ => absurd rfl hne
  | [p], _, h => by
    rw [List.intercalate_singleton]
    exact pieces_of_not_mem (h p List.mem_cons_self)
  | p :: q :: ps, _, h => by
    rw [List.forall_mem_cons] at h
    have hrest := pieces_intercalate (by simp) h.2
    have hcons : [sep].intercalate (p :: q :: ps) = p ++ sep :: [sep].intercalate (q :: ps) := by
      simp [List.intercalate]
    rw [hcons, pieces_append, pieces_of_not_mem h.1, hrest, List.singleton_append]

/-- The last piece is empty only at the end of a text that is empty or ends in the separator. -/
theorem getLast?_pieces {sep : Char} {s : List Char} (h : (pieces sep s).getLast? = some []) :
    s = [] ∨ s.getLast? = some sep := by
  induction s with
  | nil => exact .inl rfl
  | cons c s ih =>
    right
    obtain ⟨p, ps, hps⟩ := List.exists_cons_of_ne_nil (pieces_ne_nil sep s)
    by_cases hc : c = sep
    · subst hc
      rw [pieces_cons_sep, List.getLast?_cons_of_ne_nil (pieces_ne_nil _ _)] at h
      rcases ih h with rfl | hlast
      · rfl
      · cases s with
        | nil => simp at hlast
        | cons d s => simpa using hlast
    · rw [pieces_cons_of_ne hc hps] at h
      rw [hps] at ih
      cases ps with
      | nil => simp at h
      | cons q ps =>
        rcases ih (by simpa using h) with rfl | hlast
        · simp [pieces] at hps
        · cases s with
          | nil => simp at hlast
          | cons d s => simpa using hlast

theorem piecesOf_append (sep : Char) (s t : String) :
    piecesOf sep (s ++ String.singleton sep ++ t) = piecesOf sep s ++ piecesOf sep t := by
  simp [piecesOf, pieces_append]

theorem piecesOf_ne_nil (sep : Char) (s : String) : piecesOf sep s ≠ [] := by
  simp [piecesOf, pieces_ne_nil]

theorem piecesOf_joinedBy {sep : Char} {ps : List String} (hne : ps ≠ [])
    (h : ∀ p ∈ ps, sep ∉ p.toList) : piecesOf sep (joinedBy sep ps) = ps := by
  have hlists : ∀ q ∈ ps.map String.toList, sep ∉ q := by simpa using h
  rw [piecesOf, toList_joinedBy, pieces_intercalate (by simpa using hne) hlists, List.map_map]
  simp

theorem mem_of_mem_pieces {sep c : Char} {s p : List Char} (h : p ∈ pieces sep s) (hc : c ∈ p) :
    c ∈ s := by
  induction s generalizing p with
  | nil => simp_all [pieces]
  | cons d s ih =>
    obtain ⟨q, qs, hq⟩ := List.exists_cons_of_ne_nil (pieces_ne_nil sep s)
    by_cases hd : d = sep
    · subst hd
      rw [pieces_cons_sep, List.mem_cons] at h
      rcases h with rfl | h
      · simp at hc
      · exact List.mem_cons_of_mem _ (ih h hc)
    · rw [pieces_cons_of_ne hd hq, List.mem_cons] at h
      rcases h with rfl | h
      · rcases List.mem_cons.mp hc with rfl | hc
        · exact List.mem_cons_self
        · exact List.mem_cons_of_mem _ (ih (by rw [hq]; exact List.mem_cons_self) hc)
      · exact List.mem_cons_of_mem _ (ih (by rw [hq]; exact List.mem_cons_of_mem _ h) hc)

theorem not_mem_of_mem_piecesOf {sep : Char} {s p : String} (h : p ∈ piecesOf sep s) :
    sep ∉ p.toList := by
  obtain ⟨q, hq, rfl⟩ := List.mem_map.mp h
  simpa using not_mem_of_mem_pieces hq

end Text

namespace Path

open Text

/-! ## Steps -/

theorem isAbsolute_iff {p : Path} : p.isAbsolute = true ↔ ∃ rest, p.text.toList = '/' :: rest := by
  rw [isAbsolute, beq_iff_eq, List.head?_eq_some_iff]

/-- The slash that a path starts with leaves an empty piece before the steps. -/
theorem piecesOf_text (p : Path) :
    piecesOf '/' p.text = if p.isAbsolute then "" :: p.steps else p.steps := by
  cases habs : p.isAbsolute with
  | false => simp [steps, habs]
  | true =>
    obtain ⟨rest, htext⟩ := isAbsolute_iff.mp habs
    simp [steps, habs, piecesOf, htext, pieces_cons_sep]

theorem steps_ne_nil (p : Path) : p.steps ≠ [] := by
  cases habs : p.isAbsolute with
  | false => simp [steps, habs, piecesOf_ne_nil]
  | true =>
    obtain ⟨rest, htext⟩ := isAbsolute_iff.mp habs
    simp [steps, habs, piecesOf, htext, pieces_cons_sep, pieces_ne_nil]

theorem mem_piecesOf_of_mem_steps {p : Path} {step : String} (h : step ∈ p.steps) :
    step ∈ piecesOf '/' p.text := by
  rw [piecesOf_text]
  split
  · exact List.mem_cons_of_mem _ h
  · exact h

theorem not_slash_of_mem_steps {p : Path} {step : String} (h : step ∈ p.steps) :
    '/' ∉ step.toList :=
  not_mem_of_mem_piecesOf (mem_piecesOf_of_mem_steps h)

theorem mem_text_of_mem_steps {p : Path} {step : String} {c : Char} (h : step ∈ p.steps)
    (hc : c ∈ step.toList) : c ∈ p.text.toList := by
  obtain ⟨piece, hpiece, rfl⟩ := List.mem_map.mp (mem_piecesOf_of_mem_steps h)
  exact mem_of_mem_pieces hpiece (by simpa using hc)

/-- A path is its start and its steps. -/
theorem ofSteps_steps (p : Path) : ofSteps p.isAbsolute p.steps = p := by
  have hjoin := joinedBy_piecesOf '/' p.text
  rw [piecesOf_text] at hjoin
  obtain ⟨step, rest, hsteps⟩ := List.exists_cons_of_ne_nil p.steps_ne_nil
  cases habs : p.isAbsolute with
  | false =>
    rw [habs] at hjoin
    simp_all [ofSteps]
  | true =>
    rw [habs, hsteps] at hjoin
    have htext : "/" ++ joinedBy '/' (step :: rest) = p.text := by
      rw [← hjoin]
      apply String.toList_injective
      simp [toList_joinedBy, List.intercalate]
    simp [ofSteps, hsteps, htext]

theorem ext_steps {p q : Path} (habs : p.isAbsolute = q.isAbsolute) (hsteps : p.steps = q.steps) :
    p = q := by
  rw [← ofSteps_steps p, ← ofSteps_steps q, habs, hsteps]

/-- The path through given steps, unless it would start at the root by its first one. -/
theorem steps_ofSteps {absolute : Bool} {step : String} {rest : List String}
    (hslash : ∀ s ∈ step :: rest, '/' ∉ s.toList) (hstep : absolute = false → step ≠ "") :
    (ofSteps absolute (step :: rest)).isAbsolute = absolute ∧
      (ofSteps absolute (step :: rest)).steps = step :: rest := by
  have hpieces := piecesOf_joinedBy (by simp) hslash
  have hhead : (ofSteps absolute (step :: rest)).isAbsolute = absolute := by
    cases absolute with
    | true => simp [ofSteps, isAbsolute]
    | false =>
      rw [← Bool.not_eq_true, isAbsolute_iff]
      rintro ⟨tail, htext⟩
      obtain ⟨c, cs, hc⟩ := List.exists_cons_of_ne_nil
        (mt String.toList_eq_nil_iff.mp (hstep rfl))
      have hfirst : c = '/' := by
        cases rest <;> simp_all [ofSteps, toList_joinedBy, List.intercalate]
      have hmem := hslash step List.mem_cons_self
      simp [hc, hfirst] at hmem
  refine ⟨hhead, ?_⟩
  have htext := piecesOf_text (ofSteps absolute (step :: rest))
  rw [hhead] at htext
  cases absolute with
  | false => simpa [ofSteps, hpieces] using htext.symm
  | true =>
    have hroot := piecesOf_append '/' "" (joinedBy '/' (step :: rest))
    have hslashed : (ofSteps true (step :: rest)).text =
        "" ++ String.singleton '/' ++ joinedBy '/' (step :: rest) := by
      simp [ofSteps]
    rw [hslashed, hroot, hpieces] at htext
    simpa [piecesOf, pieces] using htext.symm

/-! ## Joining -/

/-- Steps without the empty one that a slash at the end of a text leaves. -/
def dropOpen (steps : List String) : List String :=
  if steps.getLast? = some "" then steps.dropLast else steps

theorem dropOpen_concat_empty (steps : List String) : dropOpen (steps ++ [""]) = steps := by
  simp [dropOpen]

theorem dropOpen_of_getLast? {steps : List String} (h : steps.getLast? ≠ some "") :
    dropOpen steps = steps := if_neg h

theorem dropOpen_cons {step : String} {steps : List String} (h : steps ≠ []) :
    dropOpen (step :: steps) = step :: dropOpen steps := by
  unfold dropOpen
  rw [List.getLast?_cons_of_ne_nil h, List.dropLast_cons_of_ne_nil h]
  split <;> rfl

/-- The steps from which a join goes on. -/
def openSteps (p : Path) : List String := dropOpen p.steps

theorem piecesOf_join {p q : Path} (hp : p.text ≠ "") (hq : q.isAbsolute = false) :
    piecesOf '/' (p.join q).text = dropOpen (piecesOf '/' p.text) ++ q.steps := by
  have hqPieces : piecesOf '/' q.text = q.steps := by simp [piecesOf_text, hq]
  by_cases hslash : p.text.toList.getLast? = some '/'
  · obtain ⟨front, hfront⟩ := List.getLast?_eq_some_iff.mp hslash
    have htext : p.text = String.ofList front ++ String.singleton '/' ++ "" := by
      apply String.toList_injective
      simp [hfront]
    have hjoin : (p.join q).text = String.ofList front ++ String.singleton '/' ++ q.text := by
      rw [join, hq]
      simp [htext]
    rw [hjoin, htext, piecesOf_append, piecesOf_append, hqPieces,
      show piecesOf '/' "" = [""] from rfl, dropOpen_concat_empty]
  · have hjoin : (p.join q).text = p.text ++ String.singleton '/' ++ q.text := by
      rw [join, hq]
      simp [hslash, hp]
    have hlast : (piecesOf '/' p.text).getLast? ≠ some "" := by
      intro hlast
      have hnil : (pieces '/' p.text.toList).getLast? = some [] := by
        simpa [piecesOf] using hlast
      rcases getLast?_pieces hnil with h | h
      · exact hp (String.toList_eq_nil_iff.mp h)
      · exact hslash h
    rw [hjoin, piecesOf_append, hqPieces, dropOpen_of_getLast? hlast]

theorem isAbsolute_join (p : Path) {q : Path} (hq : q.isAbsolute = false) :
    (p.join q).isAbsolute = p.isAbsolute := by
  by_cases hp : p.text = ""
  · simpa [join, hq, hp, isAbsolute] using hq
  · obtain ⟨c, rest, htext⟩ := List.exists_cons_of_ne_nil (mt String.toList_eq_nil_iff.mp hp)
    rw [join, hq]
    simp only [Bool.false_eq_true, if_false]
    split <;> simp [isAbsolute, htext]

theorem steps_join (p : Path) {q : Path} (hq : q.isAbsolute = false) :
    (p.join q).steps = p.openSteps ++ q.steps := by
  by_cases hp : p.text = ""
  · have hjoin : p.join q = q := by simp [join, hq, hp]
    have hsteps : p.steps = [""] := by simp [steps, isAbsolute, hp, piecesOf, pieces]
    rw [hjoin, openSteps, hsteps, show dropOpen [""] = [] from rfl, List.nil_append]
  · have hpieces := piecesOf_join hp hq
    rw [piecesOf_text, piecesOf_text, isAbsolute_join p hq] at hpieces
    cases habs : p.isAbsolute with
    | false => simpa [habs, openSteps] using hpieces
    | true => simpa [habs, openSteps, dropOpen_cons p.steps_ne_nil] using hpieces

/-! ## Names -/

/-- A step of its own in a path. -/
structure IsStep (name : String) : Prop where
  ne_empty : name ≠ ""
  not_slash : '/' ∉ name.toList

theorem isStep_iff {name : String} : IsStep name ↔ name ≠ "" ∧ '/' ∉ name.toList :=
  ⟨fun h => ⟨h.ne_empty, h.not_slash⟩, fun h => ⟨h.1, h.2⟩⟩

instance (name : String) : Decidable (IsStep name) := decidable_of_iff _ isStep_iff.symm

theorem IsStep.not_silent {name : String} (h : IsStep name) (hdot : name ≠ ".") :
    isSilent name = false := by
  simp [isSilent, h.ne_empty, hdot]

theorem isAbsolute_ofNames {names : List String} (h : ∀ name ∈ names, IsStep name) :
    (ofNames names).isAbsolute = false := by
  cases names with
  | nil => rfl
  | cons name names =>
    exact (steps_ofSteps (fun s hs => (h s hs).not_slash)
      (fun _ => (h name List.mem_cons_self).ne_empty)).1

theorem steps_ofNames {names : List String} (hne : names ≠ []) (h : ∀ name ∈ names, IsStep name) :
    (ofNames names).steps = names := by
  obtain ⟨name, names, rfl⟩ := List.exists_cons_of_ne_nil hne
  exact (steps_ofSteps (fun s hs => (h s hs).not_slash)
    (fun _ => (h name List.mem_cons_self).ne_empty)).2

theorem ofNames_singleton (name : String) : ofNames [name] = ⟨name⟩ := by
  simp [ofNames, ofSteps, joinedBy]

theorem isAbsolute_name {name : String} (h : IsStep name) : (⟨name⟩ : Path).isAbsolute = false := by
  rw [← ofNames_singleton]
  exact isAbsolute_ofNames (by simpa using h)

theorem steps_name {name : String} (h : IsStep name) : (⟨name⟩ : Path).steps = [name] := by
  rw [← ofNames_singleton]
  exact steps_ofNames (by simp) (by simpa using h)

theorem steps_join_name (p : Path) {name : String} (h : IsStep name) :
    (p.join ⟨name⟩).steps = p.openSteps ++ [name] := by
  rw [steps_join p (isAbsolute_name h), steps_name h]

theorem openSteps_join_name (p : Path) {name : String} (h : IsStep name) :
    (p.join ⟨name⟩).openSteps = p.openSteps ++ [name] := by
  rw [openSteps, steps_join_name p h]
  exact dropOpen_of_getLast? (by simpa using h.ne_empty)

/-- A path with names joined to it one by one. -/
def descend (p : Path) (names : List String) : Path :=
  names.foldl (fun q name => q.join ⟨name⟩) p

theorem descend_concat (p : Path) (names : List String) (name : String) :
    p.descend (names ++ [name]) = (p.descend names).join ⟨name⟩ := by
  simp [descend]

theorem openSteps_descend (p : Path) {names : List String} (h : ∀ name ∈ names, IsStep name) :
    (p.descend names).isAbsolute = p.isAbsolute ∧
      (p.descend names).openSteps = p.openSteps ++ names := by
  induction names generalizing p with
  | nil => simp [descend]
  | cons name names ih =>
    rw [List.forall_mem_cons] at h
    obtain ⟨habs, hsteps⟩ := ih (p.join ⟨name⟩) h.2
    rw [openSteps_join_name p h.1, List.append_assoc] at hsteps
    rw [isAbsolute_join p (isAbsolute_name h.1)] at habs
    exact ⟨habs, hsteps⟩

/-- Joining names one by one, or all at once. -/
theorem join_ofNames (p : Path) {names : List String} (hne : names ≠ [])
    (h : ∀ name ∈ names, IsStep name) : p.join (ofNames names) = p.descend names := by
  obtain ⟨front, last, rfl⟩ : ∃ front last, names = front ++ [last] :=
    ⟨_, _, (List.dropLast_concat_getLast hne).symm⟩
  have hlast : IsStep last := h last (by simp)
  have hfront : ∀ name ∈ front, IsStep name := fun name hname => h name (by simp [hname])
  obtain ⟨habs, hsteps⟩ := openSteps_descend p hfront
  refine ext_steps ?_ ?_
  · rw [isAbsolute_join p (isAbsolute_ofNames h), descend_concat,
      isAbsolute_join _ (isAbsolute_name hlast), habs]
  · rw [steps_join p (isAbsolute_ofNames h), steps_ofNames hne h, descend_concat,
      steps_join_name _ hlast, hsteps, List.append_assoc]

/-! ## Directories of paths -/

theorem dropSilent_concat (front : List String) {last : String} (h : isSilent last = false) :
    dropSilent (front ++ [last]) = front ++ [last] := by
  simp [dropSilent, h]

/-- Steps whose last one counts are counted in full. -/
theorem counted_concat (absolute : Bool) (front : List String) {last : String}
    (h : isSilent last = false) : counted absolute (front ++ [last]) = front ++ [last] := by
  unfold counted
  split
  · next rest hrest =>
    cases front with
    | nil =>
      obtain ⟨rfl, -⟩ := List.cons.inj hrest
      exact absurd h (by decide)
    | cons step front =>
      obtain ⟨rfl, rfl⟩ := List.cons.inj hrest
      exact congrArg _ (dropSilent_concat front h)
  · exact dropSilent_concat front h

theorem parent?_eq {p : Path} {front : List String} {last : String}
    (hsteps : p.steps = front ++ [last]) (h : isSilent last = false) :
    p.parent? = some (ofSteps p.isAbsolute (counted p.isAbsolute front)) := by
  have hcounted : p.countedSteps = front ++ [last] := by
    rw [countedSteps, hsteps, counted_concat _ _ h]
  rw [parent?, hcounted]
  split
  · next hnil => simp at hnil
  · rw [List.dropLast_concat]

theorem fileName?_eq {p : Path} {front : List String} {last : String}
    (hsteps : p.steps = front ++ [last]) (h : isSilent last = false) (hup : last ≠ "..") :
    p.fileName? = some last := by
  have hdot : last ≠ "." := by rintro rfl; exact absurd h (by decide)
  rw [fileName?, countedSteps, hsteps, counted_concat _ _ h]
  simp [hdot, hup]

/-- The last step of the path is one that counts. -/
def Tidy (p : Path) : Prop := ∃ front last, p.steps = front ++ [last] ∧ isSilent last = false

theorem Tidy.openSteps {p : Path} (h : p.Tidy) : p.openSteps = p.steps := by
  obtain ⟨front, last, hsteps, hlast⟩ := h
  refine dropOpen_of_getLast? ?_
  rw [hsteps]
  rintro hempty
  rw [List.getLast?_concat] at hempty
  injection hempty with hempty
  exact absurd hlast (by rw [hempty]; decide)

theorem Tidy.join_name {p : Path} {name : String} (h : IsStep name) (hdot : name ≠ ".") :
    (p.join ⟨name⟩).Tidy := by
  exact ⟨p.openSteps, name, steps_join_name p h, h.not_silent hdot⟩

theorem Tidy.descend {p : Path} (hp : p.Tidy) {names : List String}
    (h : ∀ name ∈ names, IsStep name ∧ name ≠ ".") : (p.descend names).Tidy := by
  rcases List.eq_nil_or_concat names with rfl | ⟨front, last, rfl⟩
  · exact hp
  · rw [List.concat_eq_append, descend_concat]
    obtain ⟨hlast, hdot⟩ := h last (by simp)
    exact .join_name hlast hdot

theorem Tidy.parent?_join_name {p : Path} (hp : p.Tidy) {name : String} (h : IsStep name)
    (hdot : name ≠ ".") : (p.join ⟨name⟩).parent? = some p := by
  rw [parent?_eq (steps_join_name p h) (h.not_silent hdot),
    isAbsolute_join p (isAbsolute_name h), hp.openSteps]
  obtain ⟨front, last, hsteps, hlast⟩ := hp
  rw [hsteps, counted_concat _ _ hlast, ← hsteps, ofSteps_steps]

theorem Tidy.text_ne_empty {p : Path} (h : p.Tidy) : p.text ≠ "" := by
  obtain ⟨front, last, hsteps, hlast⟩ := h
  intro hempty
  have hnil : p.steps = [""] := by simp [steps, isAbsolute, hempty, piecesOf, pieces]
  rw [hnil] at hsteps
  cases front with
  | nil =>
    obtain ⟨rfl, -⟩ := List.cons.inj hsteps
    exact absurd hlast (by decide)
  | cons step front => simp at hsteps

theorem Tidy.text_join {p q : Path} (h : p.Tidy) (hq : q.isAbsolute = false) :
    (p.join q).text = p.text ++ "/" ++ q.text := by
  have hslash : p.text.toList.getLast? ≠ some '/' := by
    intro hslash
    obtain ⟨chars, hchars⟩ := List.getLast?_eq_some_iff.mp hslash
    have htext : p.text = String.ofList chars ++ String.singleton '/' ++ "" := by
      apply String.toList_injective
      simp [hchars]
    have hpieces := piecesOf_text p
    rw [htext, piecesOf_append, show piecesOf '/' "" = [""] from rfl] at hpieces
    have hlast : p.steps.getLast? = some "" := by
      have := congrArg List.getLast? hpieces
      split at this
      · rw [List.getLast?_cons_of_ne_nil p.steps_ne_nil] at this
        simpa using this.symm
      · simpa using this.symm
    obtain ⟨front, last, hsteps, hsilent⟩ := h
    rw [hsteps, List.getLast?_concat] at hlast
    injection hlast with hlast
    exact absurd hsilent (by rw [hlast]; decide)
  rw [join, hq]
  simp [h.text_ne_empty, hslash]

end Path

end ScriptCompiler
