import Mathlib.Algebra.GroupWithZero.Nat
import Mathlib.Data.List.Infix
import ScriptCompiler.Prelude.Text

/-!
# The operators of the prelude

The prelude defines every operator once: the head of its definition stands in one place of the text
and in no other (`occurrences_definitionHead`). A head has no line end and starts with no blank, so
it is looked for in one line after the other, without the indentation. A line that is no head lacks
one of the characters that every head has.
-/

namespace ScriptCompiler.Prelude

/-! ## Occurrences of a pattern -/

/-- In how many places of a text a pattern starts. -/
def occurrences (pattern text : List Char) : Nat := text.tails.countP pattern.isPrefixOf

variable {pattern : List Char}

theorem occurrences_cons (c : Char) (text : List Char) :
    occurrences pattern (c :: text) =
      occurrences pattern text + if pattern.isPrefixOf (c :: text) then 1 else 0 := by
  rw [occurrences, List.tails_cons, List.countP_cons, occurrences]

theorem occurrences_eq_zero {c : Char} {text : List Char} (hc : c ∈ pattern) (ht : c ∉ text) :
    occurrences pattern text = 0 := by
  rw [occurrences, List.countP_eq_zero]
  intro tail htail hstart
  rw [List.mem_tails] at htail
  exact ht (htail.subset ((List.isPrefixOf_iff_prefix.mp hstart).subset hc))

theorem isPrefixOf_append_cons {c : Char} (rest : List Char) : ∀ {pattern : List Char}
    (text : List Char), c ∉ pattern →
    pattern.isPrefixOf (text ++ c :: rest) = pattern.isPrefixOf text
  | [], _, _ => by simp
  | a :: pattern, [], hc => by
    have hac : a ≠ c := fun h => hc (h ▸ List.mem_cons_self)
    simp [List.isPrefixOf, hac]
  | a :: pattern, b :: text, hc => by
    have ih := isPrefixOf_append_cons rest text (List.not_mem_of_not_mem_cons hc)
    rw [List.cons_append, List.isPrefixOf_cons_cons, List.isPrefixOf_cons_cons, ih]

/-- No occurrence goes over a character that the pattern does not have. -/
theorem occurrences_append_cons {c : Char} (hne : pattern ≠ []) (hc : c ∉ pattern)
    (text rest : List Char) :
    occurrences pattern (text ++ c :: rest) =
      occurrences pattern text + occurrences pattern rest := by
  induction text with
  | nil =>
    have hstart := isPrefixOf_append_cons rest [] hc
    have hnil : pattern.isPrefixOf [] = false := by cases pattern <;> simp_all [List.isPrefixOf]
    rw [List.nil_append] at hstart ⊢
    rw [occurrences_cons, hstart, hnil]
    simp [occurrences, hnil]
  | cons a text ih =>
    have hstart := isPrefixOf_append_cons rest (a :: text) hc
    rw [List.cons_append] at hstart ⊢
    rw [occurrences_cons, occurrences_cons, ih, hstart]
    omega

/-! ## Lines without their indentation -/

mutual

/-- The lines of a piece of code as they were before they were moved in. -/
def Code.texts : Code → List String
  | .line text => [text]
  | .block head body tail => (head ++ " \x7b") :: (textsOf body ++ ["\x7d" ++ tail])
  | .attempt body handler =>
    "try \x7b" :: (textsOf body ++ "\x7d catch (error) \x7b" :: (textsOf handler ++ ["\x7d"]))

def textsOf : List Code → List String
  | [] => []
  | c :: cs => c.texts ++ textsOf cs

end

section Indentation

variable {f : String → Nat}

mutual

/-- A sum over the lines does not see the indentation if its terms do not. -/
theorem Code.sum_lines (hf : ∀ l, f (indented l) = f l) : ∀ c : Code,
    (c.lines.map f).sum = (c.texts.map f).sum
  | .line _ => rfl
  | .block head body tail => by
    have hbody := sum_linesOf hf body
    simp only [Code.lines, Code.texts, List.map_cons, List.map_append, List.map_map, List.sum_cons,
      List.sum_append, Function.comp_def, hf, hbody]
  | .attempt body handler => by
    have hbody := sum_linesOf hf body
    have hhandler := sum_linesOf hf handler
    simp only [Code.lines, Code.texts, List.map_cons, List.map_append, List.map_map, List.sum_cons,
      List.sum_append, Function.comp_def, hf, hbody, hhandler]

theorem sum_linesOf (hf : ∀ l, f (indented l) = f l) : ∀ cs : List Code,
    ((linesOf cs).map f).sum = ((textsOf cs).map f).sum
  | [] => rfl
  | c :: cs => by
    rw [linesOf, textsOf, List.map_append, List.map_append, List.sum_append, List.sum_append,
      c.sum_lines hf, sum_linesOf hf cs]

end

end Indentation

theorem occurrences_indented (hblank : ' ' ∉ pattern.head?) (hne : pattern ≠ []) (line : String) :
    occurrences pattern (indented line).toList = occurrences pattern line.toList := by
  obtain ⟨a, pattern, rfl⟩ := List.exists_cons_of_ne_nil hne
  have ha : a ≠ ' ' := by simpa using hblank
  have hstep : ∀ text,
      occurrences (a :: pattern) (' ' :: text) = occurrences (a :: pattern) text := by
    intro text
    rw [occurrences_cons, List.isPrefixOf_cons_cons]
    simp [ha]
  have hchars : (indented line).toList = ' ' :: ' ' :: ' ' :: ' ' :: line.toList := by
    simp [indented]
  simp only [hchars, hstep]

/-- A pattern with no line end that starts with no blank is looked for line by line. -/
theorem occurrences_textOf (hne : pattern ≠ []) (hblank : ' ' ∉ pattern.head?)
    (hend : '\n' ∉ pattern) (cs : List Code) :
    occurrences pattern (textOf cs).toList =
      ((textsOf cs).map fun t => occurrences pattern t.toList).sum := by
  rw [← sum_linesOf (occurrences_indented hblank hne), textOf, String.toList_join, List.flatMap_map]
  induction linesOf cs with
  | nil =>
    obtain ⟨a, pattern, rfl⟩ := List.exists_cons_of_ne_nil hne
    rfl
  | cons line lines ih =>
    have hline : (line ++ "\n").toList = line.toList ++ ['\n'] := by simp
    rw [List.flatMap_cons, hline, List.append_assoc, List.singleton_append,
      occurrences_append_cons hne hend, ih, List.map_cons, List.sum_cons]

/-! ## Heads of definitions -/

/-- How the definition of an operator starts. -/
def definitionHead (op : BinaryOp) : String :=
  "operators." ++ op.tag ++ " = function(left, right) \x7b"

theorem toList_definitionHead (op : BinaryOp) : (definitionHead op).toList =
    "operators.".toList ++ op.tag.toList ++ " = function(left, right) \x7b".toList := by
  rw [definitionHead, String.toList_append, String.toList_append]

/-- One head is not part of another. -/
theorem occurrences_definitionHead_definitionHead (op other : BinaryOp) :
    occurrences (definitionHead op).toList (definitionHead other).toList =
      if other = op then 1 else 0 := by
  have hall : ∀ op ∈ BinaryOp.all, ∀ other ∈ BinaryOp.all,
      occurrences ("operators.".toList ++ op.tag.toList ++ " = function(left, right) \x7b".toList)
        ("operators.".toList ++ other.tag.toList ++ " = function(left, right) \x7b".toList) =
        if other = op then 1 else 0 := by
    decide +kernel
  rw [toList_definitionHead op, toList_definitionHead other]
  exact hall op op.mem_all other other.mem_all

/-- Some characters that every head has. -/
def marks : List Char := ['=', ',', '\x7b']

theorem mem_definitionHead {c : Char} (hc : c ∈ marks) (op : BinaryOp) :
    c ∈ (definitionHead op).toList := by
  have hall : marks.all (" = function(left, right) \x7b".toList.contains ·) := by decide
  have hmem := List.all_eq_true.mp hall c hc
  rw [toList_definitionHead op]
  exact List.mem_append_right _ (List.contains_iff_mem.mp hmem)

/-- Whether a text has all the marks. They are looked for in its bytes, which are faster to compute
than its characters. -/
def hasMarks (t : String) : Bool :=
  marks.all fun c => (String.utf8EncodeChar c).all (t.toByteArray.data.toList.contains ·)

theorem hasMarks_of_subset {t : String} (h : ∀ c ∈ marks, c ∈ t.toList) : hasMarks t = true := by
  simp only [hasMarks, List.all_eq_true, List.contains_iff_mem]
  intro c hc b hb
  rw [← String.utf8Encode_toList, List.utf8Encode, List.data_toByteArray]
  exact List.mem_flatMap.mpr ⟨c, h c hc, hb⟩

theorem occurrences_eq_zero_of_hasMarks {t : String} (h : hasMarks t = false) (op : BinaryOp) :
    occurrences (definitionHead op).toList t.toList = 0 := by
  by_contra hne
  refine absurd (hasMarks_of_subset fun c hc => ?_) (Bool.eq_false_iff.mp h)
  by_contra ht
  exact hne (occurrences_eq_zero (mem_definitionHead hc op) ht)

/-! ## The text of the prelude -/

/-- The lines with all the marks are the heads of the operators. -/
theorem filter_textsOf_code :
    (textsOf code).filter hasMarks = BinaryOp.all.map definitionHead := by
  decide +kernel

theorem sum_map_filter {f : String → Nat} (hf : ∀ t, hasMarks t = false → f t = 0)
    (ts : List String) : ((ts.filter hasMarks).map f).sum = (ts.map f).sum := by
  induction ts with
  | nil => rfl
  | cons t ts ih =>
    cases ht : hasMarks t with
    | true => simp [ht, ih]
    | false => simp [ht, hf t ht, ih]

/-- The prelude defines every operator in one place. -/
theorem occurrences_definitionHead (op : BinaryOp) :
    occurrences (definitionHead op).toList text.toList = 1 := by
  have hchars : (definitionHead op).toList = 'o' :: ("perators.".toList ++ op.tag.toList ++
      " = function(left, right) \x7b".toList) := by
    rw [toList_definitionHead op]
    simp
  have hend : '\n' ∉ (definitionHead op).toList := by
    rw [toList_definitionHead op]
    cases op <;> decide
  rw [text, occurrences_textOf (by simp [hchars]) (by simp [hchars]) hend,
    ← sum_map_filter fun t ht => occurrences_eq_zero_of_hasMarks ht op, filter_textsOf_code,
    List.map_map]
  simp only [Function.comp_def, occurrences_definitionHead_definitionHead]
  cases op <;> rfl

end ScriptCompiler.Prelude
