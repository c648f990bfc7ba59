import Std.Data.String.ToInt
import ScriptCompiler.Script.Printer
import ScriptCompiler.Proofs.Printing.WellNamed
import ScriptCompiler.Proofs.Text.Quoted

/-!
# Tokens of printed trees

A printed tree is a sequence of tokens: words, string literals, and marks of one character. `tokens`
lists the tokens of a tree in front of those that follow it, and printing writes their texts
(`Expr.toList_print`, `Stmt.toList_print`). Two words of a well-named tree never stand side by side
(`Spaced`), so the text of its tokens determines them (`text_injective`): one token can be read from
the head of the text (`next?_text`).
-/

namespace ScriptCompiler.Script

inductive Token where
  | word (text : String)
  | literal (value : String)
  | mark (char : Char)
  deriving DecidableEq

namespace Token

def chars : Token → List Char
  | .word x => x.toList
  | .literal s => Text.Quoted.encode s.toList
  | .mark c => [c]

def isWord : Token → Bool
  | .word _ => true
  | _ => false

/-- A token that can be told from its neighbours: a word of word characters, and a mark that starts
neither a word nor a literal. -/
def Proper : Token → Prop
  | .word x => x.toList ≠ [] ∧ x.toList.all isWordChar = true
  | .literal _ => True
  | .mark c => isWordChar c = false ∧ c ≠ '"'

end Token

open Token

/-- The text of tokens. -/
def text (ts : List Token) : List Char := ts.flatMap Token.chars

@[simp]
theorem text_nil : text [] = [] := rfl

@[simp]
theorem text_cons (t : Token) (ts : List Token) : text (t :: ts) = t.chars ++ text ts := by
  simp [text]

/-! ## The tokens of a tree -/

/-- The word that prints a number. -/
def numberWord (n : Int64) : String := toString n.toInt

mutual

/-- The tokens of an expression, in front of `rest`. -/
def Expr.tokens : Expr → List Token → List Token
  | .name x, rest => word x :: rest
  | .null, rest => word "null" :: rest
  | .bool true, rest => word "true" :: rest
  | .bool false, rest => word "false" :: rest
  | .number n, rest => word (numberWord n) :: rest
  | .str s, rest => literal s :: rest
  | .array es, rest => mark '[' :: tokensList es (mark ']' :: rest)
  | .property o p, rest => mark '(' :: o.tokens (mark ')' :: word ("." ++ p) :: rest)
  | .call f es, rest => f.tokens (mark '(' :: tokensList es (mark ')' :: rest))
  | .assign x v, rest => word x :: mark ' ' :: mark '=' :: mark ' ' :: v.tokens rest
  | .assignProperty o p v, rest =>
    mark '(' :: o.tokens (mark ')' :: word ("." ++ p) :: mark ' ' :: mark '=' :: mark ' ' ::
      v.tokens rest)

def Expr.tokensList : List Expr → List Token → List Token
  | [], rest => rest
  | e :: es, rest => e.tokens (tokensTail es rest)

def Expr.tokensTail : List Expr → List Token → List Token
  | [], rest => rest
  | e :: es, rest => mark ',' :: mark ' ' :: e.tokens (tokensTail es rest)

end

mutual

/-- The tokens of a statement, in front of `rest`. Parameters are listed like expressions. -/
def Stmt.tokens : Stmt → List Token → List Token
  | .run ss, rest => tokensAll ss rest
  | .expr e, rest => e.tokens (mark ';' :: rest)
  | .function f ps body, rest =>
    word "function" :: mark ' ' :: word f :: mark '(' :: Expr.tokensList (ps.map .name)
      (mark ')' :: mark ' ' :: mark '\x7b' :: mark ' ' :: tokensAll body
        (mark ' ' :: mark '\x7d' :: rest))
  | .ret e, rest => word "return" :: mark ' ' :: e.tokens (mark ';' :: rest)
  | .var x none, rest => word "var" :: mark ' ' :: word x :: mark ';' :: rest
  | .var x (some e), rest =>
    word "var" :: mark ' ' :: word x :: mark ' ' :: mark '=' :: mark ' ' ::
      e.tokens (mark ';' :: rest)
  | .branch c t e, rest =>
    word "if" :: mark ' ' :: mark '(' :: c.tokens
      (mark ')' :: mark ' ' :: mark '\x7b' :: mark ' ' :: tokensAll t
        (mark ' ' :: mark '\x7d' :: mark ' ' :: word "else" :: mark ' ' :: mark '\x7b' ::
          mark ' ' :: tokensAll e (mark ' ' :: mark '\x7d' :: rest)))

def Stmt.tokensAll : List Stmt → List Token → List Token
  | [], rest => rest
  | s :: ss, rest => s.tokens (tokensAll ss rest)

end

/-! ## Printing writes the tokens -/

mutual

theorem Expr.toList_print : ∀ (e : Expr) (out : String) (rest : List Token),
    (e.print out).toList ++ text rest = out.toList ++ text (e.tokens rest)
  | .name x, out, rest => by simp [Expr.print, Expr.tokens, chars]
  | .null, out, rest => by simp [Expr.print, Expr.tokens, chars]
  | .bool true, out, rest => by simp [Expr.print, Expr.tokens, chars]
  | .bool false, out, rest => by simp [Expr.print, Expr.tokens, chars]
  | .number n, out, rest => by simp [Expr.print, Expr.tokens, chars, numberWord]
  | .str s, out, rest => by simp [Expr.print, Expr.tokens, chars, Text.Quoted.quote]
  | .array es, out, rest => by
    have h := Expr.toList_printList es (out ++ "[") (mark ']' :: rest)
    simpa [Expr.print, Expr.tokens, chars] using h
  | .property o p, out, rest => by
    have h := Expr.toList_print o (out ++ "(") (mark ')' :: word ("." ++ p) :: rest)
    simpa [Expr.print, Expr.tokens, chars] using h
  | .call f es, out, rest => by
    have hes := Expr.toList_printList es (f.print out ++ "(") (mark ')' :: rest)
    have hf := Expr.toList_print f out (mark '(' :: Expr.tokensList es (mark ')' :: rest))
    calc ((Expr.call f es).print out).toList ++ text rest
        = (Expr.printList es (f.print out ++ "(")).toList ++ text (mark ')' :: rest) := by
          simp [Expr.print, chars]
      _ = (f.print out).toList ++ text (mark '(' :: Expr.tokensList es (mark ')' :: rest)) := by
          rw [hes]; simp [chars]
      _ = out.toList ++ text ((Expr.call f es).tokens rest) := by rw [hf, Expr.tokens]
  | .assign x v, out, rest => by
    have h := Expr.toList_print v (out ++ x ++ " = ") rest
    simpa [Expr.print, Expr.tokens, chars] using h
  | .assignProperty o p v, out, rest => by
    have hv := Expr.toList_print v (o.print (out ++ "(") ++ ")." ++ p ++ " = ") rest
    have ho := Expr.toList_print o (out ++ "(") (mark ')' :: word ("." ++ p) :: mark ' ' ::
      mark '=' :: mark ' ' :: v.tokens rest)
    calc ((Expr.assignProperty o p v).print out).toList ++ text rest
        = (o.print (out ++ "(")).toList ++ text (mark ')' :: word ("." ++ p) :: mark ' ' ::
            mark '=' :: mark ' ' :: v.tokens rest) := by
          rw [Expr.print, hv]; simp [chars]
      _ = out.toList ++ text ((Expr.assignProperty o p v).tokens rest) := by
          rw [ho, Expr.tokens]; simp [chars]

theorem Expr.toList_printList : ∀ (es : List Expr) (out : String) (rest : List Token),
    (Expr.printList es out).toList ++ text rest = out.toList ++ text (Expr.tokensList es rest)
  | [], out, rest => by simp [Expr.printList, Expr.tokensList]
  | e :: es, out, rest => by
    simp only [Expr.printList, Expr.tokensList]
    rw [Expr.toList_printTail es, Expr.toList_print e]

theorem Expr.toList_printTail : ∀ (es : List Expr) (out : String) (rest : List Token),
    (Expr.printTail es out).toList ++ text rest = out.toList ++ text (Expr.tokensTail es rest)
  | [], out, rest => by simp [Expr.printTail, Expr.tokensTail]
  | e :: es, out, rest => by
    simp only [Expr.printTail, Expr.tokensTail]
    rw [Expr.toList_printTail es, Expr.toList_print e]
    simp [chars]

end

theorem text_tokensTail_names (rest : List Token) : ∀ (p : String) (ps : List String),
    p.toList ++ text (Expr.tokensTail (ps.map .name) rest) =
      (", ".intercalate (p :: ps)).toList ++ text rest
  | p, [] => by simp [Expr.tokensTail]
  | p, q :: ps => by
    have ih := text_tokensTail_names rest q ps
    simp only [String.toList_intercalate, List.map_cons] at ih ⊢
    simp [Expr.tokensTail, Expr.tokens, chars, ih]

theorem text_tokensList_names (rest : List Token) (ps : List String) :
    text (Expr.tokensList (ps.map .name) rest) = (", ".intercalate ps).toList ++ text rest := by
  cases ps with
  | nil => simp [Expr.tokensList]
  | cons p ps => exact text_tokensTail_names rest p ps

mutual

theorem Stmt.toList_print : ∀ (s : Stmt) (out : String) (rest : List Token),
    (s.print out).toList ++ text rest = out.toList ++ text (s.tokens rest)
  | .run ss, out, rest => by
    rw [Stmt.print, Stmt.tokens, Stmt.toList_printAll ss]
  | .expr e, out, rest => by
    have h := Expr.toList_print e out (mark ';' :: rest)
    simpa [Stmt.print, Stmt.tokens, chars] using h
  | .function f ps body, out, rest => by
    have h := Stmt.toList_printAll body
      (out ++ "function " ++ f ++ "(" ++ ", ".intercalate ps ++ ") \x7b ")
      (mark ' ' :: mark '\x7d' :: rest)
    simp only [text_cons, chars] at h
    simp [Stmt.print, Stmt.tokens, chars, text_tokensList_names] at h ⊢
    exact h
  | .ret e, out, rest => by
    have h := Expr.toList_print e (out ++ "return ") (mark ';' :: rest)
    simpa [Stmt.print, Stmt.tokens, chars] using h
  | .var x none, out, rest => by simp [Stmt.print, Stmt.tokens, chars]
  | .var x (some e), out, rest => by
    have h := Expr.toList_print e (out ++ "var " ++ x ++ " = ") (mark ';' :: rest)
    simpa [Stmt.print, Stmt.tokens, chars] using h
  | .branch c t e, out, rest => by
    let afterElse := mark ' ' :: mark '\x7d' :: rest
    let afterThen := mark ' ' :: mark '\x7d' :: mark ' ' :: word "else" :: mark ' ' ::
      mark '\x7b' :: mark ' ' :: Stmt.tokensAll e afterElse
    let afterCondition := mark ')' :: mark ' ' :: mark '\x7b' :: mark ' ' ::
      Stmt.tokensAll t afterThen
    let condition := c.print (out ++ "if (")
    let whenTrue := Stmt.printAll t (condition ++ ") \x7b ")
    have he := Stmt.toList_printAll e (whenTrue ++ " \x7d else \x7b ") afterElse
    have ht := Stmt.toList_printAll t (condition ++ ") \x7b ") afterThen
    have hc := Expr.toList_print c (out ++ "if (") afterCondition
    calc ((Stmt.branch c t e).print out).toList ++ text rest
        = (Stmt.printAll e (whenTrue ++ " \x7d else \x7b ")).toList ++ text afterElse := by
          simp [Stmt.print, afterElse, whenTrue, condition, chars]
      _ = whenTrue.toList ++ text afterThen := by rw [he]; simp [afterThen, chars]
      _ = condition.toList ++ text afterCondition := by rw [ht]; simp [afterCondition, chars]
      _ = out.toList ++ text ((Stmt.branch c t e).tokens rest) := by
          rw [hc]; simp [Stmt.tokens, afterCondition, afterThen, afterElse, chars]

theorem Stmt.toList_printAll : ∀ (ss : List Stmt) (out : String) (rest : List Token),
    (Stmt.printAll ss out).toList ++ text rest = out.toList ++ text (Stmt.tokensAll ss rest)
  | [], out, rest => by simp [Stmt.printAll, Stmt.tokensAll]
  | s :: ss, out, rest => by
    rw [Stmt.printAll, Stmt.tokensAll, Stmt.toList_printAll ss, Stmt.toList_print s]

end

theorem Expr.toList_render (e : Expr) : e.render.toList = text (e.tokens []) := by
  simpa [Expr.render] using e.toList_print "" []

theorem Stmt.toList_render (s : Stmt) : s.render.toList = text (s.tokens []) := by
  simpa [Stmt.render] using s.toList_print "" []

/-! ## Reading tokens back -/

/-- Reads one token from the head of a text. -/
def next? : List Char → Option (Token × List Char)
  | [] => none
  | c :: cs =>
    if c = '"' then
      (Text.Quoted.scan (c :: cs)).map fun (s, rest) => (literal (String.ofList s), rest)
    else if isWordChar c then
      some (word (String.ofList ((c :: cs).takeWhile isWordChar)), (c :: cs).dropWhile isWordChar)
    else some (mark c, cs)

/-- No word stands at the head. -/
def NoWord : List Token → Prop
  | word _ :: _ => False
  | _ => True

/-- Every token is proper, and no word follows a word. -/
def Spaced : List Token → Prop
  | [] => True
  | t :: ts => t.Proper ∧ (t.isWord → NoWord ts) ∧ Spaced ts

theorem head_text_of_noWord {ts : List Token} (hn : NoWord ts) (hs : Spaced ts) :
    ∀ c ∈ (text ts).head?, isWordChar c = false := by
  cases ts with
  | nil => simp
  | cons t ts =>
    cases t with
    | word x => exact absurd hn id
    | literal s =>
      simp only [text_cons, chars, Text.Quoted.encode, List.cons_append, List.head?_cons,
        Option.mem_some_iff]
      rintro c rfl
      decide
    | mark c => simpa [chars] using hs.1.1

theorem takeWhile_append_of_head {p : Char → Bool} {w rest : List Char}
    (hw : ∀ c ∈ w, p c = true) (hr : ∀ c ∈ rest.head?, p c = false) :
    (w ++ rest).takeWhile p = w ∧ (w ++ rest).dropWhile p = rest := by
  rw [List.takeWhile_append_of_pos hw, List.dropWhile_append_of_pos hw]
  cases rest with
  | nil => simp
  | cons c rest =>
    have hc : p c = false := hr c (by simp)
    simp [hc]

theorem next?_text {t : Token} {ts : List Token} (h : Spaced (t :: ts)) :
    next? (text (t :: ts)) = some (t, text ts) := by
  obtain ⟨ht, hn, hs⟩ := h
  rw [text_cons]
  cases t with
  | word x =>
    obtain ⟨hne, hx⟩ := ht
    rw [List.all_eq_true] at hx
    obtain ⟨htake, hdrop⟩ := takeWhile_append_of_head hx (head_text_of_noWord (hn rfl) hs)
    obtain ⟨c, cs, hcs⟩ := List.exists_cons_of_ne_nil hne
    have hc : isWordChar c = true := hx c (by simp [hcs])
    have hq : c ≠ '"' := by rintro rfl; revert hc; decide
    simp only [chars] at htake hdrop ⊢
    rw [hcs, List.cons_append] at htake hdrop ⊢
    simp only [next?, hq, hc, ↓reduceIte, htake, hdrop, ← hcs, String.ofList_toList]
  | literal s =>
    have hscan := Text.Quoted.scan_encode s.toList (text ts)
    simp only [chars, Text.Quoted.encode, List.cons_append] at hscan ⊢
    simp only [next?, ↓reduceIte, hscan, Option.map_some, String.ofList_toList]
  | mark c => simp [chars, next?, ht.1, ht.2]

/-- The text of spaced tokens determines them. -/
theorem text_injective : ∀ {ts us : List Token}, Spaced ts → Spaced us → text ts = text us → ts = us
  | [], [], _, _, _ => rfl
  | [], u :: us, _, hu, h => by
    have := next?_text hu
    rw [← h] at this
    cases this
  | t :: ts, [], ht, _, h => by
    have := next?_text ht
    rw [h] at this
    cases this
  | t :: ts, u :: us, ht, hu, h => by
    have hnext := next?_text ht
    rw [h, next?_text hu, Option.some.injEq, Prod.mk.injEq] at hnext
    obtain ⟨rfl, hrest⟩ := hnext
    rw [text_injective ht.2.2 hu.2.2 hrest.symm]

/-! ## The tokens of a well-named tree are spaced -/

@[simp]
theorem spaced_mark (c : Char) (ts : List Token) :
    Spaced (mark c :: ts) ↔ (mark c).Proper ∧ Spaced ts := by
  simp [Spaced, isWord]

@[simp]
theorem spaced_word (x : String) (ts : List Token) :
    Spaced (word x :: ts) ↔ (word x).Proper ∧ NoWord ts ∧ Spaced ts := by
  simp [Spaced, isWord]

@[simp]
theorem spaced_literal (s : String) (ts : List Token) : Spaced (literal s :: ts) ↔ Spaced ts := by
  simp [Spaced, isWord, Proper]

instance (t : Token) : Decidable t.Proper :=
  match t with
  | .word x => inferInstanceAs (Decidable (x.toList ≠ [] ∧ x.toList.all isWordChar = true))
  | .literal _ => inferInstanceAs (Decidable True)
  | .mark c => inferInstanceAs (Decidable (isWordChar c = false ∧ c ≠ '"'))

theorem proper_word_of_isPath {x : String} (h : isPath x = true) : (word x).Proper := by
  obtain ⟨c, cs, hx, -⟩ := head_of_isPath h
  exact ⟨by simp [hx], List.all_eq_true.mpr (isWordChar_of_isPath h)⟩

theorem proper_word_of_isName {x : String} (h : isName x = true) : (word x).Proper :=
  proper_word_of_isPath (isPath_of_isName h)

theorem proper_word_dot {x : String} (h : isName x = true) : (word ("." ++ x)).Proper := by
  refine ⟨by simp, ?_⟩
  rw [String.toList_append, List.all_append, (proper_word_of_isName h).2]
  decide

/-- A number is digits, after a sign if it is negative. -/
theorem toList_numberWord (n : Int64) :
    ∃ c cs, (numberWord n).toList = c :: cs ∧ (c.isDigit = true ∨ c = '-') ∧
      ∀ d ∈ cs, d.isDigit = true := by
  have hdigits : ∀ {m : Nat} {c : Char}, c ∈ m.repr.toList → c.isDigit = true := by
    intro m c hc
    rw [Nat.toList_repr] at hc
    exact Nat.isDigit_of_mem_toDigits (by decide) (by decide) hc
  rw [numberWord, Int.toString_eq_repr, Int.repr_eq_if]
  split
  · obtain ⟨c, cs, hcs⟩ := List.exists_cons_of_ne_nil
      (show n.toInt.toNat.repr.toList ≠ [] by rw [Nat.toList_repr]; exact Nat.toDigits_ne_nil)
    refine ⟨c, cs, hcs, .inl (hdigits (hcs ▸ List.mem_cons_self)), fun d hd => ?_⟩
    exact hdigits (hcs ▸ List.mem_cons_of_mem _ hd)
  · exact ⟨'-', _, String.toList_append .., .inr rfl, fun d hd => hdigits hd⟩

theorem isWordChar_of_isDigit {c : Char} (h : c.isDigit = true) : isWordChar c = true := by
  simp [isWordChar, isIdentChar, Char.isAlphanum, h]

theorem proper_word_number (n : Int64) : (word (numberWord n)).Proper := by
  obtain ⟨c, cs, hn, hc, hcs⟩ := toList_numberWord n
  refine ⟨by simp [hn], List.all_eq_true.mpr fun d hd => ?_⟩
  rw [hn] at hd
  rcases List.mem_cons.mp hd with rfl | hd
  · rcases hc with hc | rfl
    · exact isWordChar_of_isDigit hc
    · decide
  · exact isWordChar_of_isDigit (hcs d hd)

mutual

theorem Expr.spaced_tokens : ∀ {e : Expr}, e.wellNamed = true → ∀ {rest : List Token},
    NoWord rest → Spaced rest → Spaced (e.tokens rest)
  | .name x, h, rest, hn, hs => by
    simp only [Expr.wellNamed] at h
    simp [Expr.tokens, proper_word_of_isPath h, hn, hs]
  | .null, _, rest, hn, hs | .bool true, _, rest, hn, hs | .bool false, _, rest, hn, hs => by
    simp only [Expr.tokens, spaced_word]
    exact ⟨by decide, hn, hs⟩
  | .number n, _, rest, hn, hs => by
    simp [Expr.tokens, proper_word_number, hn, hs]
  | .str s, _, rest, _, hs => by
    simp only [Expr.tokens, spaced_literal]
    exact hs
  | .array es, h, rest, hn, hs => by
    simp only [Expr.wellNamed] at h
    simp only [Expr.tokens, spaced_mark]
    refine ⟨by decide, Expr.spaced_tokensList h trivial ?_⟩
    exact (spaced_mark ..).mpr ⟨by decide, hs⟩
  | .property o p, h, rest, hn, hs => by
    simp only [Expr.wellNamed, Bool.and_eq_true] at h
    simp only [Expr.tokens, spaced_mark]
    refine ⟨by decide, Expr.spaced_tokens h.1 trivial ?_⟩
    simp only [spaced_mark, spaced_word]
    exact ⟨by decide, proper_word_dot h.2, hn, hs⟩
  | .call f es, h, rest, hn, hs => by
    simp only [Expr.wellNamed, Bool.and_eq_true] at h
    simp only [Expr.tokens]
    refine Expr.spaced_tokens h.1.1 trivial ?_
    rw [spaced_mark]
    refine ⟨by decide, Expr.spaced_tokensList h.2 trivial ?_⟩
    exact (spaced_mark ..).mpr ⟨by decide, hs⟩
  | .assign x v, h, rest, hn, hs => by
    simp only [Expr.wellNamed, Bool.and_eq_true] at h
    simp only [Expr.tokens, spaced_word, spaced_mark]
    exact ⟨proper_word_of_isName h.1, trivial, by decide, by decide, by decide,
      Expr.spaced_tokens h.2 hn hs⟩
  | .assignProperty o p v, h, rest, hn, hs => by
    simp only [Expr.wellNamed, Bool.and_eq_true] at h
    simp only [Expr.tokens, spaced_mark]
    refine ⟨by decide, Expr.spaced_tokens h.1.1 trivial ?_⟩
    simp only [spaced_mark, spaced_word]
    exact ⟨by decide, proper_word_dot h.1.2, trivial, by decide, by decide, by decide,
      Expr.spaced_tokens h.2 hn hs⟩

theorem Expr.spaced_tokensList : ∀ {es : List Expr}, Expr.wellNamedAll es = true →
    ∀ {rest : List Token}, NoWord rest → Spaced rest → Spaced (Expr.tokensList es rest)
  | [], _, rest, _, hs => hs
  | e :: es, h, rest, hn, hs => by
    simp only [Expr.wellNamedAll, Bool.and_eq_true] at h
    simp only [Expr.tokensList]
    have htail := Expr.spaced_tokensTail h.2 hn hs
    exact Expr.spaced_tokens h.1 htail.1 htail.2

theorem Expr.spaced_tokensTail : ∀ {es : List Expr}, Expr.wellNamedAll es = true →
    ∀ {rest : List Token}, NoWord rest → Spaced rest →
    NoWord (Expr.tokensTail es rest) ∧ Spaced (Expr.tokensTail es rest)
  | [], _, rest, hn, hs => ⟨hn, hs⟩
  | e :: es, h, rest, hn, hs => by
    simp only [Expr.wellNamedAll, Bool.and_eq_true] at h
    simp only [Expr.tokensTail, spaced_mark]
    have htail := Expr.spaced_tokensTail h.2 hn hs
    exact ⟨trivial, by decide, by decide, Expr.spaced_tokens h.1 htail.1 htail.2⟩

end

theorem wellNamedAll_map_name {ps : List String} (h : ∀ p ∈ ps, isName p = true) :
    Expr.wellNamedAll (ps.map .name) = true := by
  induction ps with
  | nil => rfl
  | cons p ps ih =>
    rw [List.forall_mem_cons] at h
    simp [Expr.wellNamedAll, Expr.wellNamed, isPath_of_isName h.1, ih h.2]

mutual

theorem Stmt.spaced_tokens : ∀ {s : Stmt}, s.wellNamed = true → ∀ {rest : List Token},
    Spaced rest → Spaced (s.tokens rest)
  | .run ss, h, rest, hs => by
    simp only [Stmt.wellNamed] at h
    exact Stmt.spaced_tokensAll h hs
  | .expr e, h, rest, hs => by
    simp only [Stmt.wellNamed] at h
    exact Expr.spaced_tokens h trivial ((spaced_mark ..).mpr ⟨by decide, hs⟩)
  | .function f ps body, h, rest, hs => by
    simp only [Stmt.wellNamed, Bool.and_eq_true, List.all_eq_true] at h
    simp only [Stmt.tokens, spaced_word, spaced_mark]
    refine ⟨by decide, trivial, by decide, proper_word_of_isName h.1.1, trivial, by decide,
      Expr.spaced_tokensList (wellNamedAll_map_name h.1.2) trivial ?_⟩
    simp only [spaced_mark]
    refine ⟨by decide, by decide, by decide, by decide, Stmt.spaced_tokensAll h.2 ?_⟩
    simp only [spaced_mark]
    exact ⟨by decide, by decide, hs⟩
  | .ret e, h, rest, hs => by
    simp only [Stmt.wellNamed] at h
    simp only [Stmt.tokens, spaced_word, spaced_mark]
    exact ⟨by decide, trivial, by decide,
      Expr.spaced_tokens h trivial ((spaced_mark ..).mpr ⟨by decide, hs⟩)⟩
  | .var x none, h, rest, hs => by
    simp only [Stmt.wellNamed] at h
    simp only [Stmt.tokens, spaced_word, spaced_mark]
    exact ⟨by decide, trivial, by decide, proper_word_of_isName h, trivial, by decide, hs⟩
  | .var x (some e), h, rest, hs => by
    simp only [Stmt.wellNamed, Bool.and_eq_true] at h
    simp only [Stmt.tokens, spaced_word, spaced_mark]
    exact ⟨by decide, trivial, by decide, proper_word_of_isName h.1, trivial, by decide, by decide,
      by decide, Expr.spaced_tokens h.2 trivial ((spaced_mark ..).mpr ⟨by decide, hs⟩)⟩
  | .branch c t e, h, rest, hs => by
    simp only [Stmt.wellNamed, Bool.and_eq_true] at h
    simp only [Stmt.tokens, spaced_word, spaced_mark]
    refine ⟨by decide, trivial, by decide, by decide, Expr.spaced_tokens h.1.1 trivial ?_⟩
    simp only [spaced_mark]
    refine ⟨by decide, by decide, by decide, by decide, Stmt.spaced_tokensAll h.1.2 ?_⟩
    simp only [spaced_word, spaced_mark]
    refine ⟨by decide, by decide, by decide, by decide, trivial, by decide, by decide, by decide,
      Stmt.spaced_tokensAll h.2 ?_⟩
    simp only [spaced_mark]
    exact ⟨by decide, by decide, hs⟩

theorem Stmt.spaced_tokensAll : ∀ {ss : List Stmt}, Stmt.wellNamedAll ss = true →
    ∀ {rest : List Token}, Spaced rest → Spaced (Stmt.tokensAll ss rest)
  | [], _, rest, hs => hs
  | s :: ss, h, rest, hs => by
    simp only [Stmt.wellNamedAll, Bool.and_eq_true] at h
    exact Stmt.spaced_tokens h.1 (Stmt.spaced_tokensAll h.2 hs)

end

end ScriptCompiler.Script
