import Mathlib.Algebra.Group.Nat.Defs
import Mathlib.Tactic.SplitIfs

/-!
# The order of bytes

UTF-8 keeps the order of characters: of two texts, the one whose bytes come first in the
lexicographic order is the one whose characters do (`bytesOf_lt`). A character is written as a first
byte, which grows with the number of bytes that follow it, and these hold six bits each, so a
smaller character differs in some byte and is smaller there, whatever follows the two.
-/

namespace ScriptCompiler.Text

/-- The bytes of a text. -/
def bytesOf (s : String) : List UInt8 := s.toUTF8.data.toList

theorem bytesOf_eq (s : String) : bytesOf s = s.toList.flatMap String.utf8EncodeChar := by
  rw [bytesOf, String.toUTF8, ← String.utf8Encode_toList, List.utf8Encode,
    List.toList_data_toByteArray]

/-- A code point as a first byte and `tails` bytes of six bits each. -/
def spread (mark : Nat) : (tails : Nat) → (v : Nat) → List UInt8
  | 0, v => [.ofNat (v + mark)]
  | tails + 1, v => spread mark tails (v / 64) ++ [.ofNat (v % 64 + 128)]

/-- The number of bytes after the first. -/
def tailsOf (v : Nat) : Nat :=
  if v ≤ 127 then 0 else if v ≤ 2047 then 1 else if v ≤ 65535 then 2 else 3

/-- The bits of a first byte that say how many bytes follow. -/
def markOf : (tails : Nat) → Nat
  | 0 => 0
  | 1 => 192
  | 2 => 224
  | _ => 240

/-- The first byte of a code point, as a number. -/
def firstOf (v : Nat) : Nat := v / 64 ^ tailsOf v + markOf (tailsOf v)

theorem lt_of_val (c : Char) : c.val.toNat < 0x110000 := by
  have hvalid := c.valid
  simp only [UInt32.isValidChar, Nat.isValidChar] at hvalid
  omega

theorem utf8EncodeChar_eq (c : Char) : String.utf8EncodeChar c =
    spread (markOf (tailsOf c.val.toNat)) (tailsOf c.val.toNat) c.val.toNat := by
  have hbound := lt_of_val c
  unfold String.utf8EncodeChar tailsOf
  generalize c.val.toNat = v at *
  dsimp only
  split_ifs with h1 h2 h3
  · rfl
  · rw [Nat.mod_eq_of_lt (by omega : v / 64 < 32)]
    rfl
  · rw [Nat.mod_eq_of_lt (by omega : v / 4096 < 16)]
    simp only [spread, Nat.div_div_eq_div_mul]
    rfl
  · rw [Nat.mod_eq_of_lt (by omega : v / 262144 < 8)]
    simp only [spread, Nat.div_div_eq_div_mul]
    rfl

theorem ofNat_lt {a b : Nat} (h : a < b) (hb : b < 256) : UInt8.ofNat a < UInt8.ofNat b := by
  rw [UInt8.lt_iff_toNat_lt, UInt8.toNat_ofNat', UInt8.toNat_ofNat']
  omega

theorem spread_lt {mark tails v w : Nat} (h : v < w) (hw : w / 64 ^ tails + mark < 256)
    (s t : List UInt8) : spread mark tails v ++ s < spread mark tails w ++ t := by
  induction tails generalizing v w s t with
  | zero =>
    rw [Nat.pow_zero, Nat.div_one] at hw
    exact List.cons_lt_cons_iff.mpr (.inl (ofNat_lt (by omega) hw))
  | succ tails ih =>
    rw [Nat.pow_succ', ← Nat.div_div_eq_div_mul] at hw
    simp only [spread, List.append_assoc]
    -- The numbers without their last six bits differ, or the last byte decides.
    rcases Nat.lt_or_eq_of_le (Nat.div_le_div_right (c := 64) (Nat.le_of_lt h)) with hlt | heq
    · exact ih hlt hw _ _
    · rw [heq]
      refine List.append_left_lt (List.cons_lt_cons_iff.mpr (.inl (ofNat_lt ?_ ?_))) <;> omega

theorem exists_spread_eq (mark tails v : Nat) :
    ∃ rest, spread mark tails v = .ofNat (v / 64 ^ tails + mark) :: rest := by
  induction tails generalizing v with
  | zero => exact ⟨[], by rw [Nat.pow_zero, Nat.div_one]; rfl⟩
  | succ tails ih =>
    obtain ⟨rest, hrest⟩ := ih (v / 64)
    exact ⟨rest ++ [.ofNat (v % 64 + 128)], by
      rw [spread, hrest, Nat.div_div_eq_div_mul, Nat.pow_succ', List.cons_append]⟩

theorem firstOf_lt_256 {v : Nat} (h : v < 0x110000) : firstOf v < 256 := by
  unfold firstOf tailsOf
  split_ifs <;> simp only [markOf, Nat.reducePow] <;> omega

theorem firstOf_lt {v w : Nat} (h : tailsOf v < tailsOf w) : firstOf v < firstOf w := by
  unfold firstOf
  unfold tailsOf at h ⊢
  split_ifs at h ⊢ <;> simp only [markOf, Nat.reducePow] <;> omega

theorem tailsOf_le {v w : Nat} (h : v < w) : tailsOf v ≤ tailsOf w := by
  unfold tailsOf
  split_ifs <;> omega

theorem utf8EncodeChar_lt {c d : Char} (h : c < d) (s t : List UInt8) :
    String.utf8EncodeChar c ++ s < String.utf8EncodeChar d ++ t := by
  have hlt : c.val.toNat < d.val.toNat := h
  have hfirst := firstOf_lt_256 (lt_of_val d)
  rw [utf8EncodeChar_eq, utf8EncodeChar_eq]
  rcases Nat.lt_or_eq_of_le (tailsOf_le hlt) with htails | htails
  · obtain ⟨rest, hrest⟩ := exists_spread_eq (markOf (tailsOf c.val.toNat)) (tailsOf c.val.toNat)
      c.val.toNat
    obtain ⟨rest', hrest'⟩ := exists_spread_eq (markOf (tailsOf d.val.toNat))
      (tailsOf d.val.toNat) d.val.toNat
    rw [hrest, hrest']
    exact List.cons_lt_cons_iff.mpr (.inl (ofNat_lt (firstOf_lt htails) hfirst))
  · rw [htails]
    exact spread_lt hlt hfirst s t

theorem flatMap_utf8EncodeChar_lt {l m : List Char} (h : List.Lex (· < ·) l m) :
    l.flatMap String.utf8EncodeChar < m.flatMap String.utf8EncodeChar := by
  induction h with
  | @nil c cs =>
    obtain ⟨byte, bytes, hbytes⟩ :=
      List.exists_cons_of_ne_nil (String.utf8EncodeChar_ne_nil (c := c))
    rw [List.flatMap_cons, hbytes]
    exact List.nil_lt_cons _ _
  | cons _ ih =>
    rw [List.flatMap_cons, List.flatMap_cons]
    exact List.append_left_lt ih
  | rel hlt =>
    rw [List.flatMap_cons, List.flatMap_cons]
    exact utf8EncodeChar_lt hlt _ _

theorem bytesOf_lt {a b : String} (h : a < b) : bytesOf a < bytesOf b := by
  rw [bytesOf_eq, bytesOf_eq]
  exact flatMap_utf8EncodeChar_lt h

end ScriptCompiler.Text
