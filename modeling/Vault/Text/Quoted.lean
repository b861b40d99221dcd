import Vault.Text.Classes

/-!
# `Vault/Text/Quoted.lean` — texts that come in and texts that are shown

Keys are pasted from all sorts of places, so blanks around them do not count. **Blank means the
Unicode property `White_Space`**, not the six ASCII blanks alone: a no-break space or an ideographic
space in front of a key is dropped like a plain one.

A message that shows a character or a file name should not hide anything in it, so it shows it
between quotes. The backslash and the quote get a backslash (in a text both kinds of quote do), the
common controls their letter, and **whatever has no glyph of its own is written as its code point**:
`\u{ad}` for the soft hyphen, `e\u{301}` for an accent that is a character of its own. A character
has a glyph iff it shows as a mark of its own wherever it stands. Four kinds do not: what controls
or separates (only the space is plain enough to be shown), code points without a character, marks
drawn on the character before, and the fillers that a font may leave out.

Blanks are dropped around a key and written as code points in a name: `hasGlyph_of_isBlank` says
that no blank but the space passes for a glyph.
-/

set_option autoImplicit false

namespace Vault.Text

/-! ## Blanks -/

/-- Has the character the property `White_Space`? -/
def isBlank (c : Char) : Bool := blanks.has c

/-- The text without the blanks at both ends. -/
def trim (s : String) : String :=
  String.ofList ((((s.toList.dropWhile isBlank).reverse).dropWhile isBlank).reverse)

/-- Every ASCII blank is a blank. -/
theorem isBlank_of_isWhitespace (c : Char) (h : c.isWhitespace = true) : isBlank c = true := by
  simp only [Char.isWhitespace, Bool.or_eq_true, decide_eq_true_eq] at h
  rcases h with ((rfl | rfl) | rfl) | rfl <;> decide

/-! ## Characters that can be seen -/

/-- Does the character show as a mark of its own? -/
def hasGlyph (c : Char) : Bool :=
  !(controls.has c || ignorable.has c || extenders.has c || unassigned.has c)

/-- Of the blanks only the space has a glyph. -/
theorem hasGlyph_of_isBlank (c : Char) (h : isBlank c = true) (hc : c ≠ ' ') :
    hasGlyph c = false := by
  have within : ∀ r ∈ blanks, r = (0x20, 0x20) ∨ ∃ s ∈ controls, s.1 ≤ r.1 ∧ r.2 ≤ s.2 := by
    decide
  obtain ⟨r, hr, lo, hi⟩ := Ranges.has_iff.1 h
  rcases within r hr with rfl | ⟨s, hs, lo', hi'⟩
  · have hn : c.toNat = ' '.toNat := Nat.le_antisymm hi lo
    exact absurd (Char.toNat_inj.1 hn) hc
  · have shown : controls.has c = true :=
      Ranges.has_iff.2 ⟨s, hs, Nat.le_trans lo' lo, Nat.le_trans hi hi'⟩
    simp [hasGlyph, shown]

/-! ## Quotes -/

/-- Lower case hexadecimal digits of a number, without leading zeros. -/
def hexNumber (n : Nat) : String := String.ofList (Nat.toDigits 16 n)

/-- A character as it stands where the characters of `quotes` need a backslash. -/
def escaped (quotes : List Char) (c : Char) : String :=
  if quotes.contains c || c = '\\' then String.ofList ['\\', c]
  else if c = '\x00' then "\\0"
  else if c = '\t' then "\\t"
  else if c = '\n' then "\\n"
  else if c = '\r' then "\\r"
  else if hasGlyph c then c.toString
  else "\\u\x7b" ++ hexNumber c.toNat ++ "\x7d"

/-- A character between single quotes. -/
def quotedChar (c : Char) : String := "'" ++ escaped ['\''] c ++ "'"

/-- A text between double quotes. -/
def quoted (s : String) : String :=
  "\"" ++ String.join (s.toList.map (escaped ['\'', '"'])) ++ "\""

end Vault.Text
