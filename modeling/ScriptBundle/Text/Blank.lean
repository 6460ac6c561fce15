/-
# Blank characters

White space is a property of characters that a standard lists: the table below is its list.  It
is wider than the ASCII blanks, and every reader here that ignores white space around a text
ignores all of it.
-/

namespace ScriptBundle.Text

/-- The characters of the White_Space property. -/
def blanks : List Char :=
  ['\u0009', '\u000a', '\u000b', '\u000c', '\u000d', '\u0020', '\u0085', '\u00a0', '\u1680',
   '\u2000', '\u2001', '\u2002', '\u2003', '\u2004', '\u2005', '\u2006', '\u2007', '\u2008',
   '\u2009', '\u200a', '\u2028', '\u2029', '\u202f', '\u205f', '\u3000']

/-- White space. -/
def isBlank (c : Char) : Bool := blanks.contains c

/-- The text without the white space at its ends. -/
def trim (cs : List Char) : List Char :=
  ((cs.dropWhile isBlank).reverse.dropWhile isBlank).reverse

/-- The part of a text before the first `mark` and the part after it, if there is one. -/
def splitAtFirst (mark : Char) : List Char → Option (List Char × List Char)
  | [] => none
  | c :: rest =>
    if c = mark then some ([], rest)
    else (splitAtFirst mark rest).map fun (before, after) => (c :: before, after)

/-- A split puts the text back together around the mark. -/
theorem eq_of_splitAtFirst {mark : Char} {cs before after : List Char}
    (h : splitAtFirst mark cs = some (before, after)) : cs = before ++ mark :: after := by
  induction cs generalizing before with
  | nil => cases h
  | cons c rest ih =>
    rw [splitAtFirst] at h
    split at h
    · cases h; simp_all
    · obtain ⟨⟨b, a⟩, hs, he⟩ := Option.map_eq_some_iff.1 h
      cases he
      simp [ih hs]

end ScriptBundle.Text
