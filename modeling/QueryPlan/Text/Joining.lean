import QueryPlan.Text.CharWidth
import QueryPlan.Text.Emoji

/-!
How the characters of a line share columns. A line is read from its end, and
what follows a character is remembered as far as the two can be shown as one:
the second letter of a ligature, the end of an emoji sequence, or a selector
that asks for a picture or for plain text.
-/

namespace QueryPlan.Text

def lams : CharSet where
  runs := [(0x644, 0x644), (0x6b5, 0x6b8), (0x76a, 0x76a), (0x8a6, 0x8a6), (0x8c7, 0x8c7)]

def alefs : CharSet where
  runs :=
    [(0x622, 0x623), (0x625, 0x625), (0x627, 0x627), (0x671, 0x673), (0x675, 0x675),
     (0x773, 0x774), (0x870, 0x882)]

/-- Characters without a column that keep Lam and Alef apart. -/
def unjoining : CharSet where
  runs :=
    [(0x605, 0x605), (0x890, 0x891), (0x8e2, 0x8e2), (0x9be, 0x9be), (0x9d7, 0x9d7),
     (0xb3e, 0xb3e), (0xb57, 0xb57), (0xbbe, 0xbbe), (0xbd7, 0xbd7), (0xcc0, 0xcc0),
     (0xcc2, 0xcc2), (0xcc7, 0xcc8), (0xcca, 0xccb), (0xcd5, 0xcd6), (0xd3e, 0xd3e),
     (0xd4e, 0xd4e), (0xd57, 0xd57), (0xdcf, 0xdcf), (0xddf, 0xddf), (0x1160, 0x11ff),
     (0x180e, 0x180e), (0x1b35, 0x1b35), (0x1b3b, 0x1b3b), (0x1b3d, 0x1b3d), (0x1b43, 0x1b43),
     (0x200c, 0x200d), (0x2065, 0x2069), (0x302e, 0x302f), (0x3164, 0x3164), (0xa8fa, 0xa8fa),
     (0xd7b0, 0xd7c6), (0xd7cb, 0xd7fb), (0xff9e, 0xffa0), (0xfff0, 0xfff8), (0x111c2, 0x111c3),
     (0x1133e, 0x1133e), (0x11357, 0x11357), (0x114b0, 0x114b0), (0x114bd, 0x114bd),
     (0x115af, 0x115af), (0x11930, 0x11930), (0x1193f, 0x1193f), (0x11941, 0x11941),
     (0x11a3a, 0x11a3a), (0x11a84, 0x11a89), (0x11d46, 0x11d46), (0x11f02, 0x11f02),
     (0x1d165, 0x1d165), (0x1d16e, 0x1d172), (0xe0000, 0xe0000), (0xe0002, 0xe001f),
     (0xe0080, 0xe00ff), (0xe01f0, 0xe0fff)]

/-- Khmer letters that the sign COENG puts below the letter before it. -/
def khmerSubscripts : CharSet where
  runs :=
    [(0x1780, 0x1782), (0x1784, 0x1787), (0x1789, 0x178c), (0x178e, 0x1793), (0x1795, 0x1798),
     (0x179b, 0x179d), (0x17a0, 0x17a0), (0x17a2, 0x17a2), (0x17a7, 0x17a7), (0x17ab, 0x17ac),
     (0x17af, 0x17af)]

def isTifinaghConsonant (c : Char) : Bool :=
  0x2d31 ≤ c.toNat && c.toNat ≤ 0x2d65 || c = '\u2d6f'

def ligatureMarks : CharSet where
  runs :=
    [(0x34f, 0x34f), (0x17b4, 0x17b5), (0x180b, 0x180d), (0x180f, 0x180f), (0x200d, 0x200d),
     (0xfe00, 0xfe0f), (0xe0100, 0xe01ef)]

/-- What follows a character, as far as it can change the columns of that character.
A joiner counts if it stands in front. -/
inductive Start where
  | other
  | alef
  | lamed (joiner : Bool)
  | khmerSubscript
  | bugineseYa (joiner : Bool)
  | bugineseVowelYa
  | tifinagh (joiner : Bool)
  | tifinaghPair
  | lisuTone
  | orkhonI (joiner : Bool)
  /-- A picture, or the rest of a sequence that makes one. -/
  | emoji
  | skinTone
  /-- The second letter of a flag, or a single one. -/
  | indicator
  | indicators
  | joinedEmoji
  | joinedKeycap
  /-- After a joiner, letters of flags are counted in pairs from the end. -/
  | joinedIndicator
  | joinedPairs
  | joinedPairsAndOne
  /-- The end of a flag spelled in tags. -/
  | tags (letters digits : Nat)
  deriving DecidableEq

namespace Start

def ofChar (c : Char) : Start :=
  if alefs.contains c then .alef
  else if c = '\u05dc' then .lamed false
  else if khmerSubscripts.contains c then .khmerSubscript
  else if c = '\u1a10' then .bugineseYa false
  else if isTifinaghConsonant c then .tifinagh false
  else if c = '\ua4fc' || c = '\ua4fd' then .lisuTone
  else if c.toNat = 0x10c03 then .orkhonI false
  else if isRegionalIndicator c then .indicator
  else if isSkinTone c then .skinTone
  else if emojiPresentation.contains c then .emoji
  else .other

def isLigature : Start → Bool
  | lamed _ | khmerSubscript | bugineseYa _ | bugineseVowelYa | tifinagh _ | tifinaghPair
  | lisuTone | orkhonI _ => true
  | _ => false

def withJoiner : Start → Start
  | lamed _ => lamed true
  | bugineseYa _ => bugineseYa true
  | tifinagh _ => tifinagh true
  | orkhonI _ => orkhonI true
  | s => s

/-- Columns added by a letter that forms a ligature with what follows, and what it
is itself to the character before it. -/
def joinLetter (s : Start) (c : Char) : Option (Int × Start) :=
  match s with
  | alef =>
      if lams.contains c then some (0, other)
      else if charWidth c = 0 && !unjoining.contains c then some (0, alef)
      else none
  | lamed true => if c = '\u05d0' then some (0, other) else none
  | khmerSubscript => if c = '\u17d2' then some (-1, other) else none
  | bugineseYa true => if c = '\u1a17' then some (0, bugineseVowelYa) else none
  | bugineseVowelYa => if c = '\u1a15' then some (0, other) else none
  | tifinagh joiner =>
      if c = '\u2d7f' then some (1, tifinaghPair)
      else if joiner && isTifinaghConsonant c then some (0, other)
      else none
  | tifinaghPair => if isTifinaghConsonant c then some (-1, other) else none
  | lisuTone => if '\ua4f8' ≤ c ∧ c ≤ '\ua4fb' then some (0, other) else none
  | orkhonI true => if c.toNat = 0x10c32 then some (0, other) else none
  | _ => none

/-- The same for a part of an emoji sequence. Tags spell a region in three digits
or in letters, and its part in letters; the black flag stands before them. -/
def joinEmoji (s : Start) (c : Char) : Option (Int × Start) :=
  match s with
  | emoji => if c = '\u200d' then some (0, joinedEmoji) else none
  | skinTone =>
      if c = '\u200d' then some (0, joinedEmoji)
      else if modifierBases.contains c then some (0, emoji)
      else none
  | indicator => if isRegionalIndicator c then some (1, indicators) else none
  | indicators =>
      if c = '\u200d' then some (0, joinedEmoji)
      else if isRegionalIndicator c then some (1, indicators)
      else none
  | joinedEmoji =>
      if c = '\u20e3' then some (0, joinedKeycap)
      else if isRegionalIndicator c then some (1, joinedIndicator)
      else if isSkinTone c then some (0, skinTone)
      else if c.toNat = 0xe007f then some (0, tags 0 0)
      else if emojiPresentation.contains c then some (0, emoji)
      else none
  | joinedIndicator => if isRegionalIndicator c then some (-1, joinedPairs) else none
  | joinedPairs =>
      if c = '\u200d' then some (0, joinedEmoji)
      else if isRegionalIndicator c then some (3, joinedPairsAndOne)
      else none
  | joinedPairsAndOne =>
      if c = '\u200d' then some (0, joinedEmoji)
      else if isRegionalIndicator c then some (-1, joinedPairs)
      else none
  | tags letters digits =>
      if isTagLetter c && digits = 0 && letters < 6 then some (0, tags (letters + 1) 0)
      else if isTagDigit c && letters ≤ 4 && digits < 3 then some (0, tags letters (digits + 1))
      else if c.toNat = 0x1f3f4 && (digits = 3 || digits = 0 && 3 ≤ letters) then some (0, emoji)
      else none
  | _ => none

def join (s : Start) (c : Char) : Option (Int × Start) :=
  if s.isLigature && ligatureMarks.contains c then
    some (0, if c = '\u200d' then s.withJoiner else s)
  else (s.joinLetter c).or (s.joinEmoji c)

end Start

inductive Presentation where
  | plain
  | picture
  deriving DecidableEq

structure Following where
  start : Start
  selector : Option Presentation

namespace Start

def isLetter (s : Start) : Bool :=
  s = alef || s.isLigature

def isJoinedPicture (s : Start) : Bool :=
  s = joinedEmoji || s = joinedKeycap

def select (s : Start) (p : Presentation) : Following :=
  ⟨if s.isLetter || p = .picture && s.isJoinedPicture then s else other, some p⟩

end Start

namespace Following

def unselected (f : Following) : Start :=
  if f.selector = some .picture && !f.start.isLetter then .other else f.start

/-- Columns that a character adds to those of what follows it, and what both together
are to the character before. All controls and ASCII take one column. -/
def before (f : Following) (c : Char) : Int × Following :=
  if f.selector = some .picture && variationBases.contains c then
    (if f.start.isJoinedPicture then 0 else 2, ⟨.emoji, none⟩)
  else if c.toNat ≤ 0xa0 then (1, ⟨.other, none⟩)
  else if c = '\ufe0e' then (0, f.unselected.select .plain)
  else if c = '\ufe0f' then (0, f.unselected.select .picture)
  else if f.selector = some .plain && isNarrowedByText c then (1, ⟨.other, none⟩)
  else
    match f.unselected.join c with
    | some (w, s) => (w, ⟨s, none⟩)
    | none => (charWidth c, ⟨.ofChar c, none⟩)

def ofChars (cs : List Char) : Int × Following :=
  cs.foldr (fun c (w, f) => let (d, f) := f.before c; (d + w, f)) (0, ⟨.other, none⟩)

end Following

def joinedWidth (cs : List Char) : Nat :=
  (Following.ofChars cs).1.toNat

end QueryPlan.Text
