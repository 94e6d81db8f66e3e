import WebFonts.Text.Case

/-!
# Generic font families

The thirteen keywords of CSS that stand for a kind of font rather than a font. `ofKeyword?` reads a
keyword in any case (`ofKeyword?_keyword`), and `standIns` names local fonts that can stand in for
a kind.
-/

namespace WebFonts

/-- A generic font family of CSS. -/
inductive GenericFamily where
  | serif
  | sansSerif
  | monospace
  | cursive
  | fantasy
  | systemUi
  | uiSerif
  | uiSansSerif
  | uiMonospace
  | uiRounded
  | emoji
  | math
  | fangsong
deriving Repr, DecidableEq

namespace GenericFamily

/-- All generic families. -/
def all : List GenericFamily :=
  [serif, sansSerif, monospace, cursive, fantasy, systemUi, uiSerif, uiSansSerif, uiMonospace,
    uiRounded, emoji, math, fangsong]

theorem mem_all (generic : GenericFamily) : generic ∈ all := by
  cases generic <;> decide

/-- The keyword of a generic family. -/
def keyword : GenericFamily → String
  | serif => "serif"
  | sansSerif => "sans-serif"
  | monospace => "monospace"
  | cursive => "cursive"
  | fantasy => "fantasy"
  | systemUi => "system-ui"
  | uiSerif => "ui-serif"
  | uiSansSerif => "ui-sans-serif"
  | uiMonospace => "ui-monospace"
  | uiRounded => "ui-rounded"
  | emoji => "emoji"
  | math => "math"
  | fangsong => "fangsong"

/-- The generic family of a keyword, in any case of its letters. -/
def ofKeyword? (word : String) : Option GenericFamily :=
  all.find? fun generic => Text.sameIgnoringCase generic.keyword word

/-- The generic family of a keyword as it is written in lower case. -/
def ofLowerKeyword? (word : String) : Option GenericFamily :=
  all.find? fun generic => generic.keyword == word

/-- Local fonts that can stand in for a generic family. -/
def standIns : GenericFamily → List String
  | serif | uiSerif | fangsong => ["Times New Roman"]
  | monospace | uiMonospace => ["Courier New"]
  | sansSerif | systemUi | uiSansSerif | uiRounded => ["Arial"]
  | cursive | fantasy | emoji | math => []

/-- The generic families that some local font can stand in for, with those fonts. -/
def usual : List (GenericFamily × List String) :=
  (all.map fun generic => (generic, generic.standIns)).filter fun entry => !entry.2.isEmpty

theorem ofKeyword?_keyword (generic : GenericFamily) :
    ofKeyword? generic.keyword = some generic := by
  cases generic <;> decide +kernel

theorem ofLowerKeyword?_keyword (generic : GenericFamily) :
    ofLowerKeyword? generic.keyword = some generic := by
  cases generic <;> decide +kernel

end GenericFamily

end WebFonts
