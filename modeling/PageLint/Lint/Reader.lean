/-
# PageLint.Lint.Reader — who reads which files

A reader takes the files of some extensions as documents of a language. Extensions
compare without regard to the case of ASCII letters; of readers that claim one
extension the last to be registered has it.
-/
import PageLint.Lint.Document
import PageLint.Lint.Path

namespace PageLint

set_option autoImplicit false

open Text

/-- What reads the files of some extensions. -/
structure Reader where
  id : String
  version : String
  description : String
  extensions : List String
  language : Language
  deriving DecidableEq, Repr

namespace Reader

/-- The reader of pages. -/
def html : Reader := ⟨"html", "0.1.0", "HTML style-guide plugin", ["html", "htm"], .html⟩

/-- The reader of stylesheets. -/
def css : Reader := ⟨"css", "0.1.0", "CSS style-guide plugin", ["css"], .css⟩

/-- The reader of documents of a language. -/
def ofLanguage : Language → Reader
  | .html => html
  | .css => css

/-- Reads a text. -/
def read (r : Reader) (cs : List Char) : Document := .ofText r.language cs

/-- Whether a reader claims an extension. -/
def claims (r : Reader) (ending : List Char) : Bool :=
  r.extensions.any fun e => sameIgnoringCase e.toList ending

/-- The reader of a file, among those registered, the last to be registered first. -/
def for? (readers : List Reader) (path : Path) : Option Reader :=
  path.extension?.bind fun ending => readers.find? (·.claims ending)

end Reader

end PageLint
