/-
# PageLint.Lint.StyleGuide — the rules that come with the linter

The style guide as a catalog: each rule with its message, what it is for, and where
it looks. Two rules are not part of the recommended set.
-/
import PageLint.Lint.Catalog
import PageLint.Lint.Rules.Case
import PageLint.Lint.Rules.Declaration
import PageLint.Lint.Rules.Entity
import PageLint.Lint.Rules.Layout
import PageLint.Lint.Rules.Number
import PageLint.Lint.Rules.Page
import PageLint.Lint.Rules.Quotes
import PageLint.Lint.Rules.Selector
import PageLint.Lint.Rules.Todo
import PageLint.Lint.Rules.Url
import PageLint.Lint.Rules.Whitespace

namespace PageLint.StyleGuide

set_option autoImplicit false

/-- A rule that reads subjects by themselves. -/
def reading (find : Subject → List Finding) : Check := .total fun _ => find

/-- Rules on texts of either language. -/
def sharedRules : List Rule :=
  [ { id := "protocol-relative-url"
      message := "Omit the protocol from '{url}'"
      description := "Embedded resources should not hard-code http: or https:"
      targets := [.htmlElement, .cssDeclaration, .cssAtRule]
      check := reading Rules.protocolRelativeUrl },
    { id := "indentation"
      message := "Indentation of {count} spaces is not a multiple of two"
      description := "Indent with spaces, two at a time; never use tabs"
      targets := [.source]
      check := Rules.onSource Rules.indentation },
    { id := "lowercase"
      message := "'{text}' should be lowercase"
      description :=
        "Element names, attributes, selectors, properties and values are lowercase"
      targets := [.htmlElement, .cssStyleRule, .cssAtRule, .cssDeclaration]
      check := .total Rules.lowercaseNames },
    { id := "trailing-whitespace"
      message := "Line ends with trailing whitespace"
      description := "Remove whitespace at the end of lines"
      targets := [.source]
      check := Rules.onSource Rules.trailingWhitespace },
    { id := "utf8-no-bom"
      message := "File starts with a byte order mark"
      description := "Files are UTF-8 without a byte order mark"
      targets := [.source]
      check := Rules.onSource Rules.byteOrderMark },
    { id := "todo-format"
      message := "Write TODOs as 'TODO(contact): action'"
      description := "Mark todos with the keyword TODO followed by a contact in parentheses"
      targets := [.htmlComment, .cssComment]
      check := reading Rules.todoFormat } ]

/-- Rules on pages. -/
def htmlRules : List Rule :=
  [ { id := "doctype-html5"
      message := "Use the HTML5 doctype '<!doctype html>'"
      description := "Documents declare the HTML5 doctype"
      targets := [.htmlDoctype]
      languages := [.html]
      check := reading Rules.doctypeHtml5 },
    { id := "void-element-self-close"
      message := "Do not close the void element <{name}> with '/>'"
      description := "Void elements end with '>' rather than '/>'"
      targets := [.htmlElement]
      languages := [.html]
      check := reading Rules.voidElementSelfClose },
    { id := "alt-attribute"
      message := "<img> needs an alt attribute"
      description := "Images carry alternative text; alt=\"\" marks a purely decorative image"
      targets := [.htmlElement]
      languages := [.html]
      check := reading Rules.altAttribute },
    { id := "double-quotes"
      message := "Quote the value of '{name}' with double quotes"
      description := "Attribute values use double quotation marks"
      targets := [.htmlElement]
      languages := [.html]
      check := reading Rules.doubleQuotes },
    { id := "optional-tags"
      message := "Optional tag {tag} can be omitted"
      description := "Leave out start and end tags the parser implies"
      targets := [.htmlElement]
      languages := [.html]
      recommended := false
      check := reading Rules.optionalTags },
    { id := "type-attribute"
      message := "Remove the redundant type attribute from <{name}>"
      description := "Stylesheets and scripts imply their type"
      targets := [.htmlElement]
      languages := [.html]
      check := reading Rules.typeAttribute },
    { id := "entity-references"
      message := "Write '{entity}' as the character itself"
      description :=
        "Only escape characters with special meaning in HTML and invisible characters"
      targets := [.htmlElement, .htmlText]
      languages := [.html]
      check := reading Rules.entityReferences },
    { id := "meta-charset"
      message := "Declare the encoding with <meta charset=\"utf-8\">"
      description := "Documents declare UTF-8 as their encoding"
      targets := [.htmlElement]
      languages := [.html]
      check := reading Rules.metaCharset } ]

/-- Rules on stylesheets. -/
def cssRules : List Rule :=
  [ { id := "single-quotes"
      message := "Use single quotes for {quoted}"
      description := "Strings in values and attribute selectors use single quotation marks"
      targets := [.cssStyleRule, .cssAtRule, .cssDeclaration]
      languages := [.css]
      check := reading Rules.singleQuotes },
    { id := "url-unquoted"
      message := "Do not quote the url() argument {quoted}"
      description := "url() arguments are written without quotes"
      targets := [.cssAtRule, .cssDeclaration]
      languages := [.css]
      check := reading Rules.urlUnquoted },
    { id := "charset-double-quotes"
      message := "@charset takes a double-quoted encoding name"
      description := "The only valid form of @charset uses double quotes"
      targets := [.cssAtRule]
      languages := [.css]
      check := reading Rules.charsetDoubleQuotes },
    { id := "id-class-hyphen"
      message := "Separate words in '{name}' with hyphens"
      description := "Id and class names use hyphens as word delimiters"
      targets := [.cssStyleRule]
      languages := [.css]
      check := reading Rules.idClassHyphen },
    { id := "three-digit-hex"
      message := "'{color}' can be written as '{short}'"
      description := "Use 3-character hexadecimal notation where possible"
      targets := [.cssDeclaration]
      languages := [.css]
      check := reading Rules.threeDigitHex },
    { id := "leading-zero"
      message := "Drop the leading zero of '{number}'"
      description := "Values between -1 and 1 are written without a leading 0"
      targets := [.cssAtRule, .cssDeclaration]
      languages := [.css]
      check := reading Rules.leadingZero },
    { id := "zero-unit"
      message := "Omit the unit of '{value}'"
      description := "A zero length needs no unit"
      targets := [.cssDeclaration]
      languages := [.css]
      check := reading Rules.zeroUnit },
    { id := "declaration-semicolon"
      message := "End the declaration of '{property}' with a semicolon"
      description := "Every declaration ends with a semicolon, including the last one"
      targets := [.cssBlock]
      languages := [.css]
      check := reading Rules.declarationSemicolon },
    { id := "property-colon-space"
      message := "Write '{property}:' followed by a single space"
      description := "No space before a property's colon and one space after it"
      targets := [.cssDeclaration]
      languages := [.css]
      check := .total Rules.propertyColonSpace },
    { id := "brace-spacing"
      message := "Put a single space between the selector and '\x7b'"
      description := "Opening braces follow the selector on the same line after one space"
      targets := [.cssStyleRule, .cssAtRule]
      languages := [.css]
      check := .total Rules.braceSpacing },
    { id := "alphabetical-declarations"
      message := "'{property}' should come before '{previous}'"
      description := "Declarations are sorted alphabetically, ignoring vendor prefixes"
      targets := [.cssBlock]
      languages := [.css]
      check := reading Rules.alphabeticalDeclarations },
    { id := "type-selector-qualifier"
      message := "Do not qualify '{qualifier}' with the type selector '{name}'"
      description := "Id and class selectors are not qualified with element names"
      targets := [.cssStyleRule]
      languages := [.css]
      check := .total Rules.typeSelectorQualifier },
    { id := "important"
      message := "Avoid !important on '{property}'"
      description := "Specificity should come from selectors, not !important"
      targets := [.cssDeclaration]
      languages := [.css]
      check := reading Rules.important },
    { id := "id-selector"
      message := "Avoid the id selector '{name}'"
      description := "Prefer class selectors over id selectors"
      targets := [.cssStyleRule]
      languages := [.css]
      recommended := false
      check := reading Rules.idSelector },
    { id := "declaration-newline"
      message := "Put the declaration of '{property}' on its own line"
      description := "Each declaration of a multi-line block starts a new line"
      targets := [.cssBlock]
      languages := [.css]
      check := reading Rules.declarationNewline },
    { id := "selector-newline"
      message := "Start selector '{selector}' on a new line"
      description := "Each selector of a group starts a new line"
      targets := [.cssStyleRule]
      languages := [.css]
      check := .total Rules.selectorNewline },
    { id := "rule-blank-line"
      message := "Separate rules with a blank line"
      description := "Sibling rules are separated by one blank line"
      targets := [.cssRuleList]
      languages := [.css]
      check := reading Rules.ruleBlankLine } ]

/-- All rules of the style guide, in order. -/
def rules : List Rule := sharedRules ++ htmlRules ++ cssRules

/-- The style guide as a catalog. -/
def catalog : Catalog where
  rules := rules
  distinct := by decide
  unreserved := by decide

end PageLint.StyleGuide
