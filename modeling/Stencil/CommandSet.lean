import Stencil.World

/-!
The stock command sets. Both have a title, a section, bold and italic text, in
this order; they differ in what they write around the content alone.
-/

namespace Stencil

structure CommandSet where
  titleBefore : String
  titleAfter : String
  sectionBefore : String
  sectionAfter : String
  headingBefore : String
  headingAfter : String
  boldBefore : String
  boldAfter : String
  italicBefore : String
  italicAfter : String
  deriving DecidableEq, Repr

namespace CommandSet

def html : CommandSet where
  titleBefore := "<h1>"
  titleAfter := "</h1>\n"
  sectionBefore := "<p>"
  sectionAfter := "</p>\n"
  headingBefore := "<b>"
  headingAfter := "</b><br/>\n"
  boldBefore := "<b>"
  boldAfter := "</b>"
  italicBefore := "<i>"
  italicAfter := "</i>"

def markdown : CommandSet where
  titleBefore := "# "
  titleAfter := "\n"
  sectionBefore := "\n"
  sectionAfter := "\n\n"
  headingBefore := "**"
  headingAfter := "**\n\n"
  boldBefore := "**"
  boldAfter := "**"
  italicBefore := "*"
  italicAfter := "*"

def around (before after : String) : Handler :=
  .script [.text before, .content, .text after]

def sectionHandler (set : CommandSet) : Handler :=
  .script [
    .text set.sectionBefore,
    .propertyWithin "title" set.headingBefore set.headingAfter,
    .content,
    .text set.sectionAfter]

def handlers (set : CommandSet) : List (String × Handler) :=
  [("title", around set.titleBefore set.titleAfter),
    ("section", set.sectionHandler),
    ("b", around set.boldBefore set.boldAfter),
    ("i", around set.italicBefore set.italicAfter)]

def addTo (set : CommandSet) (settings : Settings) (world : World) : World :=
  set.handlers.foldl
    (fun world entry => (world.register settings entry.1 entry.2).2) world

end CommandSet

end Stencil
