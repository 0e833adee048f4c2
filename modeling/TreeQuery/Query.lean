import TreeQuery.Selector.Match
import TreeQuery.Selector.Parser

/-!
# Query — a selector text matched against a document

`query` puts the two halves of the library together: it reads the text as a selector and lists
the places that the selector matches.
-/

namespace TreeQuery

/-- **The places of a document that a selector text matches**, or why the text is no selector. -/
def query (document : Json) (selector : String) : Except ParseError (List Place) :=
  (parse selector).map (matchDocument document)

/-- The same for several texts in turn, except that a blank text has no answer at all. -/
def queryEach (document : Json) (selectors : List String) :
    List (Except ParseError (Option (List Place))) :=
  selectors.map fun text =>
    (parse text).map fun selector => selector.map (Selector.find (Place.root document))

end TreeQuery
