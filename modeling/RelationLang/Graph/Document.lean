import RelationLang.Exchange.Write
import RelationLang.Graph.Query
import RelationLang.Json.Pretty

/-!
# Graphs as JSON documents

A document shows the size of a graph, the known states of its pairs, and its facts.
-/

namespace RelationLang
namespace Graph

def Size.toJson (size : Size) : Json :=
  .object [("concepts", .nat size.concepts), ("pairs", .nat size.pairs),
    ("facts", .nat size.facts), ("average_facts_per_concept", .number size.average.shortest)]

/-- Truth values by subject and object, in the order of the table. -/
def StateTable.toJson (table : StateTable) : Json :=
  .object (table.entries.map fun row =>
    (row.1, .object (row.2.entries.map fun cell => (cell.1, .bool cell.2))))

def toJson (g : Graph) : Json :=
  .object [("stats", g.size.toJson), ("state", StateTable.toJson g.stateTable),
    ("facts", .array (g.facts.map Fact.toJson))]

end Graph
end RelationLang
