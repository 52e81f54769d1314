import DocQuery.Fingerprint.Json
import DocQuery.Fingerprint.Md5

/-!
# DocQuery.Fingerprint.Basic — fingerprints of queries

A fingerprint is the digest of one canonical text, in which a filter, an update and a pipeline
stand under their names.  An update or a pipeline that is empty or missing is left out.
-/

namespace DocQuery.Fingerprint

/-- The document that is fingerprinted. -/
def normalDocument (filter update pipeline : Value) : Document :=
  (.str "filter", filter.normal)
    :: ((if update.isGiven then [(.str "update", update.normal)] else [])
      ++ (if pipeline.isGiven then [(.str "pipeline", pipeline.normal)] else []))

/-- The canonical text of a query. -/
def canonicalText (filter update pipeline : Value) : String :=
  (Json.ofValue (.doc (normalDocument filter update pipeline))).sorted.text

/-- The fingerprint of a query. -/
def digest (filter update pipeline : Value) : String :=
  Md5.hex (canonicalText filter update pipeline)

/-- The fingerprint of a filter alone. -/
def ofFilter (filter : Value) : String := digest filter .null .null

/-- The fingerprint of an update alone. -/
def ofUpdate (update : Value) : String := digest (.doc []) update .null

/-- The fingerprint of a pipeline alone. -/
def ofPipeline (pipeline : Value) : String := digest (.doc []) .null pipeline

end DocQuery.Fingerprint
