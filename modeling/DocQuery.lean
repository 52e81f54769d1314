import DocQuery.Report.Comparison
import DocQuery.Report.Merging
import DocQuery.Report.Recompilation
import DocQuery.Report.Session
import DocQuery.Vocabulary
import DocQuery.Proofs.Filter.Expression
import DocQuery.Proofs.Filter.Reading
import DocQuery.Proofs.Fingerprint.Canonical
import DocQuery.Proofs.Fingerprint.NormalForm
import DocQuery.Proofs.Interchange
import DocQuery.Proofs.Pipeline.Listed
import DocQuery.Proofs.Pipeline.Messages
import DocQuery.Proofs.Pipeline.StageOperators
import DocQuery.Proofs.Update.Foreign
import DocQuery.Proofs.Update.Operators
import DocQuery.Proofs.Value.Tupled
import DocQuery.Proofs.Value.SetOrder
