import Beryl.Draft.Read.MarkerEdge
import Beryl.Draft.Read.MarkerPaging
import Beryl.Draft.Read.TextPaging
import Beryl.Draft.Build.Edits
import Beryl.Draft.Admission.Finite
import Beryl.Projection.StepLimit
import Beryl.Projection.Preview
import Beryl.Home.Resolution
import Beryl.Supervisor.Roundtrip
import Beryl.Jobs.Exclusive
import Beryl.Catalog.Owner
import Beryl.Outage.Capture
import Beryl.Stream.Channel
import Beryl.Provider.Lifecycle
import Beryl.Turns.SelectedPath
