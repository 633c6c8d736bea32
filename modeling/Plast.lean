import Plast.Storage.Index
import Plast.Storage.Ranges
import Plast.Storage.Oversized
import Plast.Storage.BadFiles
import Plast.Storage.Lengths
import Plast.Pretokenizer.ExactlyOnce
import Plast.Pretokenizer.Failure
import Plast.Pretokenizer.Documents
import Plast.Pretokenizer.HandOver
import Plast.Legacy.Streams
import Plast.Legacy.Batch
import Plast.Storage.Resident
import Plast.Dataloader.Training
import Plast.Dataloader.Exhaustion
import Plast.Pretokenizer.Refinement
import Plast.Pretokenizer.Crash
import Plast.Dataloader.EndToEnd
import Plast.Pretokenizer.Panic
import Plast.Legacy.AnySize
import Plast.Legacy.RoundTrip
import Plast.Pretokenizer.Reproducible
import Plast.Pretokenizer.Pool
import Plast.Library.Grid
import Plast.Dataloader.Sweep
import Plast.Dataloader.Coverage
import Plast.Legacy.Migration
import Plast.Dataloader.Salvage
import Plast.Dataloader.FailingFiles
