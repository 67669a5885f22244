import Vcache.StoredInputs
import Vcache.BlobBounds
import Vcache.DepReplay
import Vcache.RustTrees
import Vcache.S3Trim
import Vcache.S3Get
import Vcache.WireCodec
import Vcache.GetOrder
import Vcache.DiskBudget
import Vcache.DiskTrims
import Vcache.ArgGroups
import Vcache.RustCommand
import Vcache.ScratchDir
import Vcache.SidecarScan
import Vcache.RecordedDigests
import Vcache.TraceLog
import Vcache.Leases
import Vcache.RustManifestHit
import Vcache.UploadJournal
import Vcache.StoreSurvival
import Vcache.Linemarkers
import Vcache.ManifestWalk
import Vcache.ManifestFormats
import Vcache.AbsentPaths
import Vcache.PlacedOutputs
import Vcache.OutputDirectory
import Vcache.LinkerOptions
import Vcache.ResponseFiles
import Vcache.PreloadRefusals
import Vcache.PathSpellings
