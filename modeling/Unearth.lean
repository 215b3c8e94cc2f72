import Unearth.Lib.Bytes
import Unearth.Lib.Decimal
import Unearth.Lib.Loop
import Unearth.Lib.Spans
import Unearth.Lib.Word
import Unearth.ImageCopy
import Unearth.ImageMap
import Unearth.ImageFaithful
import Unearth.ImageResume
import Unearth.ImageTorn
import Unearth.SignatureTable
import Unearth.Source
import Unearth.Lib.Search
import Unearth.SignatureIndex
import Unearth.Scan
import Unearth.LengthFields
import Unearth.LengthRar
import Unearth.FileLength
import Unearth.Checkpoint
import Unearth.OutputFolder
import Unearth.Carve
import Unearth.CarveSteps
import Unearth.CarveRun
import Unearth.CarveTally
import Unearth.CarveRows
import Unearth.ScanRegions
import Unearth.CarveTotals
import Unearth.CarveDisjoint
import Unearth.CarveLimit
import Unearth.ScanPair
import Unearth.CarveDryRun
import Unearth.CarveResume
import Unearth.FindFooter
import Unearth.FooterSearch
import Unearth.CarveRange
import Unearth.Job
import Unearth.Custom
import Unearth.CustomScan
import Unearth.FatVolume
import Unearth.ExfatVolume
import Unearth.Lib.Signed
import Unearth.Lib.Utf16
import Unearth.NtfsFixup
import Unearth.NtfsRecord
import Unearth.NtfsVolume
import Unearth.FreeWalk
import Unearth.Reassembly
import Unearth.GptBackup
import Unearth.Lib.TreeWalk
import Unearth.Lib.Utf8
import Unearth.Times
import Unearth.Content
import Unearth.FatDirectory
import Unearth.FatWalk
import Unearth.ExfatDirectory
import Unearth.ExfatWalk
import Unearth.WalkBounds
import Unearth.LiveFiles
import Unearth.Lib.Post
import Unearth.Slices
import Unearth.Lib.SortedMap
import Unearth.ExtVolume
import Unearth.ExtBlocks
import Unearth.ExtJournal
import Unearth.Lib.RingLog
import Unearth.ExtJournalFormat
import Unearth.ExtJournalRing
import Unearth.Salvage
import Unearth.ExtWalk
import Unearth.ExtSafety
import Unearth.ExtFree
import Unearth.HfsVolume
import Unearth.HfsCatalog
import Unearth.HfsRecover
import Unearth.HfsSafety
import Unearth.HfsJournal
import Unearth.HfsLive
import Unearth.LostVolumes
import Unearth.Report
import Unearth.Manifest
import Unearth.ReportReadBack
import Unearth.JpegScan
import Unearth.FreeWalkRun
import Unearth.CheckedCopy
import Unearth.Lib.Utf16Cut
import Unearth.FatLongNames
import Unearth.FatResolve
import Unearth.Glob
import Unearth.LengthJpeg
import Unearth.LengthZip
import Unearth.Lib.Double
import Unearth.JsonParse
import Unearth.Lib.JsonGrammar
import Unearth.JsonAccept
import Unearth.JsonWrite
import Unearth.FreeExtents
import Unearth.ExfatSets
import Unearth.NtfsRunLists
import Unearth.NtfsReads
import Unearth.NtfsFileData
import Unearth.EbrChain
import Unearth.OutputTree
import Unearth.LengthTar
import Unearth.ExtPointers
import Unearth.ExtTrees
import Unearth.Lib.EntryWalk
import Unearth.ExtVisits
import Unearth.ExtDirents
import Unearth.ExtChoice
import Unearth.HfsForks
import Unearth.HfsFileData
import Unearth.Lib.Calendar
import Unearth.Lib.Numerals
import Unearth.CivilDays
import Unearth.DateText
import Unearth.LengthCpio
import Unearth.BitmapExtents
import Unearth.Lib.Until
import Unearth.Stored
import Unearth.LengthGif
import Unearth.LengthQoi
import Unearth.PdfSections
import Unearth.LengthMp4
import Unearth.LengthExr
import Unearth.Lib.Cursor
import Unearth.LengthGguf
import Unearth.Lib.Varint
import Unearth.LengthAvro
import Unearth.LengthCfbf
import Unearth.Lib.Orbit
import Unearth.DifatChain
import Unearth.Lib.Halving
import Unearth.ProbeSize
import Unearth.Btrfs
import Unearth.BtrfsSubvolumes
import Unearth.Lib.Blocks
import Unearth.Lib.Fips180
import Unearth.Sha256
import Unearth.Lib.Tally
import Unearth.FileTree
import Unearth.Triage
import Unearth.TriageWalk
import Unearth.TriageTotals
import Unearth.TiffFormat
import Unearth.TiffFields
import Unearth.TiffDirectories
import Unearth.TiffFiles
import Unearth.Lib.Utf8Cuts
import Unearth.RockRidge
import Unearth.RockRidgeNames
import Unearth.JsonNumbers
import Unearth.McpTools
import Unearth.McpServer
import Unearth.McpAnswers
import Unearth.Lib.Base64
